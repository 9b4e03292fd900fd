import TinyStm.Quiesce.Local

/-!
# The clock is reset only when everybody is stopped

`threads_count` counts the registered threads, less those inside the barrier. The
thread that finds it zero resets the clock and the lock array under the mutex, which
everybody needs to register, to arrive or to leave. An attempt that has read the clock
is outside the barrier until it ends, so all it has seen comes from after the last
reset.
-/

namespace TinyStm.Quiesce

/-- Inside the barrier: between the decrement and the increment of `threads_count`. -/
def Pc.inside : Pc → Bool
  | .bar _ st => st ≠ .lock && st ≠ .arrive
  | _ => false

/-- In the list of threads. -/
def Pc.known : Pc → Bool
  | .off | .enterLock | .enterBody => false
  | _ => true

/-- The clock has been read for this attempt, which has not ended. -/
def Pc.live : Pc → Bool
  | .prepStatus | .prepIrrevocable | .irr _ _ | .chk _ | .run | .com _ | .rb _ => true
  | _ => false

/-- Everybody has been found to be blocked. -/
def Pc.rolling : Pc → Bool
  | .bar _ st => st = .roll || st = .reset || st = .openUp
  | _ => false

def Pc.resetting : Pc → Bool
  | .bar _ st => st = .reset
  | _ => false

/-- A step that is of no concern to the barrier. -/
structure Quiet (g : Shared) (x : Thread) (g' : Shared) (x' : Thread) : Prop where
  threads : g'.threads = g.threads
  count : g'.threadsCount = g.threadsCount
  clockGen : g'.clockGen = g.clockGen
  lockGen : g'.lockGen = g.lockGen
  inside : x'.pc.inside = x.pc.inside
  known : x'.pc.known = x.pc.known
  rolling : x'.pc.rolling = true → g.threadsCount = 0
  resetting : x'.pc.resetting = x.pc.resetting
  live : x'.pc.live = true → ∀ n ∈ x'.stamps,
    x.pc.live = true ∧ n ∈ x.stamps ∨ x.pc.known = true ∧ x.pc.inside = false ∧ (n = g.clockGen ∨ n = g.lockGen)

/-- The others. -/
inductive BarStep (i : ℕ) (g : Shared) (x : Thread) : Shared → Thread → Prop
  | enter {x' : Thread} : x.pc = .enterBody → x'.pc = .idle →
      BarStep i g x
        { g with threads := i :: g.threads, threadsCount := g.threadsCount + 1, mutex := none } x'
  | exit {x' : Thread} : x.pc = .exitBody → x'.pc = .off →
      BarStep i g x
        { g with threads := g.threads.erase i, threadsCount := g.threadsCount - 1, mutex := none } x'
  | arrive {k : Back} {q : ℕ} {x' : Thread} : x.pc = .bar k .arrive → x'.pc = .bar k .test →
      BarStep i g x { g with threadsCount := g.threadsCount - 1, quiesce := q } x'
  | leave {k : Back} {x' : Thread} : x.pc = .bar k .leave → x'.pc = k.pc →
      BarStep i g x { g with threadsCount := g.threadsCount + 1, mutex := none } x'
  | roll {k : Back} {x' : Thread} : x.pc = .bar k .roll → x'.pc = .bar k .reset →
      BarStep i g x { g with clock := 0, clockGen := g.clockGen + 1, late := [] } x'
  | reset {k : Back} {x' : Thread} : x.pc = .bar k .reset → x'.pc = .bar k .openUp →
      BarStep i g x { g with lockGen := g.lockGen + 1 } x'

section Cases

variable {modular wt c : Bool} {vmax i : ℕ} {a : Act} {g g' : Shared} {x x' : Thread}

/-- A step inside a live attempt. -/
theorem Quiet.ofLive (hx : x.pc.live = true) (hx' : x'.pc.live = true) (ht : g'.threads = g.threads)
    (hc : g'.threadsCount = g.threadsCount) (h1 : g'.clockGen = g.clockGen)
    (h2 : g'.lockGen = g.lockGen)
    (hs : ∀ n ∈ x'.stamps, n ∈ x.stamps ∨ n = g.clockGen ∨ n = g.lockGen) : Quiet g x g' x' := by
  have hout : ∀ {pc : Pc}, pc.live = true →
      pc.inside = false ∧ pc.known = true ∧ pc.rolling = false ∧ pc.resetting = false := by
    intro pc h
    cases pc <;> simp_all [Pc.live, Pc.inside, Pc.known, Pc.rolling, Pc.resetting]
  refine ⟨ht, hc, h1, h2, ?_, ?_, ?_, ?_, ?_⟩
  · rw [(hout hx).1, (hout hx').1]
  · rw [(hout hx).2.1, (hout hx').2.1]
  · simp [(hout hx').2.2.1]
  · rw [(hout hx).2.2.2, (hout hx').2.2.2]
  · intro _ n hn
    rcases hs n hn with h | h
    · exact .inl ⟨hx, h⟩
    · exact .inr ⟨(hout hx).2.1, (hout hx).1, h⟩

/-- A step to a position without a live attempt. -/
theorem Quiet.ofDead (hx' : x'.pc.live = false) (ht : g'.threads = g.threads)
    (hc : g'.threadsCount = g.threadsCount) (h1 : g'.clockGen = g.clockGen)
    (h2 : g'.lockGen = g.lockGen) (hi : x'.pc.inside = x.pc.inside)
    (hk : x'.pc.known = x.pc.known) (hr : x'.pc.rolling = true → g.threadsCount = 0)
    (hq : x'.pc.resetting = x.pc.resetting) : Quiet g x g' x' :=
  ⟨ht, hc, h1, h2, hi, hk, hr, hq, fun h => by simp [hx'] at h⟩

theorem barStep_cases {k : Back} {st : Bar} (hpc : x.pc = .bar k st)
    (hs : barStep i k g x st = some (g', x')) : Quiet g x g' x' ∨ BarStep i g x g' x' := by
  cases st with
  | lock | sleep =>
    simp only [barStep, Option.ite_none_right_eq_some, Option.some.injEq, Prod.mk.injEq] at hs
    obtain ⟨-, rfl, rfl⟩ := hs
    exact .inl (.ofDead rfl rfl rfl rfl rfl (by rw [hpc]; rfl) (by rw [hpc]; rfl)
      (by simp [Pc.rolling]) (by rw [hpc]; rfl))
  | arrive =>
    obtain ⟨rfl, rfl⟩ := hs
    exact .inr (.arrive hpc rfl)
  | test =>
    simp only [barStep] at hs
    split_ifs at hs with h1 h2 <;> obtain ⟨rfl, rfl⟩ := hs
    · exact .inl (.ofDead rfl rfl rfl rfl rfl (by rw [hpc]; rfl) (by rw [hpc]; rfl)
        (by simp [Pc.rolling]) (by rw [hpc]; rfl))
    · exact .inl (.ofDead rfl rfl rfl rfl rfl (by rw [hpc]; rfl) (by rw [hpc]; rfl)
        (fun _ => h2) (by rw [hpc]; rfl))
    · exact .inl (.ofDead rfl rfl rfl rfl rfl (by rw [hpc]; rfl) (by rw [hpc]; rfl)
        (by simp [Pc.rolling]) (by rw [hpc]; rfl))
  | roll =>
    obtain ⟨rfl, rfl⟩ := hs
    exact .inr (.roll hpc rfl)
  | reset =>
    obtain ⟨rfl, rfl⟩ := hs
    exact .inr (.reset hpc rfl)
  | openUp =>
    obtain ⟨rfl, rfl⟩ := hs
    exact .inl (.ofDead rfl rfl rfl rfl rfl (by rw [hpc]; rfl) (by rw [hpc]; rfl)
      (by simp [Pc.rolling]) (by rw [hpc]; rfl))
  | leave =>
    obtain ⟨rfl, rfl⟩ := hs
    exact .inr (.leave hpc rfl)

theorem irrStep_quiet {r : Ret} {st : Irr} (hpc : x.pc = .irr r st)
    (hs : irrStep modular i c r g x st = some (g', x')) : Quiet g x g' x' := by
  have hx : x.pc.live = true := by rw [hpc]; rfl
  have hret : Pc.live r.pc = true := by cases r <;> rfl
  cases st with
  | enter s | test | cas | validate | status | writes | spin | quiesce | watch t n rest =>
    simp only [irrStep] at hs
    split_ifs at hs <;> obtain ⟨rfl, rfl⟩ := hs <;>
      exact .ofLive hx (by first | rfl | exact hret | exact hx) rfl rfl rfl rfl fun n h => .inl h
  | store | done =>
    obtain ⟨rfl, rfl⟩ := hs
    exact .ofLive hx (by first | rfl | exact hret) rfl rfl rfl rfl fun n h => .inl h
  | scan rest =>
    cases rest with
    | nil =>
      obtain ⟨rfl, rfl⟩ := hs
      exact .ofLive hx rfl rfl rfl rfl rfl fun n h => .inl h
    | cons t rest =>
      simp only [irrStep] at hs
      split_ifs at hs <;> obtain ⟨rfl, rfl⟩ := hs <;>
        exact .ofLive hx (by first | rfl | exact hx) rfl rfl rfl rfl fun n h => .inl h

theorem chkStep_quiet {st : Chk} (hpc : x.pc = .chk st) (hs : chkStep i g x st = some (g', x')) :
    Quiet g x g' x' := by
  have hx : x.pc.live = true := by rw [hpc]; rfl
  cases st with
  | load | wait s =>
    simp only [chkStep] at hs
    split_ifs at hs <;> obtain ⟨rfl, rfl⟩ := hs <;>
      exact .ofLive hx (by first | rfl | exact hx) rfl rfl rfl rfl fun n h => .inl h
  | save | setIdle s | restore s =>
    obtain ⟨rfl, rfl⟩ := hs
    exact .ofLive hx rfl rfl rfl rfl rfl fun n h => .inl h

theorem comStep_quiet {st : Com} (hpc : x.pc = .com st)
    (hs : comStep modular i g x st = some (g', x')) : Quiet g x g' x' := by
  have hx : x.pc.live = true := by rw [hpc]; rfl
  cases st with
  | status =>
    simp only [comStep] at hs
    split_ifs at hs <;> obtain ⟨rfl, rfl⟩ := hs <;>
      exact .ofLive hx rfl rfl rfl rfl rfl fun n h => .inl h
  | body | post | flag =>
    obtain ⟨rfl, rfl⟩ := hs
    refine .ofLive hx ?_ rfl rfl rfl rfl fun n h => .inl h
    dsimp only
    split_ifs <;> rfl
  | release | unlock =>
    obtain ⟨rfl, rfl⟩ := hs
    exact .ofLive hx rfl rfl rfl rfl rfl fun n h => .inl h
  | done =>
    obtain ⟨rfl, rfl⟩ := hs
    exact .ofDead rfl rfl rfl rfl rfl (by rw [hpc]; rfl) (by rw [hpc]; rfl) (by simp [Pc.rolling]) (by rw [hpc]; rfl)

theorem rbStep_quiet {st : Rb} (hpc : x.pc = .rb st)
    (hs : rbStep modular i g x st = some (g', x')) : Quiet g x g' x' := by
  have hx : x.pc.live = true := by rw [hpc]; rfl
  cases st with
  | status =>
    simp only [rbStep] at hs
    split_ifs at hs <;> obtain ⟨rfl, rfl⟩ := hs <;>
      exact .ofLive hx rfl rfl rfl rfl rfl fun n h => .inl h
  | body | post =>
    obtain ⟨rfl, rfl⟩ := hs
    exact .ofLive hx rfl rfl rfl rfl rfl fun n h => .inl h
  | done =>
    obtain ⟨rfl, rfl⟩ := hs
    exact .ofDead rfl rfl rfl rfl rfl (by rw [hpc]; rfl) (by rw [hpc]; rfl) (by simp [Pc.rolling]) (by rw [hpc]; rfl)

theorem goStep_bar (hs : goStep modular vmax i c g x x.pc = some (g', x')) :
    Quiet g x g' x' ∨ BarStep i g x g' x' := by
  cases hpc : x.pc with
  | off | idle | run =>
    rw [hpc] at hs
    exact absurd hs nofun
  | enterLock | exitLock =>
    rw [hpc] at hs
    simp only [goStep, Option.ite_none_right_eq_some, Option.some.injEq, Prod.mk.injEq] at hs
    obtain ⟨-, rfl, rfl⟩ := hs
    exact .inl (.ofDead rfl rfl rfl rfl rfl (by rw [hpc]; rfl) (by rw [hpc]; rfl)
      (by simp [Pc.rolling]) (by rw [hpc]; rfl))
  | enterBody =>
    rw [hpc] at hs
    obtain ⟨rfl, rfl⟩ := hs
    exact .inr (.enter hpc rfl)
  | exitBody =>
    rw [hpc] at hs
    obtain ⟨rfl, rfl⟩ := hs
    exact .inr (.exit hpc rfl)
  | prep =>
    rw [hpc] at hs
    simp only [goStep] at hs
    split_ifs at hs <;> obtain ⟨rfl, rfl⟩ := hs
    · exact .inl (.ofDead rfl rfl rfl rfl rfl (by rw [hpc]; rfl) (by rw [hpc]; rfl)
        (by simp [Pc.rolling]) (by rw [hpc]; rfl))
    · -- the clock is read here, outside the barrier
      refine .inl ⟨rfl, rfl, rfl, rfl, by rw [hpc]; rfl, by rw [hpc]; rfl, by simp [Pc.rolling],
        by rw [hpc]; rfl, ?_⟩
      intro _ n hn
      rw [hpc]
      exact .inr ⟨rfl, rfl, .inl (List.mem_singleton.mp hn)⟩
  | prepStatus =>
    have hx : x.pc.live = true := by rw [hpc]; rfl
    rw [hpc] at hs
    simp only [goStep] at hs
    split_ifs at hs <;> obtain ⟨rfl, rfl⟩ := hs <;>
      exact .inl (.ofLive hx rfl rfl rfl rfl rfl fun n h => .inl h)
  | prepIrrevocable =>
    have hx : x.pc.live = true := by rw [hpc]; rfl
    rw [hpc] at hs
    obtain ⟨rfl, rfl⟩ := hs
    exact .inl (.ofLive hx rfl rfl rfl rfl rfl fun n h => .inl h)
  | bar k st => exact barStep_cases hpc (by rwa [hpc] at hs)
  | irr r st => exact .inl (irrStep_quiet hpc (by rwa [hpc] at hs))
  | chk st => exact .inl (chkStep_quiet hpc (by rwa [hpc] at hs))
  | com st => exact .inl (comStep_quiet hpc (by rwa [hpc] at hs))
  | rb st => exact .inl (rbStep_quiet hpc (by rwa [hpc] at hs))

theorem stmStart_quiet (nr : Bool) (hpc : x.pc = .idle ∨ x.pc = .run) : Quiet g x g (stmStart nr x) := by
  unfold stmStart
  rcases hpc with hpc | hpc <;> split_ifs
  · exact .ofDead (by rw [hpc]; rfl) rfl rfl rfl rfl rfl rfl (by simp [hpc, Pc.rolling]) rfl
  · exact .ofDead rfl rfl rfl rfl rfl (by rw [hpc]; rfl) (by rw [hpc]; rfl) (by simp [Pc.rolling]) (by rw [hpc]; rfl)
  · exact .ofLive (by rw [hpc]; rfl) (by rw [hpc]; rfl) rfl rfl rfl rfl fun n h => .inl h
  · exact .ofDead rfl rfl rfl rfl rfl (by rw [hpc]; rfl) (by rw [hpc]; rfl) (by simp [Pc.rolling]) (by rw [hpc]; rfl)

theorem outStep_quiet (hpc : x.pc = .idle) (hs : outStep vmax i g x a = some (g', x')) :
    Quiet g x g' x' := by
  cases a with
  | exit =>
    simp only [outStep] at hs
    split_ifs at hs
    obtain ⟨rfl, rfl⟩ := hs
    exact .ofDead rfl rfl rfl rfl rfl (by rw [hpc]; rfl) (by rw [hpc]; rfl) (by simp [Pc.rolling]) (by rw [hpc]; rfl)
  | start nr =>
    obtain ⟨rfl, rfl⟩ := hs
    exact stmStart_quiet nr (.inl hpc)
  | unitStore =>
    obtain ⟨rfl, rfl⟩ := hs
    refine .ofDead ?_ rfl rfl rfl rfl ?_ ?_ ?_ ?_ <;> split_ifs <;>
      simp [hpc, Pc.live, Pc.inside, Pc.known, Pc.rolling, Pc.resetting]
  | _ => exact absurd hs.symm (Option.some_ne_none _)

theorem Quiet.stamped (hx : x.pc.live = true) (ht : g'.threads = g.threads)
    (hc : g'.threadsCount = g.threadsCount) (h1 : g'.clockGen = g.clockGen)
    (h2 : g'.lockGen = g.lockGen) : Quiet g x g' (x.stamp g) := by
  refine .ofLive hx hx ht hc h1 h2 fun n hn => ?_
  simpa [Thread.stamp] using hn

theorem runStep_quiet (hpc : x.pc = .run) (hs : runStep modular i g x a = some (g', x')) :
    Quiet g x g' x' := by
  have hx : x.pc.live = true := by rw [hpc]; rfl
  cases a with
  | start nr =>
    obtain ⟨rfl, rfl⟩ := hs
    exact stmStart_quiet nr (.inr hpc)
  | access =>
    obtain ⟨rfl, rfl⟩ := hs
    exact .stamped hx rfl rfl rfl rfl
  | abort | setIrrevocable s =>
    obtain ⟨rfl, rfl⟩ := hs
    exact .ofLive hx rfl rfl rfl rfl rfl fun n h => .inl h
  | commit =>
    obtain ⟨rfl, rfl⟩ := hs
    refine .ofLive hx ?_ rfl rfl rfl rfl fun n h => .inl h
    dsimp only
    split_ifs <;> rfl
  | kill j =>
    simp only [runStep] at hs
    split_ifs at hs
    obtain ⟨rfl, rfl⟩ := hs
    exact .ofLive hx hx rfl rfl rfl rfl fun n h => .inl h
  | _ => exact absurd hs.symm (Option.some_ne_none _)

theorem stepThread_bar (hs : stepThread modular wt vmax i a g x = some (g', x')) :
    Quiet g x g' x' ∨ BarStep i g x g' x' := by
  unfold stepThread at hs
  split at hs
  · exact goStep_bar hs
  · rename_i hpc
    obtain ⟨rfl, rfl⟩ := hs
    exact .inl (.ofDead rfl rfl rfl rfl rfl (by rw [hpc]; rfl) (by rw [hpc]; rfl)
      (by simp [Pc.rolling]) (by rw [hpc]; rfl))
  · rename_i hpc
    exact .inl (outStep_quiet hpc hs)
  · rename_i hpc
    exact .inl (runStep_quiet hpc hs)
  all_goals first
    | cases hs; done
    | rename_i hpc
      try split_ifs at hs
      obtain ⟨rfl, rfl⟩ := hs
      first
        | exact .inl (.stamped (by rw [hpc]; rfl) rfl rfl rfl rfl)
        | exact .inl (.ofLive (by rw [hpc]; rfl) rfl rfl rfl rfl rfl fun n h => by simpa [Thread.stamp] using h)
        | exact .inl (.ofLive (by rw [hpc]; rfl) rfl rfl rfl rfl rfl fun n h => .inl h)

end Cases

/-! ### The invariant -/

structure Roll (s : State) : Prop where
  nodup : s.shared.threads.Nodup
  known : ∀ i, i ∈ s.shared.threads ↔ (s.loc i).pc.known = true
  count : s.shared.threadsCount = s.shared.threads.countP fun t => !(s.loc t).pc.inside
  rolling : ∀ i, (s.loc i).pc.rolling = true → s.shared.threadsCount = 0
  same : (∀ i, (s.loc i).pc.resetting = false) → s.shared.clockGen = s.shared.lockGen
  ahead : ∀ i, (s.loc i).pc.resetting = true → s.shared.clockGen = s.shared.lockGen + 1
  stamps : ∀ i, (s.loc i).pc.live = true → ∀ n ∈ (s.loc i).stamps,
    n = s.shared.clockGen ∧ n = s.shared.lockGen

theorem roll_initial : Roll initial where
  nodup := List.nodup_nil
  known i := by simp [initial, Pc.known]
  count := rfl
  rolling i h := rfl
  same _ := rfl
  ahead i h := by simp [initial, Pc.resetting] at h
  stamps i h := by simp [initial, Pc.live] at h

/-- The number of threads for which `p` holds, after it has changed for one of them. -/
theorem countP_update {l : List ℕ} (hl : l.Nodup) {i : ℕ} (hi : i ∈ l) (p p' : ℕ → Bool)
    (h : ∀ t, t ≠ i → p' t = p t) :
    l.countP p' + (if p i then 1 else 0) = l.countP p + (if p' i then 1 else 0) := by
  have hperm := List.perm_cons_erase hi
  have herase : (l.erase i).countP p' = (l.erase i).countP p := by
    apply List.countP_congr
    intro t ht
    have hti : t ≠ i := fun he => hl.not_mem_erase (he ▸ ht)
    rw [h t hti]
  rw [hperm.countP_eq, hperm.countP_eq, List.countP_cons, List.countP_cons, herase]
  omega

section Roll

variable {modular : Bool} {vmax : ℕ} {s : State} {i : ℕ} {a : Act} {g' : Shared} {x' : Thread}

theorem resetting_rolling {pc : Pc} (h : pc.resetting = true) : pc.rolling = true := by
  cases pc <;> simp_all [Pc.resetting, Pc.rolling]

/-- While the clock is being reset every registered thread is inside the barrier. -/
theorem Roll.all_inside (h : Roll s) {p : ℕ} (hp : (s.loc p).pc.rolling = true) {t : ℕ}
    (ht : t ∈ s.shared.threads) : (s.loc t).pc.inside = true := by
  have h0 : s.shared.threads.countP (fun t => !(s.loc t).pc.inside) = 0 := by
    have := h.count
    rw [h.rolling p hp] at this
    exact_mod_cast this.symm
  have := List.countP_eq_zero.mp h0 t ht
  simpa using this

/-- So nobody resets the clock while some registered thread is outside. -/
theorem Roll.same_of_outside (h : Roll s) (hk : (s.loc i).pc.known = true)
    (hi : (s.loc i).pc.inside = false) : s.shared.clockGen = s.shared.lockGen := by
  apply h.same
  intro p
  by_contra hne
  have := h.all_inside (p := p) (resetting_rolling (by simpa using hne)) ((h.known i).mpr hk)
  simp [hi] at this

theorem Roll.quiet (h : Roll s) (hq : Quiet s.shared (s.loc i) g' x') :
    Roll ⟨g', Function.update s.loc i x'⟩ := by
  have hsame : ∀ f : Pc → Bool, f x'.pc = f (s.loc i).pc →
      ∀ t, f (Function.update s.loc i x' t).pc = f (s.loc t).pc := by
    intro f hf t
    by_cases ht : t = i
    · subst ht
      rwa [Function.update_self]
    · rw [Function.update_of_ne ht]
  constructor
  · exact hq.threads ▸ h.nodup
  · intro t
    rw [hsame _ hq.known t, ← h.known t, hq.threads]
  · simp only [hsame _ hq.inside, hq.threads, hq.count]
    exact h.count
  · intro t ht
    dsimp only at ht ⊢
    rw [hq.count]
    by_cases hti : t = i
    · subst hti
      rw [Function.update_self] at ht
      exact hq.rolling ht
    · rw [Function.update_of_ne hti] at ht
      exact h.rolling t ht
  · intro hall
    dsimp only at hall ⊢
    rw [hq.clockGen, hq.lockGen]
    exact h.same fun t => (hsame _ hq.resetting t).symm.trans (hall t)
  · intro t ht
    dsimp only at ht ⊢
    rw [hq.clockGen, hq.lockGen]
    exact h.ahead t ((hsame _ hq.resetting t).symm.trans ht)
  · intro t ht n hn
    dsimp only at ht hn ⊢
    rw [hq.clockGen, hq.lockGen]
    by_cases hti : t = i
    · subst hti
      rw [Function.update_self] at ht hn
      rcases hq.live ht n hn with ⟨hl, hm⟩ | ⟨hk, hi, hn⟩
      · exact h.stamps t hl n hm
      · have hsame := h.same_of_outside hk hi
        rcases hn with rfl | rfl
        · exact ⟨rfl, hsame⟩
        · exact ⟨hsame.symm, rfl⟩
    · rw [Function.update_of_ne hti] at ht hn
      exact h.stamps t ht n hn

/-- Only the holder of the mutex can be resetting the clock. -/
theorem Local.mutex_of_rolling {g : Shared} {x : Thread} (h : Local i g x)
    (hx : x.pc.rolling = true) : g.mutex = some i := by
  have hp := h.pc
  cases hpc : x.pc with
  | bar k st =>
    rw [hpc] at hp hx
    have h1 : st ≠ .lock ∧ st ≠ .sleep := by
      constructor <;> rintro rfl <;> simp [Pc.rolling] at hx
    exact (hp.2.2 h1.1 h1.2).1
  | _ => simp [hpc, Pc.rolling] at hx

theorem not_rolling_other (hl : ∀ i, Local i s.shared (s.loc i)) (hm : s.shared.mutex = some i)
    {t : ℕ} (ht : t ≠ i) : (s.loc t).pc.rolling = false := by
  by_contra hne
  have := (hl t).mutex_of_rolling (by simpa using hne)
  rw [hm, Option.some.injEq] at this
  exact ht this.symm

/-- A step of the holder of the mutex to a position outside every attempt that changes
the count of the threads and nothing else. -/
theorem Roll.recount (h : Roll s) (hl : ∀ i, Local i s.shared (s.loc i))
    (hm : s.shared.mutex = some i) (hx : (s.loc i).pc.resetting = false)
    (hlive : x'.pc.live = false) (hroll : x'.pc.rolling = false)
    (hcg : g'.clockGen = s.shared.clockGen) (hlg : g'.lockGen = s.shared.lockGen)
    (hnodup : g'.threads.Nodup)
    (hknown : ∀ t, t ∈ g'.threads ↔ (Function.update s.loc i x' t).pc.known = true)
    (hcount : g'.threadsCount = g'.threads.countP fun t => !(Function.update s.loc i x' t).pc.inside) :
    Roll ⟨g', Function.update s.loc i x'⟩ := by
  have hr : ∀ t, (Function.update s.loc i x' t).pc.rolling = false := by
    intro t
    by_cases ht : t = i
    · subst ht
      rwa [Function.update_self]
    · rw [Function.update_of_ne ht]
      exact not_rolling_other hl hm ht
  refine ⟨hnodup, hknown, hcount, fun t ht => absurd ht (by simp [hr t]), fun _ => ?_, fun t ht => ?_,
    fun t ht n hn => ?_⟩
  · rw [hcg, hlg]
    apply h.same
    intro t
    by_cases ht : t = i
    · subst ht
      exact hx
    · by_contra hne
      have := resetting_rolling (by simpa using hne)
      simp [not_rolling_other hl hm ht] at this
  · have := resetting_rolling ht
    simp [hr t] at this
  · dsimp only at ht hn ⊢
    rw [hcg, hlg]
    by_cases hti : t = i
    · subst hti
      simp [hlive] at ht
    · rw [Function.update_of_ne hti] at ht hn
      exact h.stamps t ht n hn

/-- While the clock is being reset no attempt is live. -/
theorem Roll.not_live (h : Roll s) {p : ℕ} (hp : (s.loc p).pc.rolling = true) (t : ℕ) :
    (s.loc t).pc.live = false := by
  by_contra hne
  have hlive : (s.loc t).pc.live = true := by simpa using hne
  have hout : (s.loc t).pc.known = true ∧ (s.loc t).pc.inside = false := by
    cases hpc : (s.loc t).pc <;> simp_all [Pc.live, Pc.known, Pc.inside]
  have := h.all_inside hp ((h.known t).mpr hout.1)
  simp [hout.2] at this

/-- A step of the reset itself. -/
theorem Roll.advance (h : Roll s) (hl : ∀ i, Local i s.shared (s.loc i)) {k : Back} {st st' : Bar}
    (hpc : (s.loc i).pc = .bar k st) (hpc' : x'.pc = .bar k st')
    (hst : Pc.rolling (.bar k st) = true) (hst' : Pc.inside (.bar k st') = true)
    (ht : g'.threads = s.shared.threads)
    (hc : g'.threadsCount = s.shared.threadsCount)
    (hsame : Pc.resetting (.bar k st') = false → g'.clockGen = g'.lockGen)
    (hahead : Pc.resetting (.bar k st') = true → g'.clockGen = g'.lockGen + 1) :
    Roll ⟨g', Function.update s.loc i x'⟩ := by
  have hroll : (s.loc i).pc.rolling = true := by rw [hpc]; exact hst
  have hm := (hl i).mutex_of_rolling hroll
  have hin : (s.loc i).pc.inside = true := by
    rw [hpc] at hroll ⊢
    cases st <;> simp_all [Pc.rolling, Pc.inside]
  have hother : ∀ t, t ≠ i → (Function.update s.loc i x' t) = s.loc t :=
    fun t ht => Function.update_of_ne ht _ _
  constructor
  · exact ht ▸ h.nodup
  · intro t
    dsimp only
    rw [ht, h.known t]
    by_cases hti : t = i
    · subst hti
      rw [Function.update_self, hpc, hpc']
      rfl
    · rw [hother t hti]
  · dsimp only
    rw [hc, ht, h.count]
    congr 2
    funext t
    by_cases hti : t = i
    · subst hti
      rw [Function.update_self, hin, hpc', hst']
    · rw [hother t hti]
  · intro _ _
    exact hc.trans (h.rolling i hroll)
  · intro hall
    have := hall i
    dsimp only at this
    rw [Function.update_self, hpc'] at this
    exact hsame this
  · intro t htr
    dsimp only at htr
    by_cases hti : t = i
    · subst hti
      rw [Function.update_self, hpc'] at htr
      exact hahead htr
    · rw [hother t hti] at htr
      have := resetting_rolling htr
      simp [not_rolling_other hl hm hti] at this
  · intro t htl
    dsimp only at htl
    by_cases hti : t = i
    · subst hti
      rw [Function.update_self, hpc'] at htl
      simp [Pc.live] at htl
    · rw [hother t hti] at htl
      simp [h.not_live hroll t] at htl

theorem Roll.bar (h : Roll s) (hl : ∀ i, Local i s.shared (s.loc i))
    (hb : BarStep i s.shared (s.loc i) g' x') : Roll ⟨g', Function.update s.loc i x'⟩ := by
  have hp := (hl i).pc
  have hother : ∀ t, t ≠ i → (Function.update s.loc i x' t) = s.loc t :=
    fun t ht => Function.update_of_ne ht _ _
  cases hb with
  | enter hpc hpc' =>
    rw [hpc] at hp
    have hi : i ∉ s.shared.threads := by simp [h.known i, hpc, Pc.known]
    refine h.recount hl hp.1 (by rw [hpc]; rfl) (by rw [hpc']; rfl) (by rw [hpc']; rfl) rfl rfl
      (List.nodup_cons.mpr ⟨hi, h.nodup⟩) ?_ ?_
    · intro t
      by_cases hti : t = i
      · subst hti
        simp [hpc', Pc.known]
      · rw [hother t hti, ← h.known t]
        simp [hti]
    · have hrest : s.shared.threads.countP (fun t => !(Function.update s.loc i x' t).pc.inside) =
          s.shared.threads.countP fun t => !(s.loc t).pc.inside := by
        apply List.countP_congr
        intro t ht
        rw [hother t (fun he => hi (he ▸ ht))]
      have hin : x'.pc.inside = false := by rw [hpc']; rfl
      simp only [List.countP_cons, hrest, h.count, Function.update_self, hin]
      simp
  | exit hpc hpc' =>
    rw [hpc] at hp
    refine h.recount hl hp.2.1 (by rw [hpc]; rfl) (by rw [hpc']; rfl) (by rw [hpc']; rfl) rfl rfl
      (h.nodup.erase i) ?_ ?_
    · intro t
      by_cases hti : t = i
      · subst hti
        simp [hpc', Pc.known, h.nodup.not_mem_erase]
      · rw [hother t hti, ← h.known t, List.mem_erase_of_ne hti]
    · have hrest : (s.shared.threads.erase i).countP
            (fun t => !(Function.update s.loc i x' t).pc.inside) =
          (s.shared.threads.erase i).countP fun t => !(s.loc t).pc.inside := by
        apply List.countP_congr
        intro t ht
        rw [hother t (fun he => h.nodup.not_mem_erase (he ▸ ht))]
      have hall : s.shared.threads.countP (fun t => !(s.loc t).pc.inside) =
          (s.shared.threads.erase i).countP (fun t => !(s.loc t).pc.inside) + 1 := by
        rw [(List.perm_cons_erase hp.1).countP_eq, List.countP_cons, hpc]
        simp [Pc.inside]
      dsimp only
      rw [hrest, h.count, hall]
      simp
  | @arrive k q _ hpc hpc' =>
    rw [hpc] at hp
    refine h.recount hl (hp.2.2 nofun nofun).1 (by rw [hpc]; rfl) (by rw [hpc']; rfl)
      (by rw [hpc']; rfl) rfl rfl h.nodup ?_ ?_
    · intro t
      by_cases hti : t = i
      · subst hti
        simp [hpc', Pc.known, hp.1]
      · rw [hother t hti]
        exact h.known t
    · have hin : (s.loc i).pc.inside = false := by rw [hpc]; rfl
      have hin' : x'.pc.inside = true := by rw [hpc']; rfl
      have hcount := countP_update h.nodup hp.1 (fun t => !(s.loc t).pc.inside)
        (fun t => !(Function.update s.loc i x' t).pc.inside) (fun t ht => by rw [hother t ht])
      simp only [Function.update_self, hin, hin', Bool.not_false, Bool.not_true, if_true,
        Bool.false_eq_true, if_false] at hcount
      dsimp only
      rw [h.count]
      omega
  | @leave k _ hpc hpc' =>
    rw [hpc] at hp
    refine h.recount hl (hp.2.2 nofun nofun).1 (by rw [hpc]; rfl) (by rw [hpc']; cases k <;> rfl)
      (by rw [hpc']; cases k <;> rfl) rfl rfl h.nodup ?_ ?_
    · intro t
      by_cases hti : t = i
      · subst hti
        rw [Function.update_self, hpc']
        cases k <;> simp [Back.pc, Pc.known, hp.1]
      · rw [hother t hti]
        exact h.known t
    · have hin : (s.loc i).pc.inside = true := by rw [hpc]; rfl
      have hin' : x'.pc.inside = false := by rw [hpc']; cases k <;> rfl
      have hcount := countP_update h.nodup hp.1 (fun t => !(s.loc t).pc.inside)
        (fun t => !(Function.update s.loc i x' t).pc.inside) (fun t ht => by rw [hother t ht])
      simp only [Function.update_self, hin, hin', Bool.not_false, Bool.not_true, if_true,
        Bool.false_eq_true, if_false] at hcount
      dsimp only
      rw [h.count]
      omega
  | @roll k _ hpc hpc' =>
    refine h.advance hl hpc hpc' rfl rfl rfl rfl nofun fun _ => ?_
    have hsame := h.same (fun t => ?_)
    · simp [hsame]
    · by_cases hti : t = i
      · subst hti
        rw [hpc]
        rfl
      · have hm := (hl i).mutex_of_rolling (by rw [hpc]; rfl)
        by_contra hne
        have := resetting_rolling (by simpa using hne)
        simp [not_rolling_other hl hm hti] at this
  | @reset k _ hpc hpc' =>
    refine h.advance hl hpc hpc' rfl rfl rfl rfl (fun _ => ?_) nofun
    simpa using h.ahead i (by rw [hpc]; rfl)

end Roll

theorem run_roll {modular wt : Bool} {vmax : ℕ} {ok : State → ℕ → Act → Prop} {s : State}
    (h : Interleave.Run (system modular wt vmax) ok initial s) : Roll s := by
  induction h with
  | refl => exact roll_initial
  | tail hr hok hm ih =>
    obtain ⟨g, x, hs, rfl⟩ := Interleave.move_eq_some hm
    rcases stepThread_bar hs with hq | hb
    · exact ih.quiet hq
    · exact ih.bar (run_local hr).2 hb

/-- In every run: `threads_count` is the number of registered threads outside the
barrier; while `rollover_clock` runs every registered thread is inside; and whatever a
live attempt has seen of the clock and of the locks comes from after the last reset of
both. -/
theorem rollover_all_stopped {modular wt : Bool} {vmax : ℕ} {s : State}
    (h : Interleave.Run (system modular wt vmax) (fun _ _ _ => True) initial s) :
    s.shared.threadsCount = (s.shared.threads.countP fun t => !(s.loc t).pc.inside : ℕ) ∧
    (∀ p k, (s.loc p).pc = .bar k .roll ∨ (s.loc p).pc = .bar k .reset →
      ∀ t ∈ s.shared.threads, (s.loc t).pc.inside = true) ∧
    (∀ i, (s.loc i).pc.live = true → ∀ n ∈ (s.loc i).stamps,
      n = s.shared.clockGen ∧ n = s.shared.lockGen) := by
  have hr := run_roll h
  refine ⟨hr.count, ?_, hr.stamps⟩
  intro p k hp t ht
  apply hr.all_inside (p := p) _ ht
  rcases hp with hp | hp <;> rw [hp] <;> rfl

/-- Thread 0 makes a unit store that reaches the bound and waits, thread 1 starts a
transaction and resets the clock. -/
theorem rollover_all_stopped_unit :
    ∃ s, Interleave.Run (system false false 1) (fun _ _ _ => True) initial s ∧
      (s.loc 1).pc = .bar .prepare .roll ∧ (s.loc 0).pc.inside = true := by
  obtain ⟨s, hr, hp, h0⟩ := Interleave.exists_run_of_exec (system false false 1) (fun _ _ _ => True) initial
    ([(0, .init), (0, .go true), (0, .go true), (1, .init), (1, .go true), (1, .go true),
      (0, .unitStore), (0, .go true), (0, .go true), (0, .go true),
      (1, .start false), (1, .go true), (1, .go true), (1, .go true), (1, .go true)])
    (fun s => (s.loc 1).pc = .bar .prepare .roll ∧ 0 ∈ s.shared.threads)
    (by decide +kernel)
  exact ⟨s, hr, hp, (rollover_all_stopped hr).2.1 1 .prepare (.inl hp) 0 h0⟩

end TinyStm.Quiesce
