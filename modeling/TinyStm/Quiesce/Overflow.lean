import TinyStm.Quiesce.Rollover
import TinyStm.Build

/-!
# Timestamps and the width of the lock word

A lock word has room for MAX_THREADS timestamps past VERSION_MAX. A thread that finds
the clock at VERSION_MAX when it starts a transaction stops in the barrier, so a
transaction takes one late timestamp at most. Two timestamps can come from one thread
in two ways, though: a unit store takes its timestamp before it looks at the bound, also
right after a commit that was late already, and a write-through commit that fails its
validation may take another one in the rollback. Without these the slack suffices.
-/

namespace TinyStm.Quiesce

/-! ### Lock words -/

/-- `LOCK_SET_TIMESTAMP` on words of `w` bits (`stm.c:211-219`). -/
def lockSetTimestamp (b : Build) (w t : ℕ) : ℕ := (t <<< b.lockBits) % 2 ^ w

/-- `LOCK_GET_TIMESTAMP`. -/
def lockGetTimestamp (b : Build) (l : ℕ) : ℕ := l >>> b.lockBits

/-- The timestamp survives in the lock word. -/
def Fits (b : Build) (w t : ℕ) : Prop := lockGetTimestamp b (lockSetTimestamp b w t) = t

theorem fits_of_lt {b : Build} {w t : ℕ} (hb : b.lockBits ≤ w) (h : t < 2 ^ (w - b.lockBits)) :
    Fits b w t := by
  have hlt : t <<< b.lockBits < 2 ^ w := by
    rw [Nat.shiftLeft_eq]
    calc t * 2 ^ b.lockBits < 2 ^ (w - b.lockBits) * 2 ^ b.lockBits :=
          Nat.mul_lt_mul_of_pos_right h (Nat.two_pow_pos _)
      _ = 2 ^ w := by rw [← pow_add, Nat.sub_add_cancel hb]
  rw [Fits, lockSetTimestamp, Nat.mod_eq_of_lt hlt, lockGetTimestamp, Nat.shiftLeft_shiftRight]

theorem lockBits_le {b : Build} (hb : b.mbRevalidation = false) : b.lockBits ≤ 4 := by
  cases hd : b.design <;>
    simp [Build.lockBits, hd, Build.ownedBits, hb, Build.incarnationBits]

/-- The room the lock word has above VERSION_MAX. -/
theorem versionMax_add {b : Build} (hb : b.mbRevalidation = false) {w : ℕ} (hw : w = 32 ∨ w = 64) :
    b.versionMax w + Build.maxThreads + 1 = 2 ^ (w - b.lockBits) := by
  have hl : b.lockBits = 1 ∨ b.lockBits = 4 := by
    cases hd : b.design <;> simp [Build.lockBits, hd, Build.ownedBits, hb, Build.incarnationBits]
  rcases hw with rfl | rfl <;> rcases hl with hl | hl <;>
    simp [Build.versionMax, hl, hb, Build.maxThreads, Nat.shiftRight_eq_div_pow]

/-! ### Who takes timestamps -/

/-- An attempt that has not taken a timestamp. -/
def Pc.fresh : Pc → Bool
  | .prepStatus | .prepIrrevocable | .irr _ _ | .chk _ | .run | .com .status | .com .body => true
  | _ => false

/-- What a step does to the clock. -/
inductive ClockStep (vmax i : ℕ) (a : Act) (g : Shared) (x : Thread) : Shared → Thread → Prop
  | keep {g' : Shared} {x' : Thread} : g'.clock = g.clock → g'.taken = g.taken → g'.late = g.late →
      (x'.pc.fresh = true → x.pc.fresh = true ∨ g.clock < vmax) → ClockStep vmax i a g x g' x'
  | take {x' : Thread} : x'.pc.fresh = false →
      x.pc.fresh = true ∨ x.pc = .idle ∧ a = .unitStore ∨ x.pc = .rb .body ∧ a = .inc →
      ClockStep vmax i a g x (g.fetchInc vmax i) x'
  | roll {g' : Shared} {x' : Thread} : g'.clock = 0 → g'.taken = g.taken → g'.late = [] →
      x'.pc.fresh = false → ClockStep vmax i a g x g' x'

section Cases

variable {modular wt c : Bool} {vmax i : ℕ} {a : Act} {g g' : Shared} {x x' : Thread}

theorem ClockStep.stay (hx : x'.pc.fresh = true → x.pc.fresh = true) :
    ClockStep vmax i a g x g x' :=
  .keep rfl rfl rfl fun h => .inl (hx h)

theorem barStep_clock {k : Back} {st : Bar} (hs : barStep i k g x st = some (g', x')) :
    ClockStep vmax i a g x g' x' := by
  cases st with
  | lock | sleep =>
    simp only [barStep, Option.ite_none_right_eq_some, Option.some.injEq, Prod.mk.injEq] at hs
    obtain ⟨-, rfl, rfl⟩ := hs
    exact .keep rfl rfl rfl (by simp [Pc.fresh])
  | test =>
    simp only [barStep] at hs
    split_ifs at hs <;> obtain ⟨rfl, rfl⟩ := hs <;> exact .keep rfl rfl rfl (by simp [Pc.fresh])
  | roll =>
    obtain ⟨rfl, rfl⟩ := hs
    exact .roll rfl rfl rfl rfl
  | leave =>
    obtain ⟨rfl, rfl⟩ := hs
    cases k <;> exact .keep rfl rfl rfl (by simp [Pc.fresh, Back.pc])
  | arrive | reset | openUp =>
    obtain ⟨rfl, rfl⟩ := hs
    exact .keep rfl rfl rfl (by simp [Pc.fresh])

theorem irrStep_clock {r : Ret} {st : Irr} (hpc : x.pc = .irr r st)
    (hs : irrStep modular i c r g x st = some (g', x')) : ClockStep vmax i a g x g' x' := by
  have hx : x.pc.fresh = true := by rw [hpc]; rfl
  cases st with
  | enter s | test | cas | validate | status | writes | spin | quiesce | watch t n rest =>
    simp only [irrStep] at hs
    split_ifs at hs <;> obtain ⟨rfl, rfl⟩ := hs <;> exact .keep rfl rfl rfl fun _ => .inl hx
  | store | done =>
    obtain ⟨rfl, rfl⟩ := hs
    exact .keep rfl rfl rfl fun _ => .inl hx
  | scan rest =>
    cases rest with
    | nil =>
      obtain ⟨rfl, rfl⟩ := hs
      exact .stay fun _ => hx
    | cons t rest =>
      simp only [irrStep] at hs
      split_ifs at hs <;> obtain ⟨rfl, rfl⟩ := hs <;> exact .stay fun _ => hx

theorem chkStep_clock {st : Chk} (hpc : x.pc = .chk st) (hs : chkStep i g x st = some (g', x')) :
    ClockStep vmax i a g x g' x' := by
  have hx : x.pc.fresh = true := by rw [hpc]; rfl
  cases st with
  | load | wait s =>
    simp only [chkStep] at hs
    split_ifs at hs <;> obtain ⟨rfl, rfl⟩ := hs <;> exact .stay fun _ => hx
  | save | setIdle s | restore s =>
    obtain ⟨rfl, rfl⟩ := hs
    exact .keep rfl rfl rfl fun _ => .inl hx

theorem comStep_clock {st : Com} (hpc : x.pc = .com st)
    (hs : comStep modular i g x st = some (g', x')) : ClockStep vmax i a g x g' x' := by
  cases st with
  | status =>
    have hx : x.pc.fresh = true := by rw [hpc]; rfl
    simp only [comStep] at hs
    split_ifs at hs <;> obtain ⟨rfl, rfl⟩ := hs <;> exact .keep rfl rfl rfl fun _ => .inl hx
  | body | post | flag =>
    obtain ⟨rfl, rfl⟩ := hs
    refine .keep rfl rfl rfl ?_
    dsimp only
    split_ifs <;> simp [Pc.fresh]
  | release | unlock | done =>
    obtain ⟨rfl, rfl⟩ := hs
    exact .keep rfl rfl rfl (by simp [Pc.fresh])

theorem rbStep_clock {st : Rb} (hs : rbStep modular i g x st = some (g', x')) :
    ClockStep vmax i a g x g' x' := by
  cases st with
  | status =>
    simp only [rbStep] at hs
    split_ifs at hs <;> obtain ⟨rfl, rfl⟩ := hs <;> exact .keep rfl rfl rfl (by simp [Pc.fresh])
  | body | post | done =>
    obtain ⟨rfl, rfl⟩ := hs
    exact .keep rfl rfl rfl (by simp [Pc.fresh])

theorem goStep_clock (hs : goStep modular vmax i c g x x.pc = some (g', x')) :
    ClockStep vmax i a g x g' x' := by
  cases hpc : x.pc with
  | off | idle | run =>
    rw [hpc] at hs
    exact absurd hs nofun
  | enterLock | exitLock =>
    rw [hpc] at hs
    simp only [goStep, Option.ite_none_right_eq_some, Option.some.injEq, Prod.mk.injEq] at hs
    obtain ⟨-, rfl, rfl⟩ := hs
    exact .keep rfl rfl rfl (by simp [Pc.fresh])
  | enterBody | exitBody =>
    rw [hpc] at hs
    obtain ⟨rfl, rfl⟩ := hs
    exact .keep rfl rfl rfl (by simp [Pc.fresh])
  | prep =>
    rw [hpc] at hs
    simp only [goStep] at hs
    split_ifs at hs with hv <;> obtain ⟨rfl, rfl⟩ := hs
    · exact .keep rfl rfl rfl (by simp [Pc.fresh])
    · exact .keep rfl rfl rfl fun _ => .inr (by omega)
  | prepStatus =>
    have hx : x.pc.fresh = true := by rw [hpc]; rfl
    rw [hpc] at hs
    simp only [goStep] at hs
    split_ifs at hs <;> obtain ⟨rfl, rfl⟩ := hs <;> exact .keep rfl rfl rfl fun _ => .inl hx
  | prepIrrevocable =>
    have hx : x.pc.fresh = true := by rw [hpc]; rfl
    rw [hpc] at hs
    obtain ⟨rfl, rfl⟩ := hs
    exact .keep rfl rfl rfl fun _ => .inl hx
  | bar k st => exact barStep_clock (by rwa [hpc] at hs)
  | irr r st => exact irrStep_clock hpc (by rwa [hpc] at hs)
  | chk st => exact chkStep_clock hpc (by rwa [hpc] at hs)
  | com st => exact comStep_clock hpc (by rwa [hpc] at hs)
  | rb st => exact rbStep_clock (by rwa [hpc] at hs)

theorem stmStart_fresh (nr : Bool) : (stmStart nr x).pc.fresh = true → x.pc.fresh = true := by
  unfold stmStart
  split_ifs
  · exact id
  · simp [Pc.fresh]

theorem outStep_clock (hpc : x.pc = .idle) (hs : outStep vmax i g x a = some (g', x')) :
    ClockStep vmax i a g x g' x' := by
  cases a with
  | exit =>
    simp only [outStep] at hs
    split_ifs at hs
    obtain ⟨rfl, rfl⟩ := hs
    exact .stay (by simp [Pc.fresh])
  | start nr =>
    obtain ⟨rfl, rfl⟩ := hs
    exact .stay (stmStart_fresh nr)
  | unitStore =>
    obtain ⟨rfl, rfl⟩ := hs
    refine .take ?_ (.inr (.inl ⟨hpc, rfl⟩))
    dsimp only
    split_ifs <;> rfl
  | _ => exact absurd hs.symm (Option.some_ne_none _)

theorem runStep_clock (hpc : x.pc = .run) (hs : runStep modular i g x a = some (g', x')) :
    ClockStep vmax i a g x g' x' := by
  have hx : x.pc.fresh = true := by rw [hpc]; rfl
  cases a with
  | start nr | access | abort | commit | setIrrevocable s =>
    obtain ⟨rfl, rfl⟩ := hs
    exact .stay fun _ => hx
  | kill j =>
    simp only [runStep] at hs
    split_ifs at hs
    obtain ⟨rfl, rfl⟩ := hs
    exact .keep rfl rfl rfl fun _ => .inl hx
  | _ => exact absurd hs.symm (Option.some_ne_none _)

theorem stepThread_clock (hs : stepThread modular wt vmax i a g x = some (g', x')) :
    ClockStep vmax i a g x g' x' := by
  unfold stepThread at hs
  split at hs
  · exact goStep_clock hs
  · obtain ⟨rfl, rfl⟩ := hs
    exact .stay (by simp [Pc.fresh])
  · rename_i hpc
    exact outStep_clock hpc hs
  · rename_i hpc
    exact runStep_clock hpc hs
  · obtain ⟨rfl, rfl⟩ := hs
    exact .stay id
  · rename_i hpc
    obtain ⟨rfl, rfl⟩ := hs
    exact .take rfl (.inl (by rw [hpc]; rfl))
  · obtain ⟨rfl, rfl⟩ := hs
    exact .stay (by simp [Pc.fresh, rollback])
  · obtain ⟨rfl, rfl⟩ := hs
    exact .stay id
  · obtain ⟨rfl, rfl⟩ := hs
    exact .stay (by simp [Pc.fresh, rollback])
  · obtain ⟨rfl, rfl⟩ := hs
    exact .stay id
  · rename_i hpc
    split_ifs at hs
    obtain ⟨rfl, rfl⟩ := hs
    exact .take rfl (.inr (.inr ⟨hpc, rfl⟩))
  · obtain ⟨rfl, rfl⟩ := hs
    exact .stay id
  · exact absurd hs nofun

end Cases

/-! ### The bound -/

/-- The thread is one of `T`, and takes no timestamp of at least VERSION_MAX in a unit
store or in a write-through rollback when it has already taken one since the last reset
of the clock. -/
structure OnceOk (T : Finset ℕ) (vmax : ℕ) (s : State) (i : ℕ) (a : Act) : Prop where
  thread : i ∈ T
  unit : (s.loc i).pc = .idle → a = .unitStore → vmax ≤ s.shared.clock + 1 → i ∉ s.shared.late
  undo : (s.loc i).pc = .rb .body → a = .inc → vmax ≤ s.shared.clock + 1 → i ∉ s.shared.late

instance (T : Finset ℕ) (vmax : ℕ) (s : State) (i : ℕ) (a : Act) : Decidable (OnceOk T vmax s i a) :=
  decidable_of_iff (i ∈ T ∧
    ((s.loc i).pc = .idle → a = .unitStore → vmax ≤ s.shared.clock + 1 → i ∉ s.shared.late) ∧
    ((s.loc i).pc = .rb .body → a = .inc → vmax ≤ s.shared.clock + 1 → i ∉ s.shared.late))
    ⟨fun h => ⟨h.1, h.2.1, h.2.2⟩, fun h => ⟨h.1, h.2, h.3⟩⟩

/-- Every timestamp from VERSION_MAX on is in the list of the late ones, and every
thread is in it once at most. -/
structure Late (T : Finset ℕ) (vmax : ℕ) (s : State) : Prop where
  count : s.shared.late.length = s.shared.clock + 1 - vmax
  nodup : s.shared.late.Nodup
  sub : ∀ i ∈ s.shared.late, i ∈ T
  fresh : ∀ i, (s.loc i).pc.fresh = true → i ∉ s.shared.late
  taken : ∀ t ∈ s.shared.taken, t < vmax + T.card

theorem late_initial {T : Finset ℕ} {vmax : ℕ} (hv : 0 < vmax) : Late T vmax initial where
  count := by
    simp only [initial, List.length_nil]
    omega
  nodup := List.nodup_nil
  sub i hi := by simp [initial] at hi
  fresh i hi := by simp [initial, Pc.fresh] at hi
  taken t ht := by simp [initial] at ht

section Late

variable {modular wt : Bool} {T : Finset ℕ} {vmax : ℕ} {s : State} {i : ℕ} {a : Act} {g' : Shared}
  {x' : Thread}

theorem length_le_card {l : List ℕ} (hl : l.Nodup) (hsub : ∀ i ∈ l, i ∈ T) : l.length ≤ T.card := by
  rw [← List.toFinset_card_of_nodup hl]
  exact Finset.card_le_card fun i hi => hsub i (List.mem_toFinset.mp hi)

theorem Late.clock_lt (h : Late T vmax s) : s.shared.clock < vmax + T.card := by
  have hle := length_le_card h.nodup h.sub
  have := h.count
  omega

/-- Nobody is late below the bound. -/
theorem Late.nil (h : Late T vmax s) (hlt : s.shared.clock < vmax) : s.shared.late = [] := by
  apply List.eq_nil_of_length_eq_zero
  rw [h.count]
  omega

theorem Late.step (hv : 0 < vmax) (h : Late T vmax s) (hok : OnceOk T vmax s i a)
    (hc : ClockStep vmax i a s.shared (s.loc i) g' x') :
    Late T vmax ⟨g', Function.update s.loc i x'⟩ := by
  cases hc with
  | keep hclock htaken hlate hfresh =>
    refine ⟨by rw [hlate, hclock]; exact h.count, by rw [hlate]; exact h.nodup,
      by rw [hlate]; exact h.sub, fun j hj => ?_, by rw [htaken]; exact h.taken⟩
    dsimp only at hj ⊢
    rw [hlate]
    by_cases hji : j = i
    · subst hji
      rw [Function.update_self] at hj
      rcases hfresh hj with hold | hlt
      · exact h.fresh j hold
      · simp [h.nil hlt]
    · rw [Function.update_of_ne hji] at hj
      exact h.fresh j hj
  | roll hclock htaken hlate hfresh =>
    refine ⟨by rw [hlate, hclock]; simp; omega, by rw [hlate]; exact List.nodup_nil,
      by rw [hlate]; simp, fun j hj => by rw [hlate]; simp, by rw [htaken]; exact h.taken⟩
  | take hfresh hwho =>
    -- the thread is not late yet
    have hi : vmax ≤ s.shared.clock + 1 → i ∉ s.shared.late := by
      intro hle
      rcases hwho with hf | ⟨hpc, ha⟩ | ⟨hpc, ha⟩
      · exact h.fresh i hf
      · exact hok.unit hpc ha hle
      · exact hok.undo hpc ha hle
    have hother : ∀ j, (Function.update s.loc i x' j).pc.fresh = true → j ≠ i ∧ j ∉ s.shared.late := by
      intro j hj
      have hji : j ≠ i := by
        rintro rfl
        rw [Function.update_self, hfresh] at hj
        simp at hj
      rw [Function.update_of_ne hji] at hj
      exact ⟨hji, h.fresh j hj⟩
    have hcount := h.count
    by_cases hle : vmax ≤ s.shared.clock + 1
    · have hcons : (s.shared.fetchInc vmax i).late = i :: s.shared.late := if_pos hle
      have hnodup : (i :: s.shared.late).Nodup := List.nodup_cons.mpr ⟨hi hle, h.nodup⟩
      have hsub : ∀ j ∈ i :: s.shared.late, j ∈ T := by
        intro j hj
        rcases List.mem_cons.mp hj with rfl | hj
        · exact hok.thread
        · exact h.sub j hj
      have hcard := length_le_card hnodup hsub
      rw [List.length_cons] at hcard
      refine ⟨?_, hcons ▸ hnodup, hcons ▸ hsub, fun j hj => ?_, fun t ht => ?_⟩
      · show (s.shared.fetchInc vmax i).late.length = s.shared.clock + 1 + 1 - vmax
        rw [hcons, List.length_cons]
        omega
      · rw [hcons, List.mem_cons, not_or]
        exact hother j hj
      · rcases List.mem_cons.mp ht with rfl | ht
        · omega
        · exact h.taken t ht
    · have hsame : (s.shared.fetchInc vmax i).late = s.shared.late := if_neg hle
      refine ⟨?_, hsame ▸ h.nodup, hsame ▸ h.sub, fun j hj => hsame ▸ (hother j hj).2, fun t ht => ?_⟩
      · show (s.shared.fetchInc vmax i).late.length = s.shared.clock + 1 + 1 - vmax
        rw [hsame]
        omega
      · rcases List.mem_cons.mp ht with rfl | ht
        · omega
        · exact h.taken t ht

end Late

/-! ### Runs around the bound -/

section Bound

variable (vmax : ℕ) {n : ℕ} {s : State}

/-- Only threads up to `n` take part. -/
def upTo (n : ℕ) (_ : State) (i : ℕ) (_ : Act) : Prop := i ≤ n

/-- They make unit stores only below the bound. -/
def Early (n : ℕ) (s : State) (i : ℕ) (a : Act) : Prop :=
  i ≤ n ∧ (a = .unitStore → s.shared.clock + 1 < vmax)

/-- Nobody is in the way: nothing is locked and nobody is stopped. -/
structure Clear (s : State) : Prop where
  quiesce : s.shared.quiesce = 0
  mutex : s.shared.mutex = none

def offThread : Thread := ⟨.off, 0, false, 0, false, false, []⟩
def idleThread (m : ℤ) (st : List ℕ) : Thread := ⟨.idle, 0, false, m, false, false, st⟩
def runThread (st : List ℕ) : Thread := ⟨.run, 0, false, 1, false, false, st⟩

theorem run_alone {i : ℕ} (hi : i ≤ n) (as : List Act) (has : .unitStore ∉ as) {g : Shared}
    {x : Thread}
    (h : (system false false vmax).solo i as s.shared (s.loc i) = some (g, x)) :
    Interleave.Run (system false false vmax) (Early vmax n) s ⟨g, Function.update s.loc i x⟩ :=
  Interleave.run_of_solo as (fun _ _ ha => ⟨hi, fun he => absurd (he ▸ ha) has⟩) h

/-- Thread `i` registers and starts a transaction. -/
theorem run_enter (hs : Clear s) (hv : s.shared.clock < vmax) {i : ℕ} (hi : i ≤ n)
    (hloc : s.loc i = offThread) :
    ∃ s' st, Interleave.Run (system false false vmax) (Early vmax n) s s' ∧ Clear s' ∧
      s'.shared.clock = s.shared.clock ∧ s'.loc = Function.update s.loc i (runThread st) := by
  obtain ⟨hq, hm⟩ := hs
  have h := run_alone vmax hi
    [.init, .go true, .go true, .start false, .go true, .go true, .go true] (by decide)
    (g := { s.shared with
        threads := i :: s.shared.threads, threadsCount := s.shared.threadsCount + 1, mutex := none
        status := Function.update s.shared.status i ⟨.active, (s.shared.status i).counter⟩ })
    (x := runThread [s.shared.clockGen])
    (by
      rw [hloc]
      simp [Interleave.System.solo, system, stepThread, goStep, offThread, hm, outStep, stmStart,
        hv.not_ge, Shared.updateStatus, chkStep, hq, prepared, runThread])
  exact ⟨_, _, h, ⟨hq, rfl⟩, rfl, rfl⟩

/-- Thread `i` registers. -/
theorem run_register (hs : Clear s) {i : ℕ} (hi : i ≤ n) (hloc : s.loc i = offThread) :
    ∃ s', Interleave.Run (system false false vmax) (Early vmax n) s s' ∧ Clear s' ∧
      s'.shared.clock = s.shared.clock ∧ s'.loc = Function.update s.loc i (idleThread 0 []) := by
  obtain ⟨hq, hm⟩ := hs
  have h := run_alone vmax hi [.init, .go true, .go true] (by decide)
    (g := { s.shared with
        threads := i :: s.shared.threads, threadsCount := s.shared.threadsCount + 1, mutex := none })
    (x := idleThread 0 [])
    (by
      rw [hloc]
      simp [Interleave.System.solo, system, stepThread, goStep, offThread, hm, idleThread])
  exact ⟨_, h, ⟨hq, rfl⟩, rfl, rfl⟩

/-- A unit store takes its timestamp before it looks at the bound. -/
theorem move_unit {i : ℕ} {m : ℤ} {st : List ℕ} (hloc : s.loc i = idleThread m st) :
    (system false false vmax).move s i .unitStore = some ⟨s.shared.fetchInc vmax i,
      Function.update s.loc i { idleThread m st with
        pc := if vmax ≤ s.shared.clock + 1 then .bar .unit .lock else .idle }⟩ := by
  simp [Interleave.System.move, system, stepThread, outStep, hloc, idleThread]

/-- An idle thread makes unit stores as long as the bound is not reached. -/
theorem run_units {i : ℕ} (hi : i ≤ n) {m : ℤ} {st : List ℕ} (hloc : s.loc i = idleThread m st)
    (k : ℕ) (hk : s.shared.clock + k < vmax) :
    ∃ s', Interleave.Run (system false false vmax) (Early vmax n) s s' ∧
      s'.shared.clock = s.shared.clock + k ∧ s'.loc = s.loc := by
  induction k with
  | zero => exact ⟨s, .refl, rfl, rfl⟩
  | succ k ih =>
    obtain ⟨s', hr, hclock, hsame⟩ := ih (by omega)
    have hlt : s'.shared.clock + 1 < vmax := by omega
    refine ⟨_, hr.tail ⟨hi, fun _ => hlt⟩ (move_unit vmax (hsame ▸ hloc)), ?_, ?_⟩
    · show s'.shared.clock + 1 = _
      omega
    · rw [if_neg hlt.not_ge]
      show Function.update s'.loc i (idleThread m st) = s.loc
      rw [hsame, ← hloc, Function.update_eq_self]

/-- A late unit store. -/
theorem run_unit {i : ℕ} (hi : i ≤ n) {m : ℤ} {st : List ℕ} (hloc : s.loc i = idleThread m st) :
    ∃ s' x, Interleave.Run (system false false vmax) (upTo n) s s' ∧
      s'.shared.clock = s.shared.clock + 1 ∧ s.shared.clock + 1 ∈ s'.shared.taken ∧
      s'.loc = Function.update s.loc i x :=
  ⟨_, _, .tail .refl hi (move_unit vmax hloc), rfl, List.mem_cons_self, rfl⟩

/-- Thread `i` commits an update transaction. -/
theorem run_commit {i : ℕ} (hi : i ≤ n) {st : List ℕ} (hloc : s.loc i = runThread st) :
    ∃ s' st', Interleave.Run (system false false vmax) (Early vmax n) s s' ∧
      s'.shared.clock = s.shared.clock + 1 ∧ s.shared.clock + 1 ∈ s'.shared.taken ∧
      s'.loc = Function.update s.loc i (idleThread 0 st') := by
  have h := run_alone vmax hi [.commit, .go true, .inc, .go true, .go true] (by decide)
    (g := (s.shared.fetchInc vmax i).setStatus i .committed)
    (x := idleThread 0 (st ++ [s.shared.clockGen, s.shared.lockGen]))
    (by
      rw [hloc]
      simp [Interleave.System.solo, system, stepThread, goStep, runStep, runThread, comStep,
        Thread.stamp, idleThread])
  exact ⟨_, _, h, rfl, List.mem_cons_self, rfl⟩

/-- The first `m` threads are in a transaction. -/
theorem run_enters (hv : 0 < vmax) (m : ℕ) (hm : m ≤ n) :
    ∃ s, Interleave.Run (system false false vmax) (Early vmax n) initial s ∧ Clear s ∧
      s.shared.clock = 0 ∧ (∀ i < m, ∃ st, s.loc i = runThread st) ∧
      ∀ i, m ≤ i → s.loc i = offThread := by
  induction m with
  | zero => exact ⟨initial, .refl, ⟨rfl, rfl⟩, rfl, by simp, fun _ _ => rfl⟩
  | succ m ih =>
    obtain ⟨s, hr, hc, h0, hin, hout⟩ := ih (by omega)
    obtain ⟨s', st, hr', hc', h0', hloc⟩ :=
      run_enter vmax (n := n) hc (h0 ▸ hv) (by omega) (hout m le_rfl)
    refine ⟨s', hr.trans hr', hc', h0'.trans h0, fun i hi => ?_, fun i hi => ?_⟩
    · rw [hloc]
      by_cases him : i = m
      · exact ⟨st, by rw [him, Function.update_self]⟩
      · rw [Function.update_of_ne him]
        exact hin i (by omega)
    · rw [hloc, Function.update_of_ne (by omega)]
      exact hout i (by omega)

/-- The first `m` of the threads in a transaction commit. -/
theorem run_commits (hin : ∀ i < n, ∃ st, s.loc i = runThread st) (m : ℕ) (hm : m ≤ n) :
    ∃ s', Interleave.Run (system false false vmax) (Early vmax n) s s' ∧
      s'.shared.clock = s.shared.clock + m ∧
      (∀ i < m, ∃ st, s'.loc i = idleThread 0 st) ∧ ∀ i, m ≤ i → s'.loc i = s.loc i := by
  induction m with
  | zero => exact ⟨s, .refl, rfl, by simp, fun _ _ => rfl⟩
  | succ m ih =>
    obtain ⟨s', hr, hclock, hidle, hsame⟩ := ih (by omega)
    obtain ⟨st, hst⟩ := hin m (by omega)
    obtain ⟨s'', st', hr', hclock', -, hloc⟩ :=
      run_commit vmax (n := n) (by omega) ((hsame m le_rfl).trans hst)
    refine ⟨s'', hr.trans hr', by omega, fun i hi => ?_, fun i hi => ?_⟩
    · rw [hloc]
      by_cases him : i = m
      · exact ⟨st', by rw [him, Function.update_self]⟩
      · rw [Function.update_of_ne him]
        exact hidle i (by omega)
    · rw [hloc, Function.update_of_ne (by omega)]
      exact hsame i (by omega)

/-- One thread drives the clock to the bound while `n` transactions are under way. -/
theorem run_bound (hv : 0 < vmax) :
    ∃ s, Interleave.Run (system false false vmax) (Early vmax n) initial s ∧
      s.shared.clock = vmax - 1 ∧ ∀ i < n, ∃ st, s.loc i = runThread st := by
  obtain ⟨s₁, hr₁, hc₁, h₁, hin₁, hout₁⟩ := run_enters vmax hv n (le_refl n)
  obtain ⟨s₂, hr₂, -, h₂, hloc₂⟩ := run_register vmax hc₁ (le_refl n) (hout₁ n le_rfl)
  obtain ⟨s₃, hr₃, h₃, hloc₃⟩ := run_units vmax (s := s₂) (le_refl n)
    (by rw [hloc₂, Function.update_self]) (vmax - 1) (by omega)
  refine ⟨s₃, (hr₁.trans hr₂).trans hr₃, by omega, fun i hi => ?_⟩
  rw [hloc₃, hloc₂, Function.update_of_ne (by omega)]
  exact hin₁ i hi

/-- They all commit, and three of their threads make a unit store. -/
theorem run_late (hv : 0 < vmax) (hn : 3 ≤ n) :
    ∃ s, Interleave.Run (system false false vmax) (upTo n) initial s ∧
      vmax + n + 2 ∈ s.shared.taken := by
  obtain ⟨s₃, hr₃, h₃, hin₃⟩ := run_bound vmax (n := n) hv
  obtain ⟨s₄, hr₄, h₄, hidle, -⟩ := run_commits vmax hin₃ n (le_refl n)
  have hearly : Interleave.Run (system false false vmax) (upTo n) initial s₄ :=
    (hr₃.trans hr₄).mono fun _ _ _ h => h.1
  obtain ⟨st₀, h0⟩ := hidle 0 (by omega)
  obtain ⟨st₁, h1⟩ := hidle 1 (by omega)
  obtain ⟨st₂, h2⟩ := hidle 2 (by omega)
  obtain ⟨s₅, x₅, hr₅, h₅, -, hloc₅⟩ := run_unit vmax (n := n) (by omega) h0
  obtain ⟨s₆, x₆, hr₆, h₆, -, hloc₆⟩ := run_unit vmax (s := s₅) (n := n) (i := 1) (by omega)
    (by rw [hloc₅, Function.update_of_ne (by omega), h1])
  obtain ⟨s₇, x₇, hr₇, -, ht, -⟩ := run_unit vmax (s := s₆) (n := n) (i := 2) (by omega)
    (by rw [hloc₆, Function.update_of_ne (by omega), hloc₅, Function.update_of_ne (by omega), h2])
  refine ⟨s₇, ((hearly.trans hr₅).trans hr₆).trans hr₇, ?_⟩
  rwa [show vmax + n + 2 = s₆.shared.clock + 1 by omega]

/-- They all commit and do no more, which is as late as the lock word allows. -/
theorem run_full (hv : 0 < vmax) :
    ∃ s, Interleave.Run (system false false vmax) (Early vmax (n + 1)) initial s ∧
      vmax + n ∈ s.shared.taken := by
  obtain ⟨s₃, hr₃, h₃, hin₃⟩ := run_bound vmax (n := n + 1) hv
  obtain ⟨s₄, hr₄, h₄, -, hsame⟩ := run_commits vmax hin₃ n (Nat.le_succ n)
  obtain ⟨st, hst⟩ := hin₃ n (Nat.lt_succ_self n)
  obtain ⟨s₅, st', hr₅, -, ht, -⟩ :=
    run_commit vmax (n := n + 1) (i := n) (Nat.le_succ n) ((hsame n le_rfl).trans hst)
  refine ⟨s₅, (hr₃.trans hr₄).trans hr₅, ?_⟩
  rwa [show vmax + n = s₄.shared.clock + 1 by omega]

/-- Outside the write-through design nothing else is late twice. -/
theorem onceOk_of_early {i : ℕ} {a : Act} {s' : State}
    (hm : (system false false vmax).move s i a = some s') (h : Early vmax n s i a) :
    OnceOk (Finset.range (n + 1)) vmax s i a where
  thread := Finset.mem_range.mpr (Nat.lt_succ_of_le h.1)
  unit _ ha hle := absurd (h.2 ha) hle.not_gt
  undo hpc ha := by
    subst ha
    simp [Interleave.System.move, system, stepThread, hpc] at hm

end Bound

/-! ### Which timestamps fit -/

/-- Every timestamp that is written to a lock word fits, in every run of at most
MAX_THREADS threads in which nobody takes a second late timestamp in a unit store or in a
rollback: those taken from the clock, and the versions read from lock words, which
rollbacks write back. The clock passes VERSION_MAX by fewer than MAX_THREADS
increments. -/
theorem timestamps_fit {b : Build} (hb : b.mbRevalidation = false) {w : ℕ} (hw : w = 32 ∨ w = 64)
    {T : Finset ℕ} (hT : T.card ≤ Build.maxThreads) {s : State}
    (h : Interleave.Run (system false (b.design = .writeThrough) (b.versionMax w))
      (OnceOk T (b.versionMax w)) initial s) :
    (∀ t ∈ s.shared.taken, Fits b w t) ∧ (∀ l < 2 ^ w, Fits b w (lockGetTimestamp b l)) ∧
      s.shared.clock < b.versionMax w + Build.maxThreads := by
  have hroom := versionMax_add hb hw
  have hbits := lockBits_le hb
  have hle : b.lockBits ≤ w := by omega
  have hv : 0 < b.versionMax w := by
    have hpow : 2 ^ 28 ≤ 2 ^ (w - b.lockBits) := Nat.pow_le_pow_right (by norm_num) (by omega)
    simp only [Build.maxThreads] at hroom
    omega
  have hlate : Late T (b.versionMax w) s := by
    refine h.invariant (P := Late T (b.versionMax w)) ?_ (late_initial hv)
    intro c i a d hc hok hm
    obtain ⟨g, x, hs, rfl⟩ := Interleave.move_eq_some hm
    exact hc.step hv hok (stepThread_clock hs)
  refine ⟨fun t ht => fits_of_lt hle ?_, fun l hl => fits_of_lt hle ?_, ?_⟩
  · have := hlate.taken t ht
    omega
  · rw [lockGetTimestamp, Nat.shiftRight_eq_div_pow, Nat.div_lt_iff_lt_mul (Nat.two_pow_pos _),
      ← pow_add, Nat.sub_add_cancel hle]
    exact hl
  · have := hlate.clock_lt
    omega

/-- 8192 threads, 8191 of which commit when the clock has reached the bound. -/
theorem timestamps_fit_full :
    ∃ s : State, defaultBuild.versionMax 64 + 8190 ∈ s.shared.taken ∧
      ∀ t ∈ s.shared.taken, Fits defaultBuild 64 t := by
  obtain ⟨s, hr, ht⟩ := run_full (defaultBuild.versionMax 64) (n := 8190) (by decide)
  have hrun := hr.mono_of_move fun _ _ _ _ hm h => onceOk_of_early (n := 8191) _ hm h
  exact ⟨s, ht, (timestamps_fit rfl (.inr rfl) (T := Finset.range 8192)
    (Finset.card_range 8192).le hrun).1⟩

/-- 8191 transactions commit when the clock has reached the bound, and three of their
threads make a unit store: the last timestamp does not fit. -/
theorem timestamps_overflow :
    ∃ s, Interleave.Run (system false false (defaultBuild.versionMax 64)) (upTo 8191) initial s ∧
      ∃ t ∈ s.shared.taken, ¬ Fits defaultBuild 64 t := by
  obtain ⟨s, hr, ht⟩ := run_late (defaultBuild.versionMax 64) (n := 8191) (by decide) (by decide)
  exact ⟨s, hr, _, ht, by unfold Fits; decide⟩

end TinyStm.Quiesce
