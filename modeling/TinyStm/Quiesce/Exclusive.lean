import TinyStm.Quiesce.Local

/-!
# Serial irrevocability is exclusive

`stm_quiesce` sets `quiesce` to 2 and then waits for every other thread to be seen
inactive; a thread that becomes active looks at `quiesce` first. The thread that
`stm_quiesce` has looked at stays outside its transactions, with one exception: in
`stm_check_quiesce` it may have seen `quiesce` drop and restore its status later,
when the next serial transaction has already looked at it.
-/

namespace TinyStm.Quiesce

open Interleave (turn)

/-- In a transaction: from the end of `stm_prepare` to the end of the commit or of the
abort. This is where loads, stores and the steps of the commit are made. -/
def Pc.inTx : Pc → Bool
  | .run | .com _ | .rb _ | .irr .call _ => true
  | _ => false

/-- Thread `p`, with descriptor `x`, has looked at `q`, or has finished looking. -/
def passed (g : Shared) (p : ℕ) (x : Thread) (q : ℕ) : Bool :=
  g.serialBy == some p ||
    match x.pc with
    | .irr _ (.scan rest) => !rest.contains q
    | .irr _ (.watch t _ rest) => q != t && !rest.contains q
    | .irr _ .done => x.serial
    | _ => false

/-- A status is restored only while no serial transaction has looked at the thread. -/
def RestoreOk (s : State) (i : ℕ) (_ : Act) : Prop :=
  match (s.loc i).pc, s.shared.mutex with
  | .chk (.restore _), some p => p = i ∨ passed s.shared p (s.loc p) i = false
  | _, _ => True

instance (s : State) (i : ℕ) (a : Act) : Decidable (RestoreOk s i a) := by
  unfold RestoreOk
  split <;> infer_instance

/-- Outside, and not about to restore a status. -/
def Pc.parked : Pc → Bool
  | .chk (.restore _) => false
  | pc => !pc.inTx

section Step

variable {modular : Bool} {vmax i q : ℕ} {a : Act} {g g' : Shared} {x x' : Thread}

theorem Local.active_of_inTx (h : Local i g x) (hx : x.pc.inTx = true) : Active i g := by
  have hp := h.pc
  cases hpc : x.pc with
  | run =>
    rw [hpc] at hp
    exact hp.2.2.2
  | com st =>
    rw [hpc] at hp
    exact hp.2.1
  | rb st =>
    rw [hpc] at hp
    exact hp.2.2
  | irr r st =>
    rw [hpc] at hp hx
    cases r with
    | call => exact hp.2.2.1
    | prepare => simp [Pc.inTx] at hx
  | _ => simp [Pc.inTx, hpc] at hx

theorem Local.reg_of_inTx (h : Local i g x) (hx : x.pc.inTx = true) : i ∈ g.threads := by
  have hp := h.pc
  cases hpc : x.pc with
  | run | com st | rb st =>
    rw [hpc] at hp
    exact hp.1
  | irr r st =>
    rw [hpc] at hp
    exact hp.1
  | _ => simp [Pc.inTx, hpc] at hx

/-- Whoever has looked at a thread holds the mutex, with `quiesce` set. -/
theorem Local.of_passed (hg : SerialOk g) (h : Local i g x) (hq : passed g i x q = true) :
    g.mutex = some i ∧ g.quiesce = 2 := by
  rw [passed, Bool.or_eq_true, beq_iff_eq] at hq
  rcases hq with hs | hx
  · exact hg i hs
  · have hp := h.pc
    split at hx
    · rename_i hpc
      rw [hpc] at hp
      exact ⟨hp.2.2.2.2.1.1, hp.2.2.2.2.2⟩
    · rename_i hpc
      rw [hpc] at hp
      exact ⟨hp.2.2.2.2.1.1, hp.2.2.2.2.2⟩
    · rename_i hpc
      rw [hpc] at hp
      exact ⟨(hp.2.2.2 hx).1.1, (hp.2.2.2 hx).2⟩
    · simp at hx

end Step

/-! ### What a step can do to the mode of a thread -/

/-- Looking at the other threads. -/
def Pc.looking : Pc → Bool
  | .irr _ (.scan _) | .irr _ (.watch _ _ _) | .irr _ .done => true
  | _ => false

/-- A step that neither enters a transaction nor has to do with serial mode. -/
structure Plain (i : ℕ) (g : Shared) (x : Thread) (g' : Shared) (x' : Thread) : Prop where
  serialBy : g'.serialBy = g.serialBy
  counter : (g'.status i).counter = (g.status i).counter
  enters : x'.pc.inTx = true → x.pc.inTx = true
  parks : x.pc.parked = true → x'.pc.parked = true
  looks : x'.pc.looking = false

/-- The other steps. -/
inductive Special (modular : Bool) (i : ℕ) (g : Shared) (x : Thread) : Shared → Thread → Prop
  | same : Special modular i g x g x
  | enter {x' : Thread} : x.pc = .chk .load → x.serial = true ∨ g.quiesce ≠ 2 → x'.pc = .run →
      Special modular i g x g x'
  | wake {x' : Thread} {s : Status} : x.pc = .chk (.wait s) → g.quiesce ≠ 2 →
      x'.pc = .chk (.restore s) → Special modular i g x g x'
  | restore {x' : Thread} {s : Status} : x.pc = .chk (.restore s) → x'.pc = .run →
      Special modular i g x (g.setStatus i s) x'
  | begin {s : Status} {x' : Thread} : x'.pc = .chk .load →
      Special modular i g x (g.updateStatus modular i s) x'
  | look {r : Ret} {x' : Thread} : x.pc = .irr r .store → x'.pc = .irr r (.scan g.threads) →
      Special modular i g x { g with quiesce := 2 } x'
  | next {r : Ret} {t : ℕ} {rest : List ℕ} {x' : Thread} : x.pc = .irr r (.scan (t :: rest)) →
      t = i ∨ (g.status t).status.isActive = false → x'.pc = .irr r (.scan rest) →
      Special modular i g x g x'
  | watch {r : Ret} {t : ℕ} {rest : List ℕ} {x' : Thread} : x.pc = .irr r (.scan (t :: rest)) →
      t ≠ i → x'.pc = .irr r (.watch t (g.status t).counter rest) → Special modular i g x g x'
  | watched {r : Ret} {t n : ℕ} {rest : List ℕ} {x' : Thread} : x.pc = .irr r (.watch t n rest) →
      ((g.status t).status.isActive && (g.status t).counter == n) = false →
      x'.pc = .irr r (.scan rest) → Special modular i g x g x'
  | scanned {r : Ret} {x' : Thread} : x.pc = .irr r (.scan []) → x'.pc = .irr r .done →
      Special modular i g x g x'
  | alone {r : Ret} {x' : Thread} : x.serial = false → x'.serial = false →
      x.pc = .irr r .quiesce → x'.pc = .irr r .done → Special modular i g x g x'
  | done {r : Ret} {x' : Thread} : x.pc = .irr r .done → x'.pc = r.pc →
      Special modular i g x { g with serialBy := if x.serial then some i else g.serialBy } x'
  | release {x' : Thread} : x.pc = .com .release → x'.pc = .com .unlock →
      Special modular i g x { g with quiesce := 0, serialBy := none } x'

section Cases

variable {modular wt c : Bool} {vmax i : ℕ} {a : Act} {g g' : Shared} {x x' : Thread}

/-- A step that changes neither `serialBy` nor the own status. -/
theorem Plain.of (hs : g'.serialBy = g.serialBy) (hst : g'.status i = g.status i)
    (he : x'.pc.inTx = true → x.pc.inTx = true) (hp : x.pc.parked = true → x'.pc.parked = true)
    (hl : x'.pc.looking = false) : Plain i g x g' x' :=
  ⟨hs, by rw [hst], he, hp, hl⟩

theorem Plain.setStatus {s : Status} (he : x'.pc.inTx = true → x.pc.inTx = true)
    (hp : x.pc.parked = true → x'.pc.parked = true) (hl : x'.pc.looking = false) :
    Plain i g x (g.setStatus i s) x' :=
  ⟨rfl, by simp [Shared.setStatus], he, hp, hl⟩

theorem barStep_plain {k : Back} {st : Bar} (hpc : x.pc = .bar k st)
    (hs : barStep i k g x st = some (g', x')) : Plain i g x g' x' := by
  cases st with
  | lock | sleep =>
    simp only [barStep, Option.ite_none_right_eq_some, Option.some.injEq, Prod.mk.injEq] at hs
    obtain ⟨-, rfl, rfl⟩ := hs
    exact .of rfl rfl (by simp [Pc.inTx]) (by simp [Pc.parked, Pc.inTx]) rfl
  | test =>
    simp only [barStep] at hs
    split_ifs at hs <;> obtain ⟨rfl, rfl⟩ := hs
    all_goals exact .of rfl rfl (by simp [Pc.inTx]) (by simp [Pc.parked, Pc.inTx]) rfl
  | leave =>
    obtain ⟨rfl, rfl⟩ := hs
    cases k <;> exact .of rfl rfl (by simp [Pc.inTx, Back.pc]) (by simp [Pc.parked, Pc.inTx, Back.pc]) rfl
  | arrive | roll | reset | openUp =>
    obtain ⟨rfl, rfl⟩ := hs
    exact .of rfl rfl (by simp [Pc.inTx]) (by simp [Pc.parked, Pc.inTx]) rfl

theorem comStep_cases {st : Com} (hpc : x.pc = .com st)
    (hs : comStep modular i g x st = some (g', x')) :
    Plain i g x g' x' ∨ Special modular i g x g' x' := by
  have hx : x.pc.inTx = true := by rw [hpc]; rfl
  have hp : x.pc.parked = true → x'.pc.parked = true := by simp [hpc, Pc.parked, Pc.inTx]
  cases st with
  | status =>
    simp only [comStep] at hs
    split_ifs at hs <;> obtain ⟨rfl, rfl⟩ := hs
    · exact .inl (.of rfl rfl (fun _ => hx) hp rfl)
    · exact .inl (.setStatus (fun _ => hx) hp rfl)
    · exact .inl (.of rfl rfl (fun _ => hx) hp rfl)
  | body | post | flag =>
    obtain ⟨rfl, rfl⟩ := hs
    refine .inl (.of rfl rfl (fun _ => hx) hp ?_)
    dsimp only
    split_ifs <;> rfl
  | release =>
    obtain ⟨rfl, rfl⟩ := hs
    exact .inr (.release hpc rfl)
  | unlock =>
    obtain ⟨rfl, rfl⟩ := hs
    exact .inl (.of rfl rfl (fun _ => hx) hp rfl)
  | done =>
    obtain ⟨rfl, rfl⟩ := hs
    exact .inl (.setStatus (fun _ => hx) hp rfl)

theorem rbStep_plain {st : Rb} (hpc : x.pc = .rb st)
    (hs : rbStep modular i g x st = some (g', x')) : Plain i g x g' x' := by
  have hx : x.pc.inTx = true := by rw [hpc]; rfl
  have hp : x.pc.parked = true → x'.pc.parked = true := by simp [hpc, Pc.parked, Pc.inTx]
  cases st with
  | status =>
    simp only [rbStep] at hs
    split_ifs at hs <;> obtain ⟨rfl, rfl⟩ := hs
    · exact .setStatus (fun _ => hx) hp rfl
    · exact .of rfl rfl (fun _ => hx) hp rfl
  | body | post =>
    obtain ⟨rfl, rfl⟩ := hs
    exact .of rfl rfl (fun _ => hx) hp rfl
  | done =>
    obtain ⟨rfl, rfl⟩ := hs
    exact .setStatus (fun _ => hx) hp rfl

theorem chkStep_cases {st : Chk} (hpc : x.pc = .chk st)
    (hs : chkStep i g x st = some (g', x')) :
    Plain i g x g' x' ∨ Special modular i g x g' x' := by
  cases st with
  | load =>
    simp only [chkStep] at hs
    split_ifs at hs with hx hq <;> obtain ⟨rfl, rfl⟩ := hs
    · exact .inr (.enter hpc (.inl hx) rfl)
    · exact .inl (.of rfl rfl (by simp [Pc.inTx]) (by simp [Pc.parked, Pc.inTx]) rfl)
    · exact .inr (.enter hpc (.inr hq) rfl)
  | save =>
    obtain ⟨rfl, rfl⟩ := hs
    exact .inl (.of rfl rfl (by simp [Pc.inTx]) (by simp [Pc.parked, Pc.inTx]) rfl)
  | setIdle s =>
    obtain ⟨rfl, rfl⟩ := hs
    exact .inl (.setStatus (by simp [Pc.inTx]) (by simp [Pc.parked, Pc.inTx]) rfl)
  | wait s =>
    simp only [chkStep] at hs
    split_ifs at hs with hq <;> obtain ⟨rfl, rfl⟩ := hs
    · exact .inr .same
    · exact .inr (.wake hpc hq rfl)
  | restore s =>
    obtain ⟨rfl, rfl⟩ := hs
    exact .inr (.restore hpc rfl)

theorem irrStep_cases (h : Local i g x) {r : Ret} {st : Irr} (hpc : x.pc = .irr r st)
    (hs : irrStep modular i c r g x st = some (g', x')) :
    Plain i g x g' x' ∨ Special modular i g x g' x' := by
  have hp := h.pc
  rw [hpc] at hp
  obtain ⟨-, -, hask, hst⟩ := hp
  -- a step to another position of the same call, or back to the caller
  have stays : ∀ {y : Thread} {st' : Irr}, y.pc = .irr r st' → Pc.looking (.irr r st') = false →
      ∀ {k : Shared}, k.serialBy = g.serialBy → (k.status i).counter = (g.status i).counter →
      Plain i g x k y := by
    intro y st' hy hl k h1 h2
    refine ⟨h1, h2, ?_, ?_, by rw [hy]; exact hl⟩ <;> rw [hpc, hy] <;> cases r <;>
      simp [Pc.inTx, Pc.parked]
  have gives : r = .call → Plain i g x g (rollback x) := by
    rintro rfl
    exact .of rfl rfl (fun _ => by rw [hpc]; rfl) (by simp [hpc, Pc.parked, Pc.inTx]) rfl
  cases st with
  | enter s =>
    simp only [irrStep] at hs
    split_ifs at hs <;> obtain ⟨rfl, rfl⟩ := hs
    · refine .inl (.of rfl rfl ?_ ?_ ?_) <;> cases r <;>
        simp [hpc, Ret.pc, Pc.inTx, Pc.parked, Pc.looking]
    all_goals exact .inl (stays rfl rfl rfl rfl)
  | test | cas | validate | writes =>
    simp only [irrStep] at hs
    split_ifs at hs <;> obtain ⟨rfl, rfl⟩ := hs
    all_goals first | exact .inl (gives hst) | exact .inl (stays rfl rfl rfl rfl)
  | status =>
    simp only [irrStep] at hs
    split_ifs at hs <;> obtain ⟨rfl, rfl⟩ := hs
    · exact .inl (stays rfl rfl rfl (by simp [Shared.setStatus]))
    · exact .inl (gives hst)
    · exact .inl (stays rfl rfl rfl rfl)
  | spin =>
    simp only [irrStep] at hs
    split_ifs at hs <;> obtain ⟨rfl, rfl⟩ := hs
    · exact .inr .same
    · exact .inl (stays rfl rfl rfl rfl)
  | quiesce =>
    simp only [irrStep] at hs
    split_ifs at hs with hx hfree hact <;> obtain ⟨rfl, rfl⟩ := hs
    · exact .inl (stays rfl rfl rfl rfl)
    · refine .inl (gives ?_)
      cases r with
      | call => rfl
      | prepare => exact absurd hact hask.2
    · exact .inr (.alone (by simpa using hx) (by simpa using hx) hpc rfl)
  | store =>
    obtain ⟨rfl, rfl⟩ := hs
    exact .inr (.look hpc rfl)
  | scan rest =>
    cases rest with
    | nil =>
      obtain ⟨rfl, rfl⟩ := hs
      exact .inr (.scanned hpc rfl)
    | cons t rest =>
      simp only [irrStep] at hs
      split_ifs at hs with hti hact hm <;> obtain ⟨rfl, rfl⟩ := hs
      · exact .inr (.next hpc (.inl hti) rfl)
      · exact .inr (.watch hpc hti rfl)
      · exact .inr .same
      · exact .inr (.next hpc (.inr (by simpa using hact)) rfl)
  | watch t n rest =>
    simp only [irrStep] at hs
    split_ifs at hs with hact <;> obtain ⟨rfl, rfl⟩ := hs
    · exact .inr .same
    · exact .inr (.watched hpc (by simpa using hact) rfl)
  | done =>
    obtain ⟨rfl, rfl⟩ := hs
    exact .inr (.done hpc rfl)

theorem goStep_cases (h : Local i g x) (hs : goStep modular vmax i c g x x.pc = some (g', x')) :
    Plain i g x g' x' ∨ Special modular i g x g' x' := by
  cases hpc : x.pc with
  | off | idle | run =>
    rw [hpc] at hs
    exact absurd hs nofun
  | enterLock | exitLock =>
    rw [hpc] at hs
    simp only [goStep, Option.ite_none_right_eq_some, Option.some.injEq, Prod.mk.injEq] at hs
    obtain ⟨-, rfl, rfl⟩ := hs
    exact .inl (.of rfl rfl (by simp [Pc.inTx]) (by simp [Pc.parked, Pc.inTx]) rfl)
  | enterBody | exitBody =>
    rw [hpc] at hs
    obtain ⟨rfl, rfl⟩ := hs
    exact .inl (.of rfl rfl (by simp [Pc.inTx]) (by simp [Pc.parked, Pc.inTx]) rfl)
  | prep =>
    rw [hpc] at hs
    simp only [goStep] at hs
    split_ifs at hs <;> obtain ⟨rfl, rfl⟩ := hs
    all_goals exact .inl (.of rfl rfl (by simp [Pc.inTx]) (by simp [Pc.parked, Pc.inTx]) rfl)
  | prepStatus =>
    rw [hpc] at hs
    simp only [goStep] at hs
    split_ifs at hs <;> obtain ⟨rfl, rfl⟩ := hs
    · exact .inr (.begin rfl)
    · exact .inl (.of rfl rfl (by simp [Pc.inTx]) (by simp [Pc.parked, Pc.inTx]) rfl)
  | prepIrrevocable =>
    rw [hpc] at hs
    obtain ⟨rfl, rfl⟩ := hs
    exact .inr (.begin rfl)
  | bar k st => exact .inl (barStep_plain hpc (by rwa [hpc] at hs))
  | irr r st => exact irrStep_cases h hpc (by rwa [hpc] at hs)
  | chk st => exact chkStep_cases hpc (by rwa [hpc] at hs)
  | com st => exact comStep_cases hpc (by rwa [hpc] at hs)
  | rb st => exact .inl (rbStep_plain hpc (by rwa [hpc] at hs))

/-- `stm_start` begins a transaction, or does nothing but count. -/
theorem stmStart_pc (nr : Bool) (x : Thread) : (stmStart nr x).pc = x.pc ∨ (stmStart nr x).pc = .prep := by
  unfold stmStart
  split_ifs
  · exact .inl rfl
  · exact .inr rfl

theorem outStep_plain (hpc : x.pc = .idle) (hs : outStep vmax i g x a = some (g', x')) :
    Plain i g x g' x' := by
  cases a with
  | exit =>
    simp only [outStep] at hs
    split_ifs at hs
    obtain ⟨rfl, rfl⟩ := hs
    exact .of rfl rfl (by simp [Pc.inTx]) (by simp [Pc.parked, Pc.inTx]) rfl
  | start nr =>
    obtain ⟨rfl, rfl⟩ := hs
    rcases stmStart_pc nr x with h | h <;>
      exact .of rfl rfl (by simp [h, hpc, Pc.inTx]) (by simp [h, hpc, Pc.parked, Pc.inTx])
        (by simp [h, hpc, Pc.looking])
  | unitStore =>
    obtain ⟨rfl, rfl⟩ := hs
    refine .of rfl rfl ?_ ?_ ?_ <;> split_ifs <;> simp [Pc.inTx, Pc.parked, Pc.looking]
  | _ => exact absurd hs.symm (Option.some_ne_none _)

theorem runStep_plain (hpc : x.pc = .run) (hs : runStep modular i g x a = some (g', x')) :
    Plain i g x g' x' := by
  have hx : x.pc.inTx = true := by rw [hpc]; rfl
  have hp : x.pc.parked = true → x'.pc.parked = true := by simp [hpc, Pc.parked, Pc.inTx]
  cases a with
  | start nr =>
    obtain ⟨rfl, rfl⟩ := hs
    refine .of rfl rfl (fun _ => hx) hp ?_
    rcases stmStart_pc nr x with h | h <;> simp [h, hpc, Pc.looking]
  | access =>
    obtain ⟨rfl, rfl⟩ := hs
    exact .of rfl rfl (fun _ => hx) hp (by simp [Thread.stamp, hpc, Pc.looking])
  | abort =>
    obtain ⟨rfl, rfl⟩ := hs
    exact .of rfl rfl (fun _ => hx) hp rfl
  | commit =>
    obtain ⟨rfl, rfl⟩ := hs
    refine .of rfl rfl (fun _ => hx) hp ?_
    dsimp only
    split_ifs <;> rfl
  | setIrrevocable s =>
    obtain ⟨rfl, rfl⟩ := hs
    exact .of rfl rfl (fun _ => hx) hp rfl
  | kill j =>
    simp only [runStep] at hs
    split_ifs at hs with hk
    obtain ⟨rfl, rfl⟩ := hs
    simp only [Bool.and_eq_true, decide_eq_true_eq] at hk
    exact .of rfl (by simp [Shared.setStatus, hk.1.2.symm]) (fun _ => hx) hp (by simp [hpc, Pc.looking])
  | _ => exact absurd hs.symm (Option.some_ne_none _)

theorem stepThread_cases (h : Local i g x) (hs : stepThread modular wt vmax i a g x = some (g', x')) :
    Plain i g x g' x' ∨ Special modular i g x g' x' := by
  unfold stepThread at hs
  split at hs
  · exact goStep_cases h hs
  · rename_i hpc
    obtain ⟨rfl, rfl⟩ := hs
    exact .inl (.of rfl rfl (by simp [Pc.inTx]) (by simp [Pc.parked, Pc.inTx]) rfl)
  · rename_i hpc
    exact .inl (outStep_plain hpc hs)
  · rename_i hpc
    exact .inl (runStep_plain hpc hs)
  all_goals first
    | cases hs; done
    | rename_i hpc
      try split_ifs at hs
      obtain ⟨rfl, rfl⟩ := hs
      exact .inl (.of rfl rfl (fun _ => by rw [hpc]; rfl) (by simp [hpc, Pc.parked, Pc.inTx])
        (by simp [hpc, Thread.stamp, rollback, Pc.looking]))

end Cases

/-! ### The invariant -/

/-- A thread that somebody has looked at is not in a transaction; a thread whose change
of attempt somebody is waiting for has not reached one either, once it has changed. -/
structure Excl (s : State) : Prop where
  stopped : ∀ p q, q ≠ p → passed s.shared p (s.loc p) q = true → (s.loc q).pc.inTx = false
  watching : ∀ p r t n rest, (s.loc p).pc = .irr r (.watch t n rest) →
    t ≠ p ∧ ((s.shared.status t).counter = n ∨ (s.loc t).pc.parked = true)

theorem excl_initial : Excl initial where
  stopped p q _ h := by simp [passed, initial] at h
  watching p r t n rest h := by simp [initial] at h

theorem parked_irr (r : Ret) (st : Irr) : (Pc.irr r st).parked = decide (r = .prepare) := by
  cases r <;> rfl

theorem inTx_of_parked {pc : Pc} (h : pc.parked = true) : pc.inTx = false := by
  unfold Pc.parked at h
  split at h
  · simp at h
  · simpa using h

section Excl

variable {modular wt : Bool} {vmax : ℕ} {s : State} {i p : ℕ} {a : Act} {g' : Shared} {x' : Thread}

/-- While another thread holds the mutex with `quiesce` set, nobody in serial mode is
at the check. -/
theorem check_waits (hg : SerialOk s.shared) (hl : Local i s.shared (s.loc i))
    (hm : s.shared.mutex = some p) (hpi : p ≠ i) (hq : s.shared.quiesce = 2)
    (hpc : (s.loc i).pc = .chk .load) : ¬ ((s.loc i).serial = true ∨ s.shared.quiesce ≠ 2) := by
  rintro (hx | hne)
  · have hp := hl.pc
    rw [hpc] at hp
    have h3 : (s.loc i).level = 3 := hp.2.2.1.resolve_left (hl.serial hx)
    have := (hg i (hp.2.1 h3 hx)).1
    rw [hm, Option.some.injEq] at this
    exact hpi this
  · exact hne hq

/-- Only a restored status takes a thread into a transaction then. -/
theorem enters_of_cases (hg : SerialOk s.shared) (hl : Local i s.shared (s.loc i))
    (hc : Plain i s.shared (s.loc i) g' x' ∨ Special modular i s.shared (s.loc i) g' x')
    (hm : s.shared.mutex = some p) (hpi : p ≠ i) (hq : s.shared.quiesce = 2)
    (hx : (s.loc i).pc.inTx = false) :
    x'.pc.inTx = false ∨ ∃ st, (s.loc i).pc = .chk (.restore st) := by
  rcases hc with hc | hc
  · left
    by_contra hne
    have := hc.enters (by simpa using hne)
    simp [hx] at this
  · have hlocked : ∀ {r st}, (s.loc i).pc = .irr r st → IrrOk i s.shared (s.loc i) r st := by
      intro r st hpc
      have hp := hl.pc
      rw [hpc] at hp
      exact hp.2.2.2
    have hother : ∀ {q}, s.shared.mutex = some q → q = p := by
      intro q hq'
      rw [hm, Option.some.injEq] at hq'
      exact hq'.symm
    cases hc with
    | same => exact .inl hx
    | enter hpc hor hrun => exact absurd hor (check_waits hg hl hm hpi hq hpc)
    | wake hpc hne hr => exact absurd hq hne
    | restore hpc hr => exact .inr ⟨_, hpc⟩
    | begin hb => exact .inl (by rw [hb]; rfl)
    | look hpc hb => exact absurd (hother (hlocked hpc).2.1) (Ne.symm hpi)
    | next hpc _ hb => exact absurd (hother (hlocked hpc).2.1.1) (Ne.symm hpi)
    | watch hpc _ hb => exact absurd (hother (hlocked hpc).2.1.1) (Ne.symm hpi)
    | watched hpc _ hb => exact absurd (hother (hlocked hpc).2.1.1) (Ne.symm hpi)
    | scanned hpc hb => exact absurd (hother (hlocked hpc).2.1.1) (Ne.symm hpi)
    | @alone r _ _ _ hpc hb =>
      left
      rw [hpc] at hx
      rw [hb]
      cases r with
      | call => simp [Pc.inTx] at hx
      | prepare => rfl
    | @done r _ hpc hb =>
      left
      rw [hpc] at hx
      rw [hb]
      cases r with
      | call => simp [Pc.inTx] at hx
      | prepare => rfl
    | release hpc hb =>
      rw [hpc] at hx
      simp [Pc.inTx] at hx

/-- The serial thread only changes by its own steps. -/
theorem serialBy_of_cases
    (hc : Plain i s.shared (s.loc i) g' x' ∨ Special modular i s.shared (s.loc i) g' x')
    (hpi : p ≠ i) (h : g'.serialBy = some p) : s.shared.serialBy = some p := by
  rcases hc with hc | hc
  · exact hc.serialBy ▸ h
  · cases hc with
    | done hpc hb =>
      dsimp only at h
      split_ifs at h
      · exact absurd (Option.some.inj h).symm hpi
      · exact h
    | release hpc hb => exact absurd h nofun
    | _ => exact h

theorem passed_of_not_looking {g : Shared} {x : Thread} {q : ℕ} (hx : x.pc.looking = false)
    (h : passed g p x q = true) : g.serialBy = some p := by
  rw [passed, Bool.or_eq_true, beq_iff_eq] at h
  rcases h with h | h
  · exact h
  · split at h <;> simp_all [Pc.looking]

theorem passed_of_serialBy {g : Shared} (x : Thread) (q : ℕ) (h : g.serialBy = some p) :
    passed g p x q = true := by
  simp [passed, h]

/-- A thread looks at another one only when that is outside its transactions. -/
theorem stopped_self (hl : ∀ i, Local i s.shared (s.loc i)) (h : Excl s)
    (hc : Plain i s.shared (s.loc i) g' x' ∨ Special modular i s.shared (s.loc i) g' x')
    {q : ℕ} (hq : q ≠ i) (hx : passed g' i x' q = true) : (s.loc q).pc.inTx = false := by
  have hold : passed s.shared i (s.loc i) q = true → (s.loc q).pc.inTx = false := h.stopped i q hq
  have hser : s.shared.serialBy = some i → (s.loc q).pc.inTx = false :=
    fun hs => hold (passed_of_serialBy _ _ hs)
  have hinact : (s.shared.status q).status.isActive = false → (s.loc q).pc.inTx = false := by
    intro hin
    by_contra hne
    have := (hl q).active_of_inTx (by simpa using hne)
    simp [Active, hin] at this
  rcases hc with hc | hc
  · exact hser (hc.serialBy ▸ passed_of_not_looking hc.looks hx)
  · cases hc with
    | same => exact hold hx
    | enter _ _ hb | wake _ _ hb | begin hb | restore _ hb =>
      exact hser (passed_of_not_looking (by rw [hb]; rfl) hx)
    | look hpc hb =>
      rw [passed, hb, Bool.or_eq_true, beq_iff_eq] at hx
      rcases hx with hx | hx
      · exact hser hx
      · by_contra hne
        have := (hl q).reg_of_inTx (by simpa using hne)
        simp [this] at hx
    | @next r t rest _ hpc hor hb =>
      by_cases hqt : q = t
      · subst hqt
        exact hinact (hor.resolve_left hq)
      · apply hold
        rw [passed, hb] at hx
        rw [passed, hpc]
        simpa [hqt] using hx
    | @watch r t rest _ hpc hti hb =>
      apply hold
      rw [passed, hb] at hx
      rw [passed, hpc]
      simpa using hx
    | @watched r t n rest _ hpc hne hb =>
      by_cases hqt : q = t
      · subst hqt
        rcases (h.watching i r q n rest hpc).2 with hn | hp
        · exact hinact (by simpa [hn] using hne)
        · exact inTx_of_parked hp
      · apply hold
        rw [passed, hb] at hx
        rw [passed, hpc]
        simpa [hqt] using hx
    | scanned hpc hb =>
      apply hold
      rw [passed, hpc]
      simp
    | alone hx₀ hx₁ hpc hb =>
      rw [passed, hb, hx₁] at hx
      exact hser (by simpa using hx)
    | @done r _ hpc hb =>
      have hs := passed_of_not_looking (by rw [hb]; cases r <;> rfl) hx
      dsimp only at hs
      split_ifs at hs with hser'
      · apply hold
        rw [passed, hpc]
        simp [hser']
      · exact hser hs
    | release hpc hb =>
      have := passed_of_not_looking (by rw [hb]; rfl) hx
      simp at this

/-- A thread that is watched either keeps its counter or stays outside. -/
theorem watched_step (hg : SerialOk s.shared) (hl : Local i s.shared (s.loc i))
    (hc : Plain i s.shared (s.loc i) g' x' ∨ Special modular i s.shared (s.loc i) g' x')
    (hm : s.shared.mutex = some p) (hpi : p ≠ i) (hq : s.shared.quiesce = 2) {n : ℕ}
    (h : (s.shared.status i).counter = n ∨ (s.loc i).pc.parked = true) :
    (g'.status i).counter = n ∨ x'.pc.parked = true := by
  rcases hc with hc | hc
  · rw [hc.counter]
    exact h.imp_right hc.parks
  · cases hc with
    | same => exact h
    | enter hpc hor hb => exact absurd hor (check_waits hg hl hm hpi hq hpc)
    | wake hpc hne hb => exact absurd hq hne
    | restore hpc hb =>
      rw [hpc] at h
      exact .inl (by simpa [Shared.setStatus, Pc.parked] using h)
    | begin hb => exact .inr (by rw [hb]; rfl)
    | look hpc hb | next hpc _ hb | watch hpc _ hb | watched hpc _ hb | scanned hpc hb
    | alone _ _ hpc hb =>
      refine h.imp_right fun hp => ?_
      rw [hpc, parked_irr] at hp
      rw [hb, parked_irr, hp]
    | @done r _ hpc hb =>
      refine h.imp_right fun hp => ?_
      rw [hpc] at hp
      rw [hb]
      cases r <;> simp_all [Pc.parked, Pc.inTx, Ret.pc]
    | release hpc hb =>
      rw [hpc] at h
      exact .inl (by simpa [Pc.parked, Pc.inTx] using h)

/-- One step keeps the invariant. -/
theorem Excl.step (hg : SerialOk s.shared) (hl : ∀ i, Local i s.shared (s.loc i)) (h : Excl s)
    (hok : RestoreOk s i a)
    (hs : stepThread modular wt vmax i a s.shared (s.loc i) = some (g', x')) :
    Excl ⟨g', Function.update s.loc i x'⟩ := by
  have hc := stepThread_cases (hl i) hs
  have hother := (stepThread_ok hg (hl i) hs).others
  constructor
  · intro p q hqp hp
    dsimp only at hp ⊢
    by_cases hpi : p = i
    · subst hpi
      rw [Function.update_self] at hp
      simpa only [Function.update_of_ne hqp] using stopped_self hl h hc hqp hp
    · rw [Function.update_of_ne hpi] at hp
      have hp' : passed s.shared p (s.loc p) q = true := by
        rw [passed, Bool.or_eq_true, beq_iff_eq] at hp ⊢
        exact hp.imp_left (serialBy_of_cases hc hpi)
      have hstop := h.stopped p q hqp hp'
      by_cases hqi : q = i
      · subst hqi
        obtain ⟨hm, hq2⟩ := (hl p).of_passed hg hp'
        rw [Function.update_self]
        rcases enters_of_cases hg (hl q) hc hm hpi hq2 hstop with hin | ⟨st, hst⟩
        · exact hin
        · simp only [RestoreOk, hst, hm, hpi, false_or] at hok
          simp [hp'] at hok
      · simpa only [Function.update_of_ne hqi] using hstop
  · intro p r t n rest hp
    dsimp only at hp ⊢
    by_cases hpi : p = i
    · subst hpi
      rw [Function.update_self] at hp
      rcases hc with hc | hc
      · have := hc.looks
        simp [hp, Pc.looking] at this
      · cases hc with
        | same =>
          obtain ⟨htp, hw⟩ := h.watching p r t n rest hp
          exact ⟨htp, by simpa only [Function.update_of_ne htp] using hw⟩
        | watch hpc htp hb =>
          rw [hb] at hp
          cases hp
          exact ⟨htp, .inl rfl⟩
        | @done r' _ hpc hb =>
          rw [hb] at hp
          cases r' <;> simp [Ret.pc] at hp
        | enter _ _ hb | wake _ _ hb | begin hb | restore _ hb | look _ hb | next _ _ hb
        | watched _ _ hb | scanned _ hb | alone _ _ _ hb | release _ hb =>
          rw [hb] at hp
          simp at hp
    · rw [Function.update_of_ne hpi] at hp
      obtain ⟨htp, hw⟩ := h.watching p r t n rest hp
      refine ⟨htp, ?_⟩
      have hlp := (hl p).pc
      rw [hp] at hlp
      by_cases hti : t = i
      · subst hti
        rw [Function.update_self]
        exact watched_step hg (hl t) hc hlp.2.2.2.2.1.1 hpi hlp.2.2.2.2.2 hw
      · rw [Function.update_of_ne hti, show (g'.status t).counter = _ from (hother t hti).counter]
        exact hw

end Excl

/-- The mode is exclusive in every state of a run in which no status is restored after
the next serial transaction has looked at the thread: from the moment
`stm_set_irrevocable` returns 1 in serial mode to `stm_quiesce_release`, no other thread
is in a transaction, so none can load, store or commit. -/
theorem serial_exclusive {modular wt : Bool} {vmax : ℕ} {s : State}
    (h : Interleave.Run (system modular wt vmax) RestoreOk initial s) {p q : ℕ}
    (hp : s.shared.serialBy = some p) (hq : q ≠ p) : (s.loc q).pc.inTx = false := by
  have hinv : (SerialOk s.shared ∧ ∀ i, Local i s.shared (s.loc i)) ∧ Excl s := by
    clear hp
    induction h with
    | refl => exact ⟨@run_local modular wt vmax RestoreOk _ .refl, excl_initial⟩
    | tail hr hok hm ih =>
      refine ⟨run_local (.tail hr hok hm), ?_⟩
      obtain ⟨g, x, hs, rfl⟩ := Interleave.move_eq_some hm
      exact ih.2.step ih.1.1 ih.1.2 hok hs
  exact hinv.2.stopped p q hq (passed_of_serialBy _ _ hp)

def goes (n : ℕ) : List Act := List.replicate n (.go true)

def register (i : ℕ) : List (ℕ × Act) := turn i (.init :: goes 2)

/-- Thread 0 starts a transaction and makes it irrevocable in serial mode. -/
def becomeSerial : List (ℕ × Act) :=
  turn 0 (.start false :: goes 3 ++ .setIrrevocable true :: goes 5 ++ .go false :: goes 6)

/-- Thread 1 starts a transaction and finds `quiesce` set. -/
def startAndWait : List (ℕ × Act) := turn 1 (.start false :: goes 5)

/-- Thread 0 commits and releases the other threads. -/
def commitSerial : List (ℕ × Act) := turn 0 (.commit :: goes 6)

theorem serial_exclusive_waiting :
    ∃ s, Interleave.Run (system false false 10) RestoreOk initial s ∧ s.shared.serialBy = some 0 ∧
      (s.loc 1).pc = .chk (.wait .active) ∧ (s.loc 1).pc.inTx = false := by
  obtain ⟨s, hr, hs, hw⟩ := Interleave.exists_run_of_exec (system false false 10) RestoreOk initial
    (register 0 ++ register 1 ++ becomeSerial ++ startAndWait)
    (fun s => s.shared.serialBy = some 0 ∧ (s.loc 1).pc = .chk (.wait .active))
    (by decide +kernel)
  exact ⟨s, hr, hs, hw, serial_exclusive hr hs (by decide)⟩

/-- Back-to-back serial transactions: thread 1 sees `quiesce` drop, the second serial
transaction looks at it while its status is still idle, and then it goes on. -/
theorem serial_overtaken :
    ∃ s, Interleave.Run (system false false 10) (fun _ _ _ => True) initial s ∧
      s.shared.serialBy = some 0 ∧ (s.loc 1).pc = .run ∧ (s.shared.status 1).status = .active :=
  Interleave.exists_run_of_exec (system false false 10) _ initial
    (register 0 ++ register 1 ++ becomeSerial ++ startAndWait ++ commitSerial ++ turn 1 (goes 1) ++
      becomeSerial ++ turn 1 (.go true :: [.access]))
    (fun s => s.shared.serialBy = some 0 ∧ (s.loc 1).pc = .run ∧
      (s.shared.status 1).status = .active)
    (by decide +kernel)

end TinyStm.Quiesce
