import TinyStm.Irrev.Stages
import TinyStm.Serial

/-!
# An irrevocable transaction waits

Once `stm_set_irrevocable` has returned 1 a conflict makes the transaction wait, with two exceptions: the
acquisition of the commit-time design rolls back on a lock that somebody else owns, whoever commits, and
`stm_write` rolls a read-only transaction back before it looks at `tx->irrevocable`.
-/

namespace TinyStm.Irrev

open Interleave

variable {w : ℕ} {b : Build} {tid : ℕ}

/-- `stm_irrevocable` (`stm.c:3515-3520`). -/
def stmIrrevocable (x : Thread w) : Bool := x.level == 3

/-- The steps at which `stm_rollback` is called whether or not the transaction is irrevocable: a store of a
read-only transaction, and an owned lock in the acquisition loop of the commit-time design. -/
def slips (b : Build) (tid : ℕ) (act : Act w) (g : Shared w) (x : Thread w) : Bool :=
  match act with
  | .stm (.store _ _ _) => x.tx.ro && !x.serial
  | .stm .go => commitBlocked b tid g x.tx
  | _ => false

/-- The lock that the call in progress looks at next and the place where it waits for it. -/
def waitsAt : Pc w → Option (ℕ × Pc w)
  | .readLock a => some (a, .readLock a)
  | .readLock2 a _ _ => some (a, .readLock a)
  | .writeLock a v m => some (a, .writeLock a v m)
  | .writeCas a v m _ => some (a, .writeLock a v m)
  | _ => none

/-! ### After a step of the machine -/

@[simp] theorem restart_tx (x : Thread w) : (restart x).tx = x.tx := by
  unfold restart granted enter
  split
  · rfl
  · split <;> rfl
  · rfl

@[simp] theorem settle_tx (g : Shared w) (x : Thread w) (y : Tx w) : (settle b g x y).tx = y := by
  unfold settle
  simp only
  split
  · split
    · rw [restart_tx]
    · split <;> rfl
  · split <;> rfl
  · split
    · split <;> rfl
    · split <;> rfl
    · rfl
  · rfl

theorem restart_level {x : Thread w} (h : x.level = 3) : restart x = x := by
  simp only [restart, h]

/-- An irrevocable transaction stays so. -/
theorem settle_level {g : Shared w} {x : Thread w} {y : Tx w} (h : x.level = 3) :
    (settle b g x y).level = 3 := by
  unfold settle
  simp only [h]
  split
  · split
    · rw [restart_level rfl]
    · split <;> rfl
  · split <;> rfl
  · split
    · split <;> rfl
    · split <;> rfl
    · rfl
  · rfl

/-- Nothing is loaded, and the call goes on. -/
theorem settle_goto {g : Shared w} {x : Thread w} {p : Pc w} (hr : p ≠ .run) (hc : p ≠ .commitInc)
    (hi : p ≠ .idle) : settle b g x { x.tx with pc := p } = { x with tx := { x.tx with pc := p } } := by
  have hload : loaded b g x.tx { x.tx with pc := p } = [] := by
    unfold loaded
    split
    · rfl
    · simp
  unfold settle
  simp only [hload, List.append_nil, lt_irrefl, decide_false, Bool.or_false]

section Step

variable (he : b.extraTick = false)
include he

/-- The calls that do not abort the transaction themselves. -/
theorem roll_stepRun {g g' : Shared w} {x y : Tx w} (hp : x.pc = .run) {act : TinyStm.Act w}
    (ha : act ≠ .abort) (h : stepRun b tid g x act = some (g', y)) :
    rolling y.pc = match act with
      | .store _ _ _ => x.ro
      | _ => false := by
  cases act with
  | load a =>
    cases h
    unfold loadStart loadReturns
    simp only [opEnd_eq he]
    split
    · split
      · split <;> rfl
      · rfl
    · rfl
  | store a v m =>
    cases h
    unfold storeStart
    split
    · next hro => exact (rolling_rollback x _).trans hro.symm
    · next hro => simp [rolling, hro]
  | commit =>
    simp only [stepRun, commitStart] at h
    split at h
    · cases h
      rfl
    · split at h <;> cases h <;> rfl
  | abort => exact absurd rfl ha
  | setExtension en ts =>
    cases h
    cases ts <;> simp [setExtension, hp, rolling]
  | tick => simp [stepRun, he] at h
  | _ => cases h

/-- The steps of an irrevocable transaction, outside the stages. -/
theorem stepStm_irrevocable {act : TinyStm.Act w} {g g' : Glob w} {x y : Thread w} (h3 : x.level = 3)
    (hplain : checking x.tx.pc = false) (ha : act ≠ .abort) (hroll : rolling x.tx.pc = false)
    (h : stepStm b tid act g x = some (g', y)) :
    y.level = 3 ∧ rolling y.tx.pc = match act with
      | .store _ _ _ => x.tx.ro
      | .go => commitBlocked b tid g.stm x.tx
      | _ => false := by
  obtain ⟨⟨g₁, z⟩, hstep, hr⟩ := Option.map_eq_some_iff.mp h
  cases hr
  refine ⟨settle_level h3, ?_⟩
  rw [settle_tx]
  by_cases hgo : act = .go
  · subst hgo
    simp only [h3, decide_true, ne_eq, OfNat.ofNat_ne_zero, not_false_eq_true, Bool.and_self,
      if_true] at hstep
    exact (flow_stepGo he hplain hstep).rolls hroll
  · simp only [hgo, decide_false, Bool.false_and, Bool.false_eq_true, if_false] at hstep
    obtain ⟨-, hp⟩ := stepTx_pc he hgo hstep
    have hz : stepTx b tid act g.stm x.tx = some (g₁, z) := hstep
    rcases hp with hp | hp
    · have hrun : stepRun b tid g.stm x.tx act = some (g₁, z) := by
        cases act <;> first | exact absurd rfl hgo | simpa only [stepTx, hp] using hz | simp [stepTx, hp, he] at hz
      rw [roll_stepRun he hp ha hrun]
      cases act <;> first | rfl | exact absurd rfl hgo
    · cases act with
      | go => exact absurd rfl hgo
      | abort => exact absurd rfl ha
      | start ro =>
        simp only [stepTx, hp, stepIdle] at hz
        cases hz
        rfl
      | unitStore a v m ts =>
        simp only [stepTx, hp, stepIdle] at hz
        cases hz
        rfl
      | unitLoad a =>
        simp only [stepTx, hp, stepIdle] at hz
        cases hz
        rfl
      | _ => simp [stepTx, hp, stepIdle, he] at hz

/-- The stages an irrevocable transaction gets to. -/
theorem stepStage_irrevocable {g g' : Glob w} {x y : Thread w} (hx : Staged x) (h3 : x.level = 3)
    (hroll : rolling x.tx.pc = false) (h : stepStage b tid g x = some (g', y)) :
    y.level = 3 ∧ rolling y.tx.pc = commitBlocked b tid g.stm x.tx := by
  have hplain : checking x.tx.pc = false := hx.level.plain (by omega)
  have hok := hx.stage
  have hno : ∀ g₀, x.stage ≠ .none → commitBlocked b tid g₀ x.tx = false := by
    intro g₀ hst
    refine not_blocked fun i hi => ?_
    cases hs : x.stage with
    | none => exact hst hs
    | check c =>
      rw [hs] at hok
      cases c <;> exact absurd hok.1 (by omega)
    | _ =>
      rw [hs] at hok
      simp [Stage.Ok, hi] at hok
  unfold stepStage at h
  cases hst : x.stage with
  | none => simp [hst] at h
  | inc =>
    simp only [hst] at h
    obtain ⟨hl, hr⟩ := stepStm_irrevocable he (x := { x with stage := .none }) h3 hplain (by simp) hroll h
    exact ⟨hl, hr.trans ((hno _ (by simp [hst])).trans (hno _ (by simp [hst])).symm)⟩
  | merge a v m =>
    simp only [hst] at h
    cases h
    exact ⟨h3, hroll.trans (hno _ (by simp [hst])).symm⟩
  | put a v =>
    simp only [hst] at h
    cases h
    exact ⟨h3, hroll.trans (hno _ (by simp [hst])).symm⟩
  | release =>
    simp only [hst] at h
    cases h
    exact ⟨h3, hroll.trans (hno _ (by simp [hst])).symm⟩
  | check c =>
    rw [hst] at hok
    cases c <;> exact absurd hok.1 (by omega)
  | _ =>
    rw [hst] at hok
    have := hok.1
    omega

/-- Outside the stages. -/
theorem stepNone_irrevocable {act : TinyStm.Act w} {g g' : Glob w} {x y : Thread w} (hx : Staged x)
    (h3 : x.level = 3) (ha : act ≠ .abort) (hroll : rolling x.tx.pc = false)
    (h : stepNone b tid act g x = some (g', y)) :
    ((∀ ro, act ≠ .start ro) → y.level = 3) ∧ rolling y.tx.pc = slips b tid (.stm act) g.stm x := by
  have hplain : checking x.tx.pc = false := hx.level.plain (by omega)
  have hstm : ∀ {g₀ : Glob w}, g₀.stm = g.stm → x.serial = false ∨ (∀ a v m, act ≠ .store a v m) →
      stepStm b tid act g₀ x = some (g', y) →
      ((∀ ro, act ≠ .start ro) → y.level = 3) ∧ rolling y.tx.pc = slips b tid (.stm act) g.stm x := by
    intro g₀ hg hser h'
    obtain ⟨hl, hr⟩ := stepStm_irrevocable he h3 hplain ha hroll h'
    rw [hg] at hr
    refine ⟨fun _ => hl, hr.trans ?_⟩
    rcases hser with hser | hser
    · cases act <;> simp [slips, hser]
    · cases act <;> first | rfl | exact absurd rfl (hser _ _ _)
  have hcommit : (g.commit tid x).stm = g.stm := by
    unfold Glob.commit
    split <;> rfl
  have hstore : ∀ {p : Pc w}, x.tx.pc = p → p ≠ .run → ∀ {a v m}, act = .store a v m →
      stepStm b tid act g x = some (g', y) → False := by
    intro p hp hne a v m hst h'
    subst hst
    obtain ⟨⟨g₁, z⟩, hstep, -⟩ := Option.map_eq_some_iff.mp h'
    simp only [reduceCtorEq, decide_false, Bool.false_and, Bool.false_eq_true, if_false, stepTx] at hstep
    split at hstep
    · simp [stepIdle] at hstep
    · next hrun => exact hne (hp.symm.trans hrun)
    · cases hstep
  unfold stepNone at h
  split at h
  · unfold call at h
    split at h
    · split at h
      · cases h
        exact ⟨fun _ => h3, hroll⟩
      · exact hstm rfl (.inr (by simp)) h
    · split at h
      · next hser =>
        split at h
        · cases h
          exact ⟨fun _ => h3, by simp [slips, hser, hroll]⟩
        · cases h
          exact ⟨fun _ => h3, by simp [slips, hser, hroll]⟩
      · next hser => exact hstm rfl (.inl (by simpa using hser)) h
    · split at h
      · exact hstm hcommit (.inr (by simp)) h
      · split at h
        · next hc =>
          simp only [Bool.and_eq_true, decide_eq_true_eq] at hc
          omega
        · exact hstm rfl (.inr (by simp)) h
    · next hl hs hc => exact hstm rfl (.inr hs) h
  · next hp =>
    split at h
    · next ro =>
      obtain ⟨⟨g₁, z⟩, hstep, hr⟩ := Option.map_eq_some_iff.mp h
      cases hr
      refine ⟨fun hs => absurd rfl (hs ro), ?_⟩
      rw [settle_tx]
      simp only [stepTx, hp, stepIdle] at hstep
      cases hstep
      rfl
    · exact hstm rfl (.inr fun a v m hst => hstore hp (by simp) hst h) h
  · next hr hi => exact hstm rfl (.inr fun a v m hst => hstore rfl hr hst h) h

/-- A step of an irrevocable transaction enters `stm_rollback` only where `slips` says so. -/
theorem step_irrevocable {act : Act w} {g g' : Glob w} {x y : Thread w} (hx : Staged x)
    (h3 : x.level = 3) (ha : act ≠ .stm .abort) (hroll : rolling x.tx.pc = false)
    (h : step b tid act g x = some (g', y)) :
    ((∀ ro, act ≠ .stm (.start ro)) → y.level = 3) ∧ rolling y.tx.pc = slips b tid act g.stm x := by
  unfold Irrev.step at h
  cases act with
  | setIrrevocable s =>
    simp only at h
    split at h
    · cases h
      have hset : setIrrevocable s x = x := by
        unfold setIrrevocable
        rw [if_neg (by omega), restart_level h3]
      rw [hset]
      exact ⟨fun _ => h3, hroll⟩
    · cases h
  | quiesce ok =>
    simp only [stepQuiesce] at h
    split at h
    · next r hst =>
      have hok := hx.stage
      rw [hst] at hok
      have := hok.1
      omega
    · cases h
  | stm act =>
    simp only at h
    split at h
    · obtain ⟨hl, hr⟩ := stepNone_irrevocable he hx h3 (fun h' => ha (by rw [h'])) hroll h
      exact ⟨fun hs => hl fun ro h' => hs ro (by rw [h']), hr⟩
    · split at h
      · next hgo =>
        subst hgo
        obtain ⟨hl, hr⟩ := stepStage_irrevocable he hx h3 hroll h
        exact ⟨fun _ => hl, hr⟩
      · cases h

omit he in
/-- A call that finds its lock owned by somebody else starts over. -/
theorem stepGo_waits {g g' : Shared w} {x y : Tx w} {a : ℕ} {p : Pc w} (hp : waitsAt x.pc = some (a, p))
    (ht : taken tid (g.lock (b.getLock w a)) = true) (h : stepGo b tid g x = some (g', y)) :
    g' = g ∧ y = { x with pc := p } := by
  have hread : readDispatch b tid x a (g.lock (b.getLock w a)) = { x with pc := .readLock a } := by
    revert ht
    generalize g.lock (b.getLock w a) = l
    intro ht
    obtain ⟨ver, none | ⟨t, i⟩ | t⟩ := l
    · cases ht
    · have hf : foreign tid ⟨ver, some (.entry t i)⟩ = true := ht
      rw [readDispatch, if_pos hf]
    · rfl
  have hne : ∀ l : Ver, g.lock (b.getLock w a) ≠ ⟨l, none⟩ := by
    intro l hl
    rw [hl] at ht
    cases ht
  cases hpc : x.pc with
  | readLock a' =>
    rw [hpc] at hp
    cases hp
    simp only [stepGo, hpc, hread] at h
    cases h
    exact ⟨rfl, rfl⟩
  | readLock2 a' l v =>
    rw [hpc] at hp
    cases hp
    simp only [stepGo, hpc, readLock2Step, hne, ne_eq, not_false_eq_true, if_true, hread] at h
    cases h
    exact ⟨rfl, rfl⟩
  | writeLock a' v m =>
    rw [hpc] at hp
    cases hp
    have hx : { x with pc := .writeLock a v m } = x := by rw [← hpc]
    have hw : writeLockStep b tid a v m g x = x := by
      unfold writeLockStep TinyStm.writeLockStep
      simp only
      revert ht
      generalize g.lock (b.getLock w a) = l
      intro ht
      obtain ⟨ver, none | ⟨t, i⟩ | t⟩ := l
      · cases ht
      · have hf : foreign tid ⟨ver, some (.entry t i)⟩ = true := ht
        rw [if_pos hf]
      · rfl
    simp only [stepGo, hpc, hw] at h
    cases h
    exact ⟨rfl, hx.symm⟩
  | writeCas a' v m l =>
    rw [hpc] at hp
    cases hp
    simp only [stepGo, hpc, TinyStm.stepGo, writeCasStep, hne, if_false] at h
    cases h
    exact ⟨rfl, rfl⟩
  | _ => simp [hpc, waitsAt] at hp

theorem step_waits {act : Act w} {g g' : Glob w} {x y : Thread w} (hx : Staged x) (h3 : x.level = 3)
    {a : ℕ} {p : Pc w} (hp : waitsAt x.tx.pc = some (a, p))
    (ht : taken tid (g.stm.lock (b.getLock w a)) = true) (h : step b tid act g x = some (g', y)) :
    g' = g ∧ y = { x with tx := { x.tx with pc := p } } := by
  have hpc : x.tx.pc ≠ .run ∧ x.tx.pc ≠ .idle ∧ x.tx.pc ≠ .commitInc := by
    refine ⟨?_, ?_, ?_⟩ <;> intro hr <;> simp [hr, waitsAt] at hp
  have hpp : p ≠ .run ∧ p ≠ .commitInc ∧ p ≠ .idle := by
    revert hp
    cases x.tx.pc <;> simp only [waitsAt, Option.some.injEq, Prod.mk.injEq, reduceCtorEq,
      false_implies] <;> rintro ⟨-, rfl⟩ <;> simp
  have hst : x.stage = .none := by
    have hok := hx.stage
    cases hs : x.stage with
    | none => rfl
    | check c =>
      rw [hs] at hok
      cases c <;> exact absurd hok.1 (by omega)
    | _ =>
      rw [hs] at hok
      exact absurd hok.2 (by simp [hpc])
  unfold Irrev.step at h
  cases act with
  | setIrrevocable s => simp [hst, hpc] at h
  | quiesce ok => simp [stepQuiesce, hst] at h
  | stm act =>
    simp only [hst, if_true] at h
    have h' : stepStm b tid act g x = some (g', y) := by
      unfold stepNone at h
      split at h
      · next hr => exact absurd hr hpc.1
      · next hi => exact absurd hi hpc.2.1
      · exact h
    obtain ⟨⟨g₁, z⟩, hstep, hr⟩ := Option.map_eq_some_iff.mp h'
    by_cases hgo : act = .go
    · subst hgo
      simp only [h3, decide_true, ne_eq, OfNat.ofNat_ne_zero, not_false_eq_true, Bool.and_self,
        if_true] at hstep
      obtain ⟨rfl, rfl⟩ := stepGo_waits hp ht hstep
      cases hr
      exact ⟨rfl, settle_goto hpp.1 hpp.2.1 hpp.2.2⟩
    · simp only [hgo, decide_false, Bool.false_and, Bool.false_eq_true, if_false] at hstep
      rcases (stepTx_pc he hgo hstep).2 with hr' | hi
      · exact absurd hr' hpc.1
      · exact absurd hi hpc.2.1

end Step

/-! ### Every run -/

/-- The steps of the others, and those of thread `i` inside its transaction that neither abort it nor
slip. -/
def Careful (b : Build) (i : ℕ) (s : State w) (j : ℕ) (act : Act w) : Prop :=
  j = i → act ≠ .stm .abort ∧ act ≠ .stm (.start true) ∧ act ≠ .stm (.start false) ∧
    slips b i act s.shared.stm (s.loc i) = false

instance (b : Build) (i : ℕ) (s : State w) (j : ℕ) (act : Act w) : Decidable (Careful b i s j act) :=
  inferInstanceAs (Decidable (_ → _))

/-- Once `stm_set_irrevocable` has returned 1 for thread `i`, a run whose steps are careful never takes
the thread to `stm_rollback`. In every state reached a step enters `stm_rollback` exactly if it slips
or is `stm_abort`, and a lock that somebody else owns makes a call start over. -/
theorem stm_irrevocable_exact (b : Build) (he : b.extraTick = false) (s₀ s s' : State w)
    (hi : Initial s₀) (hr : Run (system b w) (fun _ _ _ => True) s₀ s) (i : ℕ)
    (hirr : stmIrrevocable (s.loc i) = true) (hret : (s.loc i).tx.pc = .run)
    (hr' : Run (system b w) (Careful b i) s s') :
    (stmIrrevocable (s'.loc i) = true ∧ rolling (s'.loc i).tx.pc = false) ∧
    ∀ act s'', (system b w).move s' i act = some s'' →
      (act ≠ .stm .abort → (rolling (s''.loc i).tx.pc = true ↔
        slips b i act s'.shared.stm (s'.loc i) = true)) ∧
      ∀ a p, waitsAt (s'.loc i).tx.pc = some (a, p) →
        taken i (s'.shared.stm.lock (b.getLock w a)) = true →
        s''.shared = { s'.shared with stm := s'.shared.stm.tick } ∧
        s''.loc i = { s'.loc i with tx := { (s'.loc i).tx with pc := p } } := by
  have hstaged : ∀ d, Run (system b w) (Careful b i) s d → Staged (d.loc i) := fun d hd =>
    staged_run he hi (hr.trans (hd.mono fun _ _ _ _ => trivial)) i
  have hinv : stmIrrevocable (s'.loc i) = true ∧ rolling (s'.loc i).tx.pc = false := by
    induction hr' with
    | refl => exact ⟨hirr, by rw [hret]; rfl⟩
    | @tail d e j act hd ho hm ih =>
      obtain ⟨g, x, hs, rfl⟩ := move_eq_some hm
      by_cases hj : j = i
      · subst hj
        obtain ⟨hab, hst, hsf, hsl⟩ := ho rfl
        obtain ⟨hl, hroll⟩ := step_irrevocable he (hstaged d hd) (by simpa [stmIrrevocable] using ih.1)
          hab ih.2 hs
        have h3 := hl fun ro => by cases ro <;> assumption
        simp only [Function.update_self]
        exact ⟨by simp [stmIrrevocable, h3], hroll.trans hsl⟩
      · simpa [Ne.symm hj] using ih
  refine ⟨hinv, fun act s'' hm => ?_⟩
  have h3 : (s'.loc i).level = 3 := by simpa [stmIrrevocable] using hinv.1
  obtain ⟨g, x, hs, rfl⟩ := move_eq_some hm
  simp only [Function.update_self]
  refine ⟨fun hab => ?_, fun a p hp ht => step_waits he (hstaged s' hr') h3 hp ht hs⟩
  exact Bool.eq_iff_iff.mp (step_irrevocable he (hstaged s' hr') h3 hab hinv.2 hs).2

def go : Act w := .stm .go

/-- Thread 1 holds the lock of word 0; thread 0 becomes irrevocable and loads the word. -/
def waitRun : List (ℕ × Act 64) :=
  turn 1 [.stm (.start false), go, .stm (.store 0 1 (BitVec.allOnes 64)), go, go, go] ++
  turn 0 [.stm (.start false), go, .setIrrevocable false, go, go, go]

theorem stm_irrevocable_exact_waits :
    ∃ s s'' : State 64, (system etlBuild 64).move s 0 go = some s'' ∧
      (s''.loc 0).tx.pc = .readLock 0 ∧ rolling (s''.loc 0).tx.pc = false := by
  obtain ⟨s, hr, hirr, hret, hnext⟩ := exists_run_of_exec (system etlBuild 64) (fun _ _ _ => True)
    (State.fresh fun _ => 0) waitRun
    (fun s => stmIrrevocable (s.loc 0) = true ∧ (s.loc 0).tx.pc = .run ∧
      (((system etlBuild 64).exec (Careful etlBuild 0) (turn 0 [.stm (.load 0)]) s).any fun s' =>
        decide ((s'.loc 0).tx.pc = .readLock 0 ∧ ((system etlBuild 64).move s' 0 go).isSome = true ∧
          taken 0 (s'.shared.stm.lock (etlBuild.getLock 64 0)) = true)) = true) (by decide +kernel)
  obtain ⟨s', hr', hpc, hm, ht⟩ := exists_run_of_exec (system etlBuild 64) (Careful etlBuild 0) s
    (turn 0 [.stm (.load 0)]) _ hnext
  obtain ⟨s'', hm⟩ := Option.isSome_iff_exists.mp hm
  obtain ⟨-, hstep⟩ :=
    stm_irrevocable_exact etlBuild rfl _ s s' (initial_fresh _) hr 0 hirr hret hr'
  have hw := ((hstep go s'' hm).2 0 (.readLock 0) (by rw [hpc]; rfl) ht).2
  exact ⟨s', s'', hm, by rw [hw], by rw [hw]; rfl⟩

/-- Thread 1 passes its first check, then thread 0 becomes irrevocable, then thread 1 acquires the lock
of the word that both have written: thread 0 commits and is rolled back. -/
def commitRun : List (ℕ × Act 64) :=
  turn 1 [.stm (.start false), go, .stm (.store 0 1 (BitVec.allOnes 64)), go, go, .stm .commit, go] ++
  turn 0 [.stm (.start false), go, .stm (.store 0 2 (BitVec.allOnes 64)), go, go, .setIrrevocable false,
    go, go, go] ++
  turn 1 [go, go] ++ turn 0 [.stm .commit]

theorem commit_rolls_back :
    ∃ s s' : State 64, Run (system ctlBuild 64) (fun _ _ _ => True) (State.fresh fun _ => 0) s ∧
      stmIrrevocable (s.loc 0) = true ∧ (s.loc 0).tx.pc = .commitLock 0 ∧
      (system ctlBuild 64).move s 0 go = some s' ∧
      stmIrrevocable (s'.loc 0) = true ∧ (s'.loc 0).tx.pc = .rb .wwConflict 1 0 := by
  obtain ⟨s, hr, hirr, hpc, hnext⟩ := exists_run_of_exec (system ctlBuild 64) (fun _ _ _ => True)
    (State.fresh fun _ => 0) commitRun
    (fun s => stmIrrevocable (s.loc 0) = true ∧ (s.loc 0).tx.pc = .commitLock 0 ∧
      (((system ctlBuild 64).move s 0 go).any fun s' => decide (stmIrrevocable (s'.loc 0) = true ∧
        (s'.loc 0).tx.pc = .rb .wwConflict 1 0)) = true) (by decide +kernel)
  obtain ⟨s', hm, hs'⟩ := (Option.any_eq_true _ _).mp hnext
  obtain ⟨hirr', hroll⟩ := of_decide_eq_true hs'
  exact ⟨s, s', hr, hirr, hpc, hm, hirr', hroll⟩

end TinyStm.Irrev
