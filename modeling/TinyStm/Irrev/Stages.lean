import TinyStm.Irrev.Model

/-!
# Stages of a thread

Which stage goes with which value of `tx->irrevocable` and which program counter, in every state of a
build without extra ticks: an irrevocable transaction never gets where versions are compared.
-/

namespace TinyStm.Irrev

variable {w : ℕ} {b : Build} {tid : ℕ} {g g' : Shared w} {x y : Tx w}

/-! ### Program counters -/

/-- In `stm_rollback`. -/
def rolling : Pc w → Bool
  | .rb _ _ _ => true
  | .rbDrop _ _ _ => true
  | _ => false

/-- Where only a transaction gets that compares versions. -/
def checking : Pc w → Bool
  | .readRecheck _ _ _ => true
  | .extClock _ => true
  | .validate _ _ _ => true
  | _ => false

/-- Between two attempts. -/
def retrying (pc : Pc w) : Bool :=
  match pc with
  | .prepare => true
  | .barrier => true
  | pc => rolling pc

theorem opEnd_eq (he : b.extraTick = false) (x : Tx w) : opEnd b x = { x with pc := .run } := by
  simp [opEnd, he]

theorem rolling_rollback (x : Tx w) (r : Reason) : rolling (TinyStm.rollback b x r).pc = true := by
  unfold TinyStm.rollback
  split <;> rfl

/-- A lock that somebody else owns. -/
def taken (tid : ℕ) (l : LockWord) : Bool :=
  match l.own with
  | none => false
  | some (.entry t _) => t != tid
  | some (.unit _) => true

/-- The acquisition of the commit-time design is about to find a lock that somebody else owns. -/
def commitBlocked (b : Build) (tid : ℕ) (g : Shared w) (x : Tx w) : Bool :=
  match x.pc with
  | .commitLock i => x.wset[i]?.any fun e => taken tid (g.lock (b.getLock w e.addr))
  | _ => false

/-! ### A step of an irrevocable transaction -/

/-- The program counter after a step from `x`: not where versions are compared, and rolling back only
where it was before. -/
structure Flow (b : Build) (tid : ℕ) (g : Shared w) (x y : Tx w) : Prop where
  plain : checking y.pc = false
  rolls : rolling x.pc = false → rolling y.pc = commitBlocked b tid g x

theorem not_blocked (h : ∀ i, x.pc ≠ .commitLock i) : commitBlocked b tid g x = false := by
  unfold commitBlocked
  split
  · next i hp => exact absurd hp (h i)
  · rfl

theorem Flow.of {p : Pc w} (hp : x.pc = p) (h : ∀ i, p ≠ .commitLock i) (hc : checking y.pc = false)
    (hr : rolling y.pc = false) : Flow b tid g x y :=
  ⟨hc, fun _ => hr.trans (not_blocked (hp ▸ h)).symm⟩

theorem Flow.roll (hr : rolling x.pc = true) (hc : checking y.pc = false) : Flow b tid g x y :=
  ⟨hc, fun h => by rw [hr] at h; cases h⟩

section Flow

variable (he : b.extraTick = false)
include he

theorem flow_readDispatch {p : Pc w} (hp : x.pc = p) (h : ∀ i, p ≠ .commitLock i) (a : ℕ)
    (l : LockWord) : Flow b tid g x (readDispatch b tid x a l) := by
  unfold readDispatch TinyStm.readDispatch loadReturns
  obtain ⟨ver, none | ⟨t, i⟩ | t⟩ := l
  · exact .of hp h rfl rfl
  · by_cases ht : t = tid
    · simp only [foreign, ht, bne_self_eq_false, Bool.false_eq_true, if_false, if_true, opEnd_eq he]
      cases b.design with
      | writeBackEtl =>
        simp only
        split
        · split
          · split <;> exact .of hp h rfl rfl
          · exact .of hp h rfl rfl
        · exact .of hp h rfl rfl
      | _ => exact .of hp h rfl rfl
    · simp only [foreign, bne_iff_ne.mpr ht, if_true]
      exact .of hp h rfl rfl
  · exact .of hp h rfl rfl

theorem flow_readLock2Step {a : ℕ} {l : Ver} {v : BitVec w} (hp : x.pc = .readLock2 a l v) :
    Flow b tid g x (readLock2Step b tid a l v g x) := by
  unfold readLock2Step
  simp only
  split
  · exact flow_readDispatch he hp (by simp) a _
  · rw [opEnd_eq he]
    exact .of hp (by simp) rfl rfl

theorem flow_etlPut {p : Pc w} (hp : x.pc = p) (h : ∀ i, p ≠ .commitLock i) (hc : checking y.pc = false)
    (hr : rolling y.pc = false) (i a : ℕ) (v m : BitVec w) : Flow b tid g x (etlPut b y i a v m) := by
  unfold etlPut storeReturns
  simp only [opEnd_eq he]
  split
  · exact .of hp h rfl rfl
  · split
    · exact .of hp h rfl rfl
    · split
      · split <;> exact .of hp h rfl rfl
      · exact .of hp h hc hr

theorem flow_wtAppend {p : Pc w} (hp : x.pc = p) (h : ∀ i, p ≠ .commitLock i) (a : ℕ) (v m : BitVec w)
    (l : Ver) (dup : Bool) : Flow b tid g x (wtAppend b x a v m l dup) := by
  unfold wtAppend storeReturns
  simp only [opEnd_eq he]
  split <;> exact .of hp h rfl rfl

theorem flow_writeLockStep {a : ℕ} {v m : BitVec w} (hp : x.pc = .writeLock a v m) :
    Flow b tid g x (writeLockStep b tid a v m g x) := by
  have hx : checking x.pc = false ∧ rolling x.pc = false := by
    rw [hp]
    exact ⟨rfl, rfl⟩
  unfold writeLockStep TinyStm.writeLockStep
  simp only
  generalize g.lock (b.getLock w a) = l
  obtain ⟨ver, none | ⟨t, i⟩ | t⟩ := l
  · cases b.design with
    | writeBackCtl =>
      simp only [foreign, Bool.false_eq_true, if_false, storeReturns, opEnd_eq he]
      exact .of hp (by simp) rfl rfl
    | _ => exact .of hp (by simp) rfl rfl
  · by_cases ht : t = tid
    · simp only [foreign, ht, bne_self_eq_false, Bool.false_eq_true, if_false, if_true]
      cases b.design with
      | writeBackCtl => exact .of hp (by simp) hx.1 hx.2
      | writeThrough => exact flow_wtAppend he hp (by simp) a v m ver true
      | writeBackEtl =>
        simp only [etlOwnWrite]
        split
        · simp only [storeReturns, opEnd_eq he]
          exact .of hp (by simp) rfl rfl
        · split
          · exact flow_etlPut he hp (by simp) hx.1 hx.2 _ _ _ _
          · refine flow_etlPut he hp (by simp) ?_ ?_ _ _ _ _
            · exact hx.1
            · exact hx.2
    · simp only [foreign, bne_iff_ne.mpr ht, if_true]
      exact .of hp (by simp) hx.1 hx.2
  · exact .of hp (by simp) hx.1 hx.2

theorem flow_writeCasStep {a : ℕ} {v m : BitVec w} {l : Ver} (hp : x.pc = .writeCas a v m l) :
    Flow b tid g x (writeCasStep b tid a v m l g x).2 := by
  have hx : checking x.pc = false ∧ rolling x.pc = false := by
    rw [hp]
    exact ⟨rfl, rfl⟩
  unfold writeCasStep
  split
  · cases b.design with
    | writeThrough => exact flow_wtAppend he hp (by simp) a v m l false
    | _ =>
      refine flow_etlPut he hp (by simp) ?_ ?_ _ _ _ _
      · exact hx.1
      · exact hx.2
  · exact .of hp (by simp) rfl rfl

omit he in
theorem flow_commitLockStep {i : ℕ} (hp : x.pc = .commitLock i)
    (h : commitLockStep b tid i g x = some (g', y)) : Flow b tid g x y := by
  obtain ⟨e, hw, hr⟩ := Option.map_eq_some_iff.mp h
  have hnext : ∀ z : Tx w, checking (commitNext z i).pc = false ∧ rolling (commitNext z i).pc = false := by
    intro z
    cases i <;> exact ⟨rfl, rfl⟩
  have hblock : commitBlocked b tid g x = taken tid (g.lock (b.getLock w e.addr)) := by
    simp [commitBlocked, hp, hw]
  have hroll : checking (TinyStm.rollback b x .wwConflict).pc = false := by
    unfold TinyStm.rollback
    split <;> rfl
  simp only at hr
  revert hr hblock
  generalize g.lock (b.getLock w e.addr) = l
  obtain ⟨ver, none | ⟨t, j⟩ | t⟩ := l
  · intro hr hblock
    cases hr
    exact ⟨rfl, fun _ => hblock.symm⟩
  · intro hr hblock
    by_cases ht : t = tid
    · simp only [ht, if_true] at hr
      cases hr
      exact ⟨(hnext x).1, fun _ => (hnext x).2.trans (by simp [hblock, taken, ht])⟩
    · simp only [if_neg ht] at hr
      cases hr
      exact ⟨hroll, fun _ => (rolling_rollback x _).trans (by simp [hblock, taken, ht])⟩
  · intro hr hblock
    cases hr
    exact ⟨hroll, fun _ => (rolling_rollback x _).trans hblock.symm⟩

omit he in
theorem flow_rbStep {r : Reason} {i t : ℕ} (hp : x.pc = .rb r i t)
    (h : rbStep b tid r i t g x = some (g', y)) :
    Flow b tid g x y ∧ retrying y.pc = true := by
  have hr : rolling x.pc = true := by rw [hp]; rfl
  unfold rbStep finishAbort at h
  split at h
  · cases i with
    | zero =>
      cases h
      exact ⟨.roll hr rfl, rfl⟩
    | succ j =>
      obtain ⟨e, -, h⟩ := Option.map_eq_some_iff.mp h
      split at h <;> cases h <;> exact ⟨.roll hr rfl, rfl⟩
  · split at h
    · cases h
      exact ⟨.roll hr rfl, rfl⟩
    · split at h <;> cases h <;> exact ⟨.roll hr rfl, rfl⟩
  · split at h
    · cases h
      exact ⟨.roll hr rfl, rfl⟩
    · cases i with
      | zero => cases h
      | succ j =>
        obtain ⟨e, -, h⟩ := Option.map_eq_some_iff.mp h
        split at h <;> cases h <;> exact ⟨.roll hr rfl, rfl⟩

omit he in
theorem flow_rbDropStep {r : Reason} {i t : ℕ} (hp : x.pc = .rbDrop r i t)
    (h : rbDropStep b tid r i t g x = some (g', y)) :
    Flow b tid g x y ∧ retrying y.pc = true := by
  have hr : rolling x.pc = true := by rw [hp]; rfl
  unfold rbDropStep at h
  cases i with
  | zero => cases h
  | succ j =>
    obtain ⟨e, -, h⟩ := Option.map_eq_some_iff.mp h
    split at h
    · cases h
      exact ⟨.roll hr rfl, rfl⟩
    · split at h
      · split at h <;> cases h <;> exact ⟨.roll hr rfl, rfl⟩
      · cases h
        exact ⟨.roll hr rfl, rfl⟩

/-- The steps of an irrevocable transaction, and those of one that waits for the flag. -/
theorem flow_stepGo (hx : checking x.pc = false) (h : stepGo b tid g x = some (g', y)) :
    Flow b tid g x y := by
  cases hp : x.pc with
  | idle => simp [stepGo, hp, TinyStm.stepGo] at h
  | barrier => simp [stepGo, hp, TinyStm.stepGo] at h
  | run => simp [stepGo, hp, TinyStm.stepGo] at h
  | readRecheck a l v => simp [hp, checking] at hx
  | extClock c => simp [hp, checking] at hx
  | validate now i c => simp [hp, checking] at hx
  | readLock a =>
    simp only [stepGo, hp] at h
    cases h
    exact flow_readDispatch he hp (by simp) a _
  | readLock2 a l v =>
    simp only [stepGo, hp] at h
    cases h
    exact flow_readLock2Step he hp
  | writeLock a v m =>
    simp only [stepGo, hp] at h
    cases h
    exact flow_writeLockStep he hp
  | commitInc =>
    simp only [stepGo, hp] at h
    cases h
    exact .of hp (by simp) rfl rfl
  | prepare =>
    simp only [stepGo, hp, TinyStm.stepGo, stmPrepare] at h
    split at h <;> cases h <;> exact .of hp (by simp) rfl rfl
  | readVal a l =>
    simp only [stepGo, hp, TinyStm.stepGo] at h
    cases h
    exact .of hp (by simp) rfl rfl
  | readOwn a =>
    simp only [stepGo, hp, TinyStm.stepGo, loadReturns, opEnd_eq he] at h
    cases h
    exact .of hp (by simp) rfl rfl
  | writeCas a v m l =>
    simp only [stepGo, hp, TinyStm.stepGo] at h
    have hy : (writeCasStep b tid a v m l g x).2 = y := by rw [Option.some.inj h]
    exact hy ▸ flow_writeCasStep he hp
  | writeLoad i v m =>
    simp only [stepGo, hp, TinyStm.stepGo] at h
    obtain ⟨e, -, h⟩ := Option.map_eq_some_iff.mp h
    cases h
    exact .of hp (by simp) (by simp [storeReturns, opEnd_eq he, checking])
      (by simp [storeReturns, opEnd_eq he, rolling])
  | writeOld i v m =>
    simp only [stepGo, hp, TinyStm.stepGo] at h
    obtain ⟨e, -, h⟩ := Option.map_eq_some_iff.mp h
    cases h
    exact .of hp (by simp) rfl rfl
  | writeMem a v m z =>
    simp only [stepGo, hp, TinyStm.stepGo] at h
    cases h
    exact .of hp (by simp) (by simp [storeReturns, opEnd_eq he, checking])
      (by simp [storeReturns, opEnd_eq he, rolling])
  | commitLock i =>
    simp only [stepGo, hp, TinyStm.stepGo] at h
    exact flow_commitLockStep hp h
  | commitCas i l =>
    simp only [stepGo, hp, TinyStm.stepGo] at h
    obtain ⟨e, -, h⟩ := Option.map_eq_some_iff.mp h
    split at h
    · cases h
      cases i <;> exact .of hp (by simp) rfl rfl
    · cases h
      exact .of hp (by simp) rfl rfl
  | pub t i =>
    simp only [stepGo, hp, TinyStm.stepGo, pubStep] at h
    split at h
    · cases h
      exact .of hp (by simp) rfl rfl
    · split at h
      · cases h
        exact .of hp (by simp) rfl rfl
      · split at h <;> cases h <;> exact .of hp (by simp) rfl rfl
      · split at h
        · cases h
          exact .of hp (by simp) rfl rfl
        · split at h <;> cases h <;> exact .of hp (by simp) rfl rfl
  | pubStore t i v =>
    simp only [stepGo, hp, TinyStm.stepGo] at h
    obtain ⟨e, -, h⟩ := Option.map_eq_some_iff.mp h
    cases h
    exact .of hp (by simp) rfl rfl
  | pubRel t i =>
    simp only [stepGo, hp, TinyStm.stepGo] at h
    obtain ⟨e, -, h⟩ := Option.map_eq_some_iff.mp h
    split at h <;> cases h <;> exact .of hp (by simp) rfl rfl
  | rb r i t =>
    simp only [stepGo, hp, TinyStm.stepGo] at h
    exact (flow_rbStep hp h).1
  | rbDrop r i t =>
    simp only [stepGo, hp, TinyStm.stepGo] at h
    exact (flow_rbDropStep hp h).1
  | unitLock a v ts =>
    simp only [stepGo, hp, TinyStm.stepGo, unitLockStep] at h
    cases h
    split
    · exact .of hp (by simp) (by rw [hp]; rfl) (by rw [hp]; rfl)
    · split
      · split <;> exact .of hp (by simp) rfl rfl
      · exact .of hp (by simp) rfl rfl
  | unitCas a v ts l =>
    simp only [stepGo, hp, TinyStm.stepGo, unitCasStep] at h
    split at h <;> cases h <;> exact .of hp (by simp) rfl rfl
  | unitStore a v =>
    simp only [stepGo, hp, TinyStm.stepGo] at h
    cases h
    exact .of hp (by simp) rfl rfl
  | unitInc a v =>
    simp only [stepGo, hp, TinyStm.stepGo] at h
    cases h
    exact .of hp (by simp) rfl rfl
  | unitRel a v t =>
    simp only [stepGo, hp, TinyStm.stepGo, unitRelStep] at h
    cases h
    split <;> exact .of hp (by simp) rfl rfl
  | unitLdLock a =>
    simp only [stepGo, hp, TinyStm.stepGo, unitLdDispatch] at h
    cases h
    split <;> exact .of hp (by simp) rfl rfl
  | unitLdVal a l =>
    simp only [stepGo, hp, TinyStm.stepGo] at h
    cases h
    exact .of hp (by simp) rfl rfl
  | unitLdLock2 a l v =>
    simp only [stepGo, hp, TinyStm.stepGo, unitLdLock2Step, unitLdDispatch] at h
    cases h
    split
    · split <;> exact .of hp (by simp) rfl rfl
    · exact .of hp (by simp) rfl rfl

omit he in
/-- An attempt that is rolled back is prepared again. -/
theorem retry_stepGo (hx : retrying x.pc = true) (h : stepGo b tid g x = some (g', y)) :
    retrying y.pc = true ∨ x.pc = .prepare ∧ y.pc = .run := by
  cases hp : x.pc with
  | prepare =>
    simp only [stepGo, hp, TinyStm.stepGo, stmPrepare] at h
    split at h
    · cases h
      exact .inl rfl
    · cases h
      exact .inr ⟨rfl, rfl⟩
  | barrier => simp [stepGo, hp, TinyStm.stepGo] at h
  | rb r i t =>
    simp only [stepGo, hp, TinyStm.stepGo] at h
    exact .inl (flow_rbStep hp h).2
  | rbDrop r i t =>
    simp only [stepGo, hp, TinyStm.stepGo] at h
    exact .inl (flow_rbDropStep hp h).2
  | _ => simp [hp, retrying, rolling] at hx

end Flow

/-! ### Levels and stages -/

/-- The levels and the program counters at which a stage is found. -/
def Stage.Ok (level : ℕ) (pc : Pc w) : Stage w → Prop
  | .none => pc ≠ .commitInc ∧ (pc = .run → level = 0 ∨ level = 3)
  | .check .stored => level = 0 ∧ pc = .run
  | .check .early => level = 0 ∧ pc = .run
  | .check .late => level = 0 ∧ pc = .commitInc
  | .inc => (level = 0 ∨ level = 3) ∧ pc = .commitInc
  | .take => level = 1 ∧ pc = .run
  | .takeCas => level = 1 ∧ pc = .run
  | .validate _ => level = 2 ∧ pc = .run
  | .spin => level = 1 ∧ pc = .run
  | .spinCas => level = 1 ∧ pc = .run
  | .quiesce _ => level = 2 ∧ pc = .run
  | .merge _ _ _ => level = 3 ∧ pc = .run
  | .put _ _ => level = 3 ∧ pc = .run
  | .release => level = 3 ∧ pc = .idle

/-- An ordinary transaction, one that waits for the flag or is about to become irrevocable, or one that
is irrevocable. -/
inductive Level : ℕ → Pc w → Prop
  | ordinary {pc : Pc w} : Level 0 pc
  | waiting {pc : Pc w} {n : ℕ} : n = 1 ∨ n = 2 → pc = .run ∨ retrying pc = true → Level n pc
  | irrevocable {pc : Pc w} : checking pc = false → Level 3 pc

structure Staged (x : Thread w) : Prop where
  level : Level x.level x.tx.pc
  stage : x.stage.Ok x.level x.tx.pc
  serial : x.serial = true → x.level ≠ 0

theorem Level.zero_or_three {n : ℕ} {pc : Pc w} (h : Level n pc) (hn : pc ≠ .run)
    (hr : retrying pc = false) : n = 0 ∨ n = 3 := by
  cases h with
  | ordinary => exact .inl rfl
  | waiting _ hp =>
    rcases hp with hp | hp
    · exact absurd hp hn
    · rw [hr] at hp
      cases hp
  | irrevocable _ => exact .inr rfl

theorem Level.plain {n : ℕ} {pc : Pc w} (h : Level n pc) (hn : n ≠ 0) : checking pc = false := by
  cases h with
  | ordinary => exact absurd rfl hn
  | waiting _ hp =>
    rcases hp with rfl | hp
    · rfl
    · cases pc <;> first | rfl | cases hp
  | irrevocable hc => exact hc

theorem staged_enter {x : Thread w} (hp : x.tx.pc = .run) : Staged (enter x) where
  level := .irrevocable (by show checking x.tx.pc = false; rw [hp]; rfl)
  stage := ⟨by show x.tx.pc ≠ .commitInc; rw [hp]; simp, fun _ => .inr rfl⟩
  serial _ := by simp [enter]

theorem staged_granted {x : Thread w} (hp : x.tx.pc = .run) (hl : x.level = 2) (r : Bool) :
    Staged (granted r x) := by
  unfold granted
  split
  · exact ⟨.waiting (.inr hl) (.inl hp), ⟨hl, hp⟩, fun _ => by simp [hl]⟩
  · exact staged_enter hp

theorem staged_restart {x : Thread w} (hp : x.tx.pc = .run) (hst : x.stage = .none)
    (hl : x.level = 0 ∨ x.level = 1 ∨ x.level = 2 ∨ x.level = 3)
    (hs : x.serial = true → x.level ≠ 0) : Staged (restart x) := by
  have hnone : ∀ n, x.level = n → n = 0 ∨ n = 3 → Staged x := by
    intro n hn h03
    refine ⟨?_, ?_, hs⟩
    · rw [hn]
      rcases h03 with rfl | rfl
      · exact .ordinary
      · exact .irrevocable (by rw [hp]; rfl)
    · rw [hst, hn]
      exact ⟨by simp [hp], fun _ => h03⟩
  rcases hl with hl | hl | hl | hl
  · rw [restart, hl]
    exact hnone 0 hl (.inl rfl)
  · have hr : restart x = { x with stage := .spin } := by simp only [restart, hl]
    rw [hr]
    exact ⟨.waiting (.inl hl) (.inl hp), ⟨hl, hp⟩, hs⟩
  · rw [restart, hl]
    exact staged_granted hp hl true
  · rw [restart, hl]
    exact hnone 3 hl (.inr rfl)

theorem staged_rollback {x : Thread w} (h : Staged x) (r : Reason) : Staged (rollback b x r) := by
  have hr := rolling_rollback (b := b) x.tx r
  have hpc : ∀ pc : Pc w, rolling pc = true →
      checking pc = false ∧ retrying pc = true ∧ pc ≠ .commitInc ∧ pc ≠ .run := by
    intro pc hpc
    cases pc <;> first | exact ⟨rfl, rfl, by simp, by simp⟩ | cases hpc
  obtain ⟨h₁, h₂, h₃, h₄⟩ := hpc _ hr
  refine ⟨?_, ⟨h₃, fun hp => absurd hp h₄⟩, h.serial⟩
  have hl := h.level
  show Level x.level (TinyStm.rollback b x.tx r).pc
  revert hl
  generalize x.level = n
  intro hl
  cases hl with
  | ordinary => exact .ordinary
  | waiting hn _ => exact .waiting hn (.inr h₂)
  | irrevocable _ => exact .irrevocable h₁

/-- A step of the machine from a thread outside the stages. -/
theorem staged_settle {x : Thread w} (hst : x.stage = .none) (hs : x.serial = true → x.level ≠ 0)
    (hl : x.level = 0 ∨ (x.level = 1 ∨ x.level = 2) ∧
      (retrying y.pc = true ∨ x.tx.pc = .prepare ∧ y.pc = .run) ∨
      x.level = 3 ∧ checking y.pc = false) : Staged (settle b g x y) := by
  have hlev : Level x.level y.pc := by
    rcases hl with hl | ⟨hl, hp⟩ | ⟨hl, hc⟩
    · rw [hl]
      exact .ordinary
    · exact .waiting hl (hp.symm.imp_left And.right)
    · rw [hl]
      exact .irrevocable hc
  have h03 : y.pc ≠ .run → retrying y.pc = false → x.level = 0 ∨ x.level = 3 := hlev.zero_or_three
  unfold settle
  simp only
  split
  · next hp =>
    split
    · refine staged_restart hp hst ?_ hs
      rcases hl with hl | ⟨hl, -⟩ | ⟨hl, -⟩
      · exact .inl hl
      · exact hl.elim (fun hl => .inr (.inl hl)) fun hl => .inr (.inr (.inl hl))
      · exact .inr (.inr (.inr hl))
    · next hprep =>
      have h0 : x.level = 0 ∨ x.level = 3 := by
        rcases hl with hl | ⟨-, hr | hr⟩ | ⟨hl, -⟩
        · exact .inl hl
        · rw [hp] at hr
          cases hr
        · exact absurd hr.1 hprep
        · exact .inr hl
      split
      · next hc =>
        simp only [Bool.and_eq_true, decide_eq_true_eq] at hc
        exact ⟨hlev, ⟨hc.1, hp⟩, hs⟩
      · refine ⟨hlev, ?_, hs⟩
        show x.stage.Ok x.level y.pc
        rw [hst]
        exact ⟨by simp [hp], fun _ => h0⟩
  · next hp =>
    have h0 := h03 (by simp [hp]) (by rw [hp]; rfl)
    split
    · next hz => exact ⟨hlev, ⟨hz, hp⟩, hs⟩
    · exact ⟨hlev, ⟨h0, hp⟩, hs⟩
  · next hp =>
    have h0 := h03 (by simp [hp]) (by rw [hp]; rfl)
    have hstay : Stage.Ok x.level y.pc x.stage := by
      rw [hst]
      exact ⟨by simp [hp], by simp [hp]⟩
    split
    · split
      · exact ⟨hlev, hstay, hs⟩
      · next hz => exact ⟨hlev, ⟨h0.resolve_left hz, hp⟩, hs⟩
    · split
      · exact ⟨hlev, hstay, hs⟩
      · next hz => exact ⟨hlev, ⟨h0.resolve_left hz, hp⟩, hs⟩
    · exact ⟨hlev, hstay, hs⟩
  · next hr hc hi =>
    refine ⟨hlev, ?_, hs⟩
    show x.stage.Ok x.level y.pc
    rw [hst]
    exact ⟨fun h => hc h, fun h => absurd h hr⟩

section Step

variable (he : b.extraTick = false)
include he

/-- The calls made in user code. -/
theorem stepRun_pc (hp : x.pc = .run) {act : TinyStm.Act w}
    (h : stepRun b tid g x act = some (g', y)) : checking y.pc = false := by
  cases act with
  | load a =>
    cases h
    unfold loadStart loadReturns
    simp only [opEnd_eq he]
    split
    · split
      · split <;> rfl
      · rfl
    · rfl
  | store a v m =>
    cases h
    unfold storeStart TinyStm.rollback
    split
    · split <;> rfl
    · rfl
  | commit =>
    simp only [stepRun, commitStart] at h
    split at h
    · cases h
      rfl
    · split at h <;> cases h <;> rfl
  | abort =>
    cases h
    unfold TinyStm.rollback
    split <;> rfl
  | setExtension en ts =>
    cases h
    cases ts <;> simp [setExtension, hp, checking]
  | tick => simp [stepRun, he] at h
  | _ => cases h

theorem stepTx_pc {act : TinyStm.Act w} (ha : act ≠ .go) (h : stepTx b tid act g x = some (g', y)) :
    checking y.pc = false ∧ (x.pc = .run ∨ x.pc = .idle) := by
  unfold stepTx at h
  split at h
  · exact absurd rfl ha
  · simp [he] at h
  · split at h
    · next hp =>
      refine ⟨?_, .inr hp⟩
      unfold stepIdle at h
      split at h <;> cases h <;> rfl
    · next hp => exact ⟨stepRun_pc he hp h, .inl hp⟩
    · cases h

/-- A step of the machine, outside the stages or past the last check. -/
theorem staged_stepStm {act : TinyStm.Act w} {g g' : Glob w} {x y : Thread w} (hst : x.stage = .none)
    (hs : x.serial = true → x.level ≠ 0) (hlev : Level x.level x.tx.pc)
    (hrun : x.tx.pc = .run → x.level = 0 ∨ x.level = 3)
    (h : stepStm b tid act g x = some (g', y)) : Staged y := by
  obtain ⟨⟨g₁, z⟩, hstep, hr⟩ := Option.map_eq_some_iff.mp h
  cases hr
  refine staged_settle hst hs ?_
  by_cases h0 : x.level = 0
  · exact .inl h0
  · have hplain := hlev.plain h0
    by_cases ha : act = .go
    · simp only [ha, h0, decide_true, ne_eq, not_false_eq_true, Bool.and_self, if_true] at hstep
      have hflow := (flow_stepGo he hplain hstep).plain
      revert hlev
      generalize hn : x.level = n
      intro hlev
      cases hlev with
      | ordinary => exact absurd hn h0
      | waiting h12 hp =>
        refine .inr (.inl ⟨h12, ?_⟩)
        rcases hp with hp | hp
        · rcases hrun hp with h' | h' <;> omega
        · exact retry_stepGo hp hstep
      | irrevocable _ => exact .inr (.inr ⟨rfl, hflow⟩)
    · simp only [ha, decide_false, Bool.false_and, Bool.false_eq_true, if_false] at hstep
      obtain ⟨hc, hp⟩ := stepTx_pc he ha hstep
      have h3 : x.level = 3 := by
        rcases hp with hp | hp
        · exact (hrun hp).resolve_left h0
        · exact (hlev.zero_or_three (by simp [hp]) (by rw [hp]; rfl)).resolve_left h0
      exact .inr (.inr ⟨h3, hc⟩)

theorem staged_call {act : TinyStm.Act w} {g g' : Glob w} {x y : Thread w} (hx : Staged x)
    (hst : x.stage = .none) (hp : x.tx.pc = .run) (h : call b tid act g x = some (g', y)) :
    Staged y := by
  have hok := hx.stage
  rw [hst] at hok
  have hrun := hok.2
  have hstm : ∀ {act g₀}, stepStm b tid act g₀ x = some (g', y) → Staged y := fun h' =>
    staged_stepStm he hst hx.serial hx.level hrun h'
  unfold call at h
  split at h
  · split at h
    · cases h
      exact ⟨hx.level, hx.stage, hx.serial⟩
    · exact hstm h
  · split at h
    · next hser =>
      split at h
      · cases h
        exact hx
      · cases h
        exact ⟨hx.level, ⟨(hrun hp).resolve_left (hx.serial hser), hp⟩, hx.serial⟩
    · exact hstm h
  · split at h
    · exact hstm h
    · split at h
      · next hc =>
        cases h
        simp only [Bool.and_eq_true, decide_eq_true_eq] at hc
        exact ⟨hx.level, ⟨hc.2, hp⟩, hx.serial⟩
      · exact hstm h
  · exact hstm h

theorem staged_stepNone {act : TinyStm.Act w} {g g' : Glob w} {x y : Thread w} (hx : Staged x)
    (hst : x.stage = .none) (h : stepNone b tid act g x = some (g', y)) : Staged y := by
  have hok := hx.stage
  rw [hst] at hok
  have hstm : ∀ {act g₀}, stepStm b tid act g₀ x = some (g', y) → Staged y := fun h' =>
    staged_stepStm he hst hx.serial hx.level hok.2 h'
  unfold stepNone at h
  split at h
  · next hp => exact staged_call he hx hst hp h
  · split at h
    · exact staged_stepStm (x := { x with level := 0, serial := false }) he hst (by simp) .ordinary
        (fun _ => .inl rfl) h
    · exact hstm h
  · exact hstm h

theorem staged_stepStage {g g' : Glob w} {x y : Thread w} (hx : Staged x)
    (h : stepStage b tid g x = some (g', y)) : Staged y := by
  have hok := hx.stage
  unfold stepStage at h
  split at h
  · cases h
  · next c hst =>
    rw [hst] at hok
    split at h
    · cases h
      exact staged_rollback hx _
    · cases c with
      | stored =>
        cases h
        exact ⟨hx.level, ⟨by show x.tx.pc ≠ .commitInc; rw [hok.2]; simp, fun _ => .inl hok.1⟩,
          hx.serial⟩
      | early =>
        exact staged_stepStm (x := { x with stage := .none }) he rfl hx.serial hx.level
          (fun _ => .inl hok.1) h
      | late =>
        cases h
        exact ⟨hx.level, ⟨.inl hok.1, hok.2⟩, hx.serial⟩
  · next hst =>
    rw [hst] at hok
    exact staged_stepStm (x := { x with stage := .none }) he rfl hx.serial hx.level (fun _ => hok.1) h
  · next hst =>
    rw [hst] at hok
    split at h
    · cases h
      exact staged_rollback hx _
    · cases h
      exact ⟨hx.level, hok, hx.serial⟩
  · next hst =>
    rw [hst] at hok
    split at h
    · cases h
      exact staged_rollback hx _
    · cases h
      exact ⟨.waiting (.inr rfl) (.inl hok.2), ⟨rfl, hok.2⟩, fun _ => by simp⟩
  · next i hst =>
    rw [hst] at hok
    split at h
    · split at h
      · cases h
        exact ⟨hx.level, hok, hx.serial⟩
      · cases h
        exact staged_rollback hx _
    · split at h
      · cases h
        exact staged_rollback hx _
      · cases h
        exact staged_granted hok.2 hok.1 false
  · next hst =>
    rw [hst] at hok
    cases h
    split
    · exact hx
    · exact ⟨hx.level, hok, hx.serial⟩
  · next hst =>
    rw [hst] at hok
    split at h
    · cases h
      exact ⟨hx.level, hok, hx.serial⟩
    · cases h
      exact staged_granted (x := { x with level := 2 }) hok.2 rfl true
  · cases h
  · next a v m hst =>
    rw [hst] at hok
    cases h
    exact ⟨hx.level, hok, hx.serial⟩
  · next a v hst =>
    rw [hst] at hok
    cases h
    exact ⟨hx.level, ⟨by show x.tx.pc ≠ .commitInc; rw [hok.2]; simp, fun _ => .inr hok.1⟩, hx.serial⟩
  · next hst =>
    rw [hst] at hok
    cases h
    have hne : x.tx.pc ≠ .commitInc ∧ x.tx.pc ≠ .run := by simp [hok.2]
    exact ⟨hx.level, ⟨hne.1, fun hp => absurd hp hne.2⟩, hx.serial⟩

theorem Staged.step {act : Act w} {g g' : Glob w} {x y : Thread w} (hx : Staged x)
    (h : step b tid act g x = some (g', y)) : Staged y := by
  unfold Irrev.step at h
  split at h
  · split at h
    · next hst => exact staged_stepNone he hx hst h
    · split at h
      · exact staged_stepStage he hx h
      · cases h
  · split at h
    · next s hc =>
      simp only [Bool.and_eq_true, decide_eq_true_eq] at hc
      cases h
      have hok := hx.stage
      rw [hc.1] at hok
      unfold setIrrevocable
      split
      · exact ⟨.waiting (.inl rfl) (.inl hc.2), ⟨rfl, hc.2⟩, fun _ => by simp⟩
      · exact staged_restart hc.2 hc.1
          ((hok.2 hc.2).elim .inl fun h3 => .inr (.inr (.inr h3))) hx.serial
    · cases h
  · unfold stepQuiesce at h
    split at h
    · next r hst =>
      have hok := hx.stage
      rw [hst] at hok
      split at h
      · cases h
        exact staged_enter hok.2
      · split at h
        · cases h
        · cases h
          exact staged_rollback hx _
    · cases h

theorem staged_run {ok : State w → ℕ → Act w → Prop} {s₀ s : State w} (hi : Initial s₀)
    (hr : Interleave.Run (system b w) ok s₀ s) (i : ℕ) : Staged (s.loc i) := by
  have hrun := hr.invariant (P := fun s => ∀ i, Staged (s.loc i)) ?_ ?_
  · exact hrun i
  · intro c j act d hc _ hm k
    obtain ⟨g, x, hs, rfl⟩ := Interleave.move_eq_some hm
    by_cases hk : k = j
    · subst hk
      simpa using Staged.step he (hc k) hs
    · simpa [hk] using hc k
  · intro k
    obtain ⟨x, hx⟩ := hi.loc k
    have hp := hi.stm.pc k
    simp only at hp
    rw [hx] at hp ⊢
    exact ⟨.ordinary, ⟨by simp [Thread.fresh] at hp ⊢; simp [hp], fun _ => .inl rfl⟩, by simp [Thread.fresh]⟩

end Step

end TinyStm.Irrev
