import TinyStm.Invariant

/-!
# What a step does to the validity range

One inversion lemma for the commit-time design: how a step of a thread changes
`tx->start`, `tx->end`, the permission to extend them and the clock.
-/

namespace TinyStm

variable {w : ℕ} {b : Build} {P : Mode} {g g' : Shared w} {x x' y : Tx w} {tid : ℕ}

/-- In an extension that is allowed to advance `tx->end`. -/
def Pc.extending : Pc w → Bool
  | .extClock (.read _ _ _) => true
  | .validate _ _ (.read _ _ _) => true
  | .validate _ _ .tick => true
  | .validate _ _ .opEnd => true
  | _ => false

/-- Inside an attempt that has not taken its commit timestamp. -/
def Pc.early : Pc w → Bool
  | .validate _ _ (.commit _) => false
  | pc => match pc.phase with
    | .live => true
    | _ => false

theorem early_validate (now i j : ℕ) (c : Cont w) :
    (Pc.validate now i c).early = (Pc.validate now j c).early := by
  cases c <;> rfl

theorem early_of_extending {pc : Pc w} (h : pc.extending = true) : pc.early = true := by
  unfold Pc.extending at h
  split at h <;> first | rfl | cases h

structure SameFields (x x' : Tx w) : Prop where
  start : x'.start = x.start
  endT : x'.endT = x.endT
  canExtend : x'.canExtend = x.canExtend

/-- The validity range stays, outside an extension. -/
structure SameRange (x x' : Tx w) : Prop extends SameFields x x' where
  extending : x'.pc.extending = false
  early : x'.pc.early = true → x.pc.early = true

theorem SameRange.of_early (hk : SameFields x x') (hp : x'.pc.extending = false)
    (he : x.pc.early = true) : SameRange x x' := ⟨hk, hp, fun _ => he⟩

theorem SameRange.of_late (hk : SameFields x x') (hp : x'.pc.extending = false)
    (he : x'.pc.early = false) : SameRange x x' := ⟨hk, hp, fun h => by simp [he] at h⟩

theorem sameFields_setPc (x : Tx w) (p : Pc w) : SameFields x { x with pc := p } := ⟨rfl, rfl, rfl⟩

theorem sameRange_rollback (x : Tx w) (r : Reason) : SameRange x (rollback b x r) := by
  unfold rollback
  split <;> exact .of_late ⟨rfl, rfl, rfl⟩ rfl rfl

theorem sameRange_opEnd (hk : SameFields x x') (he : x.pc.early = true) :
    SameRange x (opEnd b x') := by
  unfold opEnd
  split <;> exact .of_early ⟨hk.start, hk.endT, hk.canExtend⟩ rfl he

theorem sameRange_readDone (he : x.pc.early = true) (a : ℕ) (l : Ver) (v : BitVec w) :
    SameRange x (readDone b x a l v) := by
  unfold readDone
  refine sameRange_opEnd ?_ he
  split <;> exact ⟨rfl, rfl, rfl⟩

theorem sameRange_readDispatch (hd : b.design = .writeBackCtl) (he : x.pc.early = true) (a : ℕ)
    (l : LockWord) : SameRange x (readDispatch b tid x a l) := by
  unfold readDispatch
  rcases l.own with - | ⟨t, i⟩ | t
  · exact .of_early (sameFields_setPc x _) rfl he
  · simp only [hd]
    exact .of_early (sameFields_setPc x _) rfl he
  · exact .of_early (sameFields_setPc x _) rfl he

theorem sameRange_commitNext (hk : SameFields x y) (he : x.pc.early = true) (i : ℕ) :
    SameRange x (commitNext y i) := by
  cases i <;> exact .of_early ⟨hk.start, hk.endT, hk.canExtend⟩ rfl he

/-- One step of a thread in the commit-time design, from clock `t` to clock `t'`: it
leaves the range alone, or starts an attempt, or is a call of `stm_set_extension`,
or a part of `stm_extend`. -/
inductive RangeStep (b : Build) (t : ℕ) (x : Tx w) (t' : ℕ) (x' : Tx w) : Prop
  | stay : t' = t → x'.pc = x.pc → SameFields x x' → RangeStep b t x t' x'
  | same : t' = t → SameRange x x' → RangeStep b t x t' x'
  | commit : x.pc = .commitInc → t' = t + 1 → x'.pc.early = false → SameRange x x' →
      RangeStep b t x t' x'
  | unit {a : ℕ} {v : BitVec w} : x.pc = .unitInc a v → SameRange x x' → RangeStep b t x t' x'
  | prepare : x.pc = .prepare → t' = t → x'.start = b.startOf w x.start t →
      x'.endT = b.endOf w x.endT t → x'.pc.extending = false → RangeStep b t x t' x'
  | lower : t' = t → x'.pc = x.pc → x.pc = .run → x'.start = x.start → x'.endT ≤ x.endT →
      (x'.endT = x.endT ∨ ∃ s, x'.endT = b.endV w s) → RangeStep b t x t' x'
  | guarded {c : Cont w} : t' = t → x.pc.early = true → x.canExtend = true →
      x'.pc = .extClock c → SameFields x x' → RangeStep b t x t' x'
  | clock {c : Cont w} {now : ℕ} : t' = t → x.pc = .extClock c → x'.pc = .validate now 0 c →
      SameFields x x' → RangeStep b t x t' x'
  | next {c : Cont w} {now i : ℕ} : t' = t → x.pc = .validate now i c →
      x'.pc = .validate now (i + 1) c → SameFields x x' → RangeStep b t x t' x'
  | extended {c : Cont w} {now i : ℕ} : t' = t → x.pc = .validate now i c →
      x.pc.extending = true → x'.start = x.start → x'.endT = b.endV w now → x'.snap = now →
      x'.pc.phase = .live → x'.pc.extending = false → RangeStep b t x t' x'

theorem rangeStep_validate {now i : ℕ} {c : Cont w} (hp : x.pc = .validate now i c)
    (h : validateStep b tid now i c g x = some (g', x')) :
    RangeStep b g.clock x g'.clock x' := by
  unfold validateStep at h
  split at h
  · split at h
    · cases h
      exact .next rfl hp rfl (sameFields_setPc x _)
    · cases c <;> cases h <;> exact .same rfl (sameRange_rollback x _)
  · cases c with
    | commit t =>
      cases h
      exact .same rfl (.of_late (sameFields_setPc x _) rfl rfl)
    | _ =>
      cases h
      exact .extended rfl hp (by rw [hp]; rfl) rfl rfl rfl rfl rfl

theorem rangeStep_readLock2 (hd : b.design = .writeBackCtl) {a : ℕ} {l : Ver} {v : BitVec w}
    (hp : x.pc = .readLock2 a l v) :
    RangeStep b g.clock x g.clock (readLock2Step b tid a l v g x) := by
  have he : x.pc.early = true := by rw [hp]; rfl
  unfold readLock2Step
  dsimp only
  split
  · exact .same rfl (sameRange_readDispatch hd he a _)
  · split
    · split
      · exact .same rfl (sameRange_rollback x _)
      · next hg =>
        simp only [Bool.or_eq_true, Bool.not_eq_true', not_or, Bool.not_eq_false] at hg
        exact .guarded rfl he hg.2 rfl (sameFields_setPc x _)
    · exact .same rfl (sameRange_readDone he a l v)

theorem sameRange_writeLock (hd : b.design = .writeBackCtl) {a : ℕ} {v m : BitVec w}
    (hp : x.pc = .writeLock a v m) : SameRange x (writeLockStep b tid a v m g x) := by
  have he : x.pc.early = true := by rw [hp]; rfl
  have hpe : x.pc.extending = false := by rw [hp]; rfl
  unfold writeLockStep
  dsimp only
  rcases (g.lock (b.getLock w a)).own with - | ⟨t, i⟩ | t
  · simp only [hd]
    split
    · exact sameRange_opEnd ⟨rfl, rfl, rfl⟩ he
    · split
      · exact sameRange_rollback x _
      · exact sameRange_opEnd ⟨rfl, rfl, rfl⟩ he
  · simp only [hd]
    exact .of_early ⟨rfl, rfl, rfl⟩ hpe he
  · exact .of_early ⟨rfl, rfl, rfl⟩ hpe he

theorem sameRange_unitLock (a : ℕ) (v : BitVec w) (ts : Option ℕ)
    (hp : x.pc = .unitLock a v ts) : SameRange x (unitLockStep b a v ts g x) := by
  unfold unitLockStep
  dsimp only
  split
  · exact .of_late ⟨rfl, rfl, rfl⟩ (by rw [hp]; rfl) (by rw [hp]; rfl)
  · split
    · split <;> exact .of_late ⟨rfl, rfl, rfl⟩ rfl rfl
    · exact .of_late ⟨rfl, rfl, rfl⟩ rfl rfl

theorem sameRange_unitLdDispatch (x : Tx w) (a : ℕ) (l : LockWord) :
    SameRange x (unitLdDispatch x a l) := by
  unfold unitLdDispatch
  split <;> exact .of_late (sameFields_setPc x _) rfl rfl

theorem rangeStep_go (hd : b.design = .writeBackCtl) (hT : TInv b P tid g x)
    (h : stepGo b tid g x x.pc = some (g', x')) : RangeStep b g.clock x g'.clock x' := by
  have hpc := hT.pc
  cases hp : x.pc with
  | idle => rw [hp] at h; cases h
  | barrier => rw [hp] at h; cases h
  | run => rw [hp] at h; cases h
  | prepare =>
    rw [hp] at h
    simp only [stepGo, stmPrepare] at h
    split at h <;> cases h <;> exact .prepare hp rfl rfl rfl rfl
  | readLock a =>
    rw [hp] at h
    cases h
    exact .same rfl (sameRange_readDispatch hd (by rw [hp]; rfl) a _)
  | readVal a l =>
    rw [hp] at h
    cases h
    exact .same rfl (.of_early (sameFields_setPc x _) rfl (by rw [hp]; rfl))
  | readLock2 a l v =>
    rw [hp] at h
    cases h
    exact rangeStep_readLock2 hd hp
  | readRecheck a l v =>
    rw [hp] at h
    cases h
    have he : x.pc.early = true := by rw [hp]; rfl
    unfold readRecheckStep
    split
    · exact .same rfl (.of_early (sameFields_setPc x _) rfl he)
    · exact .same rfl (sameRange_readDone he a l v)
  | extClock c =>
    rw [hp] at h
    cases h
    unfold extClockStep
    split
    · cases c <;> exact .same rfl (sameRange_rollback x _)
    · exact .clock rfl hp rfl (sameFields_setPc x _)
  | validate now i c =>
    rw [hp] at h
    exact rangeStep_validate hp h
  | writeLock a v m =>
    rw [hp] at h
    cases h
    exact .same rfl (sameRange_writeLock hd hp)
  | commitLock i =>
    rw [hp] at h
    have he : x.pc.early = true := by rw [hp]; rfl
    simp only [stepGo, commitLockStep, Option.map_eq_some_iff] at h
    obtain ⟨e, -, heq⟩ := h
    split at heq <;> cases heq
    · split
      · exact .same rfl (sameRange_commitNext ⟨rfl, rfl, rfl⟩ he i)
      · exact .same rfl (sameRange_rollback x _)
    · exact .same rfl (sameRange_rollback x _)
    · exact .same rfl (.of_early (sameFields_setPc x _) rfl he)
  | commitCas i l =>
    rw [hp] at h
    have he : x.pc.early = true := by rw [hp]; rfl
    simp only [stepGo, commitCasStep, Option.map_eq_some_iff] at h
    obtain ⟨e, -, heq⟩ := h
    split at heq <;> cases heq
    · refine .same rfl (sameRange_commitNext ?_ he i)
      exact ⟨rfl, rfl, rfl⟩
    · exact .same rfl (.of_early (sameFields_setPc x _) rfl he)
  | commitInc =>
    rw [hp] at h
    simp only [stepGo, commitIncStep] at h
    split at h <;> cases h <;>
      exact .commit hp rfl rfl (.of_late (sameFields_setPc x _) rfl rfl)
  | pub t i =>
    rw [hp] at h
    simp only [stepGo, pubStep, hd] at h
    split at h
    · cases h
      exact .same rfl (.of_late (sameFields_setPc x _) rfl rfl)
    · split at h
      · cases h
        exact .same rfl (.of_late (sameFields_setPc x _) rfl rfl)
      · split at h <;> cases h <;> exact .same rfl (.of_late (sameFields_setPc x _) rfl rfl)
  | pubStore t i v =>
    rw [hp] at h
    simp only [stepGo, pubStoreStep, Option.map_eq_some_iff] at h
    obtain ⟨e, -, heq⟩ := h
    cases heq
    exact .same rfl (.of_late (sameFields_setPc x _) rfl rfl)
  | pubRel t i =>
    rw [hp] at h
    simp only [stepGo, pubRelStep, Option.map_eq_some_iff] at h
    obtain ⟨e, -, heq⟩ := h
    split at heq <;> cases heq <;> exact .same rfl (.of_late (sameFields_setPc x _) rfl rfl)
  | rb r i t =>
    rw [hp] at h
    simp only [stepGo, rbStep, hd] at h
    split at h
    · cases h
      exact .same rfl (.of_late ⟨rfl, rfl, rfl⟩ rfl rfl)
    · split at h
      · cases h
      · simp only [Option.map_eq_some_iff] at h
        obtain ⟨e, -, heq⟩ := h
        split at heq <;> cases heq <;> exact .same rfl (.of_late ⟨rfl, rfl, rfl⟩ rfl rfl)
  -- these are steps of the other designs
  | readOwn a => rw [hp] at hpc; exact absurd hd hpc.1
  | writeCas a v m l => rw [hp] at hpc; exact absurd hd hpc.1
  | writeLoad i v m => rw [hp] at hpc; exact absurd hpc.1 (by simp [hd])
  | writeOld i v m => rw [hp] at hpc; exact absurd hpc.1 (by simp [hd])
  | writeMem a v m y => rw [hp] at hpc; exact absurd hpc.1 (by simp [hd])
  | rbDrop r i t => rw [hp] at hpc; exact absurd hpc.1 (by simp [hd])
  | unitLock a v ts =>
    rw [hp] at h
    cases h
    exact .same rfl (sameRange_unitLock a v ts hp)
  | unitCas a v ts l =>
    rw [hp] at h
    simp only [stepGo, unitCasStep] at h
    split at h <;> cases h <;> exact .same rfl (.of_late (sameFields_setPc x _) rfl rfl)
  | unitStore a v =>
    rw [hp] at h
    cases h
    exact .same rfl (.of_late (sameFields_setPc x _) rfl rfl)
  | unitInc a v =>
    rw [hp] at h
    cases h
    exact .unit hp (.of_late (sameFields_setPc x _) rfl rfl)
  | unitRel a v t =>
    rw [hp] at h
    simp only [stepGo, unitRelStep, Option.some.injEq, Prod.mk.injEq] at h
    obtain ⟨rfl, rfl⟩ := h
    refine .same rfl (.of_late ⟨rfl, rfl, rfl⟩ ?_ ?_) <;> dsimp only <;> split <;> rfl
  | unitLdLock a =>
    rw [hp] at h
    cases h
    exact .same rfl (sameRange_unitLdDispatch x a _)
  | unitLdVal a l =>
    rw [hp] at h
    cases h
    exact .same rfl (.of_late (sameFields_setPc x _) rfl rfl)
  | unitLdLock2 a l v =>
    rw [hp] at h
    cases h
    unfold unitLdLock2Step
    dsimp only
    split
    · exact .same rfl (sameRange_unitLdDispatch x a _)
    · exact .same rfl (.of_late ⟨rfl, rfl, rfl⟩ rfl rfl)

theorem rangeStep_run (hd : b.design = .writeBackCtl) (hp : x.pc = .run) {act : Act w}
    (h : stepRun b tid g x act = some (g', x')) : RangeStep b g.clock x g'.clock x' := by
  have he : x.pc.early = true := by rw [hp]; rfl
  cases act with
  | load a =>
    cases h
    unfold loadStart
    simp only [hd]
    split
    · split
      · exact .same rfl (sameRange_opEnd ⟨rfl, rfl, rfl⟩ he)
      · exact .same rfl (.of_early (sameFields_setPc x _) rfl he)
    · exact .same rfl (.of_early (sameFields_setPc x _) rfl he)
  | store a v m =>
    cases h
    unfold storeStart
    split
    · exact .same rfl (sameRange_rollback x _)
    · exact .same rfl (.of_early (sameFields_setPc x _) rfl he)
  | commit =>
    simp only [stepRun, commitStart, hd] at h
    split at h <;> cases h
    · exact .same rfl (.of_late (sameFields_setPc x _) rfl rfl)
    · exact .same rfl (.of_early (sameFields_setPc x _) rfl he)
  | abort =>
    cases h
    exact .same rfl (sameRange_rollback x _)
  | setExtension en ts =>
    cases h
    unfold setExtension
    split
    · exact .lower rfl rfl hp rfl le_rfl (.inl rfl)
    · refine .lower rfl rfl hp rfl ?_ ?_ <;> dsimp only <;> split
      · omega
      · exact le_rfl
      · exact .inr ⟨_, rfl⟩
      · exact .inl rfl
  | tick =>
    simp only [stepRun] at h
    split at h <;> cases h
    exact .same rfl (.of_early (sameFields_setPc x _) rfl he)
  | _ => cases h

theorem rangeStep (hd : b.design = .writeBackCtl) (hT : TInv b P tid g x) {act : Act w}
    (h : stepTx b tid act g x = some (g', x')) : RangeStep b g.clock x g'.clock x' := by
  unfold stepTx at h
  split at h
  · exact rangeStep_go hd hT h
  · split at h
    · cases h
      exact .stay rfl rfl ⟨rfl, rfl, rfl⟩
    · cases h
  · split at h
    · unfold stepIdle at h
      split at h <;> cases h <;> exact .same rfl (.of_late ⟨rfl, rfl, rfl⟩ rfl rfl)
    · next hp => exact rangeStep_run hd hp h
    · cases h

end TinyStm
