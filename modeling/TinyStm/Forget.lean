import TinyStm.Invariant

/-!
# Runs without the loads on record

No step of the machine looks at the ghost record of the loads. A run in which
ticks extend the snapshots of attempts with unlogged reads is therefore, once the
loads are forgotten, one that keeps the invariants of the locks, of the log and of
the memory; only what they say of the loads is lost.
-/

namespace TinyStm

open Timeline Interleave

variable {w : ℕ} {b : Build} {P : Mode} {tid u a : ℕ} {g g' : Shared w} {x : Tx w}

def Attempt.forget (A : Attempt w) : Attempt w := { A with reads := [] }

def Shared.forget (g : Shared w) : Shared w := { g with hist := g.hist.map Attempt.forget }

def Tx.forget (x : Tx w) : Tx w := { x with reads := [] }

def forgetStep (p : Shared w × Tx w) : Shared w × Tx w := (p.1.forget, p.2.forget)

@[simp] theorem Shared.forget_forget (g : Shared w) : g.forget.forget = g.forget := by
  simp only [Shared.forget, List.map_map]
  rfl

theorem forget_record (g : Shared w) {A B : Attempt w} (h : A.forget = B.forget) :
    (g.forget.record A).forget = (g.record B).forget := by
  have hmap : (g.hist.map Attempt.forget).map Attempt.forget = g.hist.map Attempt.forget := by
    rw [List.map_map]
    rfl
  simp only [Shared.forget, Shared.record, List.map_append, List.map_cons, List.map_nil, hmap, h]

theorem forget_setLock (k : ℕ) (l : LockWord) :
    (g.forget.setLock k l).forget = (g.setLock k l).forget :=
  Shared.forget_forget (g.setLock k l)

theorem forget_setMem (v : BitVec w) : (g.forget.setMem a v).forget = (g.setMem a v).forget :=
  Shared.forget_forget (g.setMem a v)

theorem forget_setLog (n : ℕ) (s : Option (Slot (List (Store w)))) :
    (g.forget.setLog n s).forget = (g.setLog n s).forget :=
  Shared.forget_forget (g.setLog n s)

theorem forget_fetchInc (ss : List (Store w)) (d : Bool) :
    (g.forget.fetchInc tid ss d).forget = (g.fetchInc tid ss d).forget :=
  Shared.forget_forget (g.fetchInc tid ss d)

theorem forget_release (e : WEntry w) (v : Ver) :
    (g.forget.release b e v).forget = (g.release b e v).forget :=
  forget_setLock _ _

theorem forgetStep_congr {y : Tx w} (hg : g.forget = g'.forget) (hx : x.forget = y.forget) :
    forgetStep (g, x) = forgetStep (g', y) := by
  rw [forgetStep, forgetStep, hg, hx]

/-! ### The steps do not look at the loads -/

theorem forget_loadReturns (v : BitVec w) :
    (loadReturns b x.forget a v).forget = (loadReturns b x a v).forget := by
  grind [loadReturns, opEnd, Tx.forget]

theorem forget_loadStart : (loadStart b x.forget a).forget = (loadStart b x a).forget := by
  grind [loadStart, loadReturns, opEnd, Tx.forget]

theorem forget_readDispatch (l : LockWord) :
    (readDispatch b tid x.forget a l).forget = (readDispatch b tid x a l).forget := by
  obtain ⟨v, none | ⟨t, i⟩ | t⟩ := l
  · rfl
  · cases hd : b.design <;> grind [readDispatch, loadReturns, opEnd, Tx.forget, rollback]
  · rfl

theorem forget_readDone (l : Ver) (v : BitVec w) :
    (readDone b x.forget a l v).forget = (readDone b x a l v).forget := by
  have hv : readValue b x.forget a v = readValue b x a v := rfl
  rw [readDone, readDone, hv]
  grind [loadReturns, opEnd, Tx.forget]

theorem forget_readLock2Step (l : Ver) (v : BitVec w) :
    (readLock2Step b tid a l v g.forget x.forget).forget =
      (readLock2Step b tid a l v g x).forget := by
  have h₁ : (readDispatch b tid x.forget a (g.lock (b.getLock w a))).forget =
      (readDispatch b tid x a (g.lock (b.getLock w a))).forget := forget_readDispatch _
  have h₂ := forget_readDone (b := b) (x := x) (a := a) l v
  grind [readLock2Step, rollback, Tx.forget, Shared.forget]

theorem forget_readRecheckStep (l : Ver) (v : BitVec w) :
    (readRecheckStep b a l v g.forget x.forget).forget = (readRecheckStep b a l v g x).forget := by
  have h := forget_readDone (b := b) (x := x) (a := a) l v
  grind [readRecheckStep, Tx.forget, Shared.forget]

theorem forget_extFail (c : Cont w) : (extFail b x.forget c).forget = (extFail b x c).forget := by
  cases c <;> grind [extFail, rollback, Tx.forget]

theorem forget_extClockStep (c : Cont w) :
    (extClockStep b c g.forget x.forget).forget = (extClockStep b c g x).forget := by
  have hc : g.forget.clock = g.clock := rfl
  simp only [extClockStep, hc]
  by_cases hv : b.versionMax w ≤ g.clock
  · rw [if_pos hv, if_pos hv]
    exact forget_extFail c
  · rw [if_neg hv, if_neg hv]
    rfl

theorem forget_validateStep (now i : ℕ) (c : Cont w) :
    (validateStep b tid now i c g.forget x.forget).map forgetStep =
      (validateStep b tid now i c g x).map forgetStep := by
  have hr : x.forget.rset = x.rset := rfl
  have hv : ∀ r, entryValid b tid g.forget x.forget r = entryValid b tid g x r := fun _ => rfl
  have hf := forget_extFail (b := b) (x := x) c
  have hstay : ∀ y : Tx w, forgetStep (g.forget, y) = forgetStep (g, y) := fun y =>
    forgetStep_congr g.forget_forget rfl
  have hlog : ∀ (n : ℕ) (s : Option (Slot (List (Store w)))) (y : Tx w),
      forgetStep (g.forget.setLog n s, y) = forgetStep (g.setLog n s, y) := fun n s y =>
    forgetStep_congr (forget_setLog n s) rfl
  simp only [validateStep, hr, hv]
  cases x.rset[i]? with
  | none => cases c <;> simp only [Option.map_some, hstay, hlog] <;> rfl
  | some r =>
    by_cases hvalid : entryValid b tid g x r = true
    · simp only [hvalid, if_true, Option.map_some, hstay]
      rfl
    · cases c <;> simp only [hvalid, Bool.false_eq_true, if_false, Option.map_some, hstay, hlog] <;>
        simp only [forgetStep, hf]

theorem forget_storeStart (v m : BitVec w) :
    (storeStart b x.forget a v m).forget = (storeStart b x a v m).forget := by
  grind [storeStart, rollback, Tx.forget]

theorem forget_storeReturns (v m : BitVec w) :
    (storeReturns b x.forget a v m).forget = (storeReturns b x a v m).forget := by
  grind [storeReturns, opEnd, Tx.forget]

theorem forget_etlPut (i : ℕ) (v m : BitVec w) :
    (etlPut b x.forget i a v m).forget = (etlPut b x i a v m).forget := by
  grind [etlPut, storeReturns, opEnd, Tx.forget]

theorem forget_etlOwnWrite (i : ℕ) (v m : BitVec w) :
    (etlOwnWrite b x.forget i a v m).forget = (etlOwnWrite b x i a v m).forget := by
  have hw : x.forget.wset = x.wset := rfl
  simp only [etlOwnWrite, hw]
  by_cases hm : m = 0
  · rw [if_pos hm, if_pos hm]
    exact forget_storeReturns v m
  · rw [if_neg hm, if_neg hm]
    cases chainWalk x.wset a x.wset.length i with
    | found j => exact forget_etlPut j v m
    | last j => exact forget_etlPut (x := { x with wset := _ }) x.wset.length v m

theorem forget_wtAppend (v m : BitVec w) (l : Ver) (dup : Bool) :
    (wtAppend b x.forget a v m l dup).forget = (wtAppend b x a v m l dup).forget := by
  grind [wtAppend, storeReturns, opEnd, Tx.forget]

theorem forget_writeLockStep (v m : BitVec w) :
    (writeLockStep b tid a v m g.forget x.forget).forget =
      (writeLockStep b tid a v m g x).forget := by
  have hc : ∀ l, writeConflict b x.forget a l = writeConflict b x a l := fun _ => rfl
  have hl : g.forget.lock = g.lock := rfl
  simp only [writeLockStep, hl, hc]
  obtain ⟨ver, none | ⟨t, i⟩ | t⟩ := g.lock (b.getLock w a)
  · cases hd : b.design <;> grind [storeReturns, opEnd, Tx.forget, rollback]
  · have h₁ := forget_wtAppend (b := b) (x := x) (a := a) v m ver true
    have h₂ := forget_etlOwnWrite (b := b) (x := x) (a := a) i v m
    cases hd : b.design <;> grind [Tx.forget, rollback]
  · rfl

theorem forget_writeCasStep (v m : BitVec w) (l : Ver) :
    forgetStep (writeCasStep b tid a v m l g.forget x.forget) =
      forgetStep (writeCasStep b tid a v m l g x) := by
  have hl : g.forget.lock = g.lock := rfl
  simp only [writeCasStep, hl]
  by_cases hk : g.lock (b.getLock w a) = ⟨l, none⟩
  · rw [if_pos hk, if_pos hk]
    cases hd : b.design with
    | writeThrough =>
      exact forgetStep_congr (forget_setLock _ _) (forget_wtAppend v m l false)
    | _ =>
      exact forgetStep_congr (forget_setLock _ _)
        (forget_etlPut (x := { x with wset := _ }) x.wset.length v m)
  · rw [if_neg hk, if_neg hk]
    exact forgetStep_congr g.forget_forget rfl

theorem forget_writeLoadStep (i : ℕ) (v m : BitVec w) :
    (writeLoadStep b i v m g.forget x.forget).map forgetStep =
      (writeLoadStep b i v m g x).map forgetStep := by
  have hw : x.forget.wset = x.wset := rfl
  simp only [writeLoadStep, hw]
  cases x.wset[i]? with
  | none => rfl
  | some e =>
    exact congrArg some (forgetStep_congr g.forget_forget
      (forget_storeReturns (x := { x with wset := _ }) v m))

theorem forget_writeOldStep (i : ℕ) (v m : BitVec w) :
    (writeOldStep i v m g.forget x.forget).map forgetStep =
      (writeOldStep i v m g x).map forgetStep := by
  have hw : x.forget.wset = x.wset := rfl
  simp only [writeOldStep, hw]
  cases x.wset[i]? with
  | none => rfl
  | some e => exact congrArg some (forgetStep_congr g.forget_forget rfl)

theorem forget_rollback (r : Reason) :
    (rollback b x.forget r).forget = (rollback b x r).forget := by
  unfold rollback
  cases b.design <;> rfl

theorem forget_commitStart :
    (commitStart b tid g.forget x.forget).map forgetStep =
      (commitStart b tid g x).map forgetStep := by
  have hw : x.forget.wset = x.wset := rfl
  simp only [commitStart, hw]
  by_cases he : x.wset = []
  · rw [if_pos he, if_pos he]
    exact congrArg some (forgetStep_congr (forget_record g rfl) rfl)
  · rw [if_neg he, if_neg he]
    cases b.design <;> exact congrArg some (forgetStep_congr g.forget_forget rfl)

theorem forget_commitNext (i : ℕ) : (commitNext x.forget i).forget = (commitNext x i).forget := by
  cases i <;> rfl

theorem forget_commitLockStep (i : ℕ) :
    (commitLockStep b tid i g.forget x.forget).map forgetStep =
      (commitLockStep b tid i g x).map forgetStep := by
  have hw : x.forget.wset = x.wset := rfl
  have hl : g.forget.lock = g.lock := rfl
  simp only [commitLockStep, hw, hl]
  cases x.wset[i]? with
  | none => rfl
  | some e =>
    simp only [Option.map_some]
    generalize g.lock (b.getLock w e.addr) = l
    refine congrArg some ?_
    obtain ⟨ver, none | ⟨t, j⟩ | t⟩ := l
    · exact forgetStep_congr g.forget_forget rfl
    · refine forgetStep_congr g.forget_forget ?_
      by_cases ht : t = tid
      · simp only [if_pos ht]
        exact forget_commitNext i
      · simp only [if_neg ht]
        exact forget_rollback _
    · exact forgetStep_congr g.forget_forget (forget_rollback _)

theorem forget_commitCasStep (i : ℕ) (l : Ver) :
    (commitCasStep b tid i l g.forget x.forget).map forgetStep =
      (commitCasStep b tid i l g x).map forgetStep := by
  have hw : x.forget.wset = x.wset := rfl
  have hl : g.forget.lock = g.lock := rfl
  simp only [commitCasStep, hw, hl]
  cases x.wset[i]? with
  | none => rfl
  | some e =>
    refine congrArg some ?_
    simp only
    by_cases hk : g.lock (b.getLock w e.addr) = ⟨l, none⟩
    · rw [if_pos hk, if_pos hk]
      exact forgetStep_congr (forget_setLock _ _)
        (forget_commitNext (x := { x with wset := _, nbAcquired := _ }) i)
    · rw [if_neg hk, if_neg hk]
      exact forgetStep_congr g.forget_forget rfl

theorem forget_commitIncStep :
    forgetStep (commitIncStep b tid g.forget x.forget) =
      forgetStep (commitIncStep b tid g x) := by
  have hs : x.forget.start = x.start := rfl
  have hc : g.forget.clock = g.clock := rfl
  simp only [commitIncStep, hs, hc]
  by_cases h : x.start = b.startV w g.clock
  · rw [if_pos h, if_pos h]
    exact forgetStep_congr (forget_fetchInc _ _) rfl
  · rw [if_neg h, if_neg h]
    exact forgetStep_congr (forget_fetchInc _ _) rfl

theorem forget_pubStep (t i : ℕ) :
    (pubStep b tid t i g.forget x.forget).map forgetStep =
      (pubStep b tid t i g x).map forgetStep := by
  have hp : pubEntry b x.forget i = pubEntry b x i := rfl
  have hm : g.forget.mem = g.mem := rfl
  simp only [pubStep, hp, hm]
  cases pubEntry b x i with
  | none => exact congrArg some (forgetStep_congr (forget_record g rfl) rfl)
  | some e =>
    cases b.design with
    | writeThrough => exact congrArg some (forgetStep_congr g.forget_forget rfl)
    | writeBackEtl =>
      simp only
      split
      · exact congrArg some (forgetStep_congr (forget_setMem _) rfl)
      · exact congrArg some (forgetStep_congr g.forget_forget rfl)
    | writeBackCtl =>
      simp only
      split
      · exact congrArg some (forgetStep_congr (forget_setMem _) rfl)
      · split
        · exact congrArg some (forgetStep_congr g.forget_forget rfl)
        · exact congrArg some (forgetStep_congr g.forget_forget rfl)

theorem forget_pubStoreStep (t i : ℕ) (v : BitVec w) :
    (pubStoreStep b t i v g.forget x.forget).map forgetStep =
      (pubStoreStep b t i v g x).map forgetStep := by
  have hp : pubEntry b x.forget i = pubEntry b x i := rfl
  simp only [pubStoreStep, hp]
  cases pubEntry b x i with
  | none => rfl
  | some e => exact congrArg some (forgetStep_congr (forget_setMem _) rfl)

theorem forget_pubRelStep (t i : ℕ) :
    (pubRelStep b t i g.forget x.forget).map forgetStep =
      (pubRelStep b t i g x).map forgetStep := by
  have hp : pubEntry b x.forget i = pubEntry b x i := rfl
  simp only [pubRelStep, hp]
  cases pubEntry b x i with
  | none => rfl
  | some e =>
    simp only [Option.map_some]
    split
    · exact congrArg some (forgetStep_congr (forget_release _ _) rfl)
    · exact congrArg some (forgetStep_congr g.forget_forget rfl)

theorem forget_finishAbort (r : Reason) :
    (finishAbort tid r g.forget x.forget).map forgetStep =
      (finishAbort tid r g x).map forgetStep :=
  congrArg some (forgetStep_congr (forget_record g rfl) rfl)

theorem forget_rbStep (r : Reason) (i t : ℕ) :
    (rbStep b tid r i t g.forget x.forget).map forgetStep =
      (rbStep b tid r i t g x).map forgetStep := by
  have hw : x.forget.wset = x.wset := rfl
  have hn : x.forget.nbAcquired = x.nbAcquired := rfl
  have hg := g.forget_forget
  simp only [rbStep, hw, hn]
  cases b.design with
  | writeThrough =>
    cases i with
    | zero => exact forget_finishAbort r
    | succ j =>
      simp only
      cases x.wset[j]? with
      | none => rfl
      | some e =>
        simp only [Option.map_some]
        split
        · exact congrArg some (forgetStep_congr (forget_setMem _) rfl)
        · exact congrArg some (forgetStep_congr hg rfl)
  | writeBackEtl =>
    simp only
    cases x.wset[i]? with
    | none => exact forget_finishAbort r
    | some e =>
      simp only
      split
      · exact congrArg some (forgetStep_congr (forget_release _ _) rfl)
      · exact congrArg some (forgetStep_congr hg rfl)
  | writeBackCtl =>
    simp only
    split
    · exact forget_finishAbort r
    · cases i with
      | zero => rfl
      | succ j =>
        simp only
        cases x.wset[j]? with
        | none => rfl
        | some e =>
          simp only [Option.map_some]
          split
          · exact congrArg some (forgetStep_congr (forget_release _ _) rfl)
          · exact congrArg some (forgetStep_congr hg rfl)

theorem forget_rbDropStep (r : Reason) (i t : ℕ) :
    (rbDropStep b tid r i t g.forget x.forget).map forgetStep =
      (rbDropStep b tid r i t g x).map forgetStep := by
  have hw : x.forget.wset = x.wset := rfl
  simp only [rbDropStep, hw]
  cases i with
  | zero => rfl
  | succ j =>
    simp only
    cases x.wset[j]? with
    | none => rfl
    | some e =>
      simp only [Option.map_some]
      split
      · exact congrArg some (forgetStep_congr g.forget_forget rfl)
      · split
        · split
          · exact congrArg some (forgetStep_congr (forget_fetchInc _ _) rfl)
          · exact congrArg some (forgetStep_congr (forget_release _ _) rfl)
        · exact congrArg some (forgetStep_congr (forget_release _ _) rfl)

theorem forget_stmPrepare :
    (stmPrepare b g.forget x.forget).map forgetStep = (stmPrepare b g x).map forgetStep := by
  have hs : x.forget.start = x.start := rfl
  have he : x.forget.endT = x.endT := rfl
  have hc : g.forget.clock = g.clock := rfl
  simp only [stmPrepare, hs, he, hc]
  split
  · exact congrArg some (forgetStep_congr g.forget_forget rfl)
  · exact congrArg some (forgetStep_congr g.forget_forget rfl)

theorem forget_setExtension (en : Bool) (ts : Option ℕ) :
    (setExtension b x.forget en ts).forget = (setExtension b x en ts).forget := by
  cases ts <;> rfl

/-! ### One step -/

theorem forget_stepIdle (act : Act w) :
    (stepIdle g.forget x.forget act).map forgetStep = (stepIdle g x act).map forgetStep := by
  cases act <;> first | rfl | exact congrArg some (forgetStep_congr g.forget_forget rfl)

theorem forget_stepRun (act : Act w) :
    (stepRun b tid g.forget x.forget act).map forgetStep =
      (stepRun b tid g x act).map forgetStep := by
  have hg := g.forget_forget
  cases act with
  | load a => exact congrArg some (forgetStep_congr hg forget_loadStart)
  | store a v m => exact congrArg some (forgetStep_congr hg (forget_storeStart v m))
  | commit => exact forget_commitStart
  | abort => exact congrArg some (forgetStep_congr hg (forget_rollback _))
  | setExtension en ts => exact congrArg some (forgetStep_congr hg (forget_setExtension en ts))
  | tick =>
    simp only [stepRun]
    split
    · exact congrArg some (forgetStep_congr hg rfl)
    · rfl
  | _ => rfl

theorem forget_unitLockStep (v : BitVec w) (ts : Option ℕ) :
    (unitLockStep b a v ts g.forget x.forget).forget = (unitLockStep b a v ts g x).forget := by
  have hl : g.forget.lock = g.lock := rfl
  simp only [unitLockStep, hl]
  split
  · rfl
  · cases ts with
    | none => rfl
    | some s =>
      simp only
      split <;> rfl

theorem forget_unitCasStep (v : BitVec w) (ts : Option ℕ) (l : Ver) :
    forgetStep (unitCasStep b tid a v ts l g.forget x.forget) =
      forgetStep (unitCasStep b tid a v ts l g x) := by
  have hl : g.forget.lock = g.lock := rfl
  simp only [unitCasStep, hl]
  split
  · exact forgetStep_congr (forget_setLock _ _) rfl
  · exact forgetStep_congr g.forget_forget rfl

theorem forget_unitRelStep (v : BitVec w) (t : ℕ) :
    forgetStep (unitRelStep b tid a v t g.forget x.forget) =
      forgetStep (unitRelStep b tid a v t g x) :=
  forgetStep_congr (forget_record (g.setLock (b.getLock w a) ⟨⟨t, 0⟩, none⟩) rfl) rfl

theorem forget_unitLdDispatch (l : LockWord) :
    (unitLdDispatch x.forget a l).forget = (unitLdDispatch x a l).forget := by
  obtain ⟨v, none | o⟩ := l <;> rfl

theorem forget_unitLdLock2Step (l : Ver) (v : BitVec w) :
    (unitLdLock2Step b a l v g.forget x.forget).forget =
      (unitLdLock2Step b a l v g x).forget := by
  have hl : g.forget.lock = g.lock := rfl
  simp only [unitLdLock2Step, hl]
  by_cases h : g.lock (b.getLock w a) = ⟨l, none⟩
  · rw [if_neg (not_not.mpr h), if_neg (not_not.mpr h)]
    rfl
  · rw [if_pos h, if_pos h]
    exact forget_unitLdDispatch _

theorem forget_stepGo (p : Pc w) :
    (stepGo b tid g.forget x.forget p).map forgetStep = (stepGo b tid g x p).map forgetStep := by
  have hg := g.forget_forget
  have hstay : ∀ {y z : Tx w}, y.forget = z.forget →
      (some (g.forget, y)).map forgetStep = (some (g, z)).map forgetStep :=
    fun h => congrArg some (forgetStep_congr hg h)
  cases p with
  | idle => rfl
  | barrier => rfl
  | run => rfl
  | prepare => exact forget_stmPrepare
  | readLock a => exact hstay (forget_readDispatch _)
  | readVal a l => exact hstay rfl
  | readLock2 a l v => exact hstay (forget_readLock2Step l v)
  | readRecheck a l v => exact hstay (forget_readRecheckStep l v)
  | readOwn a => exact hstay (forget_loadReturns _)
  | extClock c => exact hstay (forget_extClockStep c)
  | validate now i c => exact forget_validateStep now i c
  | writeLock a v m => exact hstay (forget_writeLockStep v m)
  | writeCas a v m l => exact congrArg some (forget_writeCasStep v m l)
  | writeLoad i v m => exact forget_writeLoadStep i v m
  | writeOld i v m => exact forget_writeOldStep i v m
  | writeMem a v m y =>
    exact congrArg some (forgetStep_congr (forget_setMem y) (forget_storeReturns v m))
  | commitLock i => exact forget_commitLockStep i
  | commitCas i l => exact forget_commitCasStep i l
  | commitInc => exact congrArg some forget_commitIncStep
  | pub t i => exact forget_pubStep t i
  | pubStore t i v => exact forget_pubStoreStep t i v
  | pubRel t i => exact forget_pubRelStep t i
  | rb r i t => exact forget_rbStep r i t
  | rbDrop r i t => exact forget_rbDropStep r i t
  | unitLock a v ts => exact hstay (forget_unitLockStep v ts)
  | unitCas a v ts l => exact congrArg some (forget_unitCasStep v ts l)
  | unitStore a v => exact congrArg some (forgetStep_congr (forget_setMem v) rfl)
  | unitInc a v => exact congrArg some (forgetStep_congr (forget_fetchInc _ _) rfl)
  | unitRel a v t => exact congrArg some (forget_unitRelStep v t)
  | unitLdLock a => exact hstay (forget_unitLdDispatch _)
  | unitLdVal a l => exact hstay rfl
  | unitLdLock2 a l v => exact hstay (forget_unitLdLock2Step l v)

theorem forget_stepTx (act : Act w) :
    (stepTx b tid act g.forget x.forget).map forgetStep = (stepTx b tid act g x).map forgetStep := by
  cases act with
  | go => exact forget_stepGo x.pc
  | standing =>
    simp only [stepTx]
    have hp : x.forget.pc = x.pc := rfl
    rw [hp]
    split
    · exact congrArg some (forgetStep_congr g.forget_forget rfl)
    · rfl
  | _ =>
    simp only [stepTx]
    have hp : x.forget.pc = x.pc := rfl
    rw [hp]
    split
    · exact forget_stepIdle _
    · exact forget_stepRun _
    · rfl

/-! ### The invariants without the loads -/

theorem mem_forget {A : Attempt w} (hA : A ∈ g.forget.hist) :
    ∃ A' ∈ g.hist, A'.forget = A := List.mem_map.mp hA

theorem HistOk.forget {A : Attempt w} (h : HistOk b P g A) : HistOk b P g.forget A.forget where
  times := h.times
  snap_le := h.snap_le
  endEq := h.endEq
  consistent ho := by
    obtain ⟨e, he, hd, -⟩ := h.consistent ho
    exact ⟨e, he, hd, by simp [Attempt.forget]⟩
  pre := by simp [Attempt.forget]
  commit t ht := ⟨(h.commit t ht).1, (h.commit t ht).2.1, (h.commit t ht).2.2.1,
    by simp [Attempt.forget]⟩
  readOnly ho := ⟨(h.readOnly ho).1, by simp [Attempt.forget]⟩

theorem SInv.forget (h : SInv b P g) : SInv b P g.forget where
  slot := h.slot
  live := h.live
  pend := h.pend
  wrote := h.wrote
  clean := h.clean
  hist A hA := by
    obtain ⟨A', hA', rfl⟩ := mem_forget hA
    exact (h.hist A' hA').forget
  uniq := by
    rw [Shared.forget, List.pairwise_map]
    exact h.uniq
  order A hA B hB := by
    obtain ⟨A', hA', rfl⟩ := mem_forget hA
    obtain ⟨B', hB', rfl⟩ := mem_forget hB
    exact h.order A' hA' B' hB'

theorem WsOk.forget {ph : Phase} (h : WsOk b tid g ph x) : WsOk b tid g.forget ph x.forget where
  ctl := h.ctl
  etl hd :=
    have he := h.etl hd
    ⟨he.inj, he.mem, he.lock, he.val, he.chain, he.head⟩
  wt hd := ⟨(h.wt hd).len, (h.wt hd).ent⟩

theorem Att.forget {ph : Phase} (h : Att b P tid g ph x) : Att b P tid g.forget ph x.forget where
  start_le := h.start_le
  end_le := h.end_le
  endEq := h.endEq
  snap_le := h.snap_le
  consistent ho := by
    obtain ⟨e, h₁, h₂, h₃, -⟩ := h.consistent ho
    exact ⟨e, h₁, h₂, h₃, by simp [Tx.forget]⟩
  pre := by simp [Tx.forget]
  order A hA := by
    obtain ⟨A', hA', rfl⟩ := mem_forget hA
    exact h.order A' hA'
  dropVer := h.dropVer
  dropOrder := h.dropOrder
  taken := h.taken
  ws := h.ws.forget

theorem Live.forget {n : ℕ} (h : Live b tid g n x) : Live b tid g.forget n x.forget where
  rset := h.rset
  rsetOwn := h.rsetOwn
  cover := by simp [Tx.forget]
  ro := h.ro
  acq hd := ⟨(h.acq hd).todo, (h.acq hd).got, (h.acq hd).count, (h.acq hd).idx⟩
  wtMem := h.wtMem

theorem fresh_forget {t : ℕ} (h : ∀ A ∈ g.hist, A.wrote ≠ some t) :
    ∀ A ∈ g.forget.hist, A.wrote ≠ some t := by
  intro A hA
  obtain ⟨A', hA', rfl⟩ := mem_forget hA
  exact h A' hA'

theorem PubOk.forget {t i n : ℕ} (h : PubOk b tid g x t i n) :
    PubOk b tid g.forget x.forget t i n where
  pos := h.pos
  fits := h.fits
  log := h.log
  fresh := fresh_forget h.fresh
  reads := by simp [Tx.forget]
  below := h.below
  done := h.done
  mem := h.mem

theorem UndoOk.forget {i n t : ℕ} (h : UndoOk b tid g x i n t) :
    UndoOk b tid g.forget x.forget i n t :=
  ⟨h.count, h.bound, h.wtMem, h.noBump, h.bump⟩

theorem ContOk.forget {now : ℕ} {c : Cont w} (h : ContOk b tid g x now c) :
    ContOk b tid g.forget x.forget now c := by
  cases c with
  | read a l v => exact h
  | commit t => exact h
  | tick => exact fun _ => rfl
  | opEnd => exact fun _ => rfl

theorem PcOk.forget {p : Pc w} (h : PcOk b tid g x p) : PcOk b tid g.forget x.forget p := by
  cases p with
  | validate now i c =>
    obtain ⟨h₁, h₂, h₃, h₄, h₅, h₆⟩ := h
    exact ⟨h₁, h₂, h₃, h₄, h₅, h₆.forget⟩
  | pub t i => exact PubOk.forget h
  | pubStore t i v => exact ⟨h.1, h.2.1.forget, h.2.2⟩
  | pubRel t i => exact PubOk.forget h
  | rb r i t => exact UndoOk.forget h
  | rbDrop r i t => exact ⟨h.1, h.2.forget⟩
  | unitRel a v t =>
    obtain ⟨h₁, h₂, h₃, h₄, h₅⟩ := h
    exact ⟨h₁, h₂, h₃, h₄, fresh_forget h₅⟩
  | _ => exact h

theorem Over.forget {n : ℕ} {ss : List (Store w)} (h : Over b tid g n ss) :
    Over b tid g.forget n ss := by
  rcases h with ⟨A, hA, hw⟩ | hid
  · exact .inl ⟨A.forget, List.mem_map_of_mem hA, hw⟩
  · exact .inr hid

theorem TInv.forget (h : TInv b P tid g x) : TInv b P tid g.forget x.forget where
  own := h.own
  unit := h.unit
  settled := h.settled
  fate hs := (h.fate hs).imp Over.forget id
  began := h.began
  att hp := (h.att hp).forget
  live hp := (h.live hp).forget
  whole hp hs := ⟨(h.whole hp hs).touched, (h.whole hp hs).len⟩
  pc := h.pc.forget

theorem Interf.forget (h : Interf b u g.forget g') : Interf b u g.forget g'.forget where
  clock := h.clock
  mem0 := h.mem0
  log := h.log
  ver := h.ver
  dirty := h.dirty
  time := h.time
  hist A hA := by
    obtain ⟨A', hA', rfl⟩ := mem_forget hA
    rcases h.hist A' hA' with hm | ht
    · obtain ⟨B, hB, rfl⟩ := mem_forget hm
      exact .inl (show B.forget ∈ g.forget.hist from List.mem_map_of_mem hB)
    · exact .inr ht
  histKeep A hA := by
    obtain ⟨B, hB, rfl⟩ := mem_forget hA
    have hk : B.forget ∈ g'.hist := h.histKeep B.forget hA
    exact (show B.forget.forget ∈ g'.forget.hist from List.mem_map_of_mem hk)
  lock := h.lock
  mem := h.mem
  own := h.own
  histNew A hA := by
    obtain ⟨A', hA', rfl⟩ := mem_forget hA
    rcases h.histNew A' hA' with hm | ht
    · obtain ⟨B, hB, rfl⟩ := mem_forget hm
      exact .inl (show B.forget ∈ g.forget.hist from List.mem_map_of_mem hB)
    · exact .inr ht

/-! ### Every run of a build with plain versions -/

/-- The state with the loads forgotten keeps the invariants. -/
structure Sound (b : Build) (s : State w) : Prop where
  shared : SInv b ⟨False, False⟩ s.shared.forget
  loc : ∀ i, TInv b ⟨False, False⟩ i s.shared.forget (s.loc i).forget

theorem Initial.sound {s : State w} (h : Initial s) : Sound b s :=
  ⟨h.sinv.forget, fun i => (h.tinv i).forget⟩

theorem cond_forget {i : ℕ} {act : Act w} (hm : b.mbRevalidation = false) :
    Cond b ⟨False, False⟩ i act g x.forget where
  fits := by simp [Build.Fits, hm]
  prepare _ := by simp [Build.startOf, Build.startV, Build.endOf, Build.endV, hm]
  unit _ _ _ := by simp [Build.stamp, hm]
  wt _ := hm
  async _ _ := rfl
  ownLoad hf := hf.elim
  ext hf := hf.elim

theorem Sound.stepOk {s : State w} (hm : b.mbRevalidation = false) (h : Sound b s) {i : ℕ}
    {act : Act w} (hs : (machine b w).step i act s.shared (s.loc i) = some (g', x)) :
    StepOk b ⟨False, False⟩ i s.shared.forget.tick (g'.forget, x.forget) := by
  have hforget : (stepTx b i act s.shared.tick.forget (s.loc i).forget).map forgetStep =
      (stepTx b i act s.shared.tick (s.loc i)).map forgetStep := forget_stepTx act
  have hs' : stepTx b i act s.shared.tick (s.loc i) = some (g', x) := hs
  rw [hs', Option.map_some] at hforget
  obtain ⟨r, hr, he⟩ := Option.map_eq_some_iff.mp hforget
  have hT := h.loc i
  obtain ⟨hS', hT', hI⟩ := (hT.tick h.shared).stepTx h.shared.tick (Nat.lt_succ_of_le hT.began)
    (cond_forget hm) hr
  have hg : r.1.forget = g'.forget := congrArg Prod.fst he
  have hx : r.2.forget = x.forget := congrArg Prod.snd he
  refine ⟨hg ▸ hS'.forget, ?_, fun u hu => ?_⟩
  · have hf := hT'.forget
    rw [hg, hx] at hf
    exact hf
  · have hf : Interf b u s.shared.tick.forget r.1.forget := Interf.forget (hI u hu)
    rw [hg] at hf
    exact hf

theorem Sound.stable {s : State w} (h : Sound b s) {j : ℕ}
    (hS' : SInv b ⟨False, False⟩ g'.forget) (hI : Interf b j s.shared.forget.tick g'.forget) :
    TInv b ⟨False, False⟩ j g'.forget (s.loc j).forget := by
  have hT := h.loc j
  refine (hT.tick h.shared).stable h.shared.tick hI hS' fun A hA => ?_
  rcases hI.hist A hA with hA' | hA'
  · exact .inl hA'
  · exact .inr (lt_of_lt_of_le (Nat.lt_succ_of_le hT.began) hA')

theorem Sound.move {s s' : State w} (hm : b.mbRevalidation = false) (h : Sound b s) {i : ℕ}
    {act : Act w} (hmove : (machine b w).move s i act = some s') : Sound b s' := by
  obtain ⟨g', x, hs, rfl⟩ := move_eq_some hmove
  obtain ⟨hS, hT, hI⟩ := h.stepOk hm hs
  refine ⟨hS, fun j => ?_⟩
  by_cases hj : j = i
  · subst hj
    simpa using hT
  · simpa [hj] using h.stable hS (hI j hj)

end TinyStm
