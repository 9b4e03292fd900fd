import TinyStm.Client.Threads

/-!
# Where a thread is in its body

What a step of the machine means for the body in progress, and the invariant it keeps:
the loads and stores on record lead from the start of the body to what is still to come.
-/

namespace TinyStm.Client

open Interleave

variable {w : ℕ} {α : Type*} {b : Build} {tid : ℕ} {g g' : Shared w} {x y : Tx w} {q : Prog w α}

/-- Has the attempt come to its end? -/
def returned (A : Attempt w) : Bool :=
  match A.outcome with
  | .aborted _ => false
  | _ => true

/-- `stm_commit` has returned from the attempt. -/
inductive Returned (A : Attempt w) : Prop
  | committed {t : ℕ} : A.outcome = .committed t → Returned A
  | readOnly : A.outcome = .readOnly → Returned A

theorem Returned.returned {A : Attempt w} (h : Returned A) : returned A = true := by
  cases h with
  | committed h | readOnly h => simp [Client.returned, h]

/-- The call in progress is the next one of the body `q`. -/
def Going (ws : List (WEntry w)) (q : Prog w α) : Pc w → Prop
  | .readLock a | .readVal a _ | .readLock2 a _ _ | .readRecheck a _ _ | .readOwn a
  | .extClock (.read a _ _) | .validate _ _ (.read a _ _) => ∃ k, q = .load a k
  | .writeLock a v m | .writeCas a v m _ | .writeMem a v m _ => ∃ k, q = .store a v m k
  | .writeLoad i v m | .writeOld i v m => ∃ e k, ws[i]? = some e ∧ q = .store e.addr v m k
  | .validate _ _ (.commit _) | .commitLock _ | .commitCas _ _ | .commitInc | .pub _ _
  | .pubStore _ _ _ | .pubRel _ _ => ∃ r, q = .ret r
  | .run | .rb _ _ _ | .rbDrop _ _ _ => True
  | _ => False

/-- One step of the machine as the body `q` sees it. -/
inductive Moves (q : Prog w α) (g : Shared w) (x : Tx w) (g' : Shared w) (y : Tx w) : Prop
  | goes : Going y.wset q y.pc → y.reads = x.reads → y.stores = x.stores → g'.hist = g.hist →
      Moves q g x g' y
  | loads {a k v} : q = .load a k → y.pc = .run → y.reads = x.reads ++ [⟨a, v, x.stores⟩] →
      y.stores = x.stores → g'.hist = g.hist → Moves q g x g' y
  | stores {a v m k} : q = .store a v m k → y.pc = .run → y.reads = x.reads →
      y.stores = x.stores ++ [⟨a, v, m⟩] → g'.hist = g.hist → Moves q g x g' y
  | aborts {A r} : y.pc = .prepare → A.outcome = .aborted r → g'.hist = g.hist ++ [A] →
      Moves q g x g' y
  | commits {A r} : q = .ret r → y.pc = .idle → A.reads = x.reads → A.stores = x.stores →
      Returned A → g'.hist = g.hist ++ [A] → Moves q g x g' y

theorem Moves.rollback (h : y.reads = x.reads) (hs : y.stores = x.stores) (hg : g'.hist = g.hist)
    (r : Reason) : Moves q g x g' (rollback b y r) := by
  unfold TinyStm.rollback
  split <;> exact .goes trivial h hs hg

theorem Moves.loadReturns (he : b.extraTick = false) {a : ℕ} {k : BitVec w → Prog w α}
    (hq : q = .load a k) (hr : y.reads = x.reads) (hs : y.stores = x.stores)
    (hg : g'.hist = g.hist) (v : BitVec w) : Moves q g x g' (loadReturns b y a v) := by
  rw [TinyStm.loadReturns, opEnd, he, Bool.false_and, if_neg (by simp)]
  exact .loads (v := v) hq rfl (by rw [hr, hs]) hs hg

theorem Moves.storeReturns (he : b.extraTick = false) {a : ℕ} {v m : BitVec w} {k : Prog w α}
    (hq : q = .store a v m k) (hr : y.reads = x.reads) (hs : y.stores = x.stores)
    (hg : g'.hist = g.hist) : Moves q g x g' (storeReturns b y a v m) := by
  rw [TinyStm.storeReturns, opEnd, he, Bool.false_and, if_neg (by simp)]
  exact .stores hq rfl hr (by rw [hs]) hg

/-! ### Loads -/

theorem Moves.readDispatch (he : b.extraTick = false) {a : ℕ} {k : BitVec w → Prog w α}
    (hq : q = .load a k) (l : LockWord) : Moves q g x g (readDispatch b tid x a l) := by
  unfold TinyStm.readDispatch
  split
  · exact .goes ⟨k, hq⟩ rfl rfl rfl
  · exact .goes ⟨k, hq⟩ rfl rfl rfl
  · split
    · exact .goes ⟨k, hq⟩ rfl rfl rfl
    · split
      · exact .goes ⟨k, hq⟩ rfl rfl rfl
      · exact .rollback rfl rfl rfl _
    · split
      · split
        · split
          · split
            · exact .goes ⟨k, hq⟩ rfl rfl rfl
            · exact .loadReturns he hq rfl rfl rfl _
          · exact .goes ⟨k, hq⟩ rfl rfl rfl
        · exact .goes ⟨k, hq⟩ rfl rfl rfl
      · exact .rollback rfl rfl rfl _

theorem Moves.readDone (he : b.extraTick = false) {a : ℕ} {k : BitVec w → Prog w α}
    (hq : q = .load a k) (l : Ver) (v : BitVec w) : Moves q g x g (readDone b x a l v) := by
  unfold TinyStm.readDone
  simp only
  split
  · exact .loadReturns he hq rfl rfl rfl _
  · refine .loadReturns he hq ?_ ?_ ?_ _ <;> rfl

theorem Moves.readLock2Step (he : b.extraTick = false) {a : ℕ} {k : BitVec w → Prog w α}
    (hq : q = .load a k) (l : Ver) (v : BitVec w) :
    Moves q g x g (readLock2Step b tid a l v g x) := by
  unfold TinyStm.readLock2Step
  simp only
  split
  · exact .readDispatch he hq _
  · split
    · split
      · exact .rollback rfl rfl rfl _
      · exact .goes ⟨k, hq⟩ rfl rfl rfl
    · exact .readDone he hq _ _

theorem Moves.readRecheckStep (he : b.extraTick = false) {a : ℕ} {k : BitVec w → Prog w α}
    (hq : q = .load a k) (l : Ver) (v : BitVec w) :
    Moves q g x g (readRecheckStep b a l v g x) := by
  unfold TinyStm.readRecheckStep
  split
  · exact .goes ⟨k, hq⟩ rfl rfl rfl
  · exact .readDone he hq _ _

theorem Moves.loadStart (he : b.extraTick = false) {a : ℕ} {k : BitVec w → Prog w α}
    (hq : q = .load a k) : Moves q g x g (loadStart b x a) := by
  unfold TinyStm.loadStart
  split
  · split
    · split
      · exact .loadReturns he hq rfl rfl rfl _
      · exact .goes ⟨k, hq⟩ rfl rfl rfl
    · exact .goes ⟨k, hq⟩ rfl rfl rfl
  · exact .goes ⟨k, hq⟩ rfl rfl rfl

theorem Moves.extClockStep {c : Cont w} (hq : Going x.wset q (.extClock c)) :
    Moves q g x g (extClockStep b c g x) := by
  cases c with
  | read a l v =>
    unfold TinyStm.extClockStep
    split
    · exact .rollback rfl rfl rfl _
    · exact .goes hq rfl rfl rfl
  | commit t => exact hq.elim
  | tick => exact hq.elim
  | opEnd => exact hq.elim

/-- Ticks apart, `stm_validate` is called in a load or in a commit. -/
theorem Moves.validateStep {now i : ℕ} {c : Cont w} (hq : Going x.wset q (.validate now i c))
    {p : Shared w × Tx w} (hs : validateStep b tid now i c g x = some p) :
    Moves q g x p.1 p.2 := by
  unfold TinyStm.validateStep at hs
  cases hr : x.rset[i]? with
  | some r =>
    simp only [hr] at hs
    split at hs
    · cases hs
      exact .goes (by cases c <;> exact hq) rfl rfl rfl
    · cases c with
      | commit t =>
        cases hs
        refine .rollback ?_ ?_ ?_ _ <;> rfl
      | read a l v =>
        cases hs
        exact .rollback rfl rfl rfl _
      | tick => exact hq.elim
      | opEnd => exact hq.elim
  | none =>
    simp only [hr] at hs
    cases c with
    | read a l v =>
      cases hs
      exact .goes hq rfl rfl rfl
    | commit t =>
      cases hs
      exact .goes hq rfl rfl rfl
    | tick => exact hq.elim
    | opEnd => exact hq.elim

/-! ### Stores -/

theorem chainWalk_found {ws : List (WEntry w)} {a n i j : ℕ} (h : chainWalk ws a n i = .found j) :
    ∃ e, ws[j]? = some e ∧ e.addr = a := by
  induction n generalizing i with
  | zero => simp [chainWalk] at h
  | succ n ih =>
    unfold chainWalk at h
    split at h
    · cases h
    · next e he =>
      split at h
      · next ha =>
        cases h
        exact ⟨e, he, ha⟩
      · split at h
        · cases h
        · exact ih h

theorem Moves.etlPut (he : b.extraTick = false) {i a : ℕ} {v m : BitVec w} {k : Prog w α}
    (hq : q = .store a v m k) {e : WEntry w} (hi : y.wset[i]? = some e) (ha : e.addr = a)
    (hr : y.reads = x.reads) (hs : y.stores = x.stores) (hg : g'.hist = g.hist) :
    Moves q g x g' (etlPut b y i a v m) := by
  unfold TinyStm.etlPut
  split
  · exact .storeReturns he hq hr hs hg
  · split
    · exact .storeReturns he hq hr hs hg
    · rw [hi]
      simp only
      split
      · exact .goes ⟨e, k, hi, ha ▸ hq⟩ hr hs hg
      · exact .storeReturns he hq hr hs hg

theorem Moves.etlOwnWrite (he : b.extraTick = false) {i a : ℕ} {v m : BitVec w} {k : Prog w α}
    (hq : q = .store a v m k) : Moves q g x g (etlOwnWrite b x i a v m) := by
  unfold TinyStm.etlOwnWrite
  split
  · exact .storeReturns he hq rfl rfl rfl
  · split
    · next hw =>
      obtain ⟨e, hj, ha⟩ := chainWalk_found hw
      exact .etlPut he hq hj ha rfl rfl rfl
    · exact .etlPut he hq (getElem?_linkEntry.mpr (.inr ⟨rfl, rfl⟩)) rfl rfl rfl rfl

theorem Moves.wtAppend (he : b.extraTick = false) {a : ℕ} {v m : BitVec w} {k : Prog w α}
    (hq : q = .store a v m k) (l : Ver) (dup : Bool) (hg : g'.hist = g.hist) :
    Moves q g x g' (wtAppend b x a v m l dup) := by
  unfold TinyStm.wtAppend
  simp only
  split
  · exact .storeReturns he hq rfl rfl hg
  · exact .goes ⟨_, k, getElem?_snoc.mpr (.inr ⟨rfl, rfl⟩), hq⟩ rfl rfl hg

theorem Moves.writeLockStep (he : b.extraTick = false) {a : ℕ} {v m : BitVec w} {k : Prog w α}
    (hq : q = .store a v m k) (hp : x.pc = .writeLock a v m) :
    Moves q g x g (writeLockStep b tid a v m g x) := by
  have hstay : Moves q g x g x := .goes (by rw [hp]; exact ⟨k, hq⟩) rfl rfl rfl
  unfold TinyStm.writeLockStep
  simp only
  split
  · exact hstay
  · split
    · exact hstay
    · split
      · exact .wtAppend he hq _ _ rfl
      · exact .rollback rfl rfl rfl _
    · split
      · exact .etlOwnWrite he hq
      · exact .rollback rfl rfl rfl _
  · split
    · split
      · exact .storeReturns he hq rfl rfl rfl
      · split
        · exact .rollback rfl rfl rfl _
        · exact .storeReturns he hq rfl rfl rfl
    · split
      · exact .rollback rfl rfl rfl _
      · exact .goes ⟨k, hq⟩ rfl rfl rfl

theorem Moves.writeCasStep (he : b.extraTick = false) {a : ℕ} {v m : BitVec w} {k : Prog w α}
    (hq : q = .store a v m k) (l : Ver) :
    Moves q g x (writeCasStep b tid a v m l g x).1 (writeCasStep b tid a v m l g x).2 := by
  unfold TinyStm.writeCasStep
  split
  · split
    · exact .wtAppend he hq _ _ rfl
    · exact .etlPut he hq (getElem?_snoc.mpr (.inr ⟨rfl, rfl⟩)) rfl rfl rfl rfl
  · exact .goes ⟨k, hq⟩ rfl rfl rfl

theorem Moves.storeStart {a : ℕ} {v m : BitVec w} {k : Prog w α} (hq : q = .store a v m k) :
    Moves q g x g (storeStart b x a v m) := by
  unfold TinyStm.storeStart
  split
  · exact .rollback rfl rfl rfl _
  · exact .goes ⟨k, hq⟩ rfl rfl rfl

theorem Moves.writeLoadStep (he : b.extraTick = false) {i : ℕ} {v m : BitVec w}
    (hq : Going x.wset q (.writeLoad i v m)) {p : Shared w × Tx w}
    (hs : writeLoadStep b i v m g x = some p) : Moves q g x p.1 p.2 := by
  obtain ⟨e, k, hi, hq⟩ := hq
  rw [TinyStm.writeLoadStep, hi] at hs
  cases hs
  refine .storeReturns he hq ?_ ?_ ?_ <;> rfl

theorem Moves.writeOldStep {i : ℕ} {v m : BitVec w} (hq : Going x.wset q (.writeOld i v m))
    {p : Shared w × Tx w} (hs : writeOldStep i v m g x = some p) : Moves q g x p.1 p.2 := by
  obtain ⟨e, k, hi, hq⟩ := hq
  rw [TinyStm.writeOldStep, hi] at hs
  cases hs
  exact .goes ⟨k, hq⟩ rfl rfl rfl

/-! ### Commit -/

theorem going_commitNext {r : α} (hq : q = .ret r) (x : Tx w) (i : ℕ) :
    Going (commitNext x i).wset q (commitNext x i).pc := by
  cases i <;> exact ⟨r, hq⟩

theorem Moves.commitNext {r : α} (hq : q = .ret r) (hr : y.reads = x.reads)
    (hs : y.stores = x.stores) (hg : g'.hist = g.hist) (i : ℕ) :
    Moves q g x g' (commitNext y i) :=
  .goes (going_commitNext hq y i) (by cases i <;> exact hr) (by cases i <;> exact hs) hg

theorem Moves.commitStart {r : α} (hq : q = .ret r) {p : Shared w × Tx w}
    (hs : commitStart b tid g x = some p) : Moves q g x p.1 p.2 := by
  unfold TinyStm.commitStart at hs
  split at hs
  · cases hs
    exact .commits hq rfl rfl rfl (.readOnly rfl) rfl
  · split at hs <;> cases hs <;> exact .goes ⟨r, hq⟩ rfl rfl rfl

theorem Moves.commitLockStep {r : α} (hq : q = .ret r) {i : ℕ} {p : Shared w × Tx w}
    (hs : commitLockStep b tid i g x = some p) : Moves q g x p.1 p.2 := by
  obtain ⟨e, -, rfl⟩ := Option.map_eq_some_iff.mp hs
  simp only
  split
  · split
    · exact .commitNext hq rfl rfl rfl i
    · exact .rollback rfl rfl rfl _
  · exact .rollback rfl rfl rfl _
  · exact .goes ⟨r, hq⟩ rfl rfl rfl

theorem Moves.commitCasStep {r : α} (hq : q = .ret r) {i : ℕ} {l : Ver} {p : Shared w × Tx w}
    (hs : commitCasStep b tid i l g x = some p) : Moves q g x p.1 p.2 := by
  obtain ⟨e, -, rfl⟩ := Option.map_eq_some_iff.mp hs
  split
  · refine .commitNext hq ?_ ?_ ?_ i <;> rfl
  · exact .goes ⟨r, hq⟩ rfl rfl rfl

theorem Moves.commitIncStep {r : α} (hq : q = .ret r) :
    Moves q g x (commitIncStep b tid g x).1 (commitIncStep b tid g x).2 := by
  unfold TinyStm.commitIncStep
  split <;> exact .goes ⟨r, hq⟩ rfl rfl rfl

theorem Moves.pubStep {r : α} (hq : q = .ret r) {t i : ℕ} {p : Shared w × Tx w}
    (hs : pubStep b tid t i g x = some p) : Moves q g x p.1 p.2 := by
  unfold TinyStm.pubStep at hs
  split at hs
  · cases hs
    exact .commits hq rfl rfl rfl (.committed rfl) rfl
  · split at hs <;> (try split at hs) <;> (try split at hs) <;> cases hs <;>
      exact .goes ⟨r, hq⟩ rfl rfl rfl

theorem Moves.pubStoreStep {r : α} (hq : q = .ret r) {t i : ℕ} {v : BitVec w}
    {p : Shared w × Tx w} (hs : pubStoreStep b t i v g x = some p) : Moves q g x p.1 p.2 := by
  obtain ⟨e, -, rfl⟩ := Option.map_eq_some_iff.mp hs
  exact .goes ⟨r, hq⟩ rfl rfl rfl

theorem Moves.pubRelStep {r : α} (hq : q = .ret r) {t i : ℕ} {p : Shared w × Tx w}
    (hs : pubRelStep b t i g x = some p) : Moves q g x p.1 p.2 := by
  obtain ⟨e, -, rfl⟩ := Option.map_eq_some_iff.mp hs
  split <;> exact .goes ⟨r, hq⟩ rfl rfl rfl

/-! ### Rollback -/

theorem Moves.finishAbort {r : Reason} {p : Shared w × Tx w}
    (hs : finishAbort tid r g x = some p) : Moves q g x p.1 p.2 := by
  cases hs
  exact .aborts rfl rfl rfl

theorem Moves.rbStep {r : Reason} {i t : ℕ} {p : Shared w × Tx w}
    (hs : rbStep b tid r i t g x = some p) : Moves q g x p.1 p.2 := by
  unfold TinyStm.rbStep at hs
  split at hs
  · split at hs
    · exact .finishAbort hs
    · obtain ⟨e, -, rfl⟩ := Option.map_eq_some_iff.mp hs
      split <;> exact .goes trivial rfl rfl rfl
  · split at hs
    · exact .finishAbort hs
    · split at hs <;> cases hs <;> exact .goes trivial rfl rfl rfl
  · split at hs
    · exact .finishAbort hs
    · split at hs
      · cases hs
      · obtain ⟨e, -, rfl⟩ := Option.map_eq_some_iff.mp hs
        split <;> exact .goes trivial rfl rfl rfl

theorem Moves.rbDropStep {r : Reason} {i t : ℕ} {p : Shared w × Tx w}
    (hs : rbDropStep b tid r i t g x = some p) : Moves q g x p.1 p.2 := by
  unfold TinyStm.rbDropStep at hs
  split at hs
  · cases hs
  · obtain ⟨e, -, rfl⟩ := Option.map_eq_some_iff.mp hs
    split
    · exact .goes trivial rfl rfl rfl
    · split
      · split <;> exact .goes trivial rfl rfl rfl
      · exact .goes trivial rfl rfl rfl

/-! ### All steps -/

/-- A step of a call in progress. -/
theorem moves_stepGo (he : b.extraTick = false) (hq : Going x.wset q x.pc) {p : Shared w × Tx w}
    (hs : stepGo b tid g x x.pc = some p) : Moves q g x p.1 p.2 := by
  cases hp : x.pc <;> rw [hp] at hs hq <;> simp only [stepGo, Option.some.injEq] at hs
  case idle | barrier | run => cases hs
  case prepare => exact hq.elim
  case readLock a => cases hs; obtain ⟨k, hq⟩ := hq; exact .readDispatch he hq _
  case readVal a l => cases hs; exact .goes hq rfl rfl rfl
  case readLock2 a l v => cases hs; obtain ⟨k, hq⟩ := hq; exact .readLock2Step he hq _ _
  case readRecheck a l v => cases hs; obtain ⟨k, hq⟩ := hq; exact .readRecheckStep he hq _ _
  case readOwn a => cases hs; obtain ⟨k, hq⟩ := hq; exact .loadReturns he hq rfl rfl rfl _
  case extClock c =>
    cases hs
    dsimp only
    exact .extClockStep hq
  case validate now i c => exact .validateStep hq hs
  case writeLock a v m => cases hs; obtain ⟨k, hq⟩ := hq; exact .writeLockStep he hq hp
  case writeCas a v m l => subst hs; obtain ⟨k, hq⟩ := hq; exact .writeCasStep he hq _
  case writeLoad i v m => exact .writeLoadStep he hq hs
  case writeOld i v m => exact .writeOldStep hq hs
  case writeMem a v m o => cases hs; obtain ⟨k, hq⟩ := hq; exact .storeReturns he hq rfl rfl rfl
  case commitLock i => obtain ⟨r, hq⟩ := hq; exact .commitLockStep hq hs
  case commitCas i l => obtain ⟨r, hq⟩ := hq; exact .commitCasStep hq hs
  case commitInc => subst hs; obtain ⟨r, hq⟩ := hq; exact .commitIncStep hq
  case pub t i => obtain ⟨r, hq⟩ := hq; exact .pubStep hq hs
  case pubStore t i v => obtain ⟨r, hq⟩ := hq; exact .pubStoreStep hq hs
  case pubRel t i => obtain ⟨r, hq⟩ := hq; exact .pubRelStep hq hs
  case rb r i t => exact .rbStep hs
  case rbDrop r i t => exact .rbDropStep hs
  all_goals exact hq.elim

/-- The next call of the body. -/
theorem moves_next (he : b.extraTick = false) {p : Shared w × Tx w}
    (hs : stepRun b tid g x q.next = some p) : Moves q g x p.1 p.2 := by
  cases q with
  | ret r => exact .commitStart rfl hs
  | load a k => cases hs; exact .loadStart he rfl
  | store a v m k => cases hs; exact .storeStart rfl

end TinyStm.Client
