import TinyStm.Machine

/-!
# Read-only transactions and their restart

The mode of an attempt is spread over the attributes of the application, the
field `tx->ro`, `stm_start`, `stm_prepare` and the restart of `stm_rollback`
through `siglongjmp`. This module follows one thread through its transactions.
Other threads reach the mode of an attempt in two ways only, and a list of events
chooses both freely: they make it abort, for any reason but `STM_ABORT_RO_WRITE`, and
they change the parameter `vr_threshold`. With CM_MODULAR an attempt may read visibly;
`modular` is off for the other contention managers.

With `no_retry` an abort returns to the program, which goes on in the middle of its
blocks, as in the module on nested transactions: the descriptor is prepared again, and
the rest of the body works on it. A call other than `stm_start` outside every block is
skipped.
-/

namespace TinyStm.ReadOnly

variable {w : ℕ}

/-- `stm_tx_attr_t` (`stm.h:131-158`). -/
structure Attr where
  readOnly : Bool
  noRetry : Bool
  deriving DecidableEq, Repr

/-- The descriptor. `rlocks` are the stripes locked by visible reads, `stores` stands for
the write set. Ghost: the reasons of the aborts since the last outermost `stm_start`, how
many blocks the program has open, and the depth its `sigsetjmp` belongs to. -/
structure Sess (w : ℕ) where
  attr : Option Attr
  ro : Bool
  nesting : ℤ
  visibleReads : ℕ
  vrThreshold : ℤ
  rset : List ℕ
  rlocks : List ℕ
  stores : List (Store w)
  aborts : List Reason
  depth : ℕ
  base : ℕ
  deriving DecidableEq, Repr

/-- What can happen to a thread. -/
inductive Event (w : ℕ) where
  | start (c : Option Attr)
  | load (a : ℕ)
  | store (a : ℕ) (v m : BitVec w)
  | commit
  | commitFails (r : Reason) (h : r ≠ .roWrite)
  | abort (r : Reason) (h : r ≠ .roWrite)
  | setThreshold (n : ℤ)

def Sess.noRetry (s : Sess w) : Bool := (s.attr.map (·.noRetry)).getD false

/-- `tx->visible_reads >= vr_threshold && vr_threshold >= 0`. -/
def Sess.visible (modular : Bool) (s : Sess w) : Bool :=
  modular && decide (s.vrThreshold ≤ s.visibleReads) && decide (0 ≤ s.vrThreshold)

/-- `tx->attr->read_only = 0`, to inform the caller. -/
def Sess.clearReadOnly (s : Sess w) : Sess w :=
  { s with attr := s.attr.map fun c => { c with readOnly := false } }

/-- The mode and the sets of a new attempt (`stm.c:1199-1268`). -/
def stmPrepare (modular : Bool) (s : Sess w) : Sess w :=
  let s' := { s with rset := [], rlocks := [], stores := [] }
  if s.visible modular then { s'.clearReadOnly with ro := false } else s'

/-- Failed validations count as aborts caused by invisible reads. -/
def bump (modular : Bool) : Reason → ℕ
  | .valRead | .valWrite | .validate => if modular then 1 else 0
  | _ => 0

/-- `stm_rollback` from the label `dropped` on (`stm.c:1498-1622`). -/
def stmRollback (modular : Bool) (r : Reason) (s : Sess w) : Sess w :=
  let s' := stmPrepare modular
    { s with aborts := s.aborts ++ [r], nesting := 1, visibleReads := s.visibleReads + bump modular r }
  if s.noRetry then { s' with nesting := 0 } else { s' with depth := s.base }

/-- Is the word read under an own lock, or from the own write set of the
commit-time design? Such loads are not logged. -/
def Sess.served (b : Build) (s : Sess w) (a : ℕ) : Bool :=
  match b.design with
  | .writeBackCtl =>
    s.stores.any (·.addr == a) && decide (writtenMask s.stores a = BitVec.allOnes w)
  | _ => s.rlocks.contains (b.getLock w a) || s.stores.any fun e => b.getLock w e.addr == b.getLock w a

/-- `stm_load` (`stm.c:3405-3426`) when it does not abort. -/
def stmLoad (b : Build) (modular : Bool) (a : ℕ) (s : Sess w) : Sess w :=
  if s.served b a then s
  else if s.visible modular then { s with rlocks := s.rlocks ++ [b.getLock w a] }
  else if s.ro then s
  else { s with rset := s.rset ++ [b.getLock w a] }

/-- `stm_write` (`stm.c:2148-2158`) when nothing else makes it abort. -/
def stmWrite (modular : Bool) (a : ℕ) (v m : BitVec w) (s : Sess w) : Sess w :=
  if s.ro then stmRollback modular .roWrite s.clearReadOnly
  else { s with stores := s.stores ++ [⟨a, v, m⟩] }

/-- The outermost `stm_start` sets the mode (`stm.c:3102-3149`). -/
def stmStart (modular : Bool) (c : Option Attr) (s : Sess w) : Sess w :=
  let s := { s with depth := s.depth + 1 }
  if 0 < s.nesting then { s with nesting := s.nesting + 1 }
  else stmPrepare modular { s with nesting := s.nesting + 1, attr := c, aborts := []
                                   ro := (c.map (·.readOnly)).getD false, base := s.depth }

/-- `stm_commit`: the end of an inner block, or of the transaction, unless it fails. -/
def stmCommit (modular : Bool) (fails : Option Reason) (s : Sess w) : Sess w :=
  let s := { s with nesting := s.nesting - 1 }
  if 0 < s.nesting then { s with depth := s.depth - 1 }
  else match fails with
    | some r =>
      let t := stmRollback modular r s
      if s.noRetry then { t with depth := t.depth - 1 } else t
    | none => { s with depth := s.depth - 1
                       visibleReads := if modular then 0 else s.visibleReads }

def step (b : Build) (modular : Bool) (s : Sess w) (e : Event w) : Sess w :=
  match e with
  | .start c => stmStart modular c s
  | .setThreshold n => { s with vrThreshold := n }
  | .load a => if s.depth = 0 then s else stmLoad b modular a s
  | .store a v m => if s.depth = 0 then s else stmWrite modular a v m s
  | .commit => if s.depth = 0 then s else stmCommit modular none s
  | .commitFails r _ => if s.depth = 0 then s else stmCommit modular (some r) s
  | .abort r _ => if s.depth = 0 then s else stmRollback modular r s

/-- After `stm_init_thread`. -/
def initial (thr : ℤ) : Sess w := ⟨none, false, 0, 0, thr, [], [], [], [], 0, 0⟩

def run (b : Build) (modular : Bool) (s : Sess w) (es : List (Event w)) : Sess w :=
  es.foldl (step b modular) s

/-! ### The law -/

/-- The law in one state: once a read-only write has been aborted and the transaction
retried, the attempts run in read-write mode; and there is at most one such abort since
`stm_start`, also when the body goes on without a retry. -/
structure ModeOk (s : Sess w) : Prop where
  mode : .roWrite ∈ s.aborts → s.noRetry = false → s.ro = false
  once : s.aborts.count .roWrite ≤ 1

/-- The law for one call: a store in read-only mode aborts the attempt; after such an
abort every load of the retried transaction is logged, or locked when it is visible, and
every store is made. -/
structure CallOk (b : Build) (modular : Bool) (s : Sess w) (e : Event w) : Prop where
  aborts : ∀ a v m, e = .store a v m → 0 < s.depth → s.ro = true →
    (step b modular s e).aborts = s.aborts ++ [.roWrite]
  logs : ∀ a, e = .load a → .roWrite ∈ s.aborts → s.noRetry = false → 0 < s.depth →
    s.served b a = false →
    if s.visible modular then (step b modular s e).rlocks = s.rlocks ++ [b.getLock w a]
    else (step b modular s e).rset = s.rset ++ [b.getLock w a]
  stores : ∀ a v m, e = .store a v m → .roWrite ∈ s.aborts → s.noRetry = false → 0 < s.depth →
    (step b modular s e).stores = s.stores ++ [⟨a, v, m⟩]

/-- The law for all transactions of a thread: every state and every call. -/
def Fallback (b : Build) (modular : Bool) (thr : ℤ) (es : List (Event w)) : Prop :=
  (∀ n, ModeOk (run b modular (initial thr) (es.take n))) ∧
    ∀ n e, es[n]? = some e → CallOk b modular (run b modular (initial thr) (es.take n)) e

/-- A store in read-only mode is the first one since `stm_start`, and the transaction is
not retried or reads visibly from then on. -/
def StoreOk (modular : Bool) (s : Sess w) : Event w → Prop
  | .store _ _ _ => 0 < s.depth → s.ro = true →
    .roWrite ∉ s.aborts ∧ (s.noRetry = true ∨ s.visible modular = true)
  | _ => True

section Step

variable {b : Build} {modular : Bool} {s : Sess w} {e : Event w}

@[simp] theorem clearReadOnly_aborts : s.clearReadOnly.aborts = s.aborts := rfl
@[simp] theorem clearReadOnly_depth : s.clearReadOnly.depth = s.depth := rfl
@[simp] theorem clearReadOnly_ro : s.clearReadOnly.ro = s.ro := rfl
@[simp] theorem clearReadOnly_visible : s.clearReadOnly.visible modular = s.visible modular := rfl

@[simp] theorem clearReadOnly_noRetry : s.clearReadOnly.noRetry = s.noRetry := by
  simp only [Sess.noRetry, Sess.clearReadOnly, Option.map_map]
  rfl

@[simp] theorem stmPrepare_aborts : (stmPrepare modular s).aborts = s.aborts := by
  unfold stmPrepare
  split <;> rfl

@[simp] theorem stmPrepare_noRetry : (stmPrepare modular s).noRetry = s.noRetry := by
  unfold stmPrepare
  split
  · exact clearReadOnly_noRetry
  · rfl

/-- Only the switch to visible reads changes the mode. -/
theorem stmPrepare_ro : (stmPrepare modular s).ro = (s.ro && !s.visible modular) := by
  unfold stmPrepare
  split <;> simp_all

/-- A descriptor with another nesting counter or depth, in the same mode. -/
theorem ModeOk.congr {t : Sess w} (h : ModeOk s) (ha : t.aborts = s.aborts)
    (hr : t.noRetry = s.noRetry) (hro : s.ro = false → t.ro = false) : ModeOk t where
  mode hm hn := hro (h.mode (by rwa [ha] at hm) (by rwa [hr] at hn))
  once := by simpa only [ha] using h.once

@[simp] theorem stmRollback_aborts (r : Reason) :
    (stmRollback modular r s).aborts = s.aborts ++ [r] := by
  unfold stmRollback
  split <;> simp

@[simp] theorem stmRollback_noRetry (r : Reason) :
    (stmRollback modular r s).noRetry = s.noRetry := by
  unfold stmRollback
  split <;> exact stmPrepare_noRetry

theorem stmRollback_ro (r : Reason) (h : s.ro = false) : (stmRollback modular r s).ro = false := by
  unfold stmRollback
  split <;> simp [stmPrepare_ro, h]

/-- A read-only transaction stays so unless it reads visibly from now on. -/
theorem stmRollback_roWrite_ro :
    (stmRollback modular .roWrite s).ro = (s.ro && !s.visible modular) := by
  unfold stmRollback
  split <;> exact stmPrepare_ro

/-- A rollback with another reason keeps the law. -/
theorem ModeOk.rollback {r : Reason} (hr : r ≠ .roWrite) (h : ModeOk s) :
    ModeOk (stmRollback modular r s) where
  mode hm hn := by
    have hmem : Reason.roWrite ∈ s.aborts := by simpa [hr.symm] using hm
    exact stmRollback_ro r (h.mode hmem (by simpa using hn))
  once := by simpa [List.count_append, List.count_singleton, hr] using h.once

/-- A store in read-only mode keeps the law when it is the first one, and the mode
changes with the restart or there is none. -/
theorem ModeOk.roWrite (hro : s.ro = true) (hfirst : Reason.roWrite ∉ s.aborts)
    (hok : s.noRetry = true ∨ s.visible modular = true) (a : ℕ) (v m : BitVec w) :
    ModeOk (stmWrite modular a v m s) := by
  rw [stmWrite, if_pos hro]
  constructor
  · intro _ hn
    rw [stmRollback_noRetry, clearReadOnly_noRetry] at hn
    rcases hok with hno | hv
    · simp [hno] at hn
    · simp [stmRollback_roWrite_ro, hv]
  · rw [stmRollback_aborts, clearReadOnly_aborts, List.count_append,
      List.count_eq_zero_of_not_mem hfirst]
    simp

theorem ModeOk.load (h : ModeOk s) (a : ℕ) : ModeOk (stmLoad b modular a s) := by
  unfold stmLoad
  split_ifs
  · exact h
  · exact h.congr rfl rfl id
  · exact h
  · exact h.congr rfl rfl id

/-- A new transaction starts with no aborts on record, an inner block changes nothing. -/
theorem ModeOk.start (h : ModeOk s) (c : Option Attr) : ModeOk (stmStart modular c s) := by
  unfold stmStart
  dsimp only
  split
  · exact h.congr rfl rfl id
  · exact ⟨by simp, by simp⟩

theorem ModeOk.commit {fails : Option Reason} (hr : ∀ r ∈ fails, r ≠ .roWrite) (h : ModeOk s) :
    ModeOk (stmCommit modular fails s) := by
  have hinner : ModeOk { s with nesting := s.nesting - 1 } := h.congr rfl rfl id
  unfold stmCommit
  dsimp only
  split
  · exact hinner.congr rfl rfl id
  · cases fails with
    | none => exact hinner.congr rfl rfl id
    | some r =>
      have hroll : ModeOk (stmRollback modular r { s with nesting := s.nesting - 1 }) :=
        hinner.rollback (hr r rfl)
      dsimp only
      split
      · exact hroll.congr rfl rfl id
      · exact hroll

/-- One event keeps the law. -/
theorem ModeOk.step (h : ModeOk s) (hok : StoreOk modular s e) :
    ModeOk (ReadOnly.step b modular s e) := by
  cases e with
  | start c => exact h.start c
  | setThreshold n => exact h.congr rfl rfl id
  | load a =>
    simp only [ReadOnly.step]
    split
    · exact h
    · exact h.load a
  | store a v m =>
    simp only [ReadOnly.step]
    split
    · exact h
    · rename_i hd
      cases hro : s.ro with
      | true =>
        obtain ⟨hfirst, hn⟩ := hok (Nat.pos_of_ne_zero hd) hro
        exact ModeOk.roWrite hro hfirst hn a v m
      | false =>
        rw [stmWrite, if_neg (by simp [hro])]
        exact h.congr rfl rfl id
  | commit =>
    simp only [ReadOnly.step]
    split
    · exact h
    · exact h.commit (by simp)
  | commitFails r hr =>
    simp only [ReadOnly.step]
    split
    · exact h
    · exact h.commit (by simpa using hr)
  | abort r hr =>
    simp only [ReadOnly.step]
    split
    · exact h
    · exact h.rollback hr

/-- In a state that meets the law, every call does. -/
theorem ModeOk.call (h : ModeOk s) : CallOk b modular s e where
  aborts := by
    rintro a v m rfl hd hro
    simp [ReadOnly.step, hd.ne', stmWrite, hro]
  logs := by
    rintro a rfl hm hn hd hserved
    have hro := h.mode hm hn
    cases hv : s.visible modular <;> simp [ReadOnly.step, hd.ne', stmLoad, hserved, hv, hro]
  stores := by
    rintro a v m rfl hm hn hd
    simp [ReadOnly.step, hd.ne', stmWrite, h.mode hm hn]

/-- A second store in read-only mode, or one that is retried in that mode, breaks the law. -/
theorem storeOk_of_mode (h : ModeOk (ReadOnly.step b modular s e)) : StoreOk modular s e := by
  cases e with
  | store a v m =>
    intro hd hro
    simp only [ReadOnly.step, if_neg hd.ne', stmWrite, hro, if_true] at h
    constructor
    · intro hm
      have hone := h.once
      have hpos := List.count_pos_iff.mpr hm
      rw [stmRollback_aborts, clearReadOnly_aborts, List.count_append, List.count_singleton_self]
        at hone
      omega
    · by_contra hno
      push Not at hno
      have hv : s.visible modular = false := by simpa using hno.2
      have hnr : s.noRetry = false := by simpa using hno.1
      have hmode := h.mode (by simp) (by simpa using hnr)
      simp [stmRollback_roWrite_ro, hv, hro] at hmode
  | _ => trivial

end Step

theorem run_take_succ (b : Build) (modular : Bool) (s : Sess w) {es : List (Event w)} {n : ℕ}
    {e : Event w} (h : es[n]? = some e) :
    run b modular s (es.take (n + 1)) = step b modular (run b modular s (es.take n)) e := by
  rw [run, List.take_add_one, h, Option.toList_some, List.foldl_append]
  rfl

theorem modeOk_run {b : Build} {modular : Bool} {s : Sess w} (h : ModeOk s) {es : List (Event w)}
    (hok : ∀ n e, es[n]? = some e → StoreOk modular (run b modular s (es.take n)) e) (n : ℕ) :
    ModeOk (run b modular s (es.take n)) := by
  induction n with
  | zero => exact h
  | succ n ih =>
    cases he : es[n]? with
    | some e =>
      rw [run_take_succ b modular s he]
      exact ih.step (hok n e he)
    | none =>
      rw [List.take_of_length_le ((List.getElem?_eq_none_iff.mp he).trans (Nat.le_succ n)),
        ← List.take_of_length_le (List.getElem?_eq_none_iff.mp he)]
      exact ih

theorem modeOk_initial (thr : ℤ) : ModeOk (initial (w := w) thr) where
  mode := by simp [initial]
  once := by simp [initial]

/-- Every transaction of a thread falls back to read-write mode, whatever it does and
whenever it is aborted, exactly as long as each store that finds it in read-only mode is
its first one, and the abort is not retried or switches it to visible reads. -/
theorem fallback_iff (b : Build) (modular : Bool) (thr : ℤ) (es : List (Event w)) :
    Fallback b modular thr es ↔
      ∀ k e, es[k]? = some e →
        StoreOk modular (run b modular (initial thr) (es.take k)) e := by
  constructor
  · intro h k e he
    have hnext := h.1 (k + 1)
    rw [run_take_succ b modular _ he] at hnext
    exact storeOk_of_mode hnext
  · intro hok
    have hrun := modeOk_run (modeOk_initial thr) hok
    exact ⟨hrun, fun k e _ => (hrun k).call⟩

/-- A transaction that is started read-only and stores twice. -/
def twoStores (noRetry : Bool) : List (Event 64) :=
  [.start (some ⟨true, noRetry⟩), .store 0 1 (BitVec.allOnes 64), .store 0 1 (BitVec.allOnes 64)]

/-- The attempt after the first abort is still read-only, so that the same store
aborts again: the mode never changes. The rest of the body of a transaction that is not
retried aborts a second time as well. -/
theorem fallback_missed :
    ¬ Fallback defaultBuild false 3 (twoStores false) ∧
      ¬ Fallback defaultBuild false 3 (twoStores true) :=
  ⟨fun h => absurd (h.1 3).once (by decide), fun h => absurd (h.1 3).once (by decide)⟩

end TinyStm.ReadOnly
