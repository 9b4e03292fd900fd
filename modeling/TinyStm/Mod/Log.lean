import Mathlib.Data.List.Count
import Mathlib.Data.List.Induction
import Mathlib.Data.List.Perm.Basic
import Mathlib.Tactic.Common
import TinyStm.Lib.Bytes

/-!
# The undo log for plain memory (`mod_log.c`)

A transaction logs the value of a location before it writes it without the STM. A commit
frees the buffers of the log and forgets its entries. An abort writes the entries back, the
last one first. Of the types the log knows, four keep their value in a `char`.
-/

namespace TinyStm.Log

open Bytes

variable {w : WordSize}

abbrev Memory := ℕ → Byte

/-- The types of an entry but `TYPE_BYTES`. -/
inductive Ty
  | word | u8 | u16 | u32 | u64 | char | uchar | short | ushort | int | uint | long | ulong
  | float | double | ptr
  deriving DecidableEq, Repr

/-- The size of the value at the address. -/
def Ty.width (w : WordSize) : Ty → ℕ
  | word | long | ulong | ptr => w.bytes
  | u8 | char | uchar => 1
  | u16 | short | ushort => 2
  | u32 | int | uint | float => 4
  | u64 | double => 8

/-- `struct { uint8_t *a; char v; } u8`, and the same for the three wider ones. -/
def Ty.inChar : Ty → Bool
  | u8 | u16 | u32 | u64 => true
  | _ => false

/-- `w->data.x.v = *addr`: to a `char` goes the low byte. -/
def Ty.pack (t : Ty) (bs : List Byte) : List Byte := if t.inChar then bs.take 1 else bs

/-- `*w->data.x.a = w->data.x.v`: a `char` is extended with its sign. -/
def Ty.unpack (w : WordSize) (t : Ty) (v : List Byte) : List Byte :=
  if t.inChar then toBytes (t.width w) ((ofBytes 8 v).signExtend (8 * t.width w)) else v

/-- `mod_log_w_entry_t`. The buffer of an entry of bytes has the number of its `malloc`. -/
inductive Entry
  | scalar (t : Ty) (a : ℕ) (v : List Byte)
  | bytes (a : ℕ) (buf : ℕ) (v : List Byte)
  deriving DecidableEq

/-- `mod_log_w_set_t`, the memory, the buffers allocated so far and the ones freed; `failed`
says that an assertion did not hold. -/
structure State where
  mem : Memory
  entries : List Entry
  size : ℕ
  allocated : ℤ
  fresh : ℕ
  freed : List ℕ
  failed : Bool

/-- `mod_log_on_thread_init`. -/
def modLogOnThreadInit (m : Memory) : State := ⟨m, [], 0, 0, 0, [], false⟩

/-- `get_entry` and what is written to the entry. -/
def getEntry (e : Entry) (s : State) : State :=
  { s with
    size := if s.entries.length = s.size then (if s.size < 1024 then 1024 else s.size * 2) else s.size
    entries := s.entries ++ [e] }

def logScalar (w : WordSize) (t : Ty) (a : ℕ) (s : State) : State :=
  getEntry (.scalar t a (t.pack (readBytes s.mem a (t.width w)))) s

def stmLog (w : WordSize) := logScalar w .word
def stmLogU8 (w : WordSize) := logScalar w .u8
def stmLogU16 (w : WordSize) := logScalar w .u16
def stmLogU32 (w : WordSize) := logScalar w .u32
def stmLogU64 (w : WordSize) := logScalar w .u64
def stmLogChar (w : WordSize) := logScalar w .char
def stmLogUchar (w : WordSize) := logScalar w .uchar
def stmLogShort (w : WordSize) := logScalar w .short
def stmLogUshort (w : WordSize) := logScalar w .ushort
def stmLogInt (w : WordSize) := logScalar w .int
def stmLogUint (w : WordSize) := logScalar w .uint
def stmLogLong (w : WordSize) := logScalar w .long
def stmLogUlong (w : WordSize) := logScalar w .ulong
def stmLogFloat (w : WordSize) := logScalar w .float
def stmLogDouble (w : WordSize) := logScalar w .double
def stmLogPtr (w : WordSize) := logScalar w .ptr

def stmLogBytes (a size : ℕ) (s : State) : State :=
  let s := getEntry (.bytes a s.fresh (readBytes s.mem a size)) s
  { s with fresh := s.fresh + 1, allocated := s.allocated + 1 }

def free (buf : ℕ) (s : State) : State :=
  { s with freed := buf :: s.freed, allocated := s.allocated - 1 }

/-- `do ... while (ws->allocated > 0)` from the first entry on. -/
def commitLoop : List Entry → State → State
  | [], s => { s with failed := true }
  | e :: es, s =>
    let s := match e with
      | .bytes _ buf _ => free buf s
      | .scalar .. => s
    if 0 < s.allocated then commitLoop es s else s

def modLogOnCommit (s : State) : State :=
  let s := if 0 < s.allocated then commitLoop s.entries s else s
  { s with entries := [] }

def undo (w : WordSize) (e : Entry) (s : State) : State :=
  match e with
  | .scalar t a v => { s with mem := writeBytes s.mem a (t.unpack w v) }
  | .bytes a buf v => free buf { s with mem := writeBytes s.mem a v }

/-- The entries in reverse order. They stay in the log. -/
def modLogOnAbort (w : WordSize) (s : State) : State :=
  let s := s.entries.foldr (undo w) s
  { s with failed := s.failed || s.allocated ≠ 0 }

/-- What an attempt does between its start and its end: calls of the log and plain writes. -/
inductive Op
  | log (t : Ty) (a : ℕ)
  | logBytes (a size : ℕ)
  | write (a : ℕ) (bs : List Byte)

def Op.exec (w : WordSize) (s : State) : Op → State
  | .log .word a => stmLog w a s
  | .log .u8 a => stmLogU8 w a s
  | .log .u16 a => stmLogU16 w a s
  | .log .u32 a => stmLogU32 w a s
  | .log .u64 a => stmLogU64 w a s
  | .log .char a => stmLogChar w a s
  | .log .uchar a => stmLogUchar w a s
  | .log .short a => stmLogShort w a s
  | .log .ushort a => stmLogUshort w a s
  | .log .int a => stmLogInt w a s
  | .log .uint a => stmLogUint w a s
  | .log .long a => stmLogLong w a s
  | .log .ulong a => stmLogUlong w a s
  | .log .float a => stmLogFloat w a s
  | .log .double a => stmLogDouble w a s
  | .log .ptr a => stmLogPtr w a s
  | .logBytes a size => stmLogBytes a size s
  | .write a bs => { s with mem := writeBytes s.mem a bs }

structure Attempt where
  ops : List Op
  commits : Bool

def Attempt.body (w : WordSize) (a : Attempt) (s : State) : State := a.ops.foldl (Op.exec w) s

def Attempt.run (w : WordSize) (a : Attempt) (s : State) : State :=
  if a.commits then modLogOnCommit (a.body w s) else modLogOnAbort w (a.body w s)

def runAll (w : WordSize) (m : Memory) (as : List Attempt) : State :=
  as.foldl (fun s a => a.run w s) (modLogOnThreadInit m)

/-! ### What an attempt is to do -/

/-- The bytes that an operation logs. -/
def Op.logs (w : WordSize) : Op → ℕ → Bool
  | .log t a, c => a ≤ c ∧ c < a + t.width w
  | .logBytes a size, c => a ≤ c ∧ c < a + size
  | .write .., _ => false

def Op.isLog : Op → Bool
  | .write .. => false
  | _ => true

def Op.mem (m : Memory) : Op → Memory
  | .write a bs => writeBytes m a bs
  | _ => m

/-- The value of a byte at the first time it is logged. -/
def firstLogged (w : WordSize) : List Op → Memory → ℕ → Option Byte
  | [], _, _ => none
  | op :: ops, m, c => if op.logs w c then some (m c) else firstLogged w ops (op.mem m) c

/-- The attempt leaves memory as it should. -/
def Attempt.Restored (w : WordSize) (a : Attempt) (s : State) : Prop :=
  ∀ c, (a.run w s).mem c =
    if a.commits then (a.body w s).mem c
    else (firstLogged w a.ops s.mem c).getD ((a.body w s).mem c)

structure Attempt.Settled (w : WordSize) (a : Attempt) (s : State) : Prop where
  mem : a.Restored w s
  /-- The log is empty. -/
  entries : (a.run w s).entries = []
  /-- The buffers allocated so far were freed, each once. -/
  freed : (a.run w s).freed.Perm (List.range (a.run w s).fresh)

/-- An attempt that aborts has logged nothing. -/
def Attempt.Clean (a : Attempt) : Prop := a.commits = false → ∀ op ∈ a.ops, op.isLog = false

/-- The slot of the type holds its value. -/
def Op.Exact : Op → Prop
  | .log t _ => t.inChar = true → t = .u8
  | _ => True

/-! ### The buffers -/

variable {s : State} {es : List Entry} {ops : List Op} {a : Attempt}

theorem exec_log (w : WordSize) (t : Ty) (a : ℕ) (s : State) :
    Op.exec w s (.log t a) = logScalar w t a s := by
  cases t <;> rfl

def Entry.bufs : Entry → List ℕ
  | .bytes _ buf _ => [buf]
  | .scalar .. => []

/-- The buffers of the log are those not yet freed, and `allocated` counts them. -/
structure Ledger (s : State) : Prop where
  bufs : ∀ p, s.freed.count p + (s.entries.flatMap Entry.bufs).count p =
    (List.range s.fresh).count p
  allocated : s.allocated = (s.entries.flatMap Entry.bufs).length

theorem Ledger.init (m : Memory) : Ledger (modLogOnThreadInit m) := ⟨fun _ => rfl, rfl⟩

theorem Ledger.exec (h : Ledger s) (w : WordSize) (op : Op) : Ledger (op.exec w s) := by
  cases op with
  | log t a =>
    rw [exec_log]
    exact ⟨by simpa [logScalar, getEntry, Entry.bufs] using h.bufs,
      by simpa [logScalar, getEntry, Entry.bufs] using h.allocated⟩
  | logBytes a size =>
    refine ⟨fun p => ?_, by simp [stmLogBytes, getEntry, Entry.bufs, Op.exec, h.allocated]⟩
    have hp := h.bufs p
    simp only [Op.exec, stmLogBytes, getEntry, List.flatMap_append, List.flatMap_cons,
      List.flatMap_nil, Entry.bufs, List.count_append, List.range_succ, List.append_nil] at hp ⊢
    omega
  | write a bs => exact ⟨h.bufs, h.allocated⟩

theorem Ledger.body (h : Ledger s) (w : WordSize) (a : Attempt) : Ledger (a.body w s) := by
  unfold Attempt.body
  induction a.ops generalizing s with
  | nil => exact h
  | cons op ops ih => exact ih (h.exec w op)

/-- The loop of a commit frees the buffers of the log. -/
theorem commitLoop_spec (h : s.allocated = (es.flatMap Entry.bufs).length) (hpos : 0 < s.allocated) :
    (commitLoop es s).mem = s.mem ∧ (commitLoop es s).fresh = s.fresh ∧
      (commitLoop es s).allocated = 0 ∧
      ∀ p, (commitLoop es s).freed.count p = s.freed.count p + (es.flatMap Entry.bufs).count p := by
  induction es generalizing s with
  | nil =>
    rw [h] at hpos
    exact absurd hpos (by simp)
  | cons e es ih =>
    cases e with
    | scalar t a v =>
      rw [List.flatMap_cons, Entry.bufs, List.nil_append] at h ⊢
      rw [commitLoop, if_pos hpos]
      exact ih h hpos
    | bytes a buf v =>
      rw [List.flatMap_cons, Entry.bufs, List.singleton_append] at h ⊢
      have hfree : (free buf s).allocated = (es.flatMap Entry.bufs).length := by
        have : (free buf s).allocated = s.allocated - 1 := rfl
        rw [this, h, List.length_cons]
        omega
      by_cases hp : 0 < (free buf s).allocated
      · obtain ⟨h₁, h₂, h₃, h₄⟩ := ih hfree hp
        simp only [commitLoop, if_pos hp]
        refine ⟨h₁, h₂, h₃, fun p => ?_⟩
        rw [h₄, free, List.count_cons, List.count_cons]
        omega
      · have hnil : es.flatMap Entry.bufs = [] := List.length_eq_zero_iff.mp (by omega)
        simp only [commitLoop, if_neg hp]
        refine ⟨rfl, rfl, by rw [hfree, hnil]; rfl, fun p => ?_⟩
        rw [hnil, free, List.count_cons, List.count_cons, List.count_nil]
        omega

/-- A commit. -/
theorem onCommit_spec (h : Ledger s) :
    (modLogOnCommit s).mem = s.mem ∧ Ledger (modLogOnCommit s) := by
  by_cases hpos : 0 < s.allocated
  · obtain ⟨h₁, h₂, h₃, h₄⟩ := commitLoop_spec h.allocated hpos
    rw [modLogOnCommit, if_pos hpos]
    refine ⟨h₁, fun p => ?_, h₃⟩
    have hp := h.bufs p
    simp only [h₂, h₄, List.flatMap_nil, List.count_nil]
    omega
  · have hnil : s.entries.flatMap Entry.bufs = [] :=
      List.length_eq_zero_iff.mp (by have := h.allocated; omega)
    rw [modLogOnCommit, if_neg hpos]
    refine ⟨rfl, fun p => ?_, by rw [h.allocated, hnil]; rfl⟩
    have hp := h.bufs p
    rwa [hnil] at hp

/-! ### Memory -/

/-- Memory after an entry is written back. -/
def Entry.undo (w : WordSize) (e : Entry) (m : Memory) : Memory :=
  match e with
  | .scalar t a v => writeBytes m a (t.unpack w v)
  | .bytes a _ v => writeBytes m a v

theorem mem_foldr_undo (w : WordSize) (es : List Entry) (s : State) :
    (es.foldr (Log.undo w) s).mem = es.foldr (Entry.undo w) s.mem := by
  induction es with
  | nil => rfl
  | cons e es ih => cases e <;> simp [Log.undo, Entry.undo, free, ih]

/-- The byte that an operation logged comes back. -/
def Entry.Saves (w : WordSize) (e : Entry) (op : Op) (m : Memory) : Prop :=
  ∀ m' c, e.undo w m' c = if op.logs w c then m c else m' c

theorem writeBytes_readBytes (m m' : Memory) (a n c : ℕ) :
    writeBytes m' a (readBytes m a n) c = if a ≤ c ∧ c < a + n then m c else m' c := by
  rw [writeBytes_apply, length_readBytes]
  split_ifs with h
  · rw [getD_readBytes _ _ (by omega)]
    congr 1
    omega
  · rfl

/-- Packing and unpacking keep a value that fits the slot. -/
theorem unpack_pack {t : Ty} (h : t.inChar = true → t = .u8) (w : WordSize) (m : Memory) (a : ℕ) :
    t.unpack w (t.pack (readBytes m a (t.width w))) = readBytes m a (t.width w) := by
  by_cases ht : t.inChar = true
  · obtain rfl := h ht
    simp only [Ty.unpack, Ty.pack, Ty.inChar, Ty.width, readBytes, toBytes, if_true]
    congr 1
    simp [ofBytes, setByte, setLane, byteAt, lane]
  · simp [Ty.unpack, Ty.pack, ht]

/-- A call of the log adds an entry that brings its bytes back. -/
theorem exec_entry {op : Op} (hl : op.isLog = true) (he : op.Exact) (w : WordSize) (s : State) :
    ∃ e : Entry, (op.exec w s).entries = s.entries ++ [e] ∧ (op.exec w s).mem = s.mem ∧
      e.Saves w op s.mem := by
  cases op with
  | log t a =>
    rw [exec_log]
    refine ⟨_, rfl, rfl, fun m' c => ?_⟩
    rw [Entry.undo, unpack_pack he, writeBytes_readBytes]
    simp [Op.logs]
  | logBytes a size =>
    refine ⟨_, rfl, rfl, fun m' c => ?_⟩
    rw [Entry.undo, writeBytes_readBytes]
    simp [Op.logs]
  | write a bs => cases hl

theorem exec_write {op : Op} (hl : op.isLog = false) (w : WordSize) (s : State) :
    (op.exec w s).entries = s.entries ∧ (op.exec w s).mem = op.mem s.mem ∧
      ∀ c, op.logs w c = false := by
  cases op with
  | log t a => cases hl
  | logBytes a size => cases hl
  | write a bs => exact ⟨rfl, rfl, fun _ => rfl⟩

theorem mem_of_isLog {op : Op} (hl : op.isLog = true) (m : Memory) : op.mem m = m := by
  cases op with
  | log t a => rfl
  | logBytes a size => rfl
  | write a bs => cases hl

/-- Written back, the entries of the operations give each byte its first logged value. -/
theorem foldr_undo_ops (he : ∀ op ∈ ops, op.Exact) (w : WordSize) (s : State) (m' : Memory) :
    (ops.foldl (Op.exec w) s).entries.foldr (Entry.undo w) m' =
      s.entries.foldr (Entry.undo w) fun c => (firstLogged w ops s.mem c).getD (m' c) := by
  induction ops generalizing s with
  | nil => rfl
  | cons op ops ih =>
    rw [List.foldl_cons, ih fun op' h' => he op' (List.mem_cons_of_mem op h')]
    by_cases hl : op.isLog = true
    · obtain ⟨e, h₁, h₂, h₃⟩ := exec_entry hl (he op List.mem_cons_self) w s
      rw [h₁, h₂, List.foldr_append, List.foldr_cons, List.foldr_nil]
      congr 1
      funext c
      rw [h₃, firstLogged, mem_of_isLog hl]
      split_ifs <;> rfl
    · obtain ⟨h₁, h₂, h₃⟩ := exec_write (by simpa using hl) w s
      rw [h₁, h₂]
      congr 1
      funext c
      rw [firstLogged, h₃, if_neg (by simp)]

theorem restored_of_exact (hs : s.entries = []) (hl : Ledger s) (he : ∀ op ∈ a.ops, op.Exact) :
    a.Restored w s := by
  intro c
  by_cases hc : a.commits = true
  · rw [Attempt.run, if_pos hc, if_pos hc, (onCommit_spec (hl.body w a)).1]
  · rw [Attempt.run, if_neg hc, if_neg hc]
    have h := foldr_undo_ops he w s (a.body w s).mem
    rw [hs, List.foldr_nil] at h
    simp only [modLogOnAbort, mem_foldr_undo]
    exact congrFun h c

/-! ### Whole histories -/

/-- Nothing is logged. -/
theorem body_quiet (h : ∀ op ∈ ops, op.isLog = false) (w : WordSize) (s : State) :
    (ops.foldl (Op.exec w) s).entries = s.entries := by
  induction ops generalizing s with
  | nil => rfl
  | cons op ops ih =>
    rw [List.foldl_cons, ih fun op' h' => h op' (List.mem_cons_of_mem op h')]
    exact (exec_write (h op List.mem_cons_self) w s).1

theorem entries_exec_ne {op : Op} (w : WordSize) (h : op.isLog = true ∨ s.entries ≠ []) :
    (op.exec w s).entries ≠ [] := by
  cases op with
  | log t a =>
    rw [exec_log]
    simp [logScalar, getEntry]
  | logBytes a size => simp [Op.exec, stmLogBytes, getEntry]
  | write a bs =>
    obtain h | h := h
    · cases h
    · exact h

theorem entries_body_ne (w : WordSize) (h : (∃ op ∈ ops, op.isLog = true) ∨ s.entries ≠ []) :
    (ops.foldl (Op.exec w) s).entries ≠ [] := by
  induction ops generalizing s with
  | nil =>
    obtain ⟨op, hm, -⟩ | h := h
    · exact absurd hm List.not_mem_nil
    · exact h
  | cons op ops ih =>
    refine ih ?_
    obtain ⟨op', hm, hl⟩ | h := h
    · obtain rfl | hm := List.mem_cons.mp hm
      · exact .inr (entries_exec_ne w (.inl hl))
      · exact .inl ⟨op', hm, hl⟩
    · exact .inr (entries_exec_ne w (.inr h))

theorem entries_foldr_undo (w : WordSize) (es : List Entry) (s : State) :
    (es.foldr (Log.undo w) s).entries = s.entries := by
  induction es with
  | nil => rfl
  | cons e es ih => cases e <;> simpa [Log.undo, free] using ih

/-- Between attempts: the log is empty. -/
structure Idle (s : State) : Prop where
  entries : s.entries = []
  ledger : Ledger s

theorem Idle.freed (h : Idle s) : s.freed.Perm (List.range s.fresh) := by
  refine List.perm_iff_count.mpr fun p => ?_
  have hp := h.ledger.bufs p
  rw [h.entries] at hp
  simpa using hp

namespace Attempt

theorem exact_of_clean (hc : a.Clean) (hab : a.commits = false) : ∀ op ∈ a.ops, op.Exact := by
  intro op hm
  have := hc hab op hm
  cases op with
  | log t a => cases this
  | logBytes a size => cases this
  | write a bs => trivial

theorem idle_run (h : Idle s) (hc : a.Clean) : Idle (a.run w s) := by
  by_cases hcom : a.commits = true
  · rw [run, if_pos hcom]
    exact ⟨rfl, (onCommit_spec (h.ledger.body w a)).2⟩
  · have hent : (a.body w s).entries = [] :=
      (body_quiet (hc (by simpa using hcom)) w s).trans h.entries
    have hl := h.ledger.body w a
    rw [run, if_neg hcom, modLogOnAbort, hent]
    exact ⟨hent, hl.bufs, hl.allocated⟩

theorem settled (h : Idle s) (hc : a.Clean) : a.Settled w s where
  mem := by
    by_cases hcom : a.commits = true
    · intro c
      rw [run, if_pos hcom, if_pos hcom, (onCommit_spec (h.ledger.body w a)).1]
    · exact restored_of_exact h.entries h.ledger (exact_of_clean hc (by simpa using hcom))
  entries := (idle_run h hc).entries
  freed := (idle_run h hc).freed

/-- The entries of an attempt that aborts stay in the log. -/
theorem not_settled (s : State) (hc : ¬ a.Clean) : ¬ a.Settled w s := by
  intro hset
  simp only [Clean, Classical.not_imp, not_forall] at hc
  obtain ⟨hab, op, hm, hl⟩ := hc
  have hne := entries_body_ne (s := s) w (.inl ⟨op, hm, by simpa using hl⟩)
  have hent := hset.entries
  rw [run, if_neg (by simp [hab])] at hent
  exact hne ((entries_foldr_undo w _ (a.body w s)).symm.trans hent)

end Attempt

theorem runAll_snoc (w : WordSize) (m : Memory) (as : List Attempt) (a : Attempt) :
    runAll w m (as ++ [a]) = a.run w (runAll w m as) := by
  simp [runAll]

theorem idle_runAll (m : Memory) {as : List Attempt} (hc : ∀ a ∈ as, a.Clean) :
    Idle (runAll w m as) := by
  induction as using List.reverseRecOn with
  | nil => exact ⟨rfl, .init m⟩
  | append_singleton as a ih =>
    rw [runAll_snoc]
    exact Attempt.idle_run (ih fun b hb => hc b (by simp [hb])) (hc a (by simp))

/-- Over every history of attempts the log does what it is for, exactly when no attempt
aborts with something logged. The first that does still finds its memory restored, unless it
logged a type that a `char` does not hold. -/
theorem log_settled_iff (w : WordSize) (m : Memory) (as : List Attempt) :
    ((∀ pre a post, as = pre ++ a :: post → a.Settled w (runAll w m pre)) ↔
      ∀ a ∈ as, a.Clean) ∧
    ∀ pre a post, as = pre ++ a :: post → (∀ b ∈ pre, b.Clean) → (∀ op ∈ a.ops, op.Exact) →
      a.Restored w (runAll w m pre) := by
  refine ⟨⟨fun h a ha => ?_, ?_⟩, ?_⟩
  · obtain ⟨pre, post, rfl⟩ := List.append_of_mem ha
    by_contra hc
    exact Attempt.not_settled _ hc (h pre a post rfl)
  · rintro hc pre a post rfl
    exact Attempt.settled (idle_runAll m fun b hb => hc b (by simp [hb])) (hc a (by simp))
  · rintro pre a post rfl hpre he
    have hidle := idle_runAll (w := w) m hpre
    exact restored_of_exact hidle.entries hidle.ledger he

/-- An attempt that logs a `uint16_t`, overwrites it and aborts, and an empty one. -/
def aborted : List Attempt := [⟨[.log .u16 0, .write 0 [7, 7]], false⟩, ⟨[.write 0 [9, 9]], false⟩]

/-- Memory holds 256 at address 0. The first attempt restores 0 there, and its entry undoes
the write of the second one as well. -/
theorem aborted_replayed :
    let m : Memory := fun c => if c = 1 then 1 else 0
    let s := runAll .eight m (aborted.take 1)
    (s.mem 0, s.mem 1, s.entries.length) = (0, 0, 1) ∧
      (runAll .eight m aborted).mem 0 = 0 ∧
      ¬ ∀ pre a post, aborted = pre ++ a :: post → a.Settled .eight (runAll .eight m pre) := by
  refine ⟨by decide, by decide, fun h => ?_⟩
  have hent := (h [] _ _ rfl).entries
  exact absurd hent (by decide)

end TinyStm.Log
