import Mathlib.Data.List.Count
import Mathlib.Data.List.Perm.Basic
import Mathlib.Tactic.SplitIfs
import TinyStm.Mod.Mem

/-!
# The blocks of an attempt

What the lists `allocated` and `freed` hand to `free` over the attempts of one thread. The
calls of the thread are a list, with the addresses that `malloc` gave and with the calls
that roll back. A rollback that is retried jumps to the `sigsetjmp` of the transaction.
With `no_retry` it comes back to the call that it came out of, and the body goes on as in
the module on nested transactions: the descriptor counts no open block, so that every
`stm_commit` from there on is a full one. Asserts are compiled out, and a call other than
`stm_start` outside every block is skipped.
-/

namespace TinyStm.Mem

open Bytes

variable {w : WordSize}

/-- `mod_mem_block_t`: where the entry itself was allocated, and `addr`. -/
structure Block (w : WordSize) where
  node : Addr w
  addr : Addr w
  deriving DecidableEq

inductive Event (w : WordSize)
  | mallocNode (p : Addr w)
  | malloc (p size : Addr w)
  | freeNode (p : Addr w)
  | free (p : Addr w)
  | gcFree (p : Addr w) (t : ℕ)
  | store (a : Addr w)
  deriving DecidableEq

/-- `mod_mem_info_t`, and what was done so far, last first. -/
structure Info (w : WordSize) where
  allocated : List (Block w)
  freed : List (Block w)
  log : List (Event w)
  deriving DecidableEq

def Info.emit (s : Info w) (e : Event w) : Info w := { s with log := e :: s.log }

/-- `mod_mem_on_thread_init`. -/
def modMemOnThreadInit : Info w := ⟨[], [], []⟩

def stmMalloc (size node addr : Addr w) (s : Info w) : Info w :=
  let s := (s.emit (.mallocNode node)).emit (.malloc addr (roundUp size))
  { s with allocated := ⟨node, addr⟩ :: s.allocated }

/-- Walk a list and do `ev` for each of its blocks. -/
def release (ev : Block w → List (Event w)) (l : List (Block w)) (s : Info w) : Info w :=
  l.foldl (fun s mb => { s with log := ev mb ++ s.log }) s

/-- Only the entry of the list is freed. -/
def keep (mb : Block w) : List (Event w) := [.freeNode mb.node]

def dispose (gc : Option ℕ) (mb : Block w) : List (Event w) :=
  [.freeNode mb.node, match gc with
    | some t => .gcFree mb.addr t
    | none => .free mb.addr]

/-- The callback of a commit; `gc` is the clock when `mod_mem_use_gc` is set. -/
def modMemOnCommit (gc : Option ℕ) (s : Info w) : Info w :=
  let s := { release keep s.allocated s with allocated := [] }
  { release (dispose gc) s.freed s with freed := [] }

def modMemOnAbort (s : Info w) : Info w :=
  let s := { release (dispose none) s.allocated s with allocated := [] }
  { release keep s.freed s with freed := [] }

/-- The blocks that an event hands to `free` or `gc_free`. -/
def Event.block : Event w → List (Addr w)
  | .free p => [p]
  | .gcFree p _ => [p]
  | _ => []

def Event.newNode : Event w → List (Addr w)
  | .mallocNode p => [p]
  | _ => []

def Event.oldNode : Event w → List (Addr w)
  | .freeNode p => [p]
  | _ => []

/-- The blocks handed out so far. -/
def Info.handed (s : Info w) : List (Addr w) := s.log.flatMap Event.block

/-- A piece of an attempt: what its calls allocate and free up to a rollback, or to a commit
that is not the end of an inner block. -/
structure Piece (w : WordSize) where
  allocates : List (Addr w)
  frees : List (Addr w)
  committed : Bool
  deriving DecidableEq

/-- An attempt that is over: the blocks handed out before it, its pieces, and what it left.
It is one piece, unless it goes on after a rollback. -/
structure Attempt (w : WordSize) where
  before : List (Addr w)
  pieces : List (Piece w)
  after : Info w
  deriving DecidableEq

/-- The descriptor. Ghost: how many blocks the program has open, the depth its `sigsetjmp`
belongs to, the attempt so far with the piece that is open, and the attempts before it. -/
structure Desc (w : WordSize) where
  nesting : ℤ
  noRetry : Bool
  info : Info w
  depth : ℕ
  base : ℕ
  before : List (Addr w)
  pieces : List (Piece w)
  allocates : List (Addr w)
  frees : List (Addr w)
  finished : List (Attempt w)
  deriving DecidableEq

/-- How a call ends: it comes back to the body, or it jumped to the `sigsetjmp`. -/
inductive Flow
  | back
  | jumped
  deriving DecidableEq, Repr

/-- A piece ends. -/
def Desc.close (committed : Bool) (d : Desc w) : Desc w :=
  { d with
    pieces := d.pieces ++ [⟨d.allocates, d.frees, committed⟩]
    allocates := []
    frees := [] }

/-- The program goes on with `n` open blocks; `ends` says that the attempt has ended. -/
def Desc.leave (n : ℕ) (ends : Bool) (d : Desc w) : Desc w :=
  if ends then
    { d with
      depth := n
      before := d.info.handed
      pieces := []
      finished := d.finished ++ [⟨d.before, d.pieces, d.info⟩] }
  else { d with depth := n }

/-- `stm_rollback` (`stm.c:1527-1622`): the callbacks, then the jump or the return. -/
def stmRollback (d : Desc w) : Desc w × Flow :=
  let d := Desc.close false { d with info := modMemOnAbort d.info, nesting := 1 }
  if d.noRetry then ({ d with nesting := 0 }, .back)
  else (d.leave d.base (d.base = 1), .jumped)

/-- The stores of `stm_free2`; `rolls k` says that the one numbered `k` rolls back. -/
def overwrite (rolls : ℕ → Bool) : List (Addr w) → ℕ → Desc w → Desc w × Flow
  | [], _, d => (d, .back)
  | a :: as, k, d =>
    let d := { d with info := d.info.emit (.store a) }
    if rolls k then
      match stmRollback d with
      | (d, .jumped) => (d, .jumped)
      | (d, .back) => overwrite rolls as (k + 1) d
    else overwrite rolls as (k + 1) d

/-- Schedule for removal. -/
def Desc.schedule (node addr : Addr w) (d : Desc w) : Desc w :=
  { d with
    info := { d.info.emit (.mallocNode node) with freed := ⟨node, addr⟩ :: d.info.freed }
    frees := addr :: d.frees }

/-- The block is put on the list unless the stores jumped out of the call. -/
def stmFree2 (rolls : ℕ → Bool) (addr idx size node : Addr w) (d : Desc w) : Desc w :=
  match overwrite rolls (overwritten addr idx size) 0 d with
  | (d, .jumped) => d
  | (d, .back) => d.schedule node addr

def stmFree (rolls : ℕ → Bool) (addr size node : Addr w) (d : Desc w) : Desc w :=
  stmFree2 rolls addr 0 size node d

/-- `stm_start` (`stm.c:3102-3149`). -/
def stmStart (noRetry : Bool) (d : Desc w) : Desc w :=
  let d := { d with depth := d.depth + 1 }
  if 0 < d.nesting then { d with nesting := d.nesting + 1 }
  else { d with nesting := d.nesting + 1, noRetry := noRetry, base := d.depth }

/-- `stm_commit` (`stm.c:3153-3392`); `gc` is the clock when `mod_mem_use_gc` is set. -/
def stmCommit (gc : Option ℕ) (rolls : Bool) (d : Desc w) : Desc w :=
  let d := { d with nesting := d.nesting - 1 }
  if 0 < d.nesting then { d with depth := d.depth - 1 }
  else if rolls then
    match stmRollback d with
    | (d, .jumped) => d
    | (d, .back) => d.leave (d.depth - 1) (d.depth = 1)
  else (Desc.close true { d with info := modMemOnCommit gc d.info }).leave (d.depth - 1) (d.depth = 1)

/-- A call of the thread. The addresses are what `malloc` returns; `other` is any call that
does nothing to the lists but may roll back. -/
inductive Call (w : WordSize)
  | start (noRetry : Bool)
  | malloc (size node addr : Addr w)
  | free (addr size node : Addr w) (rolls : ℕ → Bool)
  | free2 (addr idx size node : Addr w) (rolls : ℕ → Bool)
  | other (rolls : Bool)
  | commit (rolls : Bool) (clock : ℕ)

def step (useGc : Bool) (d : Desc w) (c : Call w) : Desc w :=
  match c with
  | .start nr => stmStart nr d
  | .malloc size node addr =>
    if d.depth = 0 then d
    else { d with info := stmMalloc size node addr d.info, allocates := addr :: d.allocates }
  | .free addr size node rolls => if d.depth = 0 then d else stmFree rolls addr size node d
  | .free2 addr idx size node rolls =>
    if d.depth = 0 then d else stmFree2 rolls addr idx size node d
  | .other rolls => if d.depth = 0 then d else if rolls then (stmRollback d).1 else d
  | .commit rolls clock =>
    if d.depth = 0 then d else stmCommit (if useGc then some clock else none) rolls d

/-- After `stm_init_thread`. -/
def initial : Desc w := ⟨0, false, modMemOnThreadInit, 0, 0, [], [], [], [], []⟩

def run (useGc : Bool) (cs : List (Call w)) : Desc w := cs.foldl (step useGc) initial

/-! ### The law -/

namespace Attempt

def allocates (a : Attempt w) : List (Addr w) := a.pieces.flatMap Piece.allocates

def frees (a : Attempt w) : List (Addr w) := a.pieces.flatMap Piece.frees

def rolledBack (a : Attempt w) : Bool := a.pieces.any fun p => !p.committed

/-- What an attempt hands out, and that it leaves nothing behind. -/
structure Settled (a : Attempt w) : Prop where
  /-- A committed attempt hands out each block as often as it was freed, an aborted one as
  often as `malloc` returned it. -/
  handed : ∀ b, a.after.handed.count b =
    a.before.count b + (if a.rolledBack then a.allocates else a.frees).count b
  /-- The entries that were allocated for the lists are released, each once. -/
  nodes : (a.after.log.flatMap Event.oldNode).Perm (a.after.log.flatMap Event.newNode)
  allocated : a.after.allocated = []
  freed : a.after.freed = []

/-- In an attempt that is rolled back, the pieces that still commit free the blocks that they
allocate, and no others. -/
def Clean (a : Attempt w) : Prop :=
  a.rolledBack = true →
    ((a.pieces.filter Piece.committed).flatMap Piece.frees).Perm
      ((a.pieces.filter Piece.committed).flatMap Piece.allocates)

end Attempt

/-- Every attempt is settled, and the lists are empty whenever no block is open. -/
structure Law (useGc : Bool) (cs : List (Call w)) : Prop where
  settled : ∀ a ∈ (run useGc cs).finished, a.Settled
  idle : ∀ n, (run useGc (cs.take n)).depth = 0 →
    (run useGc (cs.take n)).info.allocated = [] ∧ (run useGc (cs.take n)).info.freed = []

/-! ### The callbacks -/

variable {s : Info w} {ev : Block w → List (Event w)} {l : List (Block w)}

@[simp] theorem release_allocated : (release ev l s).allocated = s.allocated := by
  induction l generalizing s with
  | nil => rfl
  | cons mb l ih => exact ih

@[simp] theorem release_freed : (release ev l s).freed = s.freed := by
  induction l generalizing s with
  | nil => rfl
  | cons mb l ih => exact ih

theorem count_release (g : Event w → List (Addr w)) (x : Addr w) :
    ((release ev l s).log.flatMap g).count x =
      (l.flatMap fun mb => (ev mb).flatMap g).count x + (s.log.flatMap g).count x := by
  induction l generalizing s with
  | nil => simp [release]
  | cons mb l ih =>
    have h := ih (s := { s with log := ev mb ++ s.log })
    simp only [List.flatMap_append, List.count_append, List.flatMap_cons] at h ⊢
    rw [Nat.add_assoc, Nat.add_left_comm, ← h]
    rfl

/-- The entries on the lists are those that were allocated and not yet freed. -/
def Ledger (s : Info w) : Prop :=
  ∀ p, (s.log.flatMap Event.newNode).count p = (s.log.flatMap Event.oldNode).count p +
    (s.allocated.map Block.node).count p + (s.freed.map Block.node).count p

section Effects

variable (gc : Option ℕ) (l : List (Block w))

theorem block_keep : (l.flatMap fun mb => (keep mb).flatMap Event.block) = [] := by
  simp [keep, Event.block]

theorem block_dispose : (l.flatMap fun mb => (dispose gc mb).flatMap Event.block) =
    l.map Block.addr := by
  cases gc <;> simp [dispose, Event.block, List.map_eq_flatMap]

theorem oldNode_keep : (l.flatMap fun mb => (keep mb).flatMap Event.oldNode) =
    l.map Block.node := by
  simp [keep, Event.oldNode, List.map_eq_flatMap]

theorem oldNode_dispose : (l.flatMap fun mb => (dispose gc mb).flatMap Event.oldNode) =
    l.map Block.node := by
  cases gc <;> simp [dispose, Event.oldNode, List.map_eq_flatMap]

theorem newNode_keep : (l.flatMap fun mb => (keep mb).flatMap Event.newNode) = [] := by
  simp [keep, Event.newNode]

theorem newNode_dispose : (l.flatMap fun mb => (dispose gc mb).flatMap Event.newNode) = [] := by
  cases gc <;> simp [dispose, Event.newNode]

end Effects

theorem handed_onCommit (gc : Option ℕ) (b : Addr w) :
    (modMemOnCommit gc s).handed.count b = s.handed.count b + (s.freed.map Block.addr).count b := by
  simp only [modMemOnCommit, Info.handed, count_release, block_keep, block_dispose, release_freed,
    List.count_nil]
  omega

theorem handed_onAbort (b : Addr w) :
    (modMemOnAbort s).handed.count b = s.handed.count b + (s.allocated.map Block.addr).count b := by
  simp only [modMemOnAbort, Info.handed, count_release, block_keep, block_dispose, release_freed,
    List.count_nil]
  omega

theorem Ledger.onCommit (h : Ledger s) (gc : Option ℕ) : Ledger (modMemOnCommit gc s) := by
  intro p
  have hp := h p
  simp only [modMemOnCommit, count_release, oldNode_keep, oldNode_dispose, newNode_keep,
    newNode_dispose, release_freed, release_allocated, List.map_nil, List.count_nil]
  omega

theorem Ledger.onAbort (h : Ledger s) : Ledger (modMemOnAbort s) := by
  intro p
  have hp := h p
  simp only [modMemOnAbort, count_release, oldNode_keep, oldNode_dispose, newNode_keep,
    newNode_dispose, release_freed, release_allocated, List.map_nil, List.count_nil]
  omega

/-! ### Pieces -/

/-- What a piece hands out. -/
def Piece.hands (p : Piece w) : List (Addr w) := if p.committed then p.frees else p.allocates

/-- What the code makes sure of, whatever the attempt does: its pieces hand out their own
blocks, and nothing is left. -/
structure Attempt.Closed (a : Attempt w) : Prop where
  handed : ∀ b, a.after.handed.count b = a.before.count b + (a.pieces.flatMap Piece.hands).count b
  ledger : Ledger a.after
  allocated : a.after.allocated = []
  freed : a.after.freed = []

namespace Attempt

variable {a : Attempt w}

theorem Closed.nodes (h : a.Closed) :
    (a.after.log.flatMap Event.oldNode).Perm (a.after.log.flatMap Event.newNode) := by
  refine List.perm_iff_count.mpr fun p => ?_
  have hp := h.ledger p
  rw [h.allocated, h.freed] at hp
  simpa using hp.symm

end Attempt

/-! ### Whole histories -/

/-- The open piece is what is on the lists, and the closed ones are handed out. -/
structure Inv (d : Desc w) : Prop where
  allocated : d.info.allocated.map Block.addr = d.allocates
  freed : d.info.freed.map Block.addr = d.frees
  handed : ∀ b, d.info.handed.count b = d.before.count b + (d.pieces.flatMap Piece.hands).count b
  ledger : Ledger d.info
  nesting : d.nesting ≤ d.depth
  base : 0 < d.depth → 0 < d.base
  idle : d.depth = 0 → d.info.allocated = [] ∧ d.info.freed = []
  closed : ∀ a ∈ d.finished, a.Closed

namespace Inv

variable {d : Desc w}

theorem init : Inv (initial : Desc w) where
  allocated := rfl
  freed := rfl
  handed _ := rfl
  ledger _ := rfl
  nesting := Int.le_refl 0
  base h := absurd h (Nat.lt_irrefl 0)
  idle _ := ⟨rfl, rfl⟩
  closed _ ha := absurd ha List.not_mem_nil

theorem store (h : Inv d) (a : Addr w) : Inv { d with info := d.info.emit (.store a) } :=
  ⟨h.allocated, h.freed, h.handed, h.ledger, h.nesting, h.base, h.idle, h.closed⟩

theorem malloc (h : Inv d) (hd : d.depth ≠ 0) (size node addr : Addr w) :
    Inv { d with info := stmMalloc size node addr d.info, allocates := addr :: d.allocates } where
  allocated := congrArg (addr :: ·) h.allocated
  freed := h.freed
  handed := h.handed
  ledger p := by
    have hp := h.ledger p
    simp only [stmMalloc, Info.emit, List.flatMap_cons, Event.newNode, Event.oldNode,
      List.nil_append, List.singleton_append, List.map_cons, List.count_cons]
    omega
  nesting := h.nesting
  base := h.base
  idle h0 := absurd h0 hd
  closed := h.closed

theorem schedule (h : Inv d) (hd : d.depth ≠ 0) (node addr : Addr w) :
    Inv (d.schedule node addr) where
  allocated := h.allocated
  freed := congrArg (addr :: ·) h.freed
  handed := h.handed
  ledger p := by
    have hp := h.ledger p
    simp only [Desc.schedule, Info.emit, List.flatMap_cons, Event.newNode, Event.oldNode,
      List.nil_append, List.singleton_append, List.map_cons, List.count_cons]
    omega
  nesting := h.nesting
  base := h.base
  idle h0 := absurd h0 hd
  closed := h.closed

theorem start (h : Inv d) (nr : Bool) : Inv (stmStart nr d) := by
  have hn : d.nesting + 1 ≤ ((d.depth + 1 : ℕ) : ℤ) := by
    have := h.nesting
    omega
  unfold stmStart
  dsimp only
  split
  · exact ⟨h.allocated, h.freed, h.handed, h.ledger, hn, fun _ => h.base (by omega),
      fun h0 => absurd h0 (Nat.succ_ne_zero _), h.closed⟩
  · exact ⟨h.allocated, h.freed, h.handed, h.ledger, hn, fun _ => Nat.succ_pos _,
      fun h0 => absurd h0 (Nat.succ_ne_zero _), h.closed⟩

end Inv

/-- A descriptor right after a callback: nothing is on a list. -/
structure Emptied (d : Desc w) : Prop where
  inv : Inv d
  allocated : d.info.allocated = []
  freed : d.info.freed = []

namespace Inv

variable {d : Desc w}

theorem onAbort (h : Inv d) (n : ℤ) (hn : n ≤ d.depth) :
    Emptied (Desc.close false { d with info := modMemOnAbort d.info, nesting := n }) where
  allocated := by simp [Desc.close, modMemOnAbort]
  freed := rfl
  inv :=
    { allocated := by simp [Desc.close, modMemOnAbort]
      freed := rfl
      handed := fun b => by
        simp only [Desc.close, handed_onAbort, h.handed b, h.allocated, List.flatMap_append,
          List.count_append, List.flatMap_cons, List.flatMap_nil, Piece.hands, List.append_nil,
          Bool.false_eq_true, if_false]
        omega
      ledger := h.ledger.onAbort
      nesting := hn
      base := h.base
      idle := fun _ => ⟨by simp [Desc.close, modMemOnAbort], rfl⟩
      closed := h.closed }

theorem onCommit (h : Inv d) (gc : Option ℕ) :
    Emptied (Desc.close true { d with info := modMemOnCommit gc d.info }) where
  allocated := by simp [Desc.close, modMemOnCommit]
  freed := rfl
  inv :=
    { allocated := by simp [Desc.close, modMemOnCommit]
      freed := rfl
      handed := fun b => by
        simp only [Desc.close, handed_onCommit, h.handed b, h.freed, List.flatMap_append,
          List.count_append, List.flatMap_cons, List.flatMap_nil, Piece.hands, List.append_nil,
          if_true]
        omega
      ledger := h.ledger.onCommit gc
      nesting := h.nesting
      base := h.base
      idle := fun _ => ⟨by simp [Desc.close, modMemOnCommit], rfl⟩
      closed := h.closed }

end Inv

namespace Emptied

variable {d : Desc w}

/-- The attempt may end here. -/
theorem leave (h : Emptied d) {n : ℕ} (hn : d.nesting ≤ n) (hb : 0 < n → 0 < d.base)
    (ends : Bool) : Inv (d.leave n ends) := by
  unfold Desc.leave
  split
  · refine ⟨h.inv.allocated, h.inv.freed, fun b => rfl, h.inv.ledger, hn, hb,
      fun _ => ⟨h.allocated, h.freed⟩, fun a ha => ?_⟩
    obtain ha | ha := List.mem_append.mp ha
    · exact h.inv.closed a ha
    · obtain rfl := List.mem_singleton.mp ha
      exact ⟨h.inv.handed, h.inv.ledger, h.allocated, h.freed⟩
  · exact ⟨h.inv.allocated, h.inv.freed, h.inv.handed, h.inv.ledger, hn, hb,
      fun _ => ⟨h.allocated, h.freed⟩, h.inv.closed⟩

end Emptied

theorem leave_depth (n : ℕ) (ends : Bool) (d : Desc w) : (d.leave n ends).depth = n := by
  unfold Desc.leave
  split <;> rfl

/-- A rollback comes back to the open block, or it is at the one it jumped to. -/
theorem Inv.rollback {d : Desc w} (h : Inv d) (hd : d.depth ≠ 0) :
    (∃ t, stmRollback d = (t, .back) ∧ Emptied t ∧ t.nesting = 0 ∧ t.depth = d.depth) ∨
      ∃ t, stmRollback d = (t, .jumped) ∧ Inv t ∧ t.depth ≠ 0 := by
  have hbase : 0 < d.base := h.base (Nat.pos_of_ne_zero hd)
  have hone : (1 : ℤ) ≤ d.base := by omega
  cases hr : d.noRetry with
  | true => exact .inl ⟨_, by simp [stmRollback, Desc.close, hr], h.onAbort 0 (by omega), rfl, rfl⟩
  | false =>
    have he := (h.onAbort 1 (by omega)).leave hone (fun _ => hbase) (d.base = 1)
    exact .inr ⟨_, by simp [stmRollback, Desc.close, hr], he, by
      rw [leave_depth]
      exact Nat.ne_of_gt hbase⟩

theorem Inv.overwrite {d : Desc w} (h : Inv d) (hd : d.depth ≠ 0) (rolls : ℕ → Bool)
    (ws : List (Addr w)) (k : ℕ) :
    Inv (overwrite rolls ws k d).1 ∧ (Mem.overwrite rolls ws k d).1.depth ≠ 0 := by
  induction ws generalizing k d with
  | nil => exact ⟨h, hd⟩
  | cons a ws ih =>
    rw [Mem.overwrite]
    split
    · obtain ⟨t, he, hempty, -, hdepth⟩ | ⟨t, he, hinv, hdepth⟩ := (h.store a).rollback hd
      · rw [he]
        exact ih hempty.inv (hdepth ▸ hd) (k + 1)
      · rw [he]
        exact ⟨hinv, hdepth⟩
    · exact ih (h.store a) hd (k + 1)

theorem Inv.free2 {d : Desc w} (h : Inv d) (hd : d.depth ≠ 0) (rolls : ℕ → Bool)
    (addr idx size node : Addr w) : Inv (stmFree2 rolls addr idx size node d) := by
  have hr := h.overwrite hd rolls (overwritten addr idx size) 0
  unfold stmFree2
  rcases he : Mem.overwrite rolls (overwritten addr idx size) 0 d with ⟨t, f⟩
  rw [he] at hr
  cases f with
  | back => exact hr.1.schedule hr.2 node addr
  | jumped => exact hr.1

/-- A block ends at an inner commit, at a commit that fails, or at one that does not. -/
theorem Inv.commit {d : Desc w} (h : Inv d) (hd : d.depth ≠ 0) (gc : Option ℕ) (rolls : Bool) :
    Inv (stmCommit gc rolls d) := by
  have hn := h.nesting
  have hbase : 0 < d.base := h.base (Nat.pos_of_ne_zero hd)
  have hle : d.nesting - 1 ≤ d.depth := by omega
  have hdec : Inv { d with nesting := d.nesting - 1 } :=
    ⟨h.allocated, h.freed, h.handed, h.ledger, hle, h.base, h.idle, h.closed⟩
  rw [stmCommit]
  split
  · next hin =>
    have hin : 0 < d.nesting - 1 := hin
    have hinner : d.nesting - 1 ≤ (d.depth - 1 : ℕ) := by omega
    have hopen : d.depth - 1 ≠ 0 := by omega
    exact ⟨h.allocated, h.freed, h.handed, h.ledger, hinner, fun _ => hbase,
      fun h0 => absurd h0 hopen, h.closed⟩
  · cases rolls with
    | true =>
      rw [if_pos rfl]
      obtain ⟨t, he, hempty, hzero, hdepth⟩ | ⟨t, he, hinv, -⟩ := hdec.rollback hd
      · rw [he]
        have hpos : 0 < t.base := hempty.inv.base (by rw [hdepth]; exact Nat.pos_of_ne_zero hd)
        exact hempty.leave (by omega) (fun _ => hpos) _
      · rw [he]
        exact hinv
    | false =>
      rw [if_neg Bool.false_ne_true]
      refine (hdec.onCommit gc).leave ?_ (fun _ => hbase) _
      simp only [Desc.close]
      omega

/-- One call keeps the invariant. -/
theorem Inv.step {d : Desc w} (h : Inv d) (useGc : Bool) (c : Call w) : Inv (step useGc d c) := by
  cases c with
  | start nr => exact h.start nr
  | malloc size node addr =>
    rw [Mem.step]
    split_ifs with hd
    · exact h
    · exact h.malloc hd size node addr
  | free addr size node rolls =>
    rw [Mem.step]
    split_ifs with hd
    · exact h
    · exact h.free2 hd rolls addr 0 size node
  | free2 addr idx size node rolls =>
    rw [Mem.step]
    split_ifs with hd
    · exact h
    · exact h.free2 hd rolls addr idx size node
  | other rolls =>
    rw [Mem.step]
    split_ifs with hd hr
    · exact h
    · obtain ⟨t, he, hempty, -, -⟩ | ⟨t, he, hinv, -⟩ := h.rollback hd
      · rw [he]
        exact hempty.inv
      · rw [he]
        exact hinv
    · exact h
  | commit rolls clock =>
    rw [Mem.step]
    split_ifs with hd
    · exact h
    all_goals exact h.commit hd _ rolls

theorem inv_run (useGc : Bool) (cs : List (Call w)) : Inv (run useGc cs) :=
  List.foldlRecOn cs (Mem.step useGc) .init fun _ h c _ => h.step useGc c

/-- The same transaction, rolled back by a load before. -/
def goesOn : List (Call .eight) :=
  [.start true, .other true, .free 8192 8 80 fun _ => false, .commit false 0]

end TinyStm.Mem
