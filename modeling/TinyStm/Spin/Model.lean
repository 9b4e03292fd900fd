import TinyStm.Lib.Chain
import TinyStm.Lib.Interleave
import Mathlib.Data.Int.Basic

/-!
# The priority array with spin locks (core/priority.c, build without `USE_NBBLIST`)

Every priority has a linked list of tasks with one lock at each end, a counter and
a bit in a byte map. An insertion takes the lock of the tail, a removal that of
the head, and each takes the other one too when it reads the counter as 1. Every
read and write of shared memory is one step. The counter `nins` and the lock
`headtaillock` are left out: nobody reads the one or takes the other.
-/

namespace TinyStm.Spin

open Interleave

variable {ι τ : Type*}

/-! ### Lists -/

inductive Side where
  | head
  | tail
  deriving DecidableEq

def Side.other : Side → Side
  | .head => .tail
  | .tail => .head

inductive Counter where
  | nenq
  | ndeq
  | neqx
  deriving DecidableEq

def Side.counter : Side → Counter
  | .head => .ndeq
  | .tail => .nenq

/-- A `task_list_t`; a lock holds the thread that took it. -/
structure TaskList (ι τ : Type*) where
  lock : Side → Option ι
  head : Option τ
  tail : Option τ
  counter : Counter → ℤ
  count : ℤ

def taskListInit : TaskList ι τ := ⟨fun _ => none, none, none, fun _ => 0, 0⟩

def TaskList.setLock (l : TaskList ι τ) (s : Side) (o : Option ι) : TaskList ι τ :=
  { l with lock := Function.update l.lock s o }

def TaskList.addCounter (l : TaskList ι τ) (c : Counter) (n : ℤ) : TaskList ι τ :=
  { l with counter := Function.update l.counter c (l.counter c + n) }

/-! ### Locks -/

/-- The places of `insert_acq_lock` (side `tail`) and `remove_acq_lock` (side
`head`), which differ in nothing but the side. -/
inductive Acq where
  | trylock
  | loadCount
  | trylockOther
  | unlock
  | enter (todo : List Counter) (nlocks : ℕ)

/-- The counters that a thread with `nlocks` locks raises, in this order. -/
def Side.counters (s : Side) (nlocks : ℕ) : List Counter :=
  if nlocks = 2 then [s.counter, s.other.counter, .neqx] else [s.counter]

/-- `none` for a failed assertion. -/
def acqStep (i : ι) (s : Side) (l : TaskList ι τ) : Acq → Option (TaskList ι τ × Acq)
  | .trylock =>
    if (l.lock s).isNone then some (l.setLock s (some i), .loadCount) else some (l, .trylock)
  | .loadCount => some (l, if l.count = 1 then .trylockOther else .enter (s.counters 1) 1)
  | .trylockOther =>
    if (l.lock s.other).isNone then
      some (l.setLock s.other (some i), .enter (s.counters 2) 2)
    else some (l, .unlock)
  | .unlock => some (l.setLock s none, .trylock)
  | .enter [] nlocks => some (l, .enter [] nlocks)
  | .enter (c :: todo) nlocks =>
    if l.counter c = 0 then some (l.addCounter c 1, .enter todo nlocks) else none

inductive Release where
  | lower (c : Counter)
  | unlock (s : Side)
  deriving DecidableEq

/-- The work of `insert_rel_lock` and `remove_rel_lock`. -/
def Side.releases (s : Side) (nlocks : ℕ) : List Release :=
  (if nlocks = 2 then [.lower s.other.counter, .lower .neqx, .unlock s.other] else []) ++
    [.lower s.counter, .unlock s]

def relStep (l : TaskList ι τ) : Release → Option (TaskList ι τ)
  | .lower c => if l.counter c = 1 then some (l.addCounter c (-1)) else none
  | .unlock s => some (l.setLock s none)

/-! ### The array -/

/-- `inserted` and `returned` are auxiliary: the tasks of all calls so far. -/
structure PrioTaskArray (ι τ : Type*) where
  list : ℕ → TaskList ι τ
  bitmap : ℕ → BitVec 8
  nextQueue : τ → Option τ
  inserted : List τ
  returned : List τ

def getPrioTaskArray : PrioTaskArray ι τ := ⟨fun _ => taskListInit, fun _ => 0#8, fun _ => none, [], []⟩

def PrioTaskArray.setList (g : PrioTaskArray ι τ) (p : ℕ) (l : TaskList ι τ) :
    PrioTaskArray ι τ :=
  { g with list := Function.update g.list p l }

section

variable (g : PrioTaskArray ι τ) (p : ℕ) (l : TaskList ι τ)

@[simp] theorem PrioTaskArray.setList_self : (g.setList p l).list p = l := Function.update_self ..

theorem PrioTaskArray.setList_of_ne {q : ℕ} (h : q ≠ p) : (g.setList p l).list q = g.list q :=
  Function.update_of_ne h _ _

@[simp] theorem PrioTaskArray.setList_setList (l' : TaskList ι τ) :
    (g.setList p l).setList p l' = g.setList p l' := by
  simp [PrioTaskArray.setList]

@[simp] theorem PrioTaskArray.setList_bitmap : (g.setList p l).bitmap = g.bitmap := rfl

@[simp] theorem PrioTaskArray.setList_nextQueue : (g.setList p l).nextQueue = g.nextQueue := rfl

@[simp] theorem PrioTaskArray.setList_inserted : (g.setList p l).inserted = g.inserted := rfl

@[simp] theorem PrioTaskArray.setList_returned : (g.setList p l).returned = g.returned := rfl

end

def setBit (part : BitVec 8) (bit : ℕ) : BitVec 8 := part ||| (1#8 <<< bit)

def resetBit (part : BitVec 8) (bit : ℕ) : BitVec 8 := part &&& ~~~(1#8 <<< bit)

def checkBit (part : BitVec 8) (bit : ℕ) : Bool := part &&& (1#8 <<< bit) != 0#8

/-- One `B_CAS` of the byte of priority `p`, read before as `part`. -/
def PrioTaskArray.casByte (g : PrioTaskArray ι τ) (p : ℕ) (part part' : BitVec 8) :
    Option (PrioTaskArray ι τ) :=
  if g.bitmap (p / 8) = part then
    some { g with bitmap := Function.update g.bitmap (p / 8) part' }
  else none

/-! ### Insertion -/

inductive Ins (τ : Type*) where
  | acq (a : Acq)
  | testHead (nlocks : ℕ)
  | setHead (nlocks : ℕ)
  | loadTail (nlocks : ℕ)
  | link (last : τ) (nlocks : ℕ)
  | setTail (nlocks : ℕ)
  | add (nlocks : ℕ)
  | loadByte (nlocks : ℕ)
  | cas (part : BitVec 8) (nlocks : ℕ)
  | rel (todo : List Release)

section

variable [DecidableEq τ]

/-- `InsertTaskWithPriority` of `task` at `p`; `none` for a failed assertion or a
`NULL` that is dereferenced. -/
def Ins.step (i : ι) (task : τ) (p : ℕ) (g : PrioTaskArray ι τ) :
    Ins τ → Option (PrioTaskArray ι τ × Ins τ)
  | .acq (.enter [] nlocks) => some (g, .testHead nlocks)
  | .acq a => (acqStep i .tail (g.list p) a).map fun r => (g.setList p r.1, .acq r.2)
  | .testHead nlocks =>
    some (g, if (g.list p).head.isNone then .setHead nlocks else .loadTail nlocks)
  | .setHead nlocks => some (g.setList p { g.list p with head := some task }, .setTail nlocks)
  | .loadTail nlocks => (g.list p).tail.map fun last => (g, .link last nlocks)
  | .link last nlocks =>
    some ({ g with nextQueue := Function.update g.nextQueue last (some task) }, .setTail nlocks)
  | .setTail nlocks => some (g.setList p { g.list p with tail := some task }, .add nlocks)
  | .add nlocks =>
    some (g.setList p { g.list p with count := (g.list p).count + 1 },
      if (g.list p).count = 0 then .loadByte nlocks else .rel (Side.tail.releases nlocks))
  | .loadByte nlocks => some (g, .cas (g.bitmap (p / 8)) nlocks)
  | .cas part nlocks =>
    match g.casByte p part (setBit part (p % 8)) with
    | some g' => some (g', .rel (Side.tail.releases nlocks))
    | none => some (g, .loadByte nlocks)
  | .rel [] => some (g, .rel [])
  | .rel (r :: todo) => (relStep (g.list p) r).map fun l => (g.setList p l, .rel todo)

end

/-! ### Removal -/

inductive Rem (τ : Type*) where
  | acq (a : Acq)
  | testHead (nlocks : ℕ)
  | loadHead (nlocks : ℕ)
  | loadNext (task : τ) (nlocks : ℕ)
  | setHead (task : τ) (next : Option τ) (nlocks : ℕ)
  | setTail (task : τ) (nlocks : ℕ)
  | clearNext (task : τ) (nlocks : ℕ)
  | sub (task : τ) (nlocks : ℕ)
  | loadByte (task : τ) (nlocks : ℕ)
  | cas (task : τ) (part : BitVec 8) (nlocks : ℕ)
  | rel (task : Option τ) (todo : List Release)

section

variable [DecidableEq τ]

/-- `RemoveTaskFromPriority` at `p`. -/
def Rem.step (i : ι) (p : ℕ) (g : PrioTaskArray ι τ) : Rem τ → Option (PrioTaskArray ι τ × Rem τ)
  | .acq (.enter [] nlocks) => some (g, .testHead nlocks)
  | .acq a => (acqStep i .head (g.list p) a).map fun r => (g.setList p r.1, .acq r.2)
  | .testHead nlocks =>
    some (g, if (g.list p).head.isNone then .rel none (Side.head.releases nlocks)
      else .loadHead nlocks)
  | .loadHead nlocks => (g.list p).head.map fun task => (g, .loadNext task nlocks)
  | .loadNext task nlocks => some (g, .setHead task (g.nextQueue task) nlocks)
  | .setHead task next nlocks =>
    some (g.setList p { g.list p with head := next },
      if next.isNone then .setTail task nlocks else .clearNext task nlocks)
  | .setTail task nlocks => some (g.setList p { g.list p with tail := none }, .clearNext task nlocks)
  | .clearNext task nlocks =>
    some ({ g with nextQueue := Function.update g.nextQueue task none }, .sub task nlocks)
  | .sub task nlocks =>
    some (g.setList p { g.list p with count := (g.list p).count - 1 },
      if (g.list p).count = 1 then .loadByte task nlocks
      else .rel (some task) (Side.head.releases nlocks))
  | .loadByte task nlocks => some (g, .cas task (g.bitmap (p / 8)) nlocks)
  | .cas task part nlocks =>
    match g.casByte p part (resetBit part (p % 8)) with
    | some g' => some (g', .rel (some task) (Side.head.releases nlocks))
    | none => some (g, .loadByte task nlocks)
  | .rel task [] => some (g, .rel task [])
  | .rel task (r :: todo) => (relStep (g.list p) r).map fun l => (g.setList p l, .rel task todo)

end

/-! ### Threads -/

inductive Act (τ : Type*) where
  | insert (task : Option τ) (prio : ℤ)
  | remove (prio : ℤ)
  | removeHighest
  | go

/-- Who called `RemoveTaskFromPriority`: a thread, or the scan of
`RemoveHighestPriorityTask` at one bit. -/
inductive From where
  | thread
  | scan (byte bit : ℕ)

inductive Pc (τ : Type*) where
  | idle
  | inserted (code : ℤ)
  | removed (task : Option τ)
  | failed
  | insert (task : τ) (p : ℕ) (st : Ins τ)
  | remove (p : ℕ) (k : From) (st : Rem τ)
  | scan (byte bit : ℕ)

/-- No operation is in progress. -/
def Pc.ready : Pc τ → Bool
  | .idle | .inserted _ | .removed _ => true
  | _ => false

/-- The bit after `bit` of `byte`. -/
def Pc.nextBit : ℕ → ℕ → Pc τ
  | byte, bit + 1 => .scan byte bit
  | byte + 1, 0 => .scan byte 7
  | 0, 0 => .removed none

/-- A removal that is over: the value goes to the caller. -/
def PrioTaskArray.leave (g : PrioTaskArray ι τ) : From → Option τ → PrioTaskArray ι τ × Pc τ
  | .scan byte bit, none => (g, .nextBit byte bit)
  | .thread, none => (g, .removed none)
  | _, some task => ({ g with returned := task :: g.returned }, .removed (some task))

def numBytes (num : ℕ) : ℕ := (num - 1) / 8 + 1

section

variable [DecidableEq τ] (num : ℕ)

def Pc.go (i : ι) (g : PrioTaskArray ι τ) : Pc τ → Option (PrioTaskArray ι τ × Pc τ)
  | .idle | .inserted _ | .removed _ | .failed => none
  | .insert _ _ (.rel []) => some (g, .inserted 0)
  | .insert task p st =>
    match st.step i task p g with
    | some (g', st') => some (g', .insert task p st')
    | none => some (g, .failed)
  | .remove _ k (.rel task []) => some (g.leave k task)
  | .remove p k st =>
    match st.step i p g with
    | some (g', st') => some (g', .remove p k st')
    | none => some (g, .failed)
  | .scan byte bit =>
    if checkBit (g.bitmap byte) bit then
      if byte * 8 + bit < num then
        some (g, .remove (byte * 8 + bit) (.scan byte bit) (.acq .trylock))
      else some (g, .nextBit byte bit)
    else some (g, .nextBit byte bit)

/-- The array has `num` priorities, `0 < num`. -/
def system : System ι (PrioTaskArray ι τ) (Pc τ) (Act τ) where
  step i a g x :=
    match a with
    | .go => x.go num i g
    | .insert task prio =>
      if x.ready then
        match task with
        | none => some (g, .inserted (-1))
        | some task =>
          if prio < 0 ∨ (num : ℤ) ≤ prio then some (g, .inserted (-1))
          else some ({ g with inserted := task :: g.inserted },
            .insert task prio.toNat (.acq .trylock))
      else none
    | .remove prio =>
      if x.ready then
        if prio < 0 ∨ (num : ℤ) ≤ prio then some (g, .removed none)
        else some (g, .remove prio.toNat .thread (.acq .trylock))
      else none
    | .removeHighest => if x.ready then some (g, .scan (numBytes num - 1) 7) else none

def initial : Config ι (PrioTaskArray ι τ) (Pc τ) := ⟨getPrioTaskArray, fun _ => .idle⟩

/-- What the callers promise: a task is inserted only while no earlier insertion of
it waits for its removal. -/
def Caller (c : Config ι (PrioTaskArray ι τ) (Pc τ)) (_ : ι) : Act τ → Prop
  | .insert (some task) _ => c.shared.inserted.count task = c.shared.returned.count task
  | _ => True

/-- A removal that holds only the lock of the head finds the list empty, or with at
least two tasks counted. -/
def Settled (c : Config ι (PrioTaskArray ι τ) (Pc τ)) (i : ι) : Prop :=
  match c.loc i with
  | .remove p _ (.testHead nlocks) =>
    nlocks = 2 ∨ (c.shared.list p).head = none ∨ 2 ≤ (c.shared.list p).count
  | _ => True

instance (c : Config ι (PrioTaskArray ι τ) (Pc τ)) (i : ι) (a : Act τ) : Decidable (Caller c i a) :=
  match a with
  | .insert (some task) _ =>
    inferInstanceAs (Decidable (c.shared.inserted.count task = c.shared.returned.count task))
  | .insert none _ | .remove _ | .removeHighest | .go => isTrue trivial

instance (c : Config ι (PrioTaskArray ι τ) (Pc τ)) (i : ι) : Decidable (Settled c i) := by
  unfold Settled
  split <;> infer_instance

end

end TinyStm.Spin
