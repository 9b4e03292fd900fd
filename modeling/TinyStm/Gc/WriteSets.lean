import TinyStm.Gc.Model

/-!
# Write sets under the collector (stm.c, `WRITE_BACK_ETL`, `EPOCH_GC`, `CM_MODULAR`)

A lock word points to an entry of its owner's write set, so another transaction may
hold a pointer into an array that the owner replaces: `stm_allocate_ws_entries` when
the write set grows, `stm_drop` after the owner was killed. Both hand the old array
to `gc_free` with `tx->start`; `stm_exit_thread` uses the clock. Arrays are numbered
in the order of allocation, and of an entry only the array it is in is kept.
-/

namespace TinyStm.WriteSets

open Interleave Gc

inductive Status where
  | out
  | active
  | killed
  | ending
  deriving DecidableEq

/-- `lock l` is the array that lock word `l` points into, `tx a` the `tx` of the
entries of array `a`. Auxiliary: the blocks handed to `gc_free`. -/
structure Shared (ι : Type*) where
  gc : Threads ι
  lock : ℕ → Option ℕ
  next : ℕ
  tx : ℕ → Option ι
  status : ι → Status
  retired : List ℕ

structure Desc where
  self : ℕ
  rSet : ℕ
  wSet : ℕ

/-- Where a thread is: `start` is `tx->start`, `todo` the entries that a loop over the
write set has still to come to. -/
inductive Phase where
  | out
  | begin (start : ℕ)
  | run (start : ℕ)
  | grow (start new : ℕ) (todo : List ℕ)
  | drop (start : ℕ) (todo : List ℕ)
  | release (start : ℕ) (todo : List ℕ)
  | leave (epoch : ℕ) (todo : List ℕ)
  deriving DecidableEq

/-- `locks` are the locks of the write set, `held` the arrays into which the attempt
has loaded a pointer from a lock word. -/
structure Thread where
  gc : Gc.Local
  desc : Option Desc
  phase : Phase
  locks : List ℕ
  held : List ℕ

/-- The start timestamp of the attempt the thread is in. -/
def Phase.start : Phase → Option ℕ
  | .run s | .grow s _ _ | .drop s _ | .release s _ => some s
  | .out | .begin _ | .leave _ _ => none

inductive Act where
  | tick
  | go
  | initThread
  | allocate
  | start
  | publish
  | acquire (l : ℕ)
  | load (l : ℕ)
  | kill (l : ℕ)
  | steal (l : ℕ)
  | grow
  | finish
  | next
  | exitThread

variable {ι : Type*} [DecidableEq ι]

/-- A call of the collector, or one of its steps. -/
def collector (freq : Option ℕ) (i : ι) (a : Gc.Act) (g : Shared ι) (x : Thread) :
    Option (Shared ι × Thread) :=
  ((gcSystem ι freq).step i a g.gc x.gc).map fun r => ({ g with gc := r.1 }, { x with gc := r.2 })

/-- `gc_free(a, epoch)`. -/
def retire (freq : Option ℕ) (i : ι) (a epoch : ℕ) (g : Shared ι) (x : Thread) :
    Option (Shared ι × Thread) :=
  collector freq i (.free a epoch) { g with retired := a :: g.retired } x

def alloc (g : Shared ι) (i : ι) : Shared ι :=
  { g with next := g.next + 1, tx := Function.update g.tx g.next (some i) }

/-- `stm_init_thread`, after `gc_init_thread`. -/
def allocate (i : ι) (g : Shared ι) (x : Thread) : Option (Shared ι × Thread) :=
  if x.desc.isNone ∧ x.phase = .out ∧ x.gc.home.isSome then
    some ({ alloc g i with next := g.next + 3 },
      { x with desc := some ⟨g.next + 1, g.next + 2, g.next⟩ })
  else none

def setLock (g : Shared ι) (l : ℕ) (p : Option ℕ) : Shared ι :=
  { g with lock := Function.update g.lock l p }

def setStatus (g : Shared ι) (i : ι) (s : Status) : Shared ι :=
  { g with status := Function.update g.status i s }

/-- What a running attempt does with lock word `l`. It follows pointers only to arrays
into which it has loaded one. -/
def access (i : ι) (g : Shared ι) (x : Thread) (wSet : ℕ) : Act → Option (Shared ι × Thread)
  | .acquire l =>
    if g.lock l = none then
      some (setLock g l (some wSet), { x with locks := x.locks ++ [l] })
    else none
  | .load l => (g.lock l).map fun a => (g, { x with held := a :: x.held })
  | .kill l =>
    (g.lock l).bind fun a => (g.tx a).bind fun j =>
      if a ∈ x.held ∧ j ≠ i ∧ g.status j = .active then some (setStatus g j .killed, x) else none
  | .steal l =>
    (g.lock l).bind fun a => (g.tx a).bind fun j =>
      if a ∈ x.held ∧ g.status j = .killed then some (setLock g l none, x) else none
  | _ => none

/-- The next round of a loop over the write set, and what follows the last one. -/
def nextStep (freq : Option ℕ) (i : ι) (g : Shared ι) (x : Thread) (d : Desc) :
    Option (Shared ι × Thread) :=
  match x.phase with
  | .grow s new (l :: todo) => some (setLock g l (some new), { x with phase := .grow s new todo })
  | .grow s new [] =>
    retire freq i d.wSet s g { x with desc := some { d with wSet := new }, phase := .run s }
  | .drop s (l :: todo) =>
    some (if g.lock l = some d.wSet then setLock g l none else g, { x with phase := .drop s todo })
  | .drop s [] =>
    if x.locks = [] then some (g, { x with phase := .release s [] })
    else retire freq i d.wSet s (alloc g i)
      { x with desc := some { d with wSet := g.next }, phase := .release s [] }
  | .release s (l :: todo) => some (setLock g l none, { x with phase := .release s todo })
  | .release _ [] => some (setStatus g i .out, { x with phase := .out })
  | .leave e (a :: todo) => collector freq i (.free a e) g { x with phase := .leave e todo }
  | .leave _ [] => collector freq i .exit g { x with desc := none, phase := .out }
  | .out | .begin _ | .run _ => none

def stepTx (freq : Option ℕ) (i : ι) (a : Act) (g : Shared ι) (x : Thread) :
    Option (Shared ι × Thread) :=
  match a, x.desc, x.phase with
  | .initThread, none, .out => collector freq i .init g x
  | .allocate, none, .out => allocate i g x
  | .start, some _, .out => some (g, { x with phase := .begin g.gc.clock })
  | .publish, some _, .begin s =>
    collector freq i (.setEpoch s) (setStatus g i .active)
      { x with phase := .run s, locks := [], held := [] }
  | .grow, some _, .run s => some (alloc g i, { x with phase := .grow s g.next x.locks })
  | .finish, some _, .run s =>
    -- commit and rollback leave the active status by compare-and-swap
    if g.status i = .killed then some (g, { x with phase := .drop s x.locks })
    else some (setStatus g i .ending, { x with phase := .release s x.locks })
  | .next, some d, _ => nextStep freq i g x d
  | .exitThread, some d, .out =>
    some ({ g with retired := [d.rSet, d.wSet, d.self] ++ g.retired },
      { x with phase := .leave g.gc.clock [d.rSet, d.wSet, d.self] })
  | a, some d, .run _ => access i g x d.wSet a
  | _, _, _ => none

/-- A thread that is in a call of the collector goes on with it. -/
def txSystem (ι : Type*) [DecidableEq ι] (freq : Option ℕ) : System ι (Shared ι) Thread Act where
  step i a g x :=
    match a with
    | .tick => collector freq i .tick g x
    | .go => collector freq i .go g x
    | a => if x.gc.pc = .rest then stepTx freq i a g x else none

def start (ι : Type*) : Config ι (Shared ι) Thread where
  shared := ⟨gcInit ι, fun _ => none, 0, fun _ => none, fun _ => .out, []⟩
  loc _ := ⟨⟨none, .rest⟩, none, .out, [], []⟩

/-- The array that the next step of the thread hands to `gc_free`, with `tx->start`. -/
def Thread.retires (x : Thread) : Option (ℕ × ℕ) :=
  match x.desc, x.phase with
  | some d, .grow s _ [] => some (d.wSet, s)
  | some d, .drop s [] => if x.locks = [] then none else some (d.wSet, s)
  | _, _ => none

/-- When an array is retired, the attempts with a pointer into it have not started
after the attempt that retires it. -/
def NoYounger (c : Config ι (Shared ι) Thread) (i : ι) : Act → Prop
  | .next => ∀ p ∈ (c.loc i).retires, ∀ j, p.1 ∈ (c.loc j).held →
    ∀ s ∈ (c.loc j).phase.start, s ≤ p.2
  | _ => True

end TinyStm.WriteSets
