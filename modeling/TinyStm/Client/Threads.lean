import TinyStm.Client.Program
import TinyStm.TxInv

/-!
# Threads that execute transactions

Every thread executes transactions one after the other, on the machine of `stm.c`. A
body is started by `stm_start`, its loads and stores are calls of `stm_load` and
`stm_store2`, and at its end it calls `stm_commit`; a rollback jumps back to the start
of the body (`siglongjmp`, `stm.c:1594`). The calls of user code are the only ones that
are made: there are no unit operations and no `stm_set_extension`.
-/

namespace TinyStm.Client

open Interleave

variable {w : ℕ} {α : Type*} {b : Build} {tid : ℕ}

/-- A thread in the body `code`, of which `rest` is still to come. -/
structure Thread (w : ℕ) (α : Type*) where
  tx : Tx w
  code : Prog w α
  rest : Prog w α

/-- A transaction that has returned: the attempt on record, its body and its result. -/
structure Done (w : ℕ) (α : Type*) where
  att : Attempt w
  code : Prog w α
  result : α

structure Glob (w : ℕ) (α : Type*) where
  stm : Shared w
  done : List (Done w α)

inductive Act (w : ℕ) (α : Type*) where
  | start (ro : Bool) (p : Prog w α)
  | call
  | abort
  | go

/-- The call that the body makes next. -/
def Prog.next : Prog w α → TinyStm.Act w
  | .ret _ => .commit
  | .load a _ => .load a
  | .store a v m _ => .store a v m

/-- What is still to come after the call in progress has got the descriptor from `x` to
`y`: a load or store that has returned is on record, and a rollback starts again. -/
def Thread.after (x : Thread w α) (y : Tx w) : Prog w α :=
  if y.pc = .prepare then x.code
  else match x.rest with
    | .ret r => .ret r
    | .load a k => if x.tx.reads.length < y.reads.length then
        match y.reads.getLast? with
        | some r => k r.val
        | none => .load a k
      else .load a k
    | .store a v m k => if x.tx.stores.length < y.stores.length then k else .store a v m k

/-- The transaction of `x` is over when the descriptor is idle. -/
def Thread.finish (x : Thread w α) (y : Tx w) (g : Shared w) : List (Done w α) :=
  match x.rest, y.pc, g.hist.getLast? with
  | .ret r, .idle, some A => [⟨A, x.code, r⟩]
  | _, _, _ => []

/-- The call `act` of the descriptor. -/
def Thread.step (b : Build) (tid : ℕ) (act : TinyStm.Act w) (g : Glob w α) (x : Thread w α) :
    Option (Glob w α × Thread w α) :=
  (stepTx b tid act g.stm.tick x.tx).map fun r =>
    (⟨r.1, g.done ++ x.finish r.2 r.1⟩, ⟨r.2, x.code, x.after r.2⟩)

def step (b : Build) (tid : ℕ) (act : Act w α) (g : Glob w α) (x : Thread w α) :
    Option (Glob w α × Thread w α) :=
  match act, x.tx.pc with
  | .start ro p, .idle => Thread.step b tid (.start ro) g { x with code := p }
  | .call, .run => x.step b tid x.rest.next g
  | .abort, .run => x.step b tid .abort g
  | .go, _ => x.step b tid .go g
  | _, _ => none

def system (b : Build) (w : ℕ) (α : Type*) :
    System ℕ (Glob w α) (Thread w α) (Act w α) where
  step tid act g x := step b tid act g x

abbrev State (w : ℕ) (α : Type*) := Config ℕ (Glob w α) (Thread w α)

/-- The machine below. -/
def State.stm (s : State w α) : TinyStm.State w := ⟨s.shared.stm, fun i => (s.loc i).tx⟩

/-- After `stm_init` and `stm_init_thread`. -/
structure Initial (s : State w α) : Prop where
  stm : TinyStm.Initial s.stm
  done : s.shared.done = []

/-- Over the memory `m`; no thread has a body yet, and `r` stands for one. -/
def State.fresh (m : ℕ → BitVec w) (r : α) : State w α :=
  ⟨⟨(TinyStm.State.fresh m).shared, []⟩, fun i => ⟨(TinyStm.State.fresh m).loc i, .ret r, .ret r⟩⟩

theorem initial_fresh (m : ℕ → BitVec w) (r : α) : Initial (State.fresh m r) :=
  ⟨TinyStm.initial_fresh m, rfl⟩

end TinyStm.Client
