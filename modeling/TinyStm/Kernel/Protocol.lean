import TinyStm.Kernel.Delivery
import TinyStm.Lib.History

/-!
# Ticks and the user side of the control buffer

The threads of a program with early abort driven by ticks (`EARLY_ABORT` and `EA_EXTRATICK`,
no simulation). A step is one access to the control buffer, to `tx->end` or to the clock, or
a call or a return; what else the library does is in the steps called bodies, which call
`stm_extend` or `stm_rollback` as the run has it. After a rollback with `no_retry` the body
goes on in the middle of its blocks. A tick of a thread may come between any two of its
steps, at any address that the code it is in may have.
-/

namespace TinyStm.Kernel

open Interleave

inductive Op where
  | load
  | write
  deriving DecidableEq

/-- Who called `stm_extend`: the body of an operation, its end, or `stm_revalidate`. -/
inductive Extender where
  | body (o : Op)
  | tail (o : Op)
  | callback
  deriving DecidableEq

/-- Who called `stm_rollback`. -/
inductive Aborter where
  | body (o : Op)
  | tail (o : Op)
  | callback
  | commit
  | program
  deriving DecidableEq

/-- Who called `stm_prepare`. -/
inductive Preparer where
  | start
  | rollback (k : Aborter)
  deriving DecidableEq

inductive PreparePc where
  | setEnd
  | rollover
  | setOpt
  | testStanding
  | clearStanding
  | testRecent
  | clearRecent
  deriving DecidableEq

inductive OpPc where
  | body
  | testStanding
  | clearTxOn
  | setRecent
  | setTxOn
  | ret
  deriving DecidableEq

inductive ExtendPc where
  | testTxOn
  | setRecent
  | readClock
  | validate (now : BitVec 64)
  | setEnd (now : BitVec 64)
  | testStanding
  | clearStanding
  deriving DecidableEq

inductive RollbackPc where
  | drop
  | testRetry
  | testStanding (retry : Bool)
  | clearStanding (retry : Bool)
  | testTxOn
  | setTxOn
  | longjmp
  | clearTxOn
  deriving DecidableEq

inductive CallbackPc where
  | entry
  | prologue
  | mask
  | save
  | abort
  | restore
  | unmask
  | ret
  deriving DecidableEq

/-- Where a thread is; `app` is any code outside the library. -/
inductive Pc where
  | app
  | start (noRetry : Bool)
  | started
  | prepare (k : Preparer) (st : PreparePc)
  | op (o : Op) (st : OpPc)
  | extend (k : Extender) (st : ExtendPc)
  | rollback (k : Aborter) (st : RollbackPc)
  | commit
  | committed
  | callback (st : CallbackPc)
  deriving DecidableEq

/-- A thread. `frames` are the places that callbacks are to return to. -/
structure Thread where
  buf : ControlBuffer
  endClock : BitVec 64
  nesting : ℤ
  noRetry : Bool
  pc : Pc
  frames : List Pc

inductive Act where
  | tick (t : Tick)
  | start (noRetry : Bool)
  | load
  | write
  | commit
  | abort
  | go
  | bump
  | rollover (reset : Bool)
  | setOpt (v : Option (BitVec 64))
  | validate (ok : Bool) (v : Option (BitVec 64))
  | extend
  | rollback

def ControlBuffer.setOpt (b : ControlBuffer) (v : Option (BitVec 64)) : ControlBuffer :=
  { b with optClock := v.getD b.optClock }

/-- Where a call of `stm_extend` returns to. -/
def Extender.ret (ok : Bool) : Extender → Pc
  | .body o => if ok then .op o .body else .rollback (.body o) .drop
  | .tail o => if ok then .op o .setTxOn else .rollback (.tail o) .drop
  | .callback => .callback (if ok then .restore else .abort)

/-- Where a call of `stm_rollback` returns to, when the transaction is not to restart. -/
def Aborter.ret : Aborter → Pc
  | .body .load => .op .load .testStanding
  | .body .write => .op .write .ret
  | .tail o => .op o .setTxOn
  | .callback => .callback .restore
  | .commit | .program => .app

def Preparer.ret : Preparer → Pc
  | .start => .started
  | .rollback k => .rollback k .testRetry

section

variable (k : Setup) (vmax : BitVec 64)

def Thread.tick (t : Tick) (clock : BitVec 64) (x : Thread) : Thread :=
  let r := timerDelivery k t clock x.endClock x.buf
  if r.2 then { x with buf := r.1, pc := .callback .entry, frames := x.pc :: x.frames }
  else { x with buf := r.1 }

/-- Calls of the program, and unit stores. -/
def Thread.appStep (clock : BitVec 64) (x : Thread) : Act → Option (BitVec 64 × Thread)
  | .start noRetry =>
    some (clock, { x with buf := { x.buf with txOn := 1 }, pc := .start noRetry })
  | .load => some (clock, { x with pc := .op .load .body })
  | .write => some (clock, { x with pc := .op .write .body })
  | .commit =>
    some (clock, if 0 < x.nesting - 1 then { x with nesting := x.nesting - 1 }
      else { x with nesting := x.nesting - 1, pc := .commit })
  | .abort => some (clock, { x with pc := .rollback .program .drop })
  | .bump => some (clock + 1, x)
  | _ => none

def Thread.commitStep (clock : BitVec 64) (x : Thread) : Act → Option (BitVec 64 × Thread)
  | .rollback => some (clock, { x with pc := .rollback .commit .drop })
  | .bump => some (clock + 1, x)
  | .setOpt v => some (clock, { x with buf := x.buf.setOpt v })
  | .go => some (clock, { x with pc := .committed })
  | _ => none

def Thread.prepareStep (clock : BitVec 64) (x : Thread) (k : Preparer) (a : Act) :
    PreparePc → Option (BitVec 64 × Thread)
  | .setEnd =>
    some (clock, { x with
      endClock := clock, pc := .prepare k (if vmax ≤ clock then .rollover else .setOpt) })
  | .rollover =>
    match a with
    | .rollover reset => some (if reset then 0 else clock, { x with pc := .prepare k .setEnd })
    | _ => none
  | .setOpt =>
    match a with
    | .setOpt v => some (clock, { x with buf := x.buf.setOpt v, pc := .prepare k .testStanding })
    | _ => none
  | .testStanding =>
    some (clock, { x with
      pc := .prepare k (if x.buf.standing = 1 then .clearStanding else .testRecent) })
  | .clearStanding =>
    some (clock, { x with buf := { x.buf with standing := 0 }, pc := .prepare k .testRecent })
  | .testRecent =>
    some (clock, { x with
      pc := if x.buf.recentlyValidated = 1 then .prepare k .clearRecent else k.ret })
  | .clearRecent =>
    some (clock, { x with buf := { x.buf with recentlyValidated := 0 }, pc := k.ret })

def Thread.opStep (x : Thread) (o : Op) (a : Act) : OpPc → Option Thread
  | .body =>
    match a with
    | .extend => some { x with pc := .extend (.body o) .testTxOn }
    | .rollback => some { x with pc := .rollback (.body o) .drop }
    | .go => some { x with pc := .op o .testStanding }
    | _ => none
  | .testStanding => some { x with pc := .op o (if x.buf.standing = 1 then .clearTxOn else .ret) }
  | .clearTxOn => some { x with buf := { x.buf with txOn := 0 }, pc := .op o .setRecent }
  | .setRecent =>
    some { x with buf := { x.buf with recentlyValidated := 1 }, pc := .extend (.tail o) .testTxOn }
  | .setTxOn => some { x with buf := { x.buf with txOn := 1 }, pc := .op o .ret }
  | .ret => some { x with pc := .app }

def Thread.extendStep (clock : BitVec 64) (x : Thread) (k : Extender) (a : Act) :
    ExtendPc → Option Thread
  | .testTxOn =>
    some { x with pc := .extend k (if x.buf.txOn = 1 then .setRecent else .readClock) }
  | .setRecent =>
    some { x with buf := { x.buf with recentlyValidated := 1 }, pc := .extend k .readClock }
  | .readClock => some { x with pc := if vmax ≤ clock then k.ret false else .extend k (.validate clock) }
  | .validate now =>
    match a with
    | .validate ok v =>
      some { x with buf := x.buf.setOpt v, pc := if ok then .extend k (.setEnd now) else k.ret false }
    | _ => none
  | .setEnd now => some { x with endClock := now, pc := .extend k .testStanding }
  | .testStanding =>
    some { x with pc := if x.buf.standing = 1 then .extend k .clearStanding else k.ret true }
  | .clearStanding => some { x with buf := { x.buf with standing := 0 }, pc := k.ret true }

def Thread.rollbackStep (x : Thread) (k : Aborter) : RollbackPc → Thread
  | .drop => { x with nesting := 1, pc := .prepare (.rollback k) .setEnd }
  | .testRetry =>
    if x.noRetry then { x with nesting := 0, pc := .rollback k (.testStanding false) }
    else { x with pc := .rollback k (.testStanding true) }
  | .testStanding retry =>
    { x with pc := .rollback k (if x.buf.standing = 1 then .clearStanding retry
        else if retry then .testTxOn else .clearTxOn) }
  | .clearStanding retry =>
    { x with
      buf := { x.buf with standing := 0 }
      pc := .rollback k (if retry then .testTxOn else .clearTxOn) }
  | .testTxOn => { x with pc := .rollback k (if x.buf.txOn = 0 then .setTxOn else .longjmp) }
  | .setTxOn => { x with buf := { x.buf with txOn := 1 }, pc := .rollback k .longjmp }
  | .longjmp => { x with pc := .app, frames := [] }
  | .clearTxOn => { x with buf := { x.buf with txOn := 0 }, pc := k.ret }

/-- `stm_revalidate`. -/
def Thread.callbackStep (x : Thread) : CallbackPc → Thread
  | .entry => { x with pc := .callback .prologue }
  | .prologue => { x with pc := .callback .mask }
  | .mask => { x with buf := { x.buf with txOn := 0 }, pc := .callback .save }
  | .save => { x with pc := .extend .callback .testTxOn }
  | .abort => { x with pc := .rollback .callback .drop }
  | .restore => { x with pc := .callback .unmask }
  | .unmask => { x with buf := { x.buf with txOn := 1 }, pc := .callback .ret }
  | .ret => { x with pc := x.frames.headD .app, frames := x.frames.tail }

/-- A step of the program or the library. -/
def Thread.userStep (a : Act) (clock : BitVec 64) (x : Thread) : Option (BitVec 64 × Thread) :=
  match x.pc with
  | .app => x.appStep clock a
  | .start noRetry =>
    some (clock,
      if 0 < x.nesting then { x with nesting := x.nesting + 1, pc := .app }
      else { x with
        nesting := x.nesting + 1, noRetry := noRetry, pc := .prepare .start .setEnd })
  | .started => some (clock, { x with pc := .app })
  | .prepare k st => x.prepareStep vmax clock k a st
  | .op o st => (x.opStep o a st).map (clock, ·)
  | .extend k st => (x.extendStep vmax clock k a st).map (clock, ·)
  | .rollback k st => some (clock, x.rollbackStep k st)
  | .commit => x.commitStep clock a
  | .committed => some (clock, { x with buf := { x.buf with txOn := 0 }, pc := .app })
  | .callback st => some (clock, x.callbackStep st)

/-- One step of a thread on its own state and the clock. -/
def Thread.step (a : Act) (clock : BitVec 64) (x : Thread) : Option (BitVec 64 × Thread) :=
  match a with
  | .tick t => some (clock, x.tick k t clock)
  | _ => x.userStep vmax a clock

/-- The threads of the program over the clock. -/
def userSystem (ι : Type*) : System ι (BitVec 64) Thread Act where
  step _ a := Thread.step k vmax a

/-- The addresses of the code that a thread is in; `lib` is the library and the callback. -/
def Pc.At (lib : Addr → Bool) (ip : Addr) : Pc → Prop
  | .app => lib ip = false
  | .callback .entry => ip = k.callback
  | _ => lib ip = true ∧ ip ≠ k.callback

instance (lib : Addr → Bool) (ip : Addr) (pc : Pc) : Decidable (pc.At k lib ip) := by
  unfold Pc.At
  split <;> infer_instance

/-- Ticks of user code come where the thread is. -/
def TickOk {ι : Type*} (lib : Addr → Bool) (c : Config ι (BitVec 64) Thread) (i : ι) : Act → Prop
  | .tick t => t.nested = true ∨ (c.loc i).pc.At k lib t.ip
  | _ => True

instance {ι : Type*} (lib : Addr → Bool) (c : Config ι (BitVec 64) Thread) (i : ι) (a : Act) :
    Decidable (TickOk k lib c i a) := by
  unfold TickOk
  split <;> infer_instance

end

/-- Before its first transaction. -/
structure Thread.Fresh (x : Thread) : Prop where
  pc : x.pc = .app
  nesting : x.nesting = 0
  frames : x.frames = []

/-! ### What a thread shows -/

inductive Event where
  | tick
  /-- `recently_validated` is set. -/
  | flag
  /-- `stm_prepare` is over. -/
  | prepared
  /-- A new transaction begins. -/
  | began
  /-- `stm_extend` is called. -/
  | extend
  /-- `stm_rollback` is over. -/
  | abort
  | loadCall
  | loadReturn
  deriving DecidableEq

/-- What a step of the program or the library shows. -/
def Thread.shows (a : Act) (x : Thread) : Option Event :=
  match x.pc with
  | .app => if a matches .load then some .loadCall else none
  | .started => some .began
  | .prepare _ .testRecent => if x.buf.recentlyValidated = 1 then none else some .prepared
  | .prepare _ .clearRecent => some .prepared
  | .op _ .setRecent => some .flag
  | .op .load .ret => some .loadReturn
  | .extend _ .testTxOn => some .extend
  | .extend _ .setRecent => some .flag
  | .rollback _ .longjmp | .rollback _ .clearTxOn => some .abort
  | _ => none

def event (a : Act) (x : Thread) : Option Event :=
  match a with
  | .tick _ => some .tick
  | _ => x.shows a

section

variable {k : Setup} {vmax clock clock' : BitVec 64} {a : Act} {x x' : Thread}

theorem step_cases (h : x.step k vmax a clock = some (clock', x')) :
    (∃ t, a = .tick t ∧ clock' = clock ∧ x' = x.tick k t clock) ∨
      (∀ t, a ≠ .tick t) ∧ x.userStep vmax a clock = some (clock', x') := by
  cases a with
  | tick t =>
    simp only [Thread.step, Option.some.injEq, Prod.mk.injEq] at h
    exact .inl ⟨t, rfl, h.1.symm, h.2.symm⟩
  | _ => exact .inr ⟨fun t ht => (nomatch ht), h⟩

theorem event_of_user (h : ∀ t, a ≠ .tick t) : event a x = x.shows a := by
  cases a with
  | tick t => exact absurd rfl (h t)
  | _ => rfl

end

end TinyStm.Kernel
