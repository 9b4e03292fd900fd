import TinyStm.Lib.Interleave
import Mathlib.Tactic

/-!
# Quiescence: stopping the other threads

The part of `stm.c` that stops threads: the list of registered threads, the
barrier in which the clock is reset (`stm.c:512-589`), serial irrevocability
(`stm.c:594-677`, `stm.c:3950-4015`) and the life of a transaction as far as its
status goes. A step is one shared access; a section under `quiesce_mutex` whose
variables are only touched under it is one step after the lock is taken.
What a transaction reads and writes is left out: the outcome of a validation, a
conflict, the size of the write set are chosen freely, by the bit of `Act.go` or
by the action. Condition variables may wake up at any time, so that a waiting
thread may go on whenever the mutex is free.

Ghost fields are marked; no branch of the code depends on them.
-/

namespace TinyStm.Quiesce

/-- `TX_*` (`stm.h:352-361`). -/
inductive Status where
  | idle
  | active
  | committed
  | aborted
  | committing
  | aborting
  | killed
  | irrevocable
  deriving DecidableEq, Repr

/-- `IS_ACTIVE`: the lowest bit. -/
def Status.isActive : Status → Bool
  | .idle | .committed | .aborted => false
  | _ => true

/-- `tx->status`. The counter of attempts is only kept with CM_MODULAR. -/
structure StatusWord where
  status : Status
  counter : ℕ
  deriving DecidableEq, Repr

/-- Shared variables. Ghost: the thread in serial mode, from the moment
`stm_set_irrevocable` returns 1 to `stm_quiesce_release`, how often the clock and the
lock array have been reset, the timestamps taken from the clock, and the threads that
took one of at least VERSION_MAX since the last reset. -/
structure Shared where
  quiesce : ℕ
  mutex : Option ℕ
  threads : List ℕ
  threadsCount : ℤ
  irrevocable : Bool
  status : ℕ → StatusWord
  clock : ℕ
  serialBy : Option ℕ
  clockGen : ℕ
  lockGen : ℕ
  taken : List ℕ
  late : List ℕ

/-- Who called `stm_set_irrevocable`: the restart in `stm_prepare`, or the program. -/
inductive Ret where
  | prepare
  | call
  deriving DecidableEq, Repr

/-- Who called `stm_quiesce_barrier`. -/
inductive Back where
  | prepare
  | unit
  deriving DecidableEq, Repr

/-- Inside `stm_quiesce_barrier`. -/
inductive Bar where
  | lock
  | arrive
  | test
  | roll
  | reset
  | openUp
  | sleep
  | leave
  deriving DecidableEq, Repr

/-- Inside `stm_set_irrevocable` and `stm_quiesce`; the lists are the threads that are
still to be looked at. -/
inductive Irr where
  | enter (serial : Bool)
  | test
  | cas
  | validate
  | status
  | writes
  | spin
  | quiesce
  | store
  | scan (rest : List ℕ)
  | watch (t c : ℕ) (rest : List ℕ)
  | done
  deriving DecidableEq, Repr

/-- Inside `stm_check_quiesce`, with the status to restore. -/
inductive Chk where
  | load
  | save
  | setIdle (s : Status)
  | wait (s : Status)
  | restore (s : Status)
  deriving DecidableEq, Repr

/-- Inside `stm_commit`, before and after the timestamp is taken. -/
inductive Com where
  | status
  | body
  | post
  | flag
  | release
  | unlock
  | done
  deriving DecidableEq, Repr

/-- Inside `stm_rollback`, before and after a timestamp is taken, if any. -/
inductive Rb where
  | status
  | body
  | post
  | done
  deriving DecidableEq, Repr

/-- Where a thread is: not registered, registering, outside a transaction, leaving,
in `stm_prepare`, or in a transaction. -/
inductive Pc where
  | off
  | enterLock
  | enterBody
  | idle
  | exitLock
  | exitBody
  | prep
  | prepStatus
  | prepIrrevocable
  | bar (k : Back) (st : Bar)
  | irr (r : Ret) (st : Irr)
  | chk (st : Chk)
  | run
  | com (st : Com)
  | rb (st : Rb)
  deriving DecidableEq, Repr

/-- Where `stm_set_irrevocable` returns to. -/
def Ret.pc : Ret → Pc
  | .prepare => .prepIrrevocable
  | .call => .run

/-- Where `stm_quiesce_barrier` returns to. -/
def Back.pc : Back → Pc
  | .prepare => .prep
  | .unit => .idle

/-- The descriptor. `level` and `serial` are the low bits and the bit 0x08 of
`tx->irrevocable`; `restart` says that `stm_prepare` was called by `stm_rollback`.
Ghost: the reset that the clock values and lock words of the attempt come after. -/
structure Thread where
  pc : Pc
  level : ℕ
  serial : Bool
  nesting : ℤ
  noRetry : Bool
  restart : Bool
  stamps : List ℕ
  deriving DecidableEq, Repr

/-- What a thread does next. In a transaction `access` is a step of a load or a store,
or of the commit or rollback in progress, `inc` an increment of the clock there. -/
inductive Act where
  | go (c : Bool)
  | init
  | exit
  | start (noRetry : Bool)
  | access
  | inc
  | commit
  | abort
  | setIrrevocable (serial : Bool)
  | unitStore
  | kill (j : ℕ)
  deriving DecidableEq, Repr

abbrev StepRes := Option (Shared × Thread)

/-- SET_STATUS keeps the counter. -/
def Shared.setStatus (g : Shared) (i : ℕ) (s : Status) : Shared :=
  { g with status := Function.update g.status i ⟨s, (g.status i).counter⟩ }

/-- UPDATE_STATUS also increments it, with CM_MODULAR. -/
def Shared.updateStatus (modular : Bool) (g : Shared) (i : ℕ) (s : Status) : Shared :=
  let n := (g.status i).counter
  { g with status := Function.update g.status i ⟨s, if modular then n + 1 else n⟩ }

/-- FETCH_INC_CLOCK + 1. -/
def Shared.fetchInc (vmax i : ℕ) (g : Shared) : Shared :=
  { g with clock := g.clock + 1, taken := (g.clock + 1) :: g.taken
           late := if vmax ≤ g.clock + 1 then i :: g.late else g.late }

/-- `stm_quiesce_barrier(tx, rollover_clock, NULL)` (`stm.c:560-589`). -/
def barStep (i : ℕ) (k : Back) (g : Shared) (x : Thread) : Bar → StepRes
  | .lock =>
    if g.mutex = none then some ({ g with mutex := some i }, { x with pc := .bar k .arrive })
    else none
  | .arrive =>
    some ({ g with threadsCount := g.threadsCount - 1
                   quiesce := if g.quiesce = 0 then 1 else g.quiesce },
      { x with pc := .bar k .test })
  | .test =>
    if g.quiesce = 0 then some (g, { x with pc := .bar k .leave })
    else if g.threadsCount = 0 then some (g, { x with pc := .bar k .roll })
    else some ({ g with mutex := none }, { x with pc := .bar k .sleep })
  | .roll =>
    some ({ g with clock := 0, clockGen := g.clockGen + 1, late := [] },
      { x with pc := .bar k .reset })
  | .reset => some ({ g with lockGen := g.lockGen + 1 }, { x with pc := .bar k .openUp })
  | .openUp => some ({ g with quiesce := 0 }, { x with pc := .bar k .test })
  | .sleep =>
    if g.mutex = none then some ({ g with mutex := some i }, { x with pc := .bar k .test })
    else none
  | .leave =>
    some ({ g with threadsCount := g.threadsCount + 1, mutex := none },
      { x with pc := k.pc })

/-- Entry of `stm_rollback`. -/
def rollback (x : Thread) : Thread := { x with pc := .rb .status }

/-- `stm_set_irrevocable` (`stm.c:3950-4015`) and `stm_quiesce(tx, 1)` (`stm.c:594-637`). -/
def irrStep (modular : Bool) (i : ℕ) (c : Bool) (r : Ret) (g : Shared) (x : Thread) :
    Irr → StepRes
  | .enter s =>
    if x.level = 3 then some (g, { x with pc := r.pc })
    else if x.level = 0 then some (g, { x with level := 1, serial := s, pc := .irr r .test })
    else if x.level = 1 then some (g, { x with pc := .irr r .spin })
    else some (g, { x with pc := .irr r .quiesce })
  | .test =>
    if g.irrevocable then some (g, rollback x) else some (g, { x with pc := .irr r .cas })
  | .cas =>
    if g.irrevocable then some (g, rollback x)
    else some ({ g with irrevocable := true }, { x with level := 2, pc := .irr r .validate })
  | .validate =>
    if c then some (g, { x with pc := .irr r .status }) else some (g, rollback x)
  | .status =>
    if modular then
      if (g.status i).status = .active then
        some (g.setStatus i .irrevocable, { x with pc := .irr r .writes })
      else some (g, rollback x)
    else some (g, { x with pc := .irr r .writes })
  | .writes =>
    if x.serial && c then some (g, rollback x) else some (g, { x with pc := .irr r .quiesce })
  | .spin =>
    if g.irrevocable then some (g, x)
    else some ({ g with irrevocable := true }, { x with level := 2, pc := .irr r .quiesce })
  | .quiesce =>
    if x.serial then
      if g.mutex = none then some ({ g with mutex := some i }, { x with pc := .irr r .store })
      else if (g.status i).status.isActive then some (g, rollback x)
      else none
    else some (g, { x with pc := .irr r .done })
  | .store => some ({ g with quiesce := 2 }, { x with pc := .irr r (.scan g.threads) })
  | .scan [] => some (g, { x with pc := .irr r .done })
  | .scan (t :: rest) =>
    if t = i then some (g, { x with pc := .irr r (.scan rest) })
    else if (g.status t).status.isActive then
      if modular then some (g, { x with pc := .irr r (.watch t (g.status t).counter rest) })
      else some (g, x)
    else some (g, { x with pc := .irr r (.scan rest) })
  | .watch t n rest =>
    if (g.status t).status.isActive && (g.status t).counter == n then some (g, x)
    else some (g, { x with pc := .irr r (.scan rest) })
  | .done =>
    some ({ g with serialBy := if x.serial then some i else g.serialBy },
      { x with level := 3, pc := r.pc })

/-- The end of `stm_prepare`; after an abort with `no_retry` the body goes on outside
any transaction (`stm.c:1566-1622`). -/
def prepared (x : Thread) : Thread :=
  { x with pc := .run, nesting := if x.restart && x.noRetry then 0 else x.nesting }

/-- `stm_check_quiesce` (`stm.c:642-668`). -/
def chkStep (i : ℕ) (g : Shared) (x : Thread) : Chk → StepRes
  | .load =>
    if x.serial then some (g, prepared x)
    else if g.quiesce = 2 then some (g, { x with pc := .chk .save })
    else some (g, prepared x)
  | .save => some (g, { x with pc := .chk (.setIdle (g.status i).status) })
  | .setIdle s => some (g.setStatus i .idle, { x with pc := .chk (.wait s) })
  | .wait s => if g.quiesce = 2 then some (g, x) else some (g, { x with pc := .chk (.restore s) })
  | .restore s => some (g.setStatus i s, prepared x)

/-- `stm_commit` once the outermost level is reached (`stm.c:3168-3370`); `release` and
`unlock` are `stm_quiesce_release`. -/
def comStep (modular : Bool) (i : ℕ) (g : Shared) (x : Thread) : Com → StepRes
  | .status =>
    if modular then
      if (g.status i).status = .killed then some (g, rollback x)
      else some (g.setStatus i .committing, { x with pc := .com .body })
    else some (g, { x with pc := .com .body })
  | .body | .post => some (g, { x with pc := if x.level = 0 then .com .done else .com .flag })
  | .flag =>
    some ({ g with irrevocable := false },
      { x with pc := if x.serial then .com .release else .com .done })
  | .release => some ({ g with quiesce := 0, serialBy := none }, { x with pc := .com .unlock })
  | .unlock => some ({ g with mutex := none }, { x with pc := .com .done })
  | .done => some (g.setStatus i .committed, { x with pc := .idle })

/-- `stm_rollback` (`stm.c:1424-1567`). -/
def rbStep (modular : Bool) (i : ℕ) (g : Shared) (x : Thread) : Rb → StepRes
  | .status =>
    if modular && (g.status i).status = .active then
      some (g.setStatus i .aborting, { x with pc := .rb .body })
    else some (g, { x with pc := .rb .body })
  | .body | .post => some (g, { x with pc := .rb .done })
  | .done =>
    some (g.setStatus i .aborted,
      { x with nesting := 1, restart := true, stamps := [], pc := .prep })

/-- The next step of the call in progress. -/
def goStep (modular : Bool) (vmax : ℕ) (i : ℕ) (c : Bool) (g : Shared) (x : Thread) :
    Pc → StepRes
  | .off | .idle | .run => none
  | .enterLock =>
    if g.mutex = none then some ({ g with mutex := some i }, { x with pc := .enterBody }) else none
  | .enterBody =>
    some ({ g with threads := i :: g.threads, threadsCount := g.threadsCount + 1, mutex := none },
      { x with pc := .idle })
  | .exitLock =>
    if g.mutex = none then some ({ g with mutex := some i }, { x with pc := .exitBody }) else none
  | .exitBody =>
    some ({ g with threads := g.threads.erase i, threadsCount := g.threadsCount - 1, mutex := none },
      { x with pc := .off })
  | .prep =>
    if vmax ≤ g.clock then some (g, { x with pc := .bar .prepare .lock })
    else some (g, { x with stamps := [g.clockGen], pc := .prepStatus })
  | .prepStatus =>
    if x.level = 0 then
      some (g.updateStatus modular i .active, { x with pc := .chk .load })
    else some (g, { x with pc := .irr .prepare (.enter true) })
  | .prepIrrevocable =>
    some (g.updateStatus modular i .irrevocable, { x with pc := .chk .load })
  | .bar k st => barStep i k g x st
  | .irr r st => irrStep modular i c r g x st
  | .chk st => chkStep i g x st
  | .com st => comStep modular i g x st
  | .rb st => rbStep modular i g x st

/-- `stm_start` (`stm.c:3102-3149`). -/
def stmStart (nr : Bool) (x : Thread) : Thread :=
  if 0 < x.nesting then { x with nesting := x.nesting + 1 }
  else { x with nesting := x.nesting + 1, noRetry := nr, level := 0, serial := false
                restart := false, stamps := [], pc := .prep }

/-- The calls outside a transaction: `stm_init_thread`, `stm_exit_thread` (which asserts
that the thread is not active), `stm_start` and a unit store (`stm.c:2488-2530`). -/
def outStep (vmax : ℕ) (i : ℕ) (g : Shared) (x : Thread) : Act → StepRes
  | .exit =>
    if (g.status i).status.isActive then none else some (g, { x with pc := .exitLock })
  | .start nr => some (g, stmStart nr x)
  | .unitStore =>
    some (g.fetchInc vmax i,
      { x with pc := if vmax ≤ g.clock + 1 then .bar .unit .lock else .idle })
  | _ => none

/-- Steps of loads and stores look at lock words and at the clock. -/
def Thread.stamp (x : Thread) (g : Shared) : Thread :=
  { x with stamps := x.stamps ++ [g.clockGen, g.lockGen] }

/-- The calls in a transaction. -/
def runStep (modular : Bool) (i : ℕ) (g : Shared) (x : Thread) : Act → StepRes
  | .start nr => some (g, stmStart nr x)
  | .access => some (g, x.stamp g)
  | .abort => some (g, rollback x)
  | .commit =>
    some (g, { x with nesting := x.nesting - 1
                      pc := if 0 < x.nesting - 1 then .run else .com .status })
  | .setIrrevocable s => some (g, { x with pc := .irr .call (.enter s) })
  | .kill j =>
    if modular && j ≠ i && (g.status j).status = .active then some (g.setStatus j .killed, x)
    else none
  | _ => none

def stepThread (modular wt : Bool) (vmax : ℕ) (i : ℕ) (a : Act) (g : Shared) (x : Thread) :
    StepRes :=
  match a, x.pc with
  | .go c, pc => goStep modular vmax i c g x pc
  | .init, .off => some (g, { x with pc := .enterLock })
  | a, .idle => outStep vmax i g x a
  | a, .run => runStep modular i g x a
  | .access, .com .body => some (g, x.stamp g)
  | .inc, .com .body => some (g.fetchInc vmax i, { x.stamp g with pc := .com .post })
  | .abort, .com .body => some (g, rollback x)
  | .access, .com .post => some (g, x.stamp g)
  | .abort, .com .post => some (g, rollback x)
  | .access, .rb .body => some (g, x.stamp g)
  | .inc, .rb .body =>
    if wt then some (g.fetchInc vmax i, { x.stamp g with pc := .rb .post }) else none
  | .access, .rb .post => some (g, x.stamp g)
  | _, _ => none

/-- Threads of a build with or without CM_MODULAR, write-through or not, and with
VERSION_MAX `vmax`. Only the write-through rollback takes timestamps. -/
def system (modular wt : Bool) (vmax : ℕ) : Interleave.System ℕ Shared Thread Act where
  step := stepThread modular wt vmax

abbrev State := Interleave.Config ℕ Shared Thread

/-- After `stm_init`: nobody is registered. -/
def initial : State :=
  ⟨⟨0, none, [], 0, false, fun _ => ⟨.idle, 0⟩, 0, none, 0, 0, [], []⟩,
    fun _ => ⟨.off, 0, false, 0, false, false, []⟩⟩

end TinyStm.Quiesce
