import TinyStm.Lib.Chain
import TinyStm.Lib.Interleave
import Mathlib.Data.Int.Basic
import Mathlib.Data.Nat.Basic

/-!
# The task pool of the server (mm/taskpool.c, stm_threadpool.c, Server.c)

Servers take tasks from a shared free list, keep them in a list of their own until
they are done, and hand them to the workers through the priority queue in between.
Every read and write of shared memory is one step. The queue is an abstract one:
`InsertTask` adds a task or fails, and a worker is given one of the tasks in it.
Of a task only the fields that decide its way are kept; the arguments, the time
stamps and the counters of the statistics are left out, as is `next_queue`, which
belongs to the queue.
-/

namespace TinyStm.Pool

open Interleave

variable {ι : Type*}

/-- What became of a task since it left the free list; auxiliary. -/
inductive Life where
  | free
  | received
  | queued
  | running
  | executed
  | rejected
  deriving DecidableEq

/-- The pool and the tasks, numbered by their place in `pool.array`. -/
structure Store (ι : Type*) where
  lock : Option ι
  head : Option ℕ
  tail : Option ℕ
  numFreeTasks : ℤ
  nextFree : ℕ → Option ℕ
  nextGc : ℕ → Option ℕ
  freeGc : ℕ → Bool
  statsValid : ℕ → Bool
  priority : ℕ → ℤ
  transaction : ℕ → ℤ
  queue : List ℕ
  life : ℕ → Life

/-- The pool with all its tasks free, each linked to the next one. -/
def Store.fresh (size : ℕ) : Store ι where
  lock := none
  head := some 0
  tail := some (size - 1)
  numFreeTasks := size
  nextFree t := if t + 1 < size then some (t + 1) else none
  nextGc _ := none
  freeGc _ := false
  statsValid _ := false
  priority _ := -1
  transaction _ := -1
  queue := []
  life _ := .free

/-- `TaskPoolInit(pool_size)`; the server does not start when it fails. -/
def taskPoolInit (poolSize : ℤ) : Option (Store ι) :=
  if poolSize ≤ 0 then none else some (.fresh poolSize.toNat)

inductive Field where
  | priority
  | transaction
  | nextFree
  | freeGc
  | nextGc
  | statsValid
  deriving DecidableEq

def Store.reset (g : Store ι) (t : ℕ) : Field → Store ι
  | .priority => { g with priority := Function.update g.priority t (-1) }
  | .transaction => { g with transaction := Function.update g.transaction t (-1) }
  | .nextFree => { g with nextFree := Function.update g.nextFree t none }
  | .freeGc => { g with freeGc := Function.update g.freeGc t false }
  | .nextGc => { g with nextGc := Function.update g.nextGc t none }
  | .statsValid => { g with statsValid := Function.update g.statsValid t false }

def Store.setLife (g : Store ι) (t : ℕ) (l : Life) : Store ι :=
  { g with life := Function.update g.life t l }

/-! ### The free list -/

inductive Get where
  | testHead
  | trylock
  | recheck
  | loadHead
  | loadNext (t : ℕ)
  | setHead (t : ℕ) (next : Option ℕ)
  | testEmpty (t : ℕ)
  | clearTail (t : ℕ)
  | unlock (t : Option ℕ)
  | dec (t : ℕ)
  | reset (t : ℕ) (todo : List Field)

/-- The fields that `GetTask` resets, in its order. -/
def getFields : List Field := [.nextFree, .freeGc, .nextGc, .statsValid]

/-- Steps of `GetTask`; `inr` is its result, `none` a `NULL` that is dereferenced. -/
def Get.step (i : ι) (g : Store ι) : Get → Option (Store ι × (Get ⊕ Option ℕ))
  | .testHead => some (g, if g.head.isNone then .inr none else .inl .trylock)
  | .trylock =>
    some (if g.lock.isNone then ({ g with lock := some i }, .inl .recheck) else (g, .inl .testHead))
  | .recheck => some (g, .inl (if g.head.isNone then .unlock none else .loadHead))
  | .loadHead => g.head.map fun t => (g, .inl (.loadNext t))
  | .loadNext t => some (g, .inl (.setHead t (g.nextFree t)))
  | .setHead t n => some ({ g.setLife t .received with head := n }, .inl (.testEmpty t))
  | .testEmpty t => some (g, .inl (if g.head.isNone then .clearTail t else .unlock (some t)))
  | .clearTail t => some ({ g with tail := none }, .inl (.unlock (some t)))
  | .unlock none => some ({ g with lock := none }, .inl .testHead)
  | .unlock (some t) => some ({ g with lock := none }, .inl (.dec t))
  | .dec t => some ({ g with numFreeTasks := g.numFreeTasks - 1 }, .inl (.reset t getFields))
  | .reset t [] => some (g, .inr (some t))
  | .reset t (f :: todo) => some (g.reset t f, .inl (.reset t todo))

inductive Free where
  | reset (todo : List Field)
  | lock
  | testTail
  | loadTail
  | link (last : ℕ)
  | setTail
  | setFirst
  | setHead
  | unlock
  | inc

/-- The fields that `FreeTask` resets, in its order. -/
def freeFields : List Field := [.priority, .transaction, .nextFree, .freeGc, .nextGc, .statsValid]

/-- Steps of `FreeTask(t)`; the second part is `none` when it returns. -/
def Free.step (i : ι) (t : ℕ) (g : Store ι) : Free → Option (Store ι × Option Free)
  | .reset [] => some (g, some .lock)
  | .reset (f :: todo) => some (g.reset t f, some (.reset todo))
  | .lock =>
    some (if g.lock.isNone then ({ g with lock := some i }, some .testTail) else (g, some .lock))
  | .testTail => some (g, some (if g.tail.isNone then .setFirst else .loadTail))
  | .loadTail => g.tail.map fun last => (g, some (.link last))
  | .link last =>
    some ({ g.setLife t .free with nextFree := Function.update g.nextFree last (some t) },
      some .setTail)
  | .setTail => some ({ g with tail := some t }, some .unlock)
  | .setFirst => some ({ g with tail := some t }, some .setHead)
  | .setHead => some ({ g.setLife t .free with head := some t }, some .unlock)
  | .unlock => some ({ g with lock := none }, some .inc)
  | .inc => some ({ g with numFreeTasks := g.numFreeTasks + 1 }, none)

/-! ### Servers -/

/-- The two tokens that `server_runMethod` looks for, as numbers. -/
structure Request where
  prio : Option ℤ
  txId : Option ℤ

inductive Clean where
  | visit (prev cur : Option ℕ)
  | skip (t : ℕ)
  | stats (prev : Option ℕ) (t : ℕ)
  | loadNext (prev : Option ℕ) (t : ℕ)
  | unlink (prev : Option ℕ) (t : ℕ) (next : Option ℕ)
  | free (prev : Option ℕ) (t : ℕ) (st : Free)
  | next (prev : Option ℕ)

/-- Who called `gc_clean`. -/
inductive CleanFrom where
  | retry (r : Request)
  | period
  | drain

inductive ServerPc where
  | loop
  | recv
  | get (r : Request) (st : Get)
  | gcNext (r : Request) (t : ℕ)
  | gcHead (r : Request) (t : ℕ)
  | parsePrio (r : Request) (t : ℕ)
  | setPrio (r : Request) (t : ℕ) (prio : ℤ)
  | parseTx (r : Request) (t : ℕ)
  | setTx (t : ℕ) (txId : ℤ)
  | insert (t : ℕ)
  | reject (t : ℕ)
  | count
  | clean (k : CleanFrom) (st : Clean)
  | drain
  | exited

/-- A `server_thread_t`, the period counter of its loop, and where it is. -/
structure Server where
  conn : ℤ
  txs : ℤ
  period : ℕ
  gcHead : Option ℕ
  pc : ServerPc

inductive Worker where
  | schedule
  | run (t : ℕ)
  | setStats (t : ℕ)
  | setFree (t : ℕ)
  | exited

inductive Thread where
  | server (s : Server)
  | worker (w : Worker)

/-- Where a call of `gc_clean` starts. -/
def Server.startClean (s : Server) (k : CleanFrom) : ServerPc := .clean k (.visit none s.gcHead)

/-- Where a call of `gc_clean` returns to. -/
def Server.endClean (s : Server) : CleanFrom → Server
  | .retry r => { s with pc := .get r .testHead }
  | .period => { s with period := 1, pc := .loop }
  | .drain => { s with pc := .drain }

/-- One step of `gc_clean`. The list of a server is touched by nobody else, so the
pointer `gc_head` is local. -/
def Clean.step (i : ι) (g : Store ι) (s : Server) (k : CleanFrom) :
    Clean → Option (Store ι × Server)
  | .visit _ none => some (g, s.endClean k)
  | .visit prev (some t) =>
    some (g, { s with pc := .clean k (if g.freeGc t then .stats prev t else .skip t) })
  | .skip t => some (g, { s with pc := .clean k (.visit (some t) (g.nextGc t)) })
  | .stats prev t => some (g, { s with pc := .clean k (.loadNext prev t) })
  | .loadNext prev t => some (g, { s with pc := .clean k (.unlink prev t (g.nextGc t)) })
  | .unlink none t n =>
    some (g, { s with gcHead := n, pc := .clean k (.free none t (.reset freeFields)) })
  | .unlink (some p) t n =>
    some ({ g with nextGc := Function.update g.nextGc p n },
      { s with pc := .clean k (.free (some p) t (.reset freeFields)) })
  | .free prev t st =>
    (st.step i t g).map fun r =>
      (r.1, { s with pc := .clean k (r.2.elim (.next prev) (.free prev t)) })
  | .next none => some (g, { s with pc := .clean k (.visit none s.gcHead) })
  | .next (some p) => some (g, { s with pc := .clean k (.visit (some p) (g.nextGc p)) })

inductive Act where
  | go
  | recv (r : Option Request)
  | insert (ok : Bool)
  | take (t : Option ℕ)
  | shutdown

section

variable (numPriorities : ℤ) (gcPeriod : ℕ)

def clampPrio (prio : ℤ) : ℤ :=
  if prio < 0 then 0 else if numPriorities ≤ prio then numPriorities - 1 else prio

def clampTx (txId : ℤ) : ℤ := if txId < 1 then 1 else if 6 < txId then 6 else txId

def Server.go (i : ι) (g : Store ι) (s : Server) : Option (Store ι × Server) :=
  match s.pc with
  | .loop => some (g, { s with pc := if s.txs = 0 then .drain else .recv })
  | .get r st =>
    (st.step i g).map fun u => (u.1, { s with pc := match u.2 with
      | .inl st' => .get r st'
      | .inr none => s.startClean (.retry r)
      | .inr (some t) => .gcNext r t })
  | .gcNext r t =>
    some ({ g with nextGc := Function.update g.nextGc t s.gcHead }, { s with pc := .gcHead r t })
  | .gcHead r t => some (g, { s with gcHead := some t, pc := .parsePrio r t })
  | .parsePrio r t =>
    match r.prio with
    | none => some (g, { s with pc := .reject t })
    | some prio => some (g, { s with pc := .setPrio r t (clampPrio numPriorities prio) })
  | .setPrio r t prio =>
    some ({ g with priority := Function.update g.priority t prio }, { s with pc := .parseTx r t })
  | .parseTx r t =>
    match r.txId with
    | none => some (g, { s with pc := .reject t })
    | some txId => some (g, { s with pc := .setTx t (clampTx txId) })
  | .setTx t txId =>
    some ({ g with transaction := Function.update g.transaction t txId }, { s with pc := .insert t })
  | .reject t =>
    some ({ g.setLife t .rejected with freeGc := Function.update g.freeGc t true },
      { s with pc := .count })
  | .count =>
    let s := { s with txs := s.txs - 1 }
    some (g, if gcPeriod ≤ s.period then { s with pc := s.startClean .period }
      else { s with period := s.period + 1, pc := .loop })
  | .clean k st => st.step i g s k
  | .drain =>
    some (g, { s with pc := if s.gcHead.isNone then .exited else s.startClean .drain })
  | .recv | .insert _ | .exited => none

def Worker.step (g : Store ι) : Act → Worker → Option (Store ι × Worker)
  | .take none, .schedule => some (g, .schedule)
  | .take (some t), .schedule =>
    if t ∈ g.queue then
      some ({ g.setLife t .running with queue := g.queue.erase t }, .run t)
    else none
  | .shutdown, .schedule => some (g, .exited)
  | .go, .run t => some (g.setLife t .executed, .setStats t)
  | .go, .setStats t =>
    some ({ g with statsValid := Function.update g.statsValid t true }, .setFree t)
  | .go, .setFree t => some ({ g with freeGc := Function.update g.freeGc t true }, .schedule)
  | _, _ => none

def Server.step (i : ι) (g : Store ι) : Act → Server → Option (Store ι × Server)
  | .go, s => s.go numPriorities gcPeriod i g
  | .recv r, s =>
    match s.pc with
    | .recv =>
      some (g, { s with pc :=
        if s.conn < 0 then .count
        else match r with
          | none => .count
          | some r => .get r .testHead })
    | _ => none
  | .insert ok, s =>
    match s.pc with
    | .insert t =>
      if ok then some ({ g.setLife t .queued with queue := t :: g.queue }, { s with pc := .count })
      else some (g, { s with pc := .reject t })
    | _ => none
  | _, _ => none

def system : System ι (Store ι) Thread Act where
  step i a g x :=
    match x with
    | .server s => (s.step numPriorities gcPeriod i g a).map fun r => (r.1, .server r.2)
    | .worker w => (w.step g a).map fun r => (r.1, .worker r.2)

end

/-- Threads before their first step: a server with its connection and its number of
transactions, or a worker. -/
inductive Role where
  | server (conn txs : ℤ)
  | worker

def Role.start : Role → Thread
  | .server conn txs => .server ⟨conn, txs, 1, none, .loop⟩
  | .worker => .worker .schedule

/-- The threads after `startupPoolMemory`, over the pool that it has set up. -/
def initial (g : Store ι) (role : ι → Role) : Config ι (Store ι) Thread :=
  ⟨g, fun i => (role i).start⟩

end TinyStm.Pool
