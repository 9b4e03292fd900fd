import TinyStm.WriteSet
import TinyStm.Lib.Interleave
import TinyStm.Lib.Timeline

/-!
# The transactional machine

Threads run `stm.c` one atomic step at a time: a load, store or compare-and-swap
of a lock, of the clock or of a memory word, together with the local
computation up to the next one. The program counter says which shared access a
thread performs next; `goto restart` and the loops are its transitions. One
machine covers the three designs and the builds with extra ticks and with
packed versions; the branches are those of the `#if`s of the source
(CM_SUICIDE, no irrevocability, flat nesting left to the callers). The clock is
kept below `VERSION_MAX`: a thread that reaches the rollover barrier stays there.
No write set outgrows its array; reallocation is modelled apart.

Ghost fields are marked; no branch of the code depends on them.
-/

namespace TinyStm

open Timeline

variable {w : ℕ}

/-! ### Shared state -/

/-- What an owned lock word points to: entry `idx` of the write set of `tid`
(the descriptor itself in the write-through design), or `LOCK_UNIT`, where the
thread is ghost. -/
inductive Owner where
  | entry (tid idx : ℕ)
  | unit (tid : ℕ)
  deriving DecidableEq, Repr

/-- A lock word. In an owned word `ver` is ghost: the version it replaced. -/
structure LockWord where
  ver : Ver
  own : Option Owner
  deriving DecidableEq, Repr

/-- The `STM_ABORT_*` reasons (`stm.h:163-232`). -/
inductive Reason where
  | explicit
  | early
  | rwConflict
  | wwConflict
  | valRead
  | valWrite
  | validate
  | roWrite
  | killed
  | irrevocable
  deriving DecidableEq, Repr

/-- Ghost record of a load: the value returned and the stores made before it. -/
structure Read (w : ℕ) where
  addr : ℕ
  val : BitVec w
  pre : List (Store w)
  deriving DecidableEq, Repr

/-- How an attempt ended; a unit store is an attempt of its own. -/
inductive Outcome where
  | committed (t : ℕ)
  | readOnly
  | aborted (r : Reason)
  | unit (t : ℕ)
  deriving DecidableEq, Repr

/-- Ghost record of a finished attempt. `began` and `finished` count steps. -/
structure Attempt (w : ℕ) where
  tid : ℕ
  began : ℕ
  finished : ℕ
  start : ℕ
  endT : ℕ
  snap : ℕ
  reads : List (Read w)
  stores : List (Store w)
  outcome : Outcome
  deriving DecidableEq, Repr

/-- Clock, lock array and memory. Ghost: the initial memory, the log of the
timestamps handed out, the finished attempts and the number of steps so far. -/
structure Shared (w : ℕ) where
  clock : ℕ
  lock : ℕ → LockWord
  mem : ℕ → BitVec w
  mem0 : ℕ → BitVec w
  log : Log (List (Store w))
  hist : List (Attempt w)
  time : ℕ

/-- Updates as lists of stores: they touch the locks of their addresses. -/
def Build.sem (b : Build) (w : ℕ) : Sem ℕ ℕ (BitVec w) (List (Store w)) where
  stripe := b.getLock w
  touch ss k := ∃ s ∈ ss, b.getLock w s.addr = k
  eff := overlay
  frame := by
    intro ss a y h
    exact overlay_of_forall_ne (fun s hs he => h ⟨s, hs, by rw [he]⟩) y

/-- The memory produced by the updates with timestamp at most `n`. -/
def Shared.at (b : Build) (g : Shared w) (n a : ℕ) : BitVec w :=
  memAt (b.sem w) g.mem0 g.log n a

def Shared.setLock (g : Shared w) (k : ℕ) (l : LockWord) : Shared w :=
  { g with lock := Function.update g.lock k l }

def Shared.setMem (g : Shared w) (a : ℕ) (v : BitVec w) : Shared w :=
  { g with mem := Function.update g.mem a v }

def Shared.setLog (g : Shared w) (n : ℕ) (s : Option (Slot (List (Store w)))) : Shared w :=
  { g with log := Function.update g.log n s }

/-- `FETCH_INC_CLOCK + 1` by `tid`, with the update the timestamp is for. -/
def Shared.fetchInc (g : Shared w) (tid : ℕ) (ss : List (Store w)) (decided : Bool) : Shared w :=
  { g with clock := g.clock + 1
           log := Function.update g.log (g.clock + 1) (some ⟨tid, ss, decided⟩) }

def Shared.record (g : Shared w) (A : Attempt w) : Shared w := { g with hist := g.hist ++ [A] }

/-! ### Transaction descriptors -/

/-- Who called `stm_extend` or `stm_validate`: the load of `a` that found version
`l` and value `x`, the tick callback, a standing tick at the end of an
operation, or the commit with timestamp `t`. -/
inductive Cont (w : ℕ) where
  | read (a : ℕ) (l : Ver) (x : BitVec w)
  | tick
  | opEnd
  | commit (t : ℕ)
  deriving DecidableEq, Repr

/-- The next shared access of a thread. -/
inductive Pc (w : ℕ) where
  /-- outside any transaction -/
  | idle
  /-- `stm_prepare`: read the clock -/
  | prepare
  /-- `stm_quiesce_barrier` -/
  | barrier
  /-- inside a transaction, in user code -/
  | run
  | readLock (a : ℕ)
  | readVal (a : ℕ) (l : Ver)
  | readLock2 (a : ℕ) (l : Ver) (x : BitVec w)
  | readRecheck (a : ℕ) (l : Ver) (x : BitVec w)
  | readOwn (a : ℕ)
  | extClock (c : Cont w)
  | validate (now i : ℕ) (c : Cont w)
  | writeLock (a : ℕ) (v m : BitVec w)
  | writeCas (a : ℕ) (v m : BitVec w) (l : Ver)
  /-- write-back ETL: load the word a partial mask leaves alone -/
  | writeLoad (i : ℕ) (v m : BitVec w)
  /-- write-through: load the old value, then store the new one -/
  | writeOld (i : ℕ) (v m : BitVec w)
  | writeMem (a : ℕ) (v m x : BitVec w)
  | commitLock (i : ℕ)
  | commitCas (i : ℕ) (l : Ver)
  | commitInc
  | pub (t i : ℕ)
  | pubStore (t i : ℕ) (x : BitVec w)
  | pubRel (t i : ℕ)
  | rb (r : Reason) (i t : ℕ)
  | rbDrop (r : Reason) (i t : ℕ)
  | unitLock (a : ℕ) (v : BitVec w) (ts : Option ℕ)
  | unitCas (a : ℕ) (v : BitVec w) (ts : Option ℕ) (l : Ver)
  | unitStore (a : ℕ) (v : BitVec w)
  | unitInc (a : ℕ) (v : BitVec w)
  | unitRel (a : ℕ) (v : BitVec w) (t : ℕ)
  | unitLdLock (a : ℕ)
  | unitLdVal (a : ℕ) (l : Ver)
  | unitLdLock2 (a : ℕ) (l : Ver) (x : BitVec w)
  deriving DecidableEq, Repr

/-- The descriptor `stm_tx_t`. The read set holds the lock and the version of each
read. Ghost: `began`, `snap` (the time at which all reads so far were last known
to be valid), `reads` and `stores`; `unitRet` is what the last unit operation
returned: success, value and `*timestamp`. -/
structure Tx (w : ℕ) where
  ro : Bool
  canExtend : Bool
  start : ℕ
  endT : ℕ
  rset : List (ℕ × ℕ)
  wset : List (WEntry w)
  nbAcquired : ℕ
  standing : Bool
  pc : Pc w
  began : ℕ
  snap : ℕ
  reads : List (Read w)
  stores : List (Store w)
  unitRet : Option (Bool × BitVec w × ℕ)
  deriving DecidableEq, Repr

/-- What the program, the kernel tick or the scheduler asks a thread to do; `go`
continues the call in progress. -/
inductive Act (w : ℕ) where
  | start (ro : Bool)
  | load (a : ℕ)
  | store (a : ℕ) (v m : BitVec w)
  | commit
  | abort
  | setExtension (enable : Bool) (ts : Option ℕ)
  | tick
  | standing
  | unitStore (a : ℕ) (v m : BitVec w) (ts : Option ℕ)
  | unitLoad (a : ℕ)
  | go
  deriving DecidableEq, Repr

/-- The outcome of one step of a thread. -/
abbrev StepRes (w : ℕ) := Option (Shared w × Tx w)

/-! ### Start and rollback -/

/-- `stm_prepare` (`stm.c:1200-1342`). -/
def stmPrepare (b : Build) (g : Shared w) (x : Tx w) : StepRes w :=
  let s := b.startOf w x.start g.clock
  let e := b.endOf w x.endT g.clock
  if b.startV w (b.versionMax w) ≤ s then
    some (g, { x with start := s, endT := e, canExtend := true, pc := .barrier })
  else
    some (g, { x with start := s, endT := e, canExtend := true, rset := [], wset := []
                      nbAcquired := 0, standing := false, pc := .run
                      snap := g.clock, reads := [], stores := [] })

/-- Entry of `stm_rollback`: the undo of the write-through design and the release
of the commit-time design run backwards, the other one forwards. -/
def rollback (b : Build) (x : Tx w) (r : Reason) : Tx w :=
  match b.design with
  | .writeBackEtl => { x with pc := .rb r 0 0 }
  | _ => { x with pc := .rb r x.wset.length 0 }

def attempt (tid : ℕ) (g : Shared w) (x : Tx w) (o : Outcome) : Attempt w :=
  ⟨tid, x.began, g.time, x.start, x.endT, x.snap, x.reads, x.stores, o⟩

/-- The attempt is over; the descriptor is prepared again (`stm.c:1566-1567`). -/
def finishAbort (tid : ℕ) (r : Reason) (g : Shared w) (x : Tx w) : StepRes w :=
  some (g.record (attempt tid g x (.aborted r)), { x with pc := .prepare, began := g.time })

/-- Does this entry release its lock (`no_drop == 0`, or the end of the chain)? -/
def Build.drops (b : Build) (e : WEntry w) : Bool :=
  match b.design with
  | .writeBackEtl => e.next.isNone
  | _ => !e.noDrop

/-- Release of the lock of `e`. -/
def Shared.release (b : Build) (g : Shared w) (e : WEntry w) (v : Ver) : Shared w :=
  g.setLock (b.getLock w e.addr) ⟨v, none⟩

/-- One round of the loop of `stm_rollback` (`stm.c:1441-1496`). -/
def rbStep (b : Build) (tid : ℕ) (r : Reason) (i t : ℕ) (g : Shared w) (x : Tx w) : StepRes w :=
  match b.design with
  | .writeThrough =>
    match i with
    | 0 => finishAbort tid r g x
    | j + 1 => x.wset[j]?.map fun e =>
      if e.mask ≠ 0 then (g.setMem e.addr e.value, { x with pc := .rbDrop r (j + 1) t })
      else (g, { x with pc := .rbDrop r (j + 1) t })
  | .writeBackEtl =>
    match x.wset[i]? with
    | none => finishAbort tid r g x
    | some e =>
      if b.drops e then some (g.release b e e.version, { x with pc := .rb r (i + 1) t })
      else some (g, { x with pc := .rb r (i + 1) t })
  | .writeBackCtl =>
    if x.nbAcquired = 0 then finishAbort tid r g x
    else match i with
      | 0 => none
      | j + 1 => x.wset[j]?.map fun e =>
        if b.drops e then
          (g.release b e e.version, { x with nbAcquired := x.nbAcquired - 1, pc := .rb r j t })
        else (g, { x with pc := .rb r j t })

/-- Ghost: the locks that an exhausted incarnation number makes the write-through
rollback release with a fresh timestamp, among the first `n` entries. -/
def bumped (ws : List (WEntry w)) (n : ℕ) : List (Store w) :=
  ((ws.take n).filter fun e => !e.noDrop && decide (Build.incarnationMax < e.version.inc + 1)).map
    fun e => ⟨e.addr, 0, 0⟩

/-- Drop of one lock by the write-through rollback (`stm.c:1449-1463`). -/
def rbDropStep (b : Build) (tid : ℕ) (r : Reason) (i t : ℕ) (g : Shared w) (x : Tx w) :
    StepRes w :=
  match i with
  | 0 => none
  | j + 1 => x.wset[j]?.map fun e =>
    if e.noDrop then (g, { x with pc := .rb r j t })
    else if Build.incarnationMax < e.version.inc + 1 then
      if t = 0 then
        (g.fetchInc tid (bumped x.wset (j + 1)) true,
          { x with pc := .rbDrop r (j + 1) (g.clock + 1) })
      else (g.release b e ⟨t, 0⟩, { x with pc := .rb r j t })
    else
      (g.release b e ⟨e.version.ts, e.version.inc + 1⟩, { x with pc := .rb r j t })

/-! ### Loads -/

/-- The end of `stm_load` and `stm_write`: a standing tick is handled there
(`stm.c:2450-2486`, `stm.c:3429-3449`). -/
def opEnd (b : Build) (x : Tx w) : Tx w :=
  if b.extraTick && x.standing then { x with pc := .extClock .opEnd } else { x with pc := .run }

/-- The load of `a` returns `v`. -/
def loadReturns (b : Build) (x : Tx w) (a : ℕ) (v : BitVec w) : Tx w :=
  opEnd b { x with reads := x.reads ++ [⟨a, v, x.stores⟩] }

/-- Entry of `stm_read_invisible`: a fully written word of the commit-time write
set is returned at once (`stm.c:1658-1672`). -/
def loadStart (b : Build) (x : Tx w) (a : ℕ) : Tx w :=
  match b.design with
  | .writeBackCtl =>
    match (stmHasWritten x.wset a).bind (x.wset[·]?) with
    | some e =>
      if e.mask = BitVec.allOnes w then loadReturns b x a e.value else { x with pc := .readLock a }
    | none => { x with pc := .readLock a }
  | _ => { x with pc := .readLock a }

/-- The code from `restart_no_load` on, given the lock word (`stm.c:1683-1822`). -/
def readDispatch (b : Build) (tid : ℕ) (x : Tx w) (a : ℕ) (l : LockWord) : Tx w :=
  match l.own with
  | none => { x with pc := .readVal a l.ver }
  | some (.unit _) => { x with pc := .readLock a }
  | some (.entry t i) =>
    match b.design with
    | .writeBackCtl => { x with pc := .readLock a }
    | .writeThrough => if t = tid then { x with pc := .readOwn a } else rollback b x .rwConflict
    | .writeBackEtl =>
      if t = tid then
        match chainWalk x.wset a x.wset.length i with
        | .found j =>
          match x.wset[j]? with
          | some e =>
            if e.mask = 0 then { x with pc := .readOwn a } else loadReturns b x a e.value
          | none => { x with pc := .readOwn a }
        | .last _ => { x with pc := .readOwn a }
      else rollback b x .rwConflict

/-- The value of a load: own bits over the word read (`stm.c:1895-1901`). -/
def readValue (b : Build) (x : Tx w) (a : ℕ) (v : BitVec w) : BitVec w :=
  match b.design with
  | .writeBackCtl =>
    match (stmHasWritten x.wset a).bind (x.wset[·]?) with
    | some e => mergeBits v e.value e.mask
    | none => v
  | _ => v

/-- A good version: log it in the read set, unless read-only, and return. -/
def readDone (b : Build) (x : Tx w) (a : ℕ) (l : Ver) (v : BitVec w) : Tx w :=
  let x' := if x.ro then x else { x with rset := x.rset ++ [(b.getLock w a, l.ts)] }
  loadReturns b x' a (readValue b x a v)

/-- The second load of the lock and the version check (`stm.c:1824-1866`). -/
def readLock2Step (b : Build) (tid : ℕ) (a : ℕ) (l : Ver) (v : BitVec w) (g : Shared w)
    (x : Tx w) : Tx w :=
  let l₂ := g.lock (b.getLock w a)
  if l₂ ≠ ⟨l, none⟩ then readDispatch b tid x a l₂
  else if x.endT < l.ts then
    if x.ro || !x.canExtend then rollback b x .valRead
    else { x with pc := .extClock (.read a l v) }
  else readDone b x a l v

/-- After an extension: the version must not have been overwritten
(`stm.c:1870-1876`). -/
def readRecheckStep (b : Build) (a : ℕ) (l : Ver) (v : BitVec w) (g : Shared w) (x : Tx w) :
    Tx w :=
  if g.lock (b.getLock w a) ≠ ⟨l, none⟩ then { x with pc := .readVal a l }
  else readDone b x a l v

/-! ### Extension and validation -/

/-- `stm_extend` fails: which rollback its caller makes. -/
def extFail (b : Build) (x : Tx w) : Cont w → Tx w
  | .read _ _ _ => rollback b x .valRead
  | .tick => rollback b x .early
  | .opEnd => rollback b x .early
  | .commit _ => rollback b x .validate

/-- `stm_extend` (`stm.c:1061-1066`): read the clock. -/
def extClockStep (b : Build) (c : Cont w) (g : Shared w) (x : Tx w) : Tx w :=
  if b.versionMax w ≤ g.clock then extFail b x c else { x with pc := .validate g.clock 0 c }

/-- Is this read-set entry still valid (`stm.c:873-952`)? Own locks are accepted;
only the commit-time design compares the version they replaced. -/
def entryValid (b : Build) (tid : ℕ) (g : Shared w) (x : Tx w) (r : ℕ × ℕ) : Bool :=
  match (g.lock r.1).own with
  | none => (g.lock r.1).ver.ts == r.2
  | some (.unit _) => false
  | some (.entry t i) =>
    if t = tid then
      match b.design with
      | .writeBackCtl =>
        match x.wset[i]? with
        | some e => e.version.ts == r.2
        | none => false
      | _ => true
    else false

/-- One round of `stm_validate`, and its return at the end of the read set. A
commit whose validation fails withdraws its timestamp (ghost). -/
def validateStep (b : Build) (tid : ℕ) (now i : ℕ) (c : Cont w) (g : Shared w) (x : Tx w) :
    StepRes w :=
  match x.rset[i]? with
  | some r =>
    if entryValid b tid g x r then some (g, { x with pc := .validate now (i + 1) c })
    else match c with
      | .commit t => some (g.setLog t none, extFail b x c)
      | _ => some (g, extFail b x c)
  | none =>
    match c with
    | .read a l v =>
      some (g, { x with endT := b.endV w now, snap := now, standing := false
                        pc := .readRecheck a l v })
    | .commit t =>
      some (g.setLog t (some ⟨tid, x.stores, true⟩), { x with pc := .pub t 0 })
    | _ =>
      some (g, { x with endT := b.endV w now, snap := now, standing := false, pc := .run })

/-! ### Stores -/

/-- `stm_has_read` (`stm.c:699-715`). -/
def stmHasRead (rs : List (ℕ × ℕ)) (k : ℕ) : Bool := rs.any fun r => r.1 == k

/-- The store of `v` under `m` to `a` is complete. -/
def storeReturns (b : Build) (x : Tx w) (a : ℕ) (v m : BitVec w) : Tx w :=
  opEnd b { x with stores := x.stores ++ [⟨a, v, m⟩] }

/-- Entry of `stm_write`: a read-only transaction aborts (`stm.c:2148-2158`). -/
def storeStart (b : Build) (x : Tx w) (a : ℕ) (v m : BitVec w) : Tx w :=
  if x.ro then rollback b x .roWrite else { x with pc := .writeLock a v m }

/-- Commit-time design: merge into the entry of the address or append one
(`stm.c:2318-2326`, `stm.c:2357-2441`). -/
def ctlWrite (ws : List (WEntry w)) (a : ℕ) (v m : BitVec w) (l : Ver) : List (WEntry w) :=
  match stmHasWritten ws a with
  | some i => ws.modify i fun e =>
      { e with value := mergeBits e.value v m, mask := e.mask ||| m }
  | none => ws ++ [⟨a, if m = 0 then 0 else v, m, l, true, none⟩]

/-- Encounter-time write-back: entry `i` takes the masked value. With a partial
mask over an entry that holds no value yet, the word is loaded first. -/
def etlPut (b : Build) (x : Tx w) (i a : ℕ) (v m : BitVec w) : Tx w :=
  if m = 0 then storeReturns b x a v m
  else if m = BitVec.allOnes w then
    storeReturns b { x with wset := x.wset.modify i fun e =>
      { e with value := v, mask := e.mask ||| m } } a v m
  else match x.wset[i]? with
    | some e =>
      if e.mask = 0 then { x with pc := .writeLoad i v m }
      else storeReturns b { x with wset := x.wset.modify i fun e =>
        { e with value := mergeBits e.value v m, mask := e.mask ||| m } } a v m
    | none => x

/-- A store under a lock the transaction owns already (`stm.c:2205-2258`). -/
def etlOwnWrite (b : Build) (x : Tx w) (i a : ℕ) (v m : BitVec w) : Tx w :=
  if m = 0 then storeReturns b x a v m
  else match chainWalk x.wset a x.wset.length i with
    | .found j => etlPut b x j a v m
    | .last j =>
      let ver := (x.wset[j]?.map (·.version)).getD ⟨0, 0⟩
      let x' := { x with wset := linkEntry x.wset j ⟨a, 0, 0, ver, true, none⟩ }
      etlPut b x' x.wset.length a v m

/-- Write-through: append the entry; with a mask the old value is loaded next. -/
def wtAppend (b : Build) (x : Tx w) (a : ℕ) (v m : BitVec w) (l : Ver) (dup : Bool) : Tx w :=
  let x' := { x with wset := x.wset ++ [⟨a, 0, m, l, dup, none⟩] }
  if m = 0 then storeReturns b x' a v m else { x' with pc := .writeOld x.wset.length v m }

/-- Must the store abort: a version newer than the snapshot on a stripe that was
read, or with extensions disabled (`stm.c:2342-2356`)? -/
def writeConflict (b : Build) (x : Tx w) (a : ℕ) (l : Ver) : Bool :=
  decide (x.endT < l.ts) && (!x.canExtend || stmHasRead x.rset (b.getLock w a))

/-- `stm_write` from `restart` on, given the lock word (`stm.c:2164-2356`). -/
def writeLockStep (b : Build) (tid : ℕ) (a : ℕ) (v m : BitVec w) (g : Shared w) (x : Tx w) :
    Tx w :=
  let l := g.lock (b.getLock w a)
  match l.own with
  | some (.unit _) => x
  | some (.entry t i) =>
    match b.design with
    | .writeBackCtl => x
    | .writeThrough =>
      if t = tid then wtAppend b x a v m l.ver true else rollback b x .wwConflict
    | .writeBackEtl =>
      if t = tid then etlOwnWrite b x i a v m else rollback b x .wwConflict
  | none =>
    match b.design with
    | .writeBackCtl =>
      if (stmHasWritten x.wset a).isSome then
        storeReturns b { x with wset := ctlWrite x.wset a v m l.ver } a v m
      else if writeConflict b x a l.ver then rollback b x .valWrite
      else storeReturns b { x with wset := ctlWrite x.wset a v m l.ver } a v m
    | _ =>
      if writeConflict b x a l.ver then rollback b x .valWrite
      else { x with pc := .writeCas a v m l.ver }

/-- The compare-and-swap of the encounter-time designs (`stm.c:2361-2378`) and the
new write-set entry. -/
def writeCasStep (b : Build) (tid : ℕ) (a : ℕ) (v m : BitVec w) (l : Ver) (g : Shared w)
    (x : Tx w) : Shared w × Tx w :=
  if g.lock (b.getLock w a) = ⟨l, none⟩ then
    match b.design with
    | .writeThrough =>
      (g.setLock (b.getLock w a) ⟨l, some (.entry tid 0)⟩, wtAppend b x a v m l false)
    | _ =>
      (g.setLock (b.getLock w a) ⟨l, some (.entry tid x.wset.length)⟩,
        etlPut b { x with wset := x.wset ++ [⟨a, 0, 0, l, true, none⟩] } x.wset.length a v m)
  else (g, { x with pc := .writeLock a v m })

/-- Encounter-time write-back: the bits outside a partial mask come from memory
(`stm.c:2233-2238`, `stm.c:2414-2419`). -/
def writeLoadStep (b : Build) (i : ℕ) (v m : BitVec w) (g : Shared w) (x : Tx w) : StepRes w :=
  x.wset[i]?.map fun e =>
    (g, storeReturns b { x with wset := x.wset.modify i fun e' =>
      { e' with value := mergeBits (g.mem e.addr) v m, mask := e'.mask ||| m } } e.addr v m)

/-- Write-through: remember the old value (`stm.c:2396-2399`). -/
def writeOldStep (i : ℕ) (v m : BitVec w) (g : Shared w) (x : Tx w) : StepRes w :=
  x.wset[i]?.map fun e =>
    (g, { x with wset := x.wset.modify i (fun e' => { e' with value := g.mem e.addr })
                 pc := .writeMem e.addr v m
                   (if m = BitVec.allOnes w then v else mergeBits (g.mem e.addr) v m) })

/-! ### Commit -/

/-- Entry of `stm_commit`: a transaction without writes commits at once; the
commit-time design acquires its locks from the last entry backwards. -/
def commitStart (b : Build) (tid : ℕ) (g : Shared w) (x : Tx w) : StepRes w :=
  if x.wset = [] then some (g.record (attempt tid g x .readOnly), { x with pc := .idle })
  else match b.design with
    | .writeBackCtl => some (g, { x with pc := .commitLock (x.wset.length - 1) })
    | _ => some (g, { x with pc := .commitInc })

/-- The loop condition `while (w > tx->w_set.entries)`. -/
def commitNext (x : Tx w) : ℕ → Tx w
  | 0 => { x with pc := .commitInc }
  | i + 1 => { x with pc := .commitLock i }

/-- Load the lock of entry `i` (`stm.c:3215-3233`). -/
def commitLockStep (b : Build) (tid : ℕ) (i : ℕ) (g : Shared w) (x : Tx w) : StepRes w :=
  x.wset[i]?.map fun e =>
    let l := g.lock (b.getLock w e.addr)
    match l.own with
    | some (.entry t _) => (g, if t = tid then commitNext x i else rollback b x .wwConflict)
    | some (.unit _) => (g, rollback b x .wwConflict)
    | none => (g, { x with pc := .commitCas i l.ver })

/-- Acquire the lock of entry `i` (`stm.c:3234-3247`). -/
def commitCasStep (b : Build) (tid : ℕ) (i : ℕ) (l : Ver) (g : Shared w) (x : Tx w) :
    StepRes w :=
  x.wset[i]?.map fun e =>
    if g.lock (b.getLock w e.addr) = ⟨l, none⟩ then
      (g.setLock (b.getLock w e.addr) ⟨l, some (.entry tid i)⟩,
        commitNext { x with wset := x.wset.modify i (fun e => { e with noDrop := false, version := l })
                            nbAcquired := x.nbAcquired + 1 } i)
    else (g, { x with pc := .commitLock i })

/-- `t = FETCH_INC_CLOCK + 1` and the fast path without validation
(`stm.c:3257-3269`). -/
def commitIncStep (b : Build) (tid : ℕ) (g : Shared w) (x : Tx w) : Shared w × Tx w :=
  if x.start = b.startV w g.clock then
    (g.fetchInc tid x.stores true, { x with pc := .pub (g.clock + 1) 0 })
  else
    (g.fetchInc tid x.stores false,
      { x with pc := .validate g.clock 0 (.commit (g.clock + 1)) })

/-- The entry that round `i` of the publication loop is about: the write-through
design goes backwards (`stm.c:3288-3336`). -/
def pubEntry (b : Build) (x : Tx w) (i : ℕ) : Option (WEntry w) :=
  match b.design with
  | .writeThrough => if i < x.wset.length then x.wset[x.wset.length - 1 - i]? else none
  | _ => x.wset[i]?

/-- Install the value of one entry. -/
def pubStep (b : Build) (tid t i : ℕ) (g : Shared w) (x : Tx w) : StepRes w :=
  match pubEntry b x i with
  | none => some (g.record (attempt tid g x (.committed t)), { x with pc := .idle })
  | some e =>
    match b.design with
    | .writeThrough => some (g, { x with pc := .pubRel t i })
    | .writeBackEtl =>
      if e.mask ≠ 0 then some (g.setMem e.addr e.value, { x with pc := .pubRel t i })
      else some (g, { x with pc := .pubRel t i })
    | .writeBackCtl =>
      if e.mask = BitVec.allOnes w then
        some (g.setMem e.addr e.value, { x with pc := .pubRel t i })
      else if e.mask ≠ 0 then
        some (g, { x with pc := .pubStore t i (mergeBits (g.mem e.addr) e.value e.mask) })
      else some (g, { x with pc := .pubRel t i })

def pubStoreStep (b : Build) (t i : ℕ) (v : BitVec w) (g : Shared w) (x : Tx w) : StepRes w :=
  (pubEntry b x i).map fun e => (g.setMem e.addr v, { x with pc := .pubRel t i })

/-- Drop the lock of one entry and set the new timestamp. -/
def pubRelStep (b : Build) (t i : ℕ) (g : Shared w) (x : Tx w) : StepRes w :=
  (pubEntry b x i).map fun e =>
    if b.drops e then
      (g.release b e ⟨b.commitV w t e.version.ts, 0⟩, { x with pc := .pub t (i + 1) })
    else (g, { x with pc := .pub t (i + 1) })

/-! ### Unit transactions -/

/-- `stm_unit_write` (`stm.c:2488-2530`): the mask is not used. -/
def unitLockStep (b : Build) (a : ℕ) (v : BitVec w) (ts : Option ℕ) (g : Shared w) (x : Tx w) :
    Tx w :=
  let l := g.lock (b.getLock w a)
  if l.own.isSome then x
  else match ts with
    | some s =>
      if s < l.ver.ts then { x with pc := .idle, unitRet := some (false, v, l.ver.ts) }
      else { x with pc := .unitCas a v ts l.ver }
    | none => { x with pc := .unitCas a v ts l.ver }

def unitCasStep (b : Build) (tid a : ℕ) (v : BitVec w) (ts : Option ℕ) (l : Ver) (g : Shared w)
    (x : Tx w) : Shared w × Tx w :=
  if g.lock (b.getLock w a) = ⟨l, none⟩ then
    (g.setLock (b.getLock w a) ⟨l, some (.unit tid)⟩, { x with pc := .unitStore a v })
  else (g, { x with pc := .unitLock a v ts })

def unitIncStep (tid a : ℕ) (v : BitVec w) (g : Shared w) (x : Tx w) : Shared w × Tx w :=
  (g.fetchInc tid [⟨a, v, BitVec.allOnes w⟩] true,
    { x with pc := .unitRel a v (g.clock + 1) })

def unitAttempt (tid : ℕ) (g : Shared w) (x : Tx w) (a : ℕ) (v : BitVec w) (t : ℕ) : Attempt w :=
  ⟨tid, x.began, g.time, 0, 0, 0, [], [⟨a, v, BitVec.allOnes w⟩], .unit t⟩

/-- Release with the plain timestamp, in every build (`stm.c:2524`). -/
def unitRelStep (b : Build) (tid a : ℕ) (v : BitVec w) (t : ℕ) (g : Shared w) (x : Tx w) :
    Shared w × Tx w :=
  ((g.setLock (b.getLock w a) ⟨⟨t, 0⟩, none⟩).record (unitAttempt tid g x a v t),
    { x with unitRet := some (true, v, t), pc := if b.versionMax w ≤ t then .barrier else .idle })

/-- `stm_unit_load` (`stm.c:3822-3852`), given the lock word. -/
def unitLdDispatch (x : Tx w) (a : ℕ) (l : LockWord) : Tx w :=
  match l.own with
  | none => { x with pc := .unitLdVal a l.ver }
  | some _ => { x with pc := .unitLdLock a }

def unitLdLock2Step (b : Build) (a : ℕ) (l : Ver) (v : BitVec w) (g : Shared w) (x : Tx w) :
    Tx w :=
  let l₂ := g.lock (b.getLock w a)
  if l₂ ≠ ⟨l, none⟩ then unitLdDispatch x a l₂
  else { x with unitRet := some (true, v, l.ts), pc := .idle }

/-! ### One step of a thread -/

/-- `stm_set_extension` (`stm.c:3876-3902`). -/
def setExtension (b : Build) (x : Tx w) (enable : Bool) (ts : Option ℕ) : Tx w :=
  match ts with
  | none => { x with canExtend := enable }
  | some s => { x with canExtend := enable
                       endT := if b.endV w s < x.endT then b.endV w s else x.endT }

/-- The calls a thread can make outside a transaction. -/
def stepIdle (g : Shared w) (x : Tx w) : Act w → StepRes w
  | .start ro => some (g, { x with ro := ro, pc := .prepare, began := g.time })
  | .unitStore a v _ ts => some (g, { x with pc := .unitLock a v ts, began := g.time })
  | .unitLoad a => some (g, { x with pc := .unitLdLock a })
  | _ => none

/-- The calls a thread can make inside a transaction, and the tick callback. -/
def stepRun (b : Build) (tid : ℕ) (g : Shared w) (x : Tx w) : Act w → StepRes w
  | .load a => some (g, loadStart b x a)
  | .store a v m => some (g, storeStart b x a v m)
  | .commit => commitStart b tid g x
  | .abort => some (g, rollback b x .explicit)
  | .setExtension en ts => some (g, setExtension b x en ts)
  | .tick => if b.extraTick then some (g, { x with pc := .extClock .tick }) else none
  | _ => none

/-- The next step of a call in progress. -/
def stepGo (b : Build) (tid : ℕ) (g : Shared w) (x : Tx w) : Pc w → StepRes w
  | .idle => none
  | .barrier => none
  | .run => none
  | .prepare => stmPrepare b g x
  | .readLock a => some (g, readDispatch b tid x a (g.lock (b.getLock w a)))
  | .readVal a l => some (g, { x with pc := .readLock2 a l (g.mem a) })
  | .readLock2 a l v => some (g, readLock2Step b tid a l v g x)
  | .readRecheck a l v => some (g, readRecheckStep b a l v g x)
  | .readOwn a => some (g, loadReturns b x a (g.mem a))
  | .extClock c => some (g, extClockStep b c g x)
  | .validate now i c => validateStep b tid now i c g x
  | .writeLock a v m => some (g, writeLockStep b tid a v m g x)
  | .writeCas a v m l => some (writeCasStep b tid a v m l g x)
  | .writeLoad i v m => writeLoadStep b i v m g x
  | .writeOld i v m => writeOldStep i v m g x
  | .writeMem a v m y => some (g.setMem a y, storeReturns b x a v m)
  | .commitLock i => commitLockStep b tid i g x
  | .commitCas i l => commitCasStep b tid i l g x
  | .commitInc => some (commitIncStep b tid g x)
  | .pub t i => pubStep b tid t i g x
  | .pubStore t i v => pubStoreStep b t i v g x
  | .pubRel t i => pubRelStep b t i g x
  | .rb r i t => rbStep b tid r i t g x
  | .rbDrop r i t => rbDropStep b tid r i t g x
  | .unitLock a v ts => some (g, unitLockStep b a v ts g x)
  | .unitCas a v ts l => some (unitCasStep b tid a v ts l g x)
  | .unitStore a v => some (g.setMem a v, { x with pc := .unitInc a v })
  | .unitInc a v => some (unitIncStep tid a v g x)
  | .unitRel a v t => some (unitRelStep b tid a v t g x)
  | .unitLdLock a => some (g, unitLdDispatch x a (g.lock (b.getLock w a)))
  | .unitLdVal a l => some (g, { x with pc := .unitLdLock2 a l (g.mem a) })
  | .unitLdLock2 a l v => some (g, unitLdLock2Step b a l v g x)

/-- Is the thread inside the library, so that a tick can only be left standing? -/
def Pc.inStm : Pc w → Bool
  | .idle => false
  | .run => false
  | _ => true

def stepTx (b : Build) (tid : ℕ) (act : Act w) (g : Shared w) (x : Tx w) : StepRes w :=
  match act with
  | .go => stepGo b tid g x x.pc
  | .standing =>
    if b.extraTick && x.pc.inStm then some (g, { x with standing := true }) else none
  | act =>
    match x.pc with
    | .idle => stepIdle g x act
    | .run => stepRun b tid g x act
    | _ => none

/-- Ghost: one more step. -/
def Shared.tick (g : Shared w) : Shared w := { g with time := g.time + 1 }

/-- The machine: every step first advances the ghost step counter. -/
def machine (b : Build) (w : ℕ) : Interleave.System ℕ (Shared w) (Tx w) (Act w) where
  step tid act g x := stepTx b tid act g.tick x

/-- States of the machine. -/
abbrev State (w : ℕ) := Interleave.Config ℕ (Shared w) (Tx w)

/-- After `stm_init` and `stm_init_thread` (`stm.c:2565-2660`): all locks and the
clock are zero. The fields `start` and `end` of a fresh descriptor are whatever
`malloc` left there. -/
structure Initial (s : State w) : Prop where
  clock : s.shared.clock = 0
  lock : ∀ k, s.shared.lock k = ⟨⟨0, 0⟩, none⟩
  mem : s.shared.mem = s.shared.mem0
  log : ∀ n, s.shared.log n = none
  hist : s.shared.hist = []
  time : s.shared.time = 0
  pc : ∀ t, (s.loc t).pc = .idle
  began : ∀ t, (s.loc t).began = 0

/-- The initial state over the memory `m` with cleared descriptors. -/
def State.fresh (m : ℕ → BitVec w) : State w :=
  ⟨⟨0, fun _ => ⟨⟨0, 0⟩, none⟩, m, m, fun _ => none, [], 0⟩,
    fun _ => ⟨false, false, 0, 0, [], [], 0, false, .idle, 0, 0, [], [], none⟩⟩

theorem initial_fresh (m : ℕ → BitVec w) : Initial (State.fresh m) :=
  ⟨rfl, fun _ => rfl, rfl, fun _ => rfl, rfl, rfl, fun _ => rfl, fun _ => rfl⟩

end TinyStm
