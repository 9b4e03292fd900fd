import TinyStm.Lib.UndoLog
import TinyStm.Machine

/-!
# Undo log and incarnations of the write-through design

`stm_write`, `stm_rollback`, `stm_commit` and `stm_unit_write` of the WRITE_THROUGH build, with and
without NO_DUPLICATES_IN_RW_SETS, one access of shared memory a step. Loads, validations and ticks are
left out: all they do to locks and memory is to call `stm_rollback`, which `Act.rollback` may do whenever
no store is half made. Between two rollovers the clock only grows.
-/

namespace TinyStm.Undo

variable {w : ℕ}

structure Mem (w : ℕ) where
  clock : ℕ
  lock : ℕ → LockWord
  mem : ℕ → BitVec w

def Mem.setLock (g : Mem w) (k : ℕ) (l : LockWord) : Mem w :=
  { g with lock := Function.update g.lock k l }

def Mem.setMem (g : Mem w) (a : ℕ) (v : BitVec w) : Mem w :=
  { g with mem := Function.update g.mem a v }

/-- `FETCH_INC_CLOCK`. -/
def Mem.fetchInc (g : Mem w) : Mem w := { g with clock := g.clock + 1 }

/-- The next shared access. -/
inductive Pc (w : ℕ) where
  | idle
  | run
  | writeLock (a : ℕ) (v m : BitVec w)
  | writeCas (a : ℕ) (v m : BitVec w) (l : Ver)
  /-- the old value of entry `i`; with `reload` the word is read once more for a partial mask -/
  | remember (i : ℕ) (v m : BitVec w) (reload : Bool)
  | merge (a : ℕ) (v m : BitVec w)
  | writeMem (a : ℕ) (v : BitVec w)
  | commitInc
  | validate (t : ℕ)
  /-- the entries below `i` are still to be released -/
  | release (t i : ℕ)
  | undo (i t : ℕ)
  | drop (i t : ℕ)
  | unitLock (a : ℕ) (v : BitVec w) (ts : Option ℕ)
  | unitCas (a : ℕ) (v : BitVec w) (ts : Option ℕ) (l : Ver)
  | unitStore (a : ℕ) (v : BitVec w)
  | unitInc (a : ℕ)
  | unitRel (a t : ℕ)
  deriving DecidableEq

structure Thread (w : ℕ) where
  wset : List (WEntry w)
  pc : Pc w
  deriving DecidableEq

inductive Act (w : ℕ) where
  | start
  | store (a : ℕ) (v m : BitVec w)
  | rollback
  | commit
  | unitStore (a : ℕ) (v : BitVec w) (ts : Option ℕ)
  | go

abbrev StepRes (w : ℕ) := Option (Mem w × Thread w)

variable (getLock : ℕ → ℕ) (noDup : Bool)

/-- A new entry; its value and its mask are assigned together. -/
def newEntry (a : ℕ) (l : Ver) (duplicate : Bool) : WEntry w := ⟨a, 0, 0, l, duplicate, none⟩

/-- `do_write` (`stm.c:2385-2411`). -/
def doWrite (x : Thread w) (a : ℕ) (v m : BitVec w) (l : Ver) (duplicate : Bool) : Thread w :=
  { wset := x.wset ++ [newEntry a l duplicate]
    pc := if m = 0 then .run else .remember x.wset.length v m false }

/-- The address is in the write set already (`stm.c:2183-2196`). -/
def rewrite (x : Thread w) (i a : ℕ) (v m : BitVec w) : Thread w :=
  { x with pc :=
      if m = 0 then .run
      else match x.wset[i]? with
        | some e =>
          if e.mask = 0 then .remember i v m true
          else if m = BitVec.allOnes w then .writeMem a v else .merge a v m
        | none => .run }

/-- `stm_write` from `restart` on, given the lock word (`stm.c:2164-2339`). -/
def writeLockStep (tid a : ℕ) (v m : BitVec w) (g : Mem w) (x : Thread w) : Thread w :=
  match (g.lock (getLock a)).own with
  | some (.unit _) => x
  | some (.entry t _) =>
    if t = tid then
      match if noDup then x.wset.findIdx? (fun e => e.addr == a) else none with
      | some i => rewrite x i a v m
      | none => doWrite x a v m (g.lock (getLock a)).ver true
    else { x with pc := .undo x.wset.length 0 }
  | none => { x with pc := .writeCas a v m (g.lock (getLock a)).ver }

/-- `stm.c:2370`. -/
def writeCasStep (tid a : ℕ) (v m : BitVec w) (l : Ver) (g : Mem w) (x : Thread w) :
    Mem w × Thread w :=
  if g.lock (getLock a) = ⟨l, none⟩ then
    (g.setLock (getLock a) ⟨l, some (.entry tid 0)⟩, doWrite x a v m l false)
  else (g, { x with pc := .writeLock a v m })

/-- The old value and, without `reload`, the new one from it (`stm.c:2188-2194`, `stm.c:2399-2410`). -/
def rememberStep (i : ℕ) (v m : BitVec w) (reload : Bool) (g : Mem w) (x : Thread w) : StepRes w :=
  x.wset[i]?.map fun e =>
    (g, { wset := x.wset.set i { e with value := g.mem e.addr, mask := m }
          pc := if m = BitVec.allOnes w then .writeMem e.addr v
            else if reload then .merge e.addr v m
            else .writeMem e.addr (mergeBits (g.mem e.addr) v m) })

/-- One round of the loop after a commit (`stm.c:3288-3297`). -/
def releaseStep (t i : ℕ) (g : Mem w) (x : Thread w) : StepRes w :=
  match i with
  | 0 => some (g, ⟨[], .idle⟩)
  | j + 1 => x.wset[j]?.map fun e =>
    if e.noDrop then (g, { x with pc := .release t j })
    else (g.setLock (getLock e.addr) ⟨⟨t, 0⟩, none⟩, { x with pc := .release t j })

/-- The undo of one entry (`stm.c:1444-1448`). -/
def undoStep (i t : ℕ) (g : Mem w) (x : Thread w) : StepRes w :=
  match i with
  | 0 => some (g, ⟨[], .idle⟩)
  | j + 1 => x.wset[j]?.map fun e =>
    if e.mask ≠ 0 then (g.setMem e.addr e.value, { x with pc := .drop (j + 1) t })
    else (g, { x with pc := .drop (j + 1) t })

/-- The drop of its lock (`stm.c:1449-1463`). -/
def dropStep (i t : ℕ) (g : Mem w) (x : Thread w) : StepRes w :=
  match i with
  | 0 => none
  | j + 1 => x.wset[j]?.map fun e =>
    if e.noDrop then (g, { x with pc := .undo j t })
    else if Build.incarnationMax < e.version.inc + 1 then
      if t = 0 then (g.fetchInc, { x with pc := .drop (j + 1) (g.clock + 1) })
      else (g.setLock (getLock e.addr) ⟨⟨t, 0⟩, none⟩, { x with pc := .undo j t })
    else
      (g.setLock (getLock e.addr) ⟨⟨e.version.ts, e.version.inc + 1⟩, none⟩, { x with pc := .undo j t })

/-- `stm_unit_write` from `restart` on, given the lock word (`stm.c:2503-2518`). -/
def unitLockStep (a : ℕ) (v : BitVec w) (ts : Option ℕ) (g : Mem w) (x : Thread w) : Thread w :=
  let l := g.lock (getLock a)
  if l.own.isSome then x
  else match ts with
    | some s => { x with pc := if s < l.ver.ts then .idle else .unitCas a v ts l.ver }
    | none => { x with pc := .unitCas a v ts l.ver }

def unitCasStep (tid a : ℕ) (v : BitVec w) (ts : Option ℕ) (l : Ver) (g : Mem w) (x : Thread w) :
    Mem w × Thread w :=
  if g.lock (getLock a) = ⟨l, none⟩ then
    (g.setLock (getLock a) ⟨l, some (.unit tid)⟩, { x with pc := .unitStore a v })
  else (g, { x with pc := .unitLock a v ts })

/-- The next step of the call in progress. -/
def stepGo (tid : ℕ) (g : Mem w) (x : Thread w) : Pc w → StepRes w
  | .idle => none
  | .run => none
  | .writeLock a v m => some (g, writeLockStep getLock noDup tid a v m g x)
  | .writeCas a v m l => some (writeCasStep getLock tid a v m l g x)
  | .remember i v m reload => rememberStep i v m reload g x
  | .merge a v m => some (g, { x with pc := .writeMem a (mergeBits (g.mem a) v m) })
  | .writeMem a v => some (g.setMem a v, { x with pc := .run })
  | .commitInc => some (g.fetchInc, { x with pc := .validate (g.clock + 1) })
  | .validate t => some (g, { x with pc := .release t x.wset.length })
  | .release t i => releaseStep getLock t i g x
  | .undo i t => undoStep i t g x
  | .drop i t => dropStep getLock i t g x
  | .unitLock a v ts => some (g, unitLockStep getLock a v ts g x)
  | .unitCas a v ts l => some (unitCasStep getLock tid a v ts l g x)
  | .unitStore a v => some (g.setMem a v, { x with pc := .unitInc a })
  | .unitInc a => some (g.fetchInc, { x with pc := .unitRel a (g.clock + 1) })
  | .unitRel a t => some (g.setLock (getLock a) ⟨⟨t, 0⟩, none⟩, { x with pc := .idle })

/-- Where `stm_rollback` may be called. -/
def Pc.mayRollback : Pc w → Bool
  | .run => true
  | .writeLock _ _ _ => true
  | .validate _ => true
  | _ => false

def step (tid : ℕ) (act : Act w) (g : Mem w) (x : Thread w) : StepRes w :=
  match act with
  | .start => if x.pc = .idle then some (g, ⟨[], .run⟩) else none
  | .store a v m => if x.pc = .run then some (g, { x with pc := .writeLock a v m }) else none
  | .rollback => if x.pc.mayRollback then some (g, { x with pc := .undo x.wset.length 0 }) else none
  | .commit =>
    if x.pc = .run then
      some (g, if x.wset = [] then { x with pc := .idle } else { x with pc := .commitInc })
    else none
  | .unitStore a v ts => if x.pc = .idle then some (g, { x with pc := .unitLock a v ts }) else none
  | .go => stepGo getLock noDup tid g x x.pc

def system (w : ℕ) : Interleave.System ℕ (Mem w) (Thread w) (Act w) := ⟨step getLock noDup⟩

abbrev State (w : ℕ) := Interleave.Config ℕ (Mem w) (Thread w)

/-- After `stm_init` or a rollover, over the memory `m`. -/
def initial (m : ℕ → BitVec w) : State w := ⟨⟨0, fun _ => ⟨⟨0, 0⟩, none⟩, m⟩, fun _ => ⟨[], .idle⟩⟩

end TinyStm.Undo
