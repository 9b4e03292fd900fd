import TinyStm.Machine

/-!
# One transaction without concurrency

The calls of `stm.c` as whole functions, for a transaction that no other thread
interrupts, in the three designs and with the options USE_BLOOM_FILTER and
NO_DUPLICATES_IN_RW_SETS. A call that would wait for another thread returns
`spin`, one that would abort the reason; the transaction is not read-only and
its write set is not reallocated (CM_SUICIDE, no irrevocability, no ticks).
-/

namespace TinyStm.Seq

variable {w : ℕ}

/-- Build options. `stale n` is what the field `value` of entry `n` of the write set holds
when a store with mask zero leaves it alone. -/
structure Opts (w : ℕ) where
  design : Design
  useBloomFilter : Bool
  noDuplicatesInRwSets : Bool
  lockShiftExtra : ℕ
  lockArrayLogSize : ℕ
  stale : ℕ → BitVec w

def Opts.build (o : Opts w) : Build :=
  ⟨o.design, false, false, o.lockShiftExtra, o.lockArrayLogSize⟩

def Opts.getLock (o : Opts w) (a : ℕ) : ℕ := o.build.getLock w a

/-- Clock, locks and memory. -/
structure Store3 (w : ℕ) where
  clock : ℕ
  lock : ℕ → LockWord
  mem : ℕ → BitVec w

/-- The descriptor of the transaction. -/
structure Desc (w : ℕ) where
  start : ℕ
  endT : ℕ
  rset : List (ℕ × ℕ)
  wset : List (WEntry w)
  nbAcquired : ℕ
  bloom : BitVec w

inductive Stop where
  | abort (r : Reason)
  | spin
  deriving DecidableEq, Repr

abbrev Res := Except Stop

def Store3.setLock (g : Store3 w) (k : ℕ) (l : LockWord) : Store3 w :=
  { g with lock := Function.update g.lock k l }

def Store3.setMem (g : Store3 w) (a : ℕ) (v : BitVec w) : Store3 w :=
  { g with mem := Function.update g.mem a v }

/-! ### Start -/

/-- `stm_prepare`; a clock at `VERSION_MAX` is rolled over first. -/
def stmPrepare (o : Opts w) (g : Store3 w) : Store3 w × Desc w :=
  let g := if o.build.versionMax w ≤ g.clock then
    { g with clock := 0, lock := fun _ => ⟨⟨0, 0⟩, none⟩ } else g
  (g, ⟨g.clock, g.clock, [], [], 0, 0⟩)

/-! ### Write-set lookups -/

/-- `FILTER_BITS(a)`: one of 32 bits, computed as an `int` and sign-extended. -/
def filterBits (a : ℕ) : BitVec w :=
  ((1#32) <<< (((a >>> 2) ^^^ (a >>> 5)) &&& 0x1F)).signExtend w

/-- `stm_has_written`. -/
def hasWritten (o : Opts w) (x : Desc w) (a : ℕ) : Option ℕ :=
  if o.useBloomFilter && decide (x.bloom &&& filterBits a ≠ filterBits a) then none
  else stmHasWritten x.wset a

/-! ### Validation -/

/-- One round of `stm_validate` (`stm.c:873-952`). -/
def entryValid (o : Opts w) (tid : ℕ) (g : Store3 w) (x : Desc w) (r : ℕ × ℕ) : Bool :=
  match (g.lock r.1).own with
  | none => (g.lock r.1).ver.ts == r.2
  | some (.unit _) => false
  | some (.entry t i) =>
    if t = tid then
      match o.design with
      | .writeBackCtl =>
        match x.wset[i]? with
        | some e => e.version.ts == r.2
        | none => false
      | _ => true
    else false

def stmValidate (o : Opts w) (tid : ℕ) (g : Store3 w) (x : Desc w) : Bool :=
  x.rset.all (entryValid o tid g x)

/-- `stm_extend`: the new descriptor, if the read set is valid. -/
def stmExtend (o : Opts w) (tid : ℕ) (g : Store3 w) (x : Desc w) : Option (Desc w) :=
  if o.build.versionMax w ≤ g.clock then none
  else if stmValidate o tid g x then some { x with endT := g.clock } else none

/-! ### Loads -/

/-- `add_to_read_set` (`stm.c:1900-1925`). -/
def addToReadSet (o : Opts w) (x : Desc w) (k v : ℕ) : Desc w :=
  if o.noDuplicatesInRwSets && stmHasRead x.rset k then x
  else { x with rset := x.rset ++ [(k, v)] }

/-- A load under a lock that is free: extend if the version is too new, then log. -/
def readFree (o : Opts w) (tid : ℕ) (g : Store3 w) (x : Desc w) (a : ℕ) : Res (Desc w) :=
  let l := (g.lock (o.getLock a)).ver
  if x.endT < l.ts then
    match stmExtend o tid g x with
    | some x' => .ok (addToReadSet o x' (o.getLock a) l.ts)
    | none => .error (.abort .valRead)
  else .ok (addToReadSet o x (o.getLock a) l.ts)

/-- `stm_read_invisible` (`stm.c:1626-1930`). -/
def stmLoad (o : Opts w) (tid : ℕ) (g : Store3 w) (x : Desc w) (a : ℕ) :
    Res (BitVec w × Desc w) :=
  match o.design with
  | .writeBackCtl =>
    match (hasWritten o x a).bind (x.wset[·]?) with
    | some e =>
      if e.mask = BitVec.allOnes w then .ok (e.value, x)
      else match (g.lock (o.getLock a)).own with
        | some _ => .error .spin
        | none => (readFree o tid g x a).map fun x' => (mergeBits (g.mem a) e.value e.mask, x')
    | none =>
      match (g.lock (o.getLock a)).own with
      | some _ => .error .spin
      | none => (readFree o tid g x a).map fun x' => (g.mem a, x')
  | .writeThrough =>
    match (g.lock (o.getLock a)).own with
    | some (.unit _) => .error .spin
    | some (.entry t _) =>
      if t = tid then .ok (g.mem a, x) else .error (.abort .rwConflict)
    | none => (readFree o tid g x a).map fun x' => (g.mem a, x')
  | .writeBackEtl =>
    match (g.lock (o.getLock a)).own with
    | some (.unit _) => .error .spin
    | some (.entry t i) =>
      if t = tid then
        match chainWalk x.wset a x.wset.length i with
        | .found j =>
          match x.wset[j]? with
          | some e => .ok (if e.mask = 0 then g.mem a else e.value, x)
          | none => .ok (g.mem a, x)
        | .last _ => .ok (g.mem a, x)
      else .error (.abort .rwConflict)
    | none => (readFree o tid g x a).map fun x' => (g.mem a, x')

/-! ### Stores -/

/-- The word a masked store makes of `old`; a full mask does not read it. -/
def mergeWord (old v m : BitVec w) : BitVec w :=
  if m = BitVec.allOnes w then v else mergeBits old v m

/-- A read-after-write conflict on a newer version (`stm.c:2342-2356`). -/
def writeConflict (o : Opts w) (x : Desc w) (a : ℕ) (l : Ver) : Bool :=
  decide (x.endT < l.ts) && stmHasRead x.rset (o.getLock a)

/-- Commit-time design (`stm.c:2318-2326`, `stm.c:2429-2441`). -/
def writeCtl (o : Opts w) (g : Store3 w) (x : Desc w) (a : ℕ) (v m : BitVec w) :
    Res (Store3 w × Desc w) :=
  let l := g.lock (o.getLock a)
  if l.own.isSome then .error .spin
  else match hasWritten o x a with
    | some i => .ok (g, { x with wset := x.wset.modify i fun e =>
        { e with value := mergeBits e.value v m, mask := e.mask ||| m } })
    | none =>
      if writeConflict o x a l.ver then .error (.abort .valWrite)
      else .ok (g, { x with
        wset := x.wset ++ [⟨a, if m = 0 then o.stale x.wset.length else v, m, l.ver, true, none⟩]
        bloom := if o.useBloomFilter then x.bloom ||| filterBits a else x.bloom })

/-- Write-through: a new entry with the old value, then the store to memory. -/
def appendWt (o : Opts w) (g : Store3 w) (x : Desc w) (a : ℕ) (v m : BitVec w) (l : Ver)
    (duplicate : Bool) : Store3 w × Desc w :=
  (if m = 0 then g else g.setMem a (mergeWord (g.mem a) v m),
    { x with wset := x.wset ++
      [⟨a, if m = 0 then o.stale x.wset.length else g.mem a, m, l, duplicate, none⟩] })

/-- Write-through with NO_DUPLICATES_IN_RW_SETS: the address has entry `i`. -/
def rewriteWt (g : Store3 w) (x : Desc w) (i a : ℕ) (v m : BitVec w) : Store3 w × Desc w :=
  if m = 0 then (g, x)
  else (g.setMem a (mergeWord (g.mem a) v m),
    { x with wset := x.wset.modify i fun e =>
        if e.mask = 0 then { e with value := g.mem a, mask := m } else e })

def writeWt (o : Opts w) (tid : ℕ) (g : Store3 w) (x : Desc w) (a : ℕ) (v m : BitVec w) :
    Res (Store3 w × Desc w) :=
  let l := g.lock (o.getLock a)
  match l.own with
  | some (.unit _) => .error .spin
  | some (.entry t _) =>
    if t = tid then
      match if o.noDuplicatesInRwSets then stmHasWritten x.wset a else none with
      | some i => .ok (rewriteWt g x i a v m)
      | none => .ok (appendWt o g x a v m l.ver true)
    else .error (.abort .wwConflict)
  | none =>
    if writeConflict o x a l.ver then .error (.abort .valWrite)
    else .ok (appendWt o (g.setLock (o.getLock a) ⟨l.ver, some (.entry tid 0)⟩) x a v m l.ver false)

/-- The value of the new entry `n` of the encounter-time write set. -/
def newValue (o : Opts w) (g : Store3 w) (n a : ℕ) (v m : BitVec w) : BitVec w :=
  if m = 0 then o.stale n else mergeWord (g.mem a) v m

/-- Encounter-time write-back (`stm.c:2200-2258`, `stm.c:2361-2428`). -/
def writeEtl (o : Opts w) (tid : ℕ) (g : Store3 w) (x : Desc w) (a : ℕ) (v m : BitVec w) :
    Res (Store3 w × Desc w) :=
  let l := g.lock (o.getLock a)
  match l.own with
  | some (.unit _) => .error .spin
  | some (.entry t i) =>
    if t = tid then
      if m = 0 then .ok (g, x)
      else match chainWalk x.wset a x.wset.length i with
        | .found j => .ok (g, { x with wset := x.wset.modify j fun e =>
            { e with value := mergeWord (if e.mask = 0 then g.mem a else e.value) v m
                     mask := e.mask ||| m } })
        | .last j =>
          -- all entries of a lock have the same version
          let version := (x.wset[j]?.map (·.version)).getD ⟨0, 0⟩
          .ok (g, { x with
            wset := linkEntry x.wset j ⟨a, newValue o g x.wset.length a v m, m, version, true, none⟩ })
    else .error (.abort .wwConflict)
  | none =>
    if writeConflict o x a l.ver then .error (.abort .valWrite)
    else .ok (g.setLock (o.getLock a) ⟨l.ver, some (.entry tid x.wset.length)⟩,
      { x with
        wset := x.wset ++ [⟨a, newValue o g x.wset.length a v m, m, l.ver, true, none⟩] })

/-- `stm_write`, which `stm_store` calls with the full mask. -/
def stmWrite (o : Opts w) (tid : ℕ) (g : Store3 w) (x : Desc w) (a : ℕ) (v m : BitVec w) :
    Res (Store3 w × Desc w) :=
  match o.design with
  | .writeBackCtl => writeCtl o g x a v m
  | .writeThrough => writeWt o tid g x a v m
  | .writeBackEtl => writeEtl o tid g x a v m

/-! ### Commit -/

/-- The acquisition loop of the commit-time design over the entries below `n`, last
one first (`stm.c:3210-3248`). -/
def acquireCtl (o : Opts w) (tid : ℕ) : ℕ → Store3 w → Desc w → Res (Store3 w × Desc w)
  | 0, g, x => .ok (g, x)
  | i + 1, g, x =>
    match x.wset[i]? with
    | none => .error .spin
    | some e =>
      let l := g.lock (o.getLock e.addr)
      match l.own with
      | some (.entry t _) =>
        if t = tid then acquireCtl o tid i g x else .error (.abort .wwConflict)
      | some (.unit _) => .error (.abort .wwConflict)
      | none => acquireCtl o tid i (g.setLock (o.getLock e.addr) ⟨l.ver, some (.entry tid i)⟩)
          { x with wset := x.wset.modify i fun e => { e with noDrop := false, version := l.ver }
                   nbAcquired := x.nbAcquired + 1 }

def release (o : Opts w) (g : Store3 w) (e : WEntry w) (v : Ver) : Store3 w :=
  g.setLock (o.getLock e.addr) ⟨v, none⟩

/-- One round of the loop that publishes the update `t` (`stm.c:3288-3336`). -/
def publish (o : Opts w) (t : ℕ) (g : Store3 w) (e : WEntry w) : Store3 w :=
  match o.design with
  | .writeThrough => if e.noDrop then g else release o g e ⟨t, 0⟩
  | .writeBackEtl =>
    let g := if e.mask ≠ 0 then g.setMem e.addr e.value else g
    if e.next.isNone then release o g e ⟨t, 0⟩ else g
  | .writeBackCtl =>
    let g := if e.mask = BitVec.allOnes w then g.setMem e.addr e.value
      else if e.mask ≠ 0 then g.setMem e.addr (mergeBits (g.mem e.addr) e.value e.mask) else g
    if e.noDrop then g else release o g e ⟨t, 0⟩

/-- The loop: backwards in the write-through design, forwards in the others. -/
def publishAll (o : Opts w) (t : ℕ) (g : Store3 w) (ws : List (WEntry w)) : Store3 w :=
  match o.design with
  | .writeThrough => ws.reverse.foldl (publish o t) g
  | _ => ws.foldl (publish o t) g

/-- `stm_commit` (`stm.c:3140-3392`). -/
def stmCommit (o : Opts w) (tid : ℕ) (g : Store3 w) (x : Desc w) : Res (Store3 w) :=
  if x.wset = [] then .ok g
  else do
    let (g, x) ← match o.design with
      | .writeBackCtl => acquireCtl o tid x.wset.length g x
      | _ => .ok (g, x)
    let g' := { g with clock := g.clock + 1 }
    if x.start = g.clock || stmValidate o tid g' x then .ok (publishAll o (g.clock + 1) g' x.wset)
    else .error (.abort .validate)

/-! ### Abort -/

/-- One round of the undo loop of the write-through design; the second component is
the timestamp of exhausted incarnation numbers, zero while none was taken. -/
def undo (o : Opts w) (p : Store3 w × ℕ) (e : WEntry w) : Store3 w × ℕ :=
  let g := if e.mask ≠ 0 then p.1.setMem e.addr e.value else p.1
  if e.noDrop then (g, p.2)
  else if Build.incarnationMax < e.version.inc + 1 then
    if p.2 = 0 then (release o { g with clock := g.clock + 1 } e ⟨g.clock + 1, 0⟩, g.clock + 1)
    else (release o g e ⟨p.2, 0⟩, p.2)
  else (release o g e ⟨e.version.ts, e.version.inc + 1⟩, p.2)

/-- The backwards loop of the commit-time design over the entries below `n`. -/
def releaseCtl (o : Opts w) (ws : List (WEntry w)) : ℕ → ℕ → Store3 w → Res (Store3 w)
  | _, 0, g => .ok g
  | 0, _ + 1, _ => .error .spin
  | i + 1, nb + 1, g =>
    match ws[i]? with
    | none => .error .spin
    | some e =>
      if e.noDrop then releaseCtl o ws i (nb + 1) g
      else releaseCtl o ws i nb (release o g e e.version)

/-- `stm_abort`: the loops of `stm_rollback` (`stm.c:1441-1496`). -/
def stmAbort (o : Opts w) (g : Store3 w) (x : Desc w) : Res (Store3 w) :=
  match o.design with
  | .writeThrough => .ok (x.wset.reverse.foldl (undo o) (g, 0)).1
  | .writeBackEtl =>
    .ok (x.wset.foldl (fun g e => if e.next.isNone then release o g e e.version else g) g)
  | .writeBackCtl => releaseCtl o x.wset x.wset.length x.nbAcquired g

/-! ### Sequences of calls -/

inductive Op (w : ℕ) where
  | load (a : ℕ)
  | store (a : ℕ) (v : BitVec w)
  | store2 (a : ℕ) (v m : BitVec w)
  deriving DecidableEq, Repr

/-- Run the calls; the values of the loads, in order. -/
def exec (o : Opts w) (tid : ℕ) : List (Op w) → Store3 w → Desc w →
    Res (Store3 w × Desc w × List (BitVec w))
  | [], g, x => .ok (g, x, [])
  | .load a :: ops, g, x => do
    let (v, x) ← stmLoad o tid g x a
    let (g, x, vs) ← exec o tid ops g x
    .ok (g, x, v :: vs)
  | .store a v :: ops, g, x => do
    let (g, x) ← stmWrite o tid g x a v (BitVec.allOnes w)
    exec o tid ops g x
  | .store2 a v m :: ops, g, x => do
    let (g, x) ← stmWrite o tid g x a v m
    exec o tid ops g x

/-- Direct execution on plain memory. -/
def direct : List (Op w) → (ℕ → BitVec w) → (ℕ → BitVec w) × List (BitVec w)
  | [], m => (m, [])
  | .load a :: ops, m => ((direct ops m).1, m a :: (direct ops m).2)
  | .store a v :: ops, m => direct ops (Function.update m a v)
  | .store2 a v k :: ops, m => direct ops (Function.update m a (mergeBits (m a) v k))

/-- A state between transactions: all locks are free, with versions the clock has
passed. -/
structure Quiescent (w : ℕ) where
  clock : ℕ
  ver : ℕ → Ver
  mem : ℕ → BitVec w
  ver_le : ∀ k, (ver k).ts ≤ clock

def Quiescent.store (q : Quiescent w) : Store3 w := ⟨q.clock, fun k => ⟨q.ver k, none⟩, q.mem⟩

end TinyStm.Seq
