import TinyStm.SharedInv

/-!
# Invariant of one thread

`TInv tid` says what holds of the descriptor of thread `tid` against the shared
state, phase by phase: which locks it holds, what its read set and its write set
stand for, how far a publication or an undo has got, and what the local
variables of the call in progress are worth.
-/

namespace TinyStm

open Timeline

variable {w : ℕ}

/-! ### Phases -/

/-- Coarse phase of an attempt. -/
inductive Phase where
  | out
  | live
  | pub (t i : ℕ)
  | undo (i t : ℕ)

def Pc.phase : Pc w → Phase
  | .run => .live
  | .readLock _ => .live
  | .readVal _ _ => .live
  | .readLock2 _ _ _ => .live
  | .readRecheck _ _ _ => .live
  | .readOwn _ => .live
  | .extClock _ => .live
  | .validate _ _ _ => .live
  | .writeLock _ _ _ => .live
  | .writeCas _ _ _ _ => .live
  | .writeLoad _ _ _ => .live
  | .writeOld _ _ _ => .live
  | .writeMem _ _ _ _ => .live
  | .commitLock _ => .live
  | .commitCas _ _ => .live
  | .commitInc => .live
  | .pub t i => .pub t i
  | .pubStore t i _ => .pub t i
  | .pubRel t i => .pub t i
  | .rb _ i t => .undo i t
  | .rbDrop _ i t => .undo i t
  | _ => .out

/-- In the middle of a store: the write set has an entry whose store is not
complete. -/
def Pc.storing : Pc w → Bool
  | .writeLoad _ _ _ => true
  | .writeOld _ _ _ => true
  | .writeMem _ _ _ _ => true
  | _ => false

/-- The timestamp the thread is committing, rolling back or storing with. -/
def Pc.cur : Pc w → Option ℕ
  | .validate _ _ (.commit t) => some t
  | .unitRel _ _ t => some t
  | .pub t _ => some t
  | .pubStore t _ _ => some t
  | .pubRel t _ => some t
  | .rb _ _ t => if t = 0 then none else some t
  | .rbDrop _ _ t => if t = 0 then none else some t
  | _ => none

/-- The entries from here on have been looked at by the acquisition loop of the
commit-time design; `n` is the length of the write set. -/
def Pc.acqFrom (n : ℕ) : Pc w → ℕ
  | .commitLock i => i + 1
  | .commitCas i _ => i + 1
  | .commitInc => 0
  | .validate _ _ (.commit _) => 0
  | _ => n

/-- Entry `j` of `n` has not been released yet by the loop in progress. -/
def Remains (b : Build) (n j : ℕ) : Phase → Prop
  | .out => False
  | .live => True
  | .pub _ i => if b.design = .writeThrough then j + i < n else i ≤ j
  | .undo i _ => if b.design = .writeBackEtl then i ≤ j else j < i

/-- The write set says that the thread holds lock `k`. -/
def Held (b : Build) (ph : Phase) (ws : List (WEntry w)) (k : ℕ) : Prop :=
  ∃ j e, ws[j]? = some e ∧ b.drops e = true ∧ Remains b ws.length j ph ∧ b.getLock w e.addr = k

def UnitHeld (b : Build) (k : ℕ) : Pc w → Prop
  | .unitStore a _ => b.getLock w a = k
  | .unitInc a _ => b.getLock w a = k
  | .unitRel a _ _ => b.getLock w a = k
  | _ => False

/-! ### Write sets against the stores made -/

/-- Commit-time write set: one merged entry per address. -/
structure CtlWs (ws : List (WEntry w)) (ss : List (Store w)) : Prop where
  inj : ∀ {i j : ℕ} {e e' : WEntry w}, ws[i]? = some e → ws[j]? = some e' →
    e.addr = e'.addr → i = j
  mem : ∀ s ∈ ss, ∃ e ∈ ws, e.addr = s.addr
  val : ∀ e ∈ ws, ∀ y, overlay ss e.addr y = mergeBits y e.value e.mask

/-- Encounter-time write-back write set: full words, linked per lock. A store
with an empty mask under an own lock leaves no entry. -/
structure EtlWs (b : Build) (tid : ℕ) (g : Shared w) (ph : Phase) (x : Tx w) : Prop where
  inj : ∀ {i j : ℕ} {e e' : WEntry w}, x.wset[i]? = some e → x.wset[j]? = some e' →
    e.addr = e'.addr → i = j
  mem : ∀ s ∈ x.stores, s.mask ≠ 0 → ∃ e ∈ x.wset, e.addr = s.addr
  lock : ∀ s ∈ x.stores, ∃ e ∈ x.wset, b.getLock w e.addr = b.getLock w s.addr
  val : ∀ e ∈ x.wset, Held b ph x.wset (b.getLock w e.addr) →
    (e.mask = 0 ∧ ∀ y, overlay x.stores e.addr y = y) ∨
    (e.mask ≠ 0 ∧
      e.value = overlay x.stores e.addr (g.at b (g.ver b (b.getLock w e.addr)) e.addr))
  chain : Chained (b.getLock w) x.wset
  head : ∀ {k i : ℕ}, (g.lock k).own = some (.entry tid i) →
    (∃ e, x.wset[i]? = some e ∧ b.getLock w e.addr = k) ∧
    ∀ {j : ℕ} {e : WEntry w}, x.wset[j]? = some e → b.getLock w e.addr = k → i ≤ j

/-- Write-through undo log: entry `j` remembers the word before store `j`. -/
structure WtWs (b : Build) (g : Shared w) (ph : Phase) (x : Tx w) : Prop where
  len : x.stores.length ≤ x.wset.length
  ent : ∀ {j : ℕ} {s : Store w}, x.stores[j]? = some s →
    ∃ e, x.wset[j]? = some e ∧ e.addr = s.addr ∧ e.mask = s.mask ∧
      (s.mask ≠ 0 → Held b ph x.wset (b.getLock w s.addr) → e.value =
        overlay (x.stores.take j) s.addr (g.at b (g.ver b (b.getLock w s.addr)) s.addr))

structure WsOk (b : Build) (tid : ℕ) (g : Shared w) (ph : Phase) (x : Tx w) : Prop where
  ctl : b.design = .writeBackCtl → CtlWs x.wset x.stores
  etl : b.design = .writeBackEtl → EtlWs b tid g ph x
  wt : b.design = .writeThrough → WtWs b g ph x

section WsOk

variable {b : Build} {tid : ℕ} {g : Shared w} {ph : Phase} {x : Tx w}

theorem WsOk.ofCtl (hd : b.design = .writeBackCtl) (h : CtlWs x.wset x.stores) :
    WsOk b tid g ph x := by
  constructor <;> intro hd' <;> simp_all

theorem WsOk.ofEtl (hd : b.design = .writeBackEtl) (h : EtlWs b tid g ph x) :
    WsOk b tid g ph x := by
  constructor <;> intro hd' <;> simp_all

theorem WsOk.ofWt (hd : b.design = .writeThrough) (h : WtWs b g ph x) : WsOk b tid g ph x := by
  constructor <;> intro hd' <;> simp_all

end WsOk

/-- The commit-time acquisition loop has dealt with the entries from `n` on. -/
structure CtlAcq (b : Build) (tid : ℕ) (g : Shared w) (n : ℕ) (x : Tx w) : Prop where
  todo : ∀ {j : ℕ} {e : WEntry w}, x.wset[j]? = some e → j < n → e.noDrop = true
  got : ∀ {j : ℕ} {e : WEntry w}, x.wset[j]? = some e → n ≤ j →
    Held b .live x.wset (b.getLock w e.addr)
  count : x.nbAcquired = x.wset.countP b.drops
  idx : ∀ {k i : ℕ}, (g.lock k).own = some (.entry tid i) →
    ∃ e, x.wset[i]? = some e ∧ b.drops e = true ∧ b.getLock w e.addr = k

/-! ### The invariant -/

/-- The locks of the entries are held until the entries are released: from the
store on in the encounter-time designs, once it publishes in the other one. -/
def LocksTaken (b : Build) : Phase → Prop
  | .pub _ _ => True
  | _ => b.design ≠ .writeBackCtl

/-- What holds in every phase of an attempt. -/
structure Att (b : Build) (P : Mode) (tid : ℕ) (g : Shared w) (ph : Phase) (x : Tx w) : Prop where
  start_le : b.stamp x.start ≤ x.snap
  end_le : b.stamp x.endT ≤ x.snap
  endEq : P.noExt → b.stamp x.endT = x.snap
  snap_le : x.snap ≤ g.clock
  consistent : P.oneTime → ∃ e, x.snap ≤ e ∧ e ≤ g.clock ∧
    (b.design = .writeBackCtl → e = x.snap) ∧ ∀ r ∈ x.reads, ReadAt b g e r
  pre : ∀ r ∈ x.reads, r.pre <+: x.stores
  order : ∀ A ∈ g.hist, A.finished ≤ x.began → ∀ p, A.pos = some p → p ≤ b.stamp x.start
  dropVer : ∀ {j : ℕ} {e : WEntry w}, x.wset[j]? = some e → b.drops e = true →
    Remains b x.wset.length j ph → (g.lock (b.getLock w e.addr)).ver = e.version
  dropOrder : ∀ {j j' : ℕ} {e e' : WEntry w}, x.wset[j]? = some e → b.drops e = true →
    x.wset[j']? = some e' → b.getLock w e'.addr = b.getLock w e.addr →
    if b.design = .writeThrough then j ≤ j' else j' ≤ j
  taken : LocksTaken b ph → ∀ {j : ℕ} {e : WEntry w}, x.wset[j]? = some e →
    Remains b x.wset.length j ph → Held b ph x.wset (b.getLock w e.addr)
  ws : WsOk b tid g ph x

/-- How a value that was returned can be revalidated: it is own, or the
transaction is read-only and its snapshot fixed, or the version is in the read
set, or the lock is held since. -/
def Covered (b : Build) (tid : ℕ) (g : Shared w) (x : Tx w) (r : Read w) : Prop :=
  (∀ y, r.val = overlay r.pre r.addr y) ∨
  ∃ v, r.val = overlay r.pre r.addr (g.at b v r.addr) ∧ v ≤ g.ver b (b.getLock w r.addr) ∧
    ((x.ro = true ∧ v ≤ x.snap ∧ Quiet (b.sem w) g.log (b.getLock w r.addr) v x.snap) ∨
      (∃ raw, (b.getLock w r.addr, raw) ∈ x.rset ∧ b.stamp raw = v) ∨
      ((g.lock (b.getLock w r.addr)).HeldBy tid ∧ v = g.ver b (b.getLock w r.addr)))

/-- What holds while the attempt can still read and write. -/
structure Live (b : Build) (tid : ℕ) (g : Shared w) (n : ℕ) (x : Tx w) : Prop where
  rset : ∀ r ∈ x.rset, b.stamp r.2 ≤ x.snap ∧ b.stamp r.2 ≤ g.ver b r.1 ∧
    Quiet (b.sem w) g.log r.1 (b.stamp r.2) x.snap
  rsetOwn : b.design ≠ .writeBackCtl → ∀ r ∈ x.rset, (g.lock r.1).HeldBy tid →
    b.stamp r.2 = g.ver b r.1
  cover : ∀ r ∈ x.reads, Covered b tid g x r
  ro : x.ro = true → x.wset = [] ∧ x.stores = []
  acq : b.design = .writeBackCtl → CtlAcq b tid g n x
  wtMem : b.design = .writeThrough → ∀ a, Held b .live x.wset (b.getLock w a) →
    g.mem a = overlay x.stores a (g.at b (g.ver b (b.getLock w a)) a)

/-- No store is in progress: every entry comes from a store made. -/
structure Whole (b : Build) (x : Tx w) : Prop where
  touched : ∀ e ∈ x.wset, ∃ s ∈ x.stores, s.addr = e.addr
  len : b.design = .writeThrough → x.wset.length = x.stores.length

/-- What holds in round `i` of the loop that writes back the update with timestamp
`t` and drops its locks. `n` is the first entry whose word is not in memory yet. -/
structure PubOk (b : Build) (tid : ℕ) (g : Shared w) (x : Tx w) (t i n : ℕ) : Prop where
  pos : 0 < t ∧ t ≤ g.clock ∧ x.snap < t
  fits : b.Fits w t
  log : g.log t = some ⟨tid, x.stores, true⟩
  fresh : ∀ A ∈ g.hist, A.wrote ≠ some t
  reads : ∀ r ∈ x.reads, ReadAt b g (t - 1) r
  below : ∀ {k : ℕ}, Held b (.pub t i) x.wset k → g.ver b k < t
  done : ∀ s ∈ x.stores, Held b (.pub t i) x.wset (b.getLock w s.addr) ∨
    t ≤ g.ver b (b.getLock w s.addr)
  mem : ∀ a, Held b (.pub t i) x.wset (b.getLock w a) →
    g.mem a = overlay x.stores a (g.at b (g.ver b (b.getLock w a)) a) ∨
    (b.design ≠ .writeThrough ∧ g.mem a = g.at b (g.ver b (b.getLock w a)) a ∧
      ∃ j e, x.wset[j]? = some e ∧ e.addr = a ∧ n ≤ j)

/-- What holds in the loop that rolls an attempt back, before entry `i`: entries
below `n` are still to be undone (write-through), and `t`, if not zero, is the
timestamp of exhausted incarnation numbers. -/
structure UndoOk (b : Build) (tid : ℕ) (g : Shared w) (x : Tx w) (i n t : ℕ) : Prop where
  count : b.design = .writeBackCtl → x.nbAcquired = (x.wset.take i).countP b.drops
  bound : b.design ≠ .writeBackEtl → i ≤ x.wset.length
  wtMem : b.design = .writeThrough → ∀ a, Held b (.undo i t) x.wset (b.getLock w a) →
    g.mem a = overlay (x.stores.take n) a (g.at b (g.ver b (b.getLock w a)) a)
  noBump : b.design ≠ .writeThrough → t = 0
  bump : t ≠ 0 → t ≤ g.clock ∧
    ∃ m, g.log t = some ⟨tid, bumped x.wset m, true⟩ ∧ i ≤ m ∧
      (∀ k, (b.sem w).touch (bumped x.wset m) k →
        Held b (.undo i t) x.wset k ∨ t ≤ g.ver b k) ∧
      ∀ {k : ℕ}, Held b (.undo i t) x.wset k → g.ver b k < t

/-- The load of `a` has found version `l`. -/
def Saw (b : Build) (g : Shared w) (a : ℕ) (l : Ver) : Prop :=
  VerLe b l (g.lock (b.getLock w a)).ver

/-- Local variables of an extension or a validation in progress. -/
def ContOk (b : Build) (tid : ℕ) (g : Shared w) (x : Tx w) (now : ℕ) : Cont w → Prop
  | .read a l v => Saw b g a l ∧ v = g.at b (b.stamp l.ts) a ∧ b.stamp l.ts ≤ now ∧ x.ro = false
  | .commit t => t = now + 1 ∧ b.Fits w t ∧ g.log t = some ⟨tid, x.stores, false⟩ ∧ x.ro = false
  | _ => x.ro = true → x.reads = []

/-- Unit store in progress: the other words of the stripe are untouched. -/
def UnitMem (b : Build) (g : Shared w) (a : ℕ) (v : Option (BitVec w)) : Prop :=
  ∀ a', b.getLock w a' = b.getLock w a →
    g.mem a' = match v with
      | none => g.at b (g.ver b (b.getLock w a')) a'
      | some v => if a' = a then v else g.at b (g.ver b (b.getLock w a')) a'

/-- What the local variables of the call in progress are worth. -/
def PcOk (b : Build) (tid : ℕ) (g : Shared w) (x : Tx w) : Pc w → Prop
  | .readVal a l => Saw b g a l
  | .readLock2 a l v => Saw b g a l ∧ (v = g.at b (b.stamp l.ts) a ∨ Passed b g (b.getLock w a) l)
  | .readRecheck a l v =>
    Saw b g a l ∧ v = g.at b (b.stamp l.ts) a ∧ b.stamp l.ts ≤ x.snap ∧ x.ro = false
  | .readOwn a => b.design ≠ .writeBackCtl ∧ (g.lock (b.getLock w a)).HeldBy tid ∧
    (b.design = .writeBackEtl → ∀ y, overlay x.stores a y = y)
  | .extClock c => (∀ t, c ≠ .commit t) ∧ (c = .tick ∨ c = .opEnd → b.extraTick = true) ∧
    ∀ a l v, c = .read a l v → Saw b g a l ∧ v = g.at b (b.stamp l.ts) a ∧ x.ro = false
  | .validate now i c => now ≤ g.clock ∧ x.snap ≤ now ∧ b.Fits w now ∧
    (∀ j < i, ∀ r, x.rset[j]? = some r → Quiet (b.sem w) g.log r.1 (b.stamp r.2) now) ∧
    (∀ k, (g.lock k).HeldBy tid → g.ver b k ≤ now) ∧ ContOk b tid g x now c
  | .writeLock _ _ _ => x.ro = false
  | .writeCas a _ _ l => b.design ≠ .writeBackCtl ∧ x.ro = false ∧
    (stmHasRead x.rset (b.getLock w a) = true → l.ts ≤ x.endT)
  | .writeLoad i _ m => b.design = .writeBackEtl ∧ m ≠ 0 ∧ x.ro = false ∧
    (∃ e, x.wset[i]? = some e ∧ e.mask = 0) ∧
    ∀ {j e}, x.wset[j]? = some e → j ≠ i → ∃ s ∈ x.stores, s.addr = e.addr
  | .writeOld i _ m => b.design = .writeThrough ∧ m ≠ 0 ∧ x.ro = false ∧
    i = x.stores.length ∧ x.wset.length = i + 1 ∧ ∃ e, x.wset[i]? = some e ∧ e.mask = m
  | .writeMem a v m y => b.design = .writeThrough ∧ m ≠ 0 ∧ x.ro = false ∧
    x.wset.length = x.stores.length + 1 ∧ y = mergeBits (g.mem a) v m ∧
    ∃ e, x.wset[x.stores.length]? = some e ∧ e.addr = a ∧ e.mask = m ∧ e.value = g.mem a
  | .commitLock i => b.design = .writeBackCtl ∧ i < x.wset.length ∧ x.ro = false
  | .commitCas i _ => b.design = .writeBackCtl ∧ i < x.wset.length ∧ x.ro = false
  | .commitInc => x.ro = false
  | .pub t i => PubOk b tid g x t i i
  | .pubStore t i v => b.design = .writeBackCtl ∧ PubOk b tid g x t i i ∧
    ∃ e, x.wset[i]? = some e ∧
      v = overlay x.stores e.addr (g.at b (g.ver b (b.getLock w e.addr)) e.addr)
  | .pubRel t i => PubOk b tid g x t i (i + 1)
  | .rb _ i t => UndoOk b tid g x i i t
  | .rbDrop _ i t => b.design = .writeThrough ∧ UndoOk b tid g x i (i - 1) t
  | .unitStore a _ => UnitMem b g a none
  | .unitInc a v => UnitMem b g a (some v)
  | .unitRel a v t => UnitMem b g a (some v) ∧
    g.log t = some ⟨tid, [⟨a, v, BitVec.allOnes w⟩], true⟩ ∧ b.stamp t = t ∧
    g.ver b (b.getLock w a) < t ∧ ∀ A ∈ g.hist, A.wrote ≠ some t
  | .unitLdVal a l => Saw b g a l
  | .unitLdLock2 a l v =>
    Saw b g a l ∧ (v = g.at b (b.stamp l.ts) a ∨ Passed b g (b.getLock w a) l)
  | _ => True

/-- A decided update of thread `tid` is over: it is on record, or it is that of a
rollback and has no effect. -/
def Over (b : Build) (tid : ℕ) (g : Shared w) (n : ℕ) (ss : List (Store w)) : Prop :=
  (∃ A ∈ g.hist, A.wrote = some n ∧ A.tid = tid ∧ A.stores = ss) ∨
    (b.design = .writeThrough ∧ ∀ a y, overlay ss a y = y)

theorem Over.mono {b : Build} {tid n : ℕ} {g g' : Shared w} {ss : List (Store w)}
    (h : Over b tid g n ss) (hk : ∀ A ∈ g.hist, A ∈ g'.hist) : Over b tid g' n ss := by
  rcases h with ⟨A, hA, hw⟩ | hid
  · exact .inl ⟨A, hk A hA, hw⟩
  · exact .inr hid

/-- The invariant of thread `tid`. -/
structure TInv (b : Build) (P : Mode) (tid : ℕ) (g : Shared w) (x : Tx w) : Prop where
  own : ∀ k, (∃ i, (g.lock k).own = some (.entry tid i)) ↔ Held b x.pc.phase x.wset k
  unit : ∀ k, (g.lock k).own = some (.unit tid) ↔ UnitHeld b k x.pc
  settled : ∀ {n s k}, g.log n = some s → s.owner = tid → x.pc.cur ≠ some n →
    (b.sem w).touch s.body k → n ≤ g.ver b k
  fate : ∀ {n ss}, g.log n = some ⟨tid, ss, true⟩ → Over b tid g n ss ∨ x.pc.cur = some n
  began : x.began ≤ g.time
  att : x.pc.phase ≠ .out → Att b P tid g x.pc.phase x
  live : x.pc.phase = .live → Live b tid g (x.pc.acqFrom x.wset.length) x
  whole : x.pc.phase ≠ .out → x.pc.storing = false → Whole b x
  pc : PcOk b tid g x x.pc

end TinyStm
