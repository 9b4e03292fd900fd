import TinyStm.Lib.Chain
import TinyStm.Lib.Interleave
import TinyStm.Mb.KeyIndex

/-!
# The table of periods under threads (mb-hash-table.c)

`hashT_get` with `get_mb_data` and `get_mb_data_pool`, one read, write or compare-and-swap of shared
memory a step, after one `hashT_init`. The nodes are numbered: those of the pool `m` start at
`cfg.size * m`. `next_pool`, which only `hashT_fini` reads, is left out.
-/

namespace TinyStm.Mb

open Interleave

variable {ι C : Type*}

/-! ### Memory -/

/-- `mb_data_t` with its links. -/
structure Node (C : Type*) extends Data C where
  nextFree : Option ℕ
  nextData : Option ℕ

/-- What one assignment changes; `opt` is the three fields that `mb_calculate` finds. -/
inductive Field where
  | nextFree
  | nextData
  | tValidation
  | uRate
  | aRead
  | opt
  deriving DecidableEq

/-- One field of `v` is assigned to that of `d`. -/
def Node.assign (d v : Node C) : Field → Node C
  | .nextFree => { d with nextFree := v.nextFree }
  | .nextData => { d with nextData := v.nextData }
  | .tValidation => { d with tValidation := v.tValidation }
  | .uRate => { d with uRate := v.uRate }
  | .aRead => { d with aRead := v.aRead }
  | .opt => { d with opt := v.opt }

/-- The node that the pools start with. -/
def Node.empty [Zero C] (next : Option ℕ) : Node C := ⟨⟨0, 0, 0, 0⟩, next, none⟩

/-- The node of a key; `next_data` is assigned later. -/
def Node.ofKey (optOf : BitVec 64 → BitVec 64 → BitVec 64 → C) (k : Key) : Node C :=
  ⟨⟨k.tv, k.ur, k.acc, optOf k.tv k.ur k.acc⟩, none, none⟩

/-- The assignments of `get_mb_data_pool` to a node. -/
def clearFields : List Field := [.nextFree, .nextData, .tValidation, .uRate, .aRead, .opt]

/-- The assignments of `hashT_get` to a node. -/
def keyFields : List Field := [.nextFree, .tValidation, .uRate, .aRead, .opt]

/-- The shared variables. The last four are auxiliary: the nodes from `freeHEAD` on, those that
`get_mb_data` has returned with the threads that got them, those pushed on each bucket, and the keys of
the calls that have returned. -/
structure Table (ι C : Type*) where
  hashT : ℕ → Option ℕ
  mem : ℕ → Node C
  freeHEAD : Option ℕ
  poolLOCK : Option ι
  poolHEAD : ℕ
  free : List ℕ
  handed : List (ι × ℕ)
  pushed : ℕ → List ℕ
  answered : List Key

/-- `&pool->data[i]` for the pool `m`. -/
def KeyConfig.node (cfg : KeyConfig) (m i : ℕ) : ℕ := cfg.size * m + i

/-- `next_free` of the first pool. -/
def initNext (cfg : KeyConfig) (i : ℕ) : Option ℕ :=
  if i = cfg.size - 1 then none else some (cfg.node 0 (i + 1))

/-- `next_free` of a later pool, whose first node is not on the list; it uses `poolHEAD`. -/
def poolNext (cfg : KeyConfig) (poolHEAD i : ℕ) : Option ℕ :=
  if i = 0 ∨ i = cfg.size - 1 then none else some (cfg.node poolHEAD (i + 1))

/-- After `hashT_init`. -/
def hashTInit (ι C : Type*) [Zero C] (cfg : KeyConfig) : Table ι C where
  hashT _ := none
  mem n := .empty (if n < cfg.size then initNext cfg n else none)
  freeHEAD := some (cfg.node 0 0)
  poolLOCK := none
  poolHEAD := 0
  free := List.range cfg.size
  handed := []
  pushed _ := []
  answered := []

def Table.setNode (g : Table ι C) (n : ℕ) (d : Node C) : Table ι C :=
  { g with mem := Function.update g.mem n d }

/-- `hashT[b] = data`. -/
def Table.pushNode (g : Table ι C) (b n : ℕ) : Table ι C :=
  { g with
    hashT := Function.update g.hashT b (some n)
    pushed := Function.update g.pushed b (n :: g.pushed b) }

/-- The nodes that `get_mb_data` has returned. -/
def Table.nodes (g : Table ι C) : List ℕ := g.handed.map Prod.snd

/-! ### Threads -/

/-- The next step of a call. -/
inductive Stage where
  | loadBucket
  | walk (data : Option ℕ)
  | testTv (data : ℕ)
  | testUr (data : ℕ)
  | testAcc (data : ℕ)
  | loadNext (data : ℕ)
  | again
  | loadFree (data : ℕ)
  | popFree (data : ℕ) (next : Option ℕ)
  | lockPool
  | checkFree
  | giveUp
  | malloc
  | newPool (pool : ℕ)
  | clear (pool i : ℕ) (todo : List Field)
  | setHead (pool : ℕ)
  | unlockPool (pool : ℕ)
  | fill (data : ℕ) (todo : List Field)
  | loadHead (data : ℕ)
  | storeNext (data : ℕ) (head : Option ℕ)
  | push (data : ℕ)
  | done (data : ℕ) (hit : Bool)
  deriving DecidableEq

deriving instance DecidableEq for Key

/-- A call has the rounded arguments; `seen` says that a call for this key had returned before. -/
inductive Caller where
  | idle
  | get (k : Key) (seen : Bool) (s : Stage)
  deriving DecidableEq

/-- What a thread does next; `fail` is a `malloc` that returns NULL. -/
inductive TableAct where
  | call (tv ur acc : BitVec 64)
  | go
  | fail
  | ret

variable (cfg : KeyConfig) (optOf : BitVec 64 → BitVec 64 → BitVec 64 → C)

/-- One step of `hashT_get` in the thread `i`. -/
def Table.go [Zero C] (i : ι) (k : Key) (g : Table ι C) : Stage → Option (Table ι C × Stage)
  | .loadBucket => some (g, .walk (g.hashT k.idx.toNat))
  | .walk none => some (g, .again)
  | .walk (some data) => some (g, .testTv data)
  | .testTv data => some (g, if k.tv = (g.mem data).tValidation then .testUr data else .loadNext data)
  | .testUr data => some (g, if dblEq k.ur (g.mem data).uRate then .testAcc data else .loadNext data)
  | .testAcc data =>
    some (g, if dblEq k.acc (g.mem data).aRead then .done data true else .loadNext data)
  | .loadNext data => some (g, .walk (g.mem data).nextData)
  -- get_mb_data
  | .again => some (g, match g.freeHEAD with | none => .lockPool | some data => .loadFree data)
  | .loadFree data => some (g, .popFree data (g.mem data).nextFree)
  | .popFree data next =>
    if g.freeHEAD = some data then
      some ({ g with freeHEAD := next, free := g.free.tail, handed := (i, data) :: g.handed },
        .fill data keyFields)
    else some (g, .again)
  -- get_mb_data_pool
  | .lockPool =>
    if g.poolLOCK.isNone then some ({ g with poolLOCK := some i }, .checkFree) else some (g, .again)
  | .checkFree => some (g, if g.freeHEAD.isSome then .giveUp else .malloc)
  | .giveUp => some ({ g with poolLOCK := none }, .again)
  | .malloc => some (g, .newPool (g.poolHEAD + 1))
  | .newPool pool => some ({ g with poolHEAD := pool }, .clear pool 0 clearFields)
  | .clear pool j (f :: todo) =>
    let n := cfg.node pool j
    some (g.setNode n ((g.mem n).assign (.empty (poolNext cfg g.poolHEAD j)) f), .clear pool j todo)
  | .clear pool j [] =>
    some (g, if j + 1 < cfg.size then .clear pool (j + 1) clearFields else .setHead pool)
  | .setHead pool =>
    some ({ g with
      freeHEAD := some (cfg.node pool 1)
      free := List.range' (cfg.node pool 1) (cfg.size - 1) }, .unlockPool pool)
  | .unlockPool pool =>
    some ({ g with poolLOCK := none, handed := (i, cfg.node pool 0) :: g.handed },
      .fill (cfg.node pool 0) keyFields)
  -- the new node
  | .fill data (f :: todo) =>
    some (g.setNode data ((g.mem data).assign (.ofKey optOf k) f), .fill data todo)
  | .fill data [] => some (g, .loadHead data)
  | .loadHead data => some (g, .storeNext data (g.hashT k.idx.toNat))
  | .storeNext data head => some (g.setNode data { g.mem data with nextData := head }, .push data)
  | .push data =>
    let b := k.idx.toNat
    if g.hashT b = (g.mem data).nextData then some (g.pushNode b data, .done data false)
    else some (g, .loadHead data)
  | .done _ _ => none

/-- `approx` is `MB_APPROX_PRECISION`. -/
def tableStep [Zero C] (approx : Bool) (i : ι) : TableAct → Table ι C → Caller → Option (Table ι C × Caller)
  | .call tv ur acc, g, .idle =>
    match callKey approx cfg tv ur acc with
    | none => some (g, .idle)
    | some k => some (g, .get k (g.answered.any fun k' => decide (k.Same k')) .loadBucket)
  | .go, g, .get k seen s => (g.go cfg optOf i k s).map fun p => (p.1, .get k seen p.2)
  | .fail, g, .get k seen .malloc => some (g, .get k seen .giveUp)
  | .ret, g, .get k _ (.done _ _) => some ({ g with answered := k :: g.answered }, .idle)
  | _, _, _ => none

def tableSystem [Zero C] (approx : Bool) (ι : Type*) : System ι (Table ι C) Caller TableAct :=
  ⟨fun i a g x => tableStep cfg optOf approx i a g x⟩

/-- The calls have finite arguments. -/
def FiniteCalls (_ : Config ι (Table ι C) Caller) (_ : ι) : TableAct → Prop
  | .call _ ur acc => Finite ur ∧ Finite acc
  | _ => True

instance (c : Config ι (Table ι C) Caller) (i : ι) (a : TableAct) : Decidable (FiniteCalls c i a) := by
  cases a <;> unfold FiniteCalls <;> infer_instance

variable {g : Table ι C} {n : ℕ}

@[simp] theorem Table.setNode_nodes (d : Node C) : (g.setNode n d).nodes = g.nodes := rfl

theorem Table.setNode_self (d : Node C) : (g.setNode n d).mem n = d := Function.update_self ..

theorem Table.setNode_of_ne {m : ℕ} (d : Node C) (h : m ≠ n) : (g.setNode n d).mem m = g.mem m :=
  Function.update_of_ne h _ _

theorem Table.pushNode_hashT_self (b : ℕ) : (g.pushNode b n).hashT b = some n :=
  Function.update_self ..

theorem Table.pushNode_pushed_self (b : ℕ) : (g.pushNode b n).pushed b = n :: g.pushed b :=
  Function.update_self ..

theorem Table.pushNode_hashT_of_ne {b b' : ℕ} (h : b' ≠ b) : (g.pushNode b n).hashT b' = g.hashT b' :=
  Function.update_of_ne h _ _

theorem Table.pushNode_pushed_of_ne {b b' : ℕ} (h : b' ≠ b) :
    (g.pushNode b n).pushed b' = g.pushed b' := Function.update_of_ne h _ _

theorem KeyConfig.size_ge (cfg : KeyConfig) : 2 ≤ cfg.size := by
  have htv : 2 ^ 1 ≤ 2 ^ cfg.tvBits := Nat.pow_le_pow_right (by decide) cfg.tvBits_pos
  have hur : 1 ≤ 2 ^ cfg.urBits := Nat.one_le_two_pow
  have hacc : 1 ≤ 2 ^ cfg.accBits := Nat.one_le_two_pow
  unfold KeyConfig.size
  calc 2 = 2 * 1 * 1 := rfl
    _ ≤ 2 ^ cfg.tvBits * 2 ^ cfg.urBits * 2 ^ cfg.accBits := by gcongr; simpa using htv

end TinyStm.Mb
