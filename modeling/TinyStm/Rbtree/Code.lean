import Mathlib.Data.BitVec
import TinyStm.Lib.Cells

/-!
# The red-black tree

The map of the TPC-C server (`TPCC/lib/rbtree.c`, the same file as
`tinySTM/test/intset/rbtree.c`). Every operation is there twice, with plain and with
transactional accesses to the fields (`LDF`, `STF` and `TX_LDF`, `TX_STF`); the code is
the same, and so is its definition here. What differs from left to right in the source
only by its fields has the side as a parameter. A loop is given fuel and gets stuck
without; `compare` is the function of the tree.
-/

namespace TinyStm.Rbtree

open Cells

/-- The fields of `node_t`, and the one of `rbtree_t`. -/
inductive Field where
  | root | k | v | p | l | r | c
  deriving DecidableEq

variable {w : ℕ}

abbrev M (w : ℕ) := Cmd Field (BitVec w)

abbrev NULL : BitVec w := 0
abbrev RED : BitVec w := 0
abbrev BLACK : BitVec w := 1

abbrev ld (o : BitVec w) (f : Field) : M w (BitVec w) := Cmd.ld o f
abbrev st (o : BitVec w) (f : Field) (v : BitVec w) : M w Unit := Cmd.st o f v

inductive Side where
  | l | r
  deriving DecidableEq

def Side.other : Side → Side
  | .l => .r
  | .r => .l

def Side.field : Side → Field
  | .l => .l
  | .r => .r

/-- `if` without an `else`. -/
def onlyIf (p : Prop) [Decidable p] (c : M w Unit) : M w Unit := if p then c else pure ()

/-! ### Look-up -/

/-- The loop of `lookup` (`rbtree.c:214-221`). -/
def lookupLoop (compare : BitVec w → BitVec w → ℤ) (k : BitVec w) :
    ℕ → BitVec w → M w (BitVec w)
  | 0, _ => .fail
  | n + 1, p =>
    if p = NULL then pure NULL
    else do
      let pk ← ld p .k
      if compare k pk = 0 then pure p
      else do
        let q ← ld p (if compare k pk < 0 then .l else .r)
        lookupLoop compare k n q

def lookup (compare : BitVec w → BitVec w → ℤ) (fuel : ℕ) (s k : BitVec w) :
    M w (BitVec w) := do
  let p ← ld s .root
  lookupLoop compare k fuel p

/-! ### Rotations -/

/-- `y` takes the place of `x` below `xp`, whose child on side `d` is looked at first. -/
def relink (d : Side) (s xp x y : BitVec w) : M w Unit :=
  if xp = NULL then st s .root y
  else do
    let xl ← ld xp d.field
    if xl = x then st xp d.field y else st xp d.other.field y

/-- The child of `x` on the other side comes up. -/
def rotate (d : Side) (s x : BitVec w) : M w Unit := do
  let r ← ld x d.other.field
  let rl ← ld r d.field
  st x d.other.field rl
  onlyIf (rl ≠ NULL) (st rl .p x)
  let xp ← ld x .p
  st r .p xp
  relink d s xp x r
  st r d.field x
  st x .p r

/-- `rotateLeft` (`rbtree.c:267-288`). -/
def rotateLeft (s x : BitVec w) : M w Unit := rotate .l s x

/-- `rotateRight` (`rbtree.c:325-345`). -/
def rotateRight (s x : BitVec w) : M w Unit := rotate .r s x

/-! ### Accessors that deal with null -/

def parentOf (n : BitVec w) : M w (BitVec w) := if n ≠ NULL then ld n .p else pure NULL

def childOf (d : Side) (n : BitVec w) : M w (BitVec w) :=
  if n ≠ NULL then ld n d.field else pure NULL

def leftOf (n : BitVec w) : M w (BitVec w) := childOf .l n

def rightOf (n : BitVec w) : M w (BitVec w) := childOf .r n

def colorOf (n : BitVec w) : M w (BitVec w) := if n ≠ NULL then ld n .c else pure BLACK

def setColor (n c : BitVec w) : M w Unit := if n ≠ NULL then st n .c c else pure ()

/-! ### Insertion -/

/-- The parent of `x` comes up over its own parent (`rbtree.c:526-530`). -/
def fixInsertionUp (d : Side) (s x : BitVec w) : M w Unit := do
  setColor (← parentOf x) BLACK
  setColor (← parentOf (← parentOf x)) RED
  let g ← parentOf (← parentOf x)
  onlyIf (g ≠ NULL) do
    let g ← parentOf (← parentOf x)
    rotate d.other s g

/-- The body of the loop of `fixAfterInsertion` where the parent of `x` is the child on
side `d` of its own parent; it returns the next `x`. -/
def fixInsertionSide (d : Side) (s x : BitVec w) : M w (BitVec w) := do
  let y ← childOf d.other (← parentOf (← parentOf x))
  let cy ← colorOf y
  if cy = RED then do
    setColor (← parentOf x) BLACK
    setColor y BLACK
    setColor (← parentOf (← parentOf x)) RED
    parentOf (← parentOf x)
  else do
    let xr ← childOf d.other (← parentOf x)
    let x ← (if x = xr then do
        let x ← parentOf x
        rotate d s x
        pure x
      else pure x)
    fixInsertionUp d s x
    pure x

/-- The loop of `fixAfterInsertion` (`rbtree.c:509-553`). -/
def fixInsertionLoop (s : BitVec w) : ℕ → BitVec w → M w Unit
  | 0, _ => .fail
  | n + 1, x =>
    if x = NULL then pure ()
    else do
      let ro ← ld s .root
      if x = ro then pure ()
      else do
        let xp ← ld x .p
        let c ← ld xp .c
        if c ≠ RED then pure ()
        else do
          let px ← parentOf x
          let lg ← leftOf (← parentOf (← parentOf x))
          let y ← fixInsertionSide (if px = lg then .l else .r) s x
          fixInsertionLoop s n y

/-- `fixAfterInsertion` (`rbtree.c:505-557`). -/
def fixAfterInsertion (fuel : ℕ) (s x : BitVec w) : M w Unit := do
  st x .c RED
  fixInsertionLoop s fuel x
  let ro ← ld s .root
  let c ← ld ro .c
  onlyIf (c ≠ BLACK) (st ro .c BLACK)

/-- The new node `n` becomes the child of `t` on side `d` (`rbtree.c:651-658`). -/
def insertLeaf (d : Side) (fuel : ℕ) (s k v n t : BitVec w) : M w (BitVec w) := do
  st n .l NULL
  st n .r NULL
  st n .k k
  st n .v v
  st n .p t
  st t d.field n
  fixAfterInsertion fuel s n
  pure NULL

/-- The loop of `insert` (`rbtree.c:644-676`). -/
def insertLoop (compare : BitVec w → BitVec w → ℤ) (fuel : ℕ) (s k v n : BitVec w) :
    ℕ → BitVec w → M w (BitVec w)
  | 0, _ => .fail
  | m + 1, t => do
    let tk ← ld t .k
    if compare k tk = 0 then pure t
    else do
      let d := if compare k tk < 0 then Side.l else .r
      let c ← ld t d.field
      if c ≠ NULL then insertLoop compare fuel s k v n m c
      else insertLeaf d fuel s k v n t

/-- `insert` (`rbtree.c:625-678`): the node that has the key already, or null. -/
def insert (compare : BitVec w → BitVec w → ℤ) (fuel : ℕ) (s k v n : BitVec w) :
    M w (BitVec w) := do
  let t ← ld s .root
  if t = NULL then
    if n = NULL then pure NULL
    else do
      st n .l NULL
      st n .r NULL
      st n .p NULL
      st n .k k
      st n .v v
      st n .c BLACK
      st s .root n
      pure NULL
  else insertLoop compare fuel s k v n fuel t

/-! ### Successors -/

/-- The inner loop on one side (`rbtree.c:762-764`). -/
def descend (d : Side) : ℕ → BitVec w → M w (BitVec w)
  | 0, _ => .fail
  | n + 1, p => do
    let q ← ld p d.field
    if q ≠ NULL then descend d n q else pure p

/-- The loop up from a right child (`rbtree.c:767-773`). -/
def climb : ℕ → BitVec w → BitVec w → M w (BitVec w)
  | 0, _, _ => .fail
  | n + 1, ch, p =>
    if p = NULL then pure p
    else do
      let r ← ld p .r
      if ch = r then do
        let q ← ld p .p
        climb n p q
      else pure p

/-- `successor` (`rbtree.c:755-775`). -/
def successor (fuel : ℕ) (t : BitVec w) : M w (BitVec w) :=
  if t = NULL then pure NULL
  else do
    let r ← ld t .r
    if r ≠ NULL then do
      let p ← ld t .r
      descend .l fuel p
    else do
      let p ← ld t .p
      climb fuel t p

/-! ### Deletion -/

/-- The end of the body of the loop of `fixAfterDeletion`, with the sibling `sib`: the
next `x` is the root. -/
def fixDeletionEnd (d : Side) (s x sib : BitVec w) : M w (BitVec w) := do
  setColor sib (← colorOf (← parentOf x))
  setColor (← parentOf x) BLACK
  setColor (← childOf d.other sib) BLACK
  rotate d s (← parentOf x)
  ld s .root

/-- Both children of `sib` are black; the first is the one on side `d`. -/
def nephewsBlack (d : Side) (sib : BitVec w) : M w Bool := do
  let near ← colorOf (← childOf d sib)
  if near = BLACK then do
    let far ← colorOf (← childOf d.other sib)
    pure (decide (far = BLACK))
  else pure false

/-- The second half of the body of the loop of `fixAfterDeletion`, with the sibling
`sib`; it returns the next `x`. -/
def fixDeletionBlack (d : Side) (s x sib : BitVec w) : M w (BitVec w) := do
  let both ← nephewsBlack d sib
  if both = true then do
    setColor sib RED
    parentOf x
  else do
    let far ← colorOf (← childOf d.other sib)
    let sib ← (if far = BLACK then do
        setColor (← childOf d sib) BLACK
        setColor sib RED
        rotate d.other s sib
        childOf d.other (← parentOf x)
      else pure sib)
    fixDeletionEnd d s x sib

/-- The body of the loop of `fixAfterDeletion` where `x` is the child on side `d` of its
parent. -/
def fixDeletionSide (d : Side) (s x : BitVec w) : M w (BitVec w) := do
  let sib ← childOf d.other (← parentOf x)
  let cs ← colorOf sib
  let sib ← (if cs = RED then do
      setColor sib BLACK
      setColor (← parentOf x) RED
      rotate d s (← parentOf x)
      childOf d.other (← parentOf x)
    else pure sib)
  fixDeletionBlack d s x sib

/-- The loop of `fixAfterDeletion` (`rbtree.c:814-870`). -/
def fixDeletionLoop (s : BitVec w) : ℕ → BitVec w → M w (BitVec w)
  | 0, _ => .fail
  | n + 1, x => do
    let ro ← ld s .root
    if x = ro then pure x
    else do
      let c ← colorOf x
      if c ≠ BLACK then pure x
      else do
        let lp ← leftOf (← parentOf x)
        let y ← fixDeletionSide (if x = lp then .l else .r) s x
        fixDeletionLoop s n y

/-- `fixAfterDeletion` (`rbtree.c:811-873`). -/
def fixAfterDeletion (fuel : ℕ) (s x : BitVec w) : M w Unit := do
  let x ← fixDeletionLoop s fuel x
  onlyIf (x ≠ NULL) do
    let c ← ld x .c
    onlyIf (c ≠ BLACK) (st x .c BLACK)

/-- The node that is really taken out: `p`, or its successor after its entry has moved
(`rbtree.c:959-964`). -/
def deleteTarget (fuel : ℕ) (p : BitVec w) : M w (BitVec w) := do
  let l ← ld p .l
  let two ← (if l ≠ NULL then do
      let r ← ld p .r
      pure (decide (r ≠ NULL))
    else pure false)
  if two = true then do
    let s ← successor fuel p
    st p .k (← ld s .k)
    st p .v (← ld s .v)
    pure s
  else pure p

/-- The leaf `p` is taken from `pp` (`rbtree.c:1000-1004`). -/
def unlink (pp p : BitVec w) : M w Unit := do
  let l ← ld pp .l
  if p = l then st pp .l NULL
  else do
    let r ← ld pp .r
    onlyIf (p = r) (st pp .r NULL)

/-- The node `p` without children is taken out (`rbtree.c:999-1007`). -/
def detach (p : BitVec w) : M w (BitVec w) := do
  let pp ← ld p .p
  onlyIf (pp ≠ NULL) do
    unlink pp p
    st p .p NULL
  pure p

/-- The only child of `p` takes its place (`rbtree.c:972-993`). -/
def replaceBy (fuel : ℕ) (s p replacement : BitVec w) : M w (BitVec w) := do
  st replacement .p (← ld p .p)
  let pp ← ld p .p
  relink .l s pp p replacement
  st p .l NULL
  st p .r NULL
  st p .p NULL
  let c ← ld p .c
  onlyIf (c = BLACK) (fixAfterDeletion fuel s replacement)
  pure p

/-- `p`, which has at most one child, is taken out (`rbtree.c:966-1008`). -/
def removeNode (fuel : ℕ) (s p : BitVec w) : M w (BitVec w) := do
  let l ← ld p .l
  let replacement ← (if l ≠ NULL then ld p .l else ld p .r)
  if replacement ≠ NULL then replaceBy fuel s p replacement
  else do
    let pp ← ld p .p
    if pp = NULL then do
      st s .root NULL
      pure p
    else do
      let c ← ld p .c
      onlyIf (c = BLACK) (fixAfterDeletion fuel s p)
      detach p

/-- `delete_node` (`rbtree.c:952-1009`): the node that is no longer in the tree. -/
def deleteNode (fuel : ℕ) (s p : BitVec w) : M w (BitVec w) := do
  removeNode fuel s (← deleteTarget fuel p)

/-! ### The interface -/

/-- `rbtree_insert` (`rbtree.c:1407-1416`) with the node that `malloc` has returned. -/
def rbtreeInsert (compare : BitVec w → BitVec w → ℤ) (fuel : ℕ) (r key val node : BitVec w) :
    M w Bool := do
  let ex ← insert compare fuel r key val node
  onlyIf (ex ≠ NULL) (Cmd.release node)
  pure (decide (ex = NULL))

/-- `rbtree_delete` (`rbtree.c:1441-1453`). -/
def rbtreeDelete (compare : BitVec w → BitVec w → ℤ) (fuel : ℕ) (r key : BitVec w) :
    M w Bool := do
  let node ← lookup compare fuel r key
  let node ← (if node ≠ NULL then deleteNode fuel r node else pure node)
  onlyIf (node ≠ NULL) (Cmd.release node)
  pure (decide (node ≠ NULL))

/-- `rbtree_update` (`rbtree.c:1481-1492`) with the node that `malloc` has returned. -/
def rbtreeUpdate (compare : BitVec w → BitVec w → ℤ) (fuel : ℕ) (r key val nn : BitVec w) :
    M w Bool := do
  let ex ← insert compare fuel r key val nn
  if ex ≠ NULL then do
    st ex .v val
    Cmd.release nn
    pure true
  else pure false

/-- `rbtree_get` (`rbtree.c:1518-1526`). -/
def rbtreeGet (compare : BitVec w → BitVec w → ℤ) (fuel : ℕ) (r key : BitVec w) :
    M w (BitVec w) := do
  let n ← lookup compare fuel r key
  if n ≠ NULL then ld n .v else pure NULL

/-- `rbtree_contains` (`rbtree.c:1548-1553`). -/
def rbtreeContains (compare : BitVec w → BitVec w → ℤ) (fuel : ℕ) (r key : BitVec w) :
    M w Bool := do
  let n ← lookup compare fuel r key
  pure (decide (n ≠ NULL))

/-- `compareKeysDefault` (`rbtree.c:1261-1265`). -/
def compareKeysDefault (a b : BitVec w) : ℤ := (a - b).toInt

/-- `rbtree_alloc` (`rbtree.c:1272-1281`) with the record that `malloc` has returned. -/
def rbtreeAlloc (n : BitVec w) : M w (BitVec w) := do
  onlyIf (n ≠ NULL) (st n .root NULL)
  pure n

/-- `freeNode` (`rbtree.c:1328-1336`). -/
def freeNode : ℕ → BitVec w → M w Unit
  | 0, _ => .fail
  | m + 1, n => onlyIf (n ≠ NULL) do
      freeNode m (← ld n .l)
      freeNode m (← ld n .r)
      Cmd.release n

/-- `rbtree_free` (`rbtree.c:1358-1363`). -/
def rbtreeFree (fuel : ℕ) (r : BitVec w) : M w Unit := do
  freeNode fuel (← ld r .root)
  Cmd.release r

end TinyStm.Rbtree
