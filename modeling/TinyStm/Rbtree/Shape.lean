import TinyStm.Rbtree.Code

/-!
# Trees in the heap

A tree with the addresses of its nodes, a tree with a hole, and the part of the heap
that they own. The tree in a hole owns its part apart from the rest, so that a function
that works on a few nodes is described by what it does to the trees around them.
-/

namespace TinyStm.Rbtree

open Cells

variable {w : ℕ}

inductive Color where
  | red | black
  deriving DecidableEq

def Color.word : Color → BitVec w
  | .red => RED
  | .black => BLACK

/-- A node: its address, key and value. -/
structure Item (w : ℕ) where
  n : BitVec w
  k : BitVec w
  v : BitVec w

inductive Tree (w : ℕ) where
  | nil
  | node (c : Color) (l : Tree w) (i : Item w) (r : Tree w)

def Tree.ptr : Tree w → BitVec w
  | .nil => NULL
  | .node _ _ i _ => i.n

def Tree.color : Tree w → Color
  | .nil => .black
  | .node c _ _ _ => c

/-- The root gets the color `c`. -/
def Tree.paint (c : Color) : Tree w → Tree w
  | .nil => .nil
  | .node _ l i r => .node c l i r

/-- The entries in order. -/
def Tree.toList : Tree w → List (BitVec w × BitVec w)
  | .nil => []
  | .node _ l i r => l.toList ++ (i.k, i.v) :: r.toList

/-- `a` on the left if the side is left. -/
def Side.pick {α : Type} (d : Side) (a b : α) : α :=
  match d with
  | .l => a
  | .r => b

/-- A node with the subtree `t` on side `d` and `u` on the other side. -/
def Tree.join (d : Side) (c : Color) (t : Tree w) (i : Item w) (u : Tree w) : Tree w :=
  .node c (d.pick t u) i (d.pick u t)

@[simp] theorem Side.other_other (d : Side) : d.other.other = d := by cases d <;> rfl

theorem Tree.join_other (d : Side) (c : Color) (t : Tree w) (i : Item w) (u : Tree w) :
    Tree.join d.other c u i t = .join d c t i u := by cases d <;> rfl

@[simp] theorem Tree.ptr_join (d : Side) (c : Color) (t : Tree w) (i : Item w) (u : Tree w) :
    (Tree.join d c t i u).ptr = i.n := rfl

/-! ### Trees with a hole -/

/-- The way from the hole to the root: the hole is the subtree on side `d` of a node. -/
inductive Ctx (w : ℕ) where
  | top
  | step (d : Side) (c : Color) (up : Ctx w) (i : Item w) (u : Tree w)

def Ctx.plug : Ctx w → Tree w → Tree w
  | .top, t => t
  | .step d c up i u, t => up.plug (.join d c t i u)

def Ctx.parent : Ctx w → BitVec w
  | .top => NULL
  | .step _ _ _ i _ => i.n

def Ctx.up : Ctx w → Ctx w
  | .top => .top
  | .step _ _ up _ _ => up

def Ctx.depth : Ctx w → ℕ
  | .top => 0
  | .step _ _ up _ _ => up.depth + 1

/-- The hole of `D` filled with the tree around `D` put into `C`. -/
def Ctx.comp (C : Ctx w) : Ctx w → Ctx w
  | .top => C
  | .step d c up i u => .step d c (C.comp up) i u

theorem Ctx.plug_comp (C D : Ctx w) (t : Tree w) : (C.comp D).plug t = C.plug (D.plug t) := by
  induction D generalizing t with
  | top => rfl
  | step d c up i u ih => exact ih _

theorem toList_plug_congr (C : Ctx w) {t t' : Tree w} (h : t.toList = t'.toList) :
    (C.plug t).toList = (C.plug t').toList := by
  induction C generalizing t t' with
  | top => exact h
  | step d c up i u ih =>
    refine ih ?_
    cases d <;> simp [Tree.join, Side.pick, Tree.toList, h]

theorem toList_paint (c : Color) (t : Tree w) : (t.paint c).toList = t.toList := by
  cases t <;> rfl

theorem toList_join (d : Side) (c : Color) (t : Tree w) (i : Item w) (u : Tree w) :
    (Tree.join d c t i u).toList =
      d.pick t.toList u.toList ++ (i.k, i.v) :: d.pick u.toList t.toList := by
  cases d <;> rfl

/-- A rotation keeps the order, and so do other colors. -/
theorem toList_rotate (d : Side) (c₁ c₂ c₃ c₄ : Color) (t u e : Tree w) (i j : Item w) :
    (Tree.join d c₁ (.join d c₂ t i u) j e).toList =
      (Tree.join d c₃ t i (.join d c₄ u j e)).toList := by
  cases d <;> simp [Tree.join, Side.pick, Tree.toList]

/-! ### What trees own -/

/-- The contents of a node. -/
def obj (c k v p l r : BitVec w) : Field → Option (BitVec w)
  | .root => none
  | .k => some k
  | .v => some v
  | .p => some p
  | .l => some l
  | .r => some r
  | .c => some c

/-- The contents of `rbtree_t`. -/
def head (x : BitVec w) : Field → Option (BitVec w)
  | .root => some x
  | _ => none

/-- The node `i` with its links. -/
def Item.cell (i : Item w) (c : Color) (p l r : BitVec w) : Assn Field (BitVec w) :=
  Cells.cell i.n (obj c.word i.k i.v p l r)

/-- The nodes of a tree below `p`. -/
def Tree.own : Tree w → BitVec w → Assn Field (BitVec w)
  | .nil, _ => 1
  | .node c l i r, p => i.cell c p l.ptr r.ptr * (l.own i.n * r.own i.n)

/-- The nodes around a hole in which there is the node `x`. -/
def Ctx.own (s : BitVec w) : Ctx w → BitVec w → Assn Field (BitVec w)
  | .top, x => cell s (head x)
  | .step d c up i u, x =>
    i.cell c up.parent (d.pick x u.ptr) (d.pick u.ptr x) * (u.own i.n * up.own s i.n)

/-- The tree `t` with its `rbtree_t` at `s`. -/
def whole (s : BitVec w) (t : Tree w) : Assn Field (BitVec w) := Ctx.own s .top t.ptr * t.own NULL

theorem own_join (d : Side) (c : Color) (t : Tree w) (i : Item w) (u : Tree w) (p : BitVec w) :
    (Tree.join d c t i u).own p =
      i.cell c p (d.pick t.ptr u.ptr) (d.pick u.ptr t.ptr) * (t.own i.n * u.own i.n) := by
  cases d
  · rfl
  · rw [mul_comm (t.own i.n)]
    rfl

/-- The tree in a hole and what is around it. -/
theorem whole_plug (s : BitVec w) (C : Ctx w) (t : Tree w) :
    whole s (C.plug t) = C.own s t.ptr * t.own C.parent := by
  induction C generalizing t with
  | top => rfl
  | step d c up i u ih =>
    rw [Ctx.plug, ih, own_join, Tree.ptr_join, Ctx.own, Ctx.parent]
    ac_rfl

end TinyStm.Rbtree
