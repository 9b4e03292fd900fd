import TinyStm.Rbtree.Search

/-!
# Successors

The walk through a tree in order: down to the first node of a subtree, or up to the first
ancestor that is reached from the left.
-/

namespace TinyStm.Rbtree

open Cells

variable {w : ℕ} {s : BitVec w} {C : Ctx w} {d : Side} {c : Color} {t l r u : Tree w} {i : Item w}

/-! ### In the tree -/

/-- The first node of the subtree in the hole, in its own hole. -/
def Tree.first : Tree w → Ctx w → Ctx w × Tree w
  | .nil, C => (C, .nil)
  | .node c .nil i r, C => (C, .node c .nil i r)
  | .node c (.node c' l j r') i r, C => first (.node c' l j r') (.step .l c C i r)

/-- The first ancestor that is reached from the left. -/
def Ctx.next : Ctx w → Tree w → Ctx w × Tree w
  | .top, _ => (.top, .nil)
  | .step .l c up i u, t => (up, .join .l c t i u)
  | .step .r c up i u, t => up.next (.join .r c t i u)

theorem plug_first (t : Tree w) (C : Ctx w) : (t.first C).1.plug (t.first C).2 = C.plug t := by
  fun_induction Tree.first t C with
  | case1 C => rfl
  | case2 c i r C => rfl
  | case3 c c' l j r' i r C ih => exact ih

/-- Before the first node there is nothing in the subtree. -/
theorem before_first (t : Tree w) (C : Ctx w) : (t.first C).1.before = C.before := by
  fun_induction Tree.first t C with
  | case1 C => rfl
  | case2 c i r C => rfl
  | case3 c c' l j r' i r C ih => exact ih

theorem first_eq (ht : t ≠ .nil) (C : Ctx w) : ∃ c i r, (t.first C).2 = .node c .nil i r := by
  fun_induction Tree.first t C with
  | case1 C => exact absurd rfl ht
  | case2 c i r C => exact ⟨c, i, r, rfl⟩
  | case3 c c' l j r' i r C ih => exact ih (by simp)

/-- Which node is the first does not depend on what is around. -/
theorem first_snd (t : Tree w) (C C' : Ctx w) : (t.first C).2 = (t.first C').2 := by
  fun_induction Tree.first t C generalizing C' with
  | case1 C => rfl
  | case2 c i r C => rfl
  | case3 c c' l j r' i r C ih => exact ih _

/-- In the order of the tree the first node comes first. -/
theorem first_rest {c₁ : Color} {j : Item w} {r₁ : Tree w}
    (h : (t.first C).2 = .node c₁ .nil j r₁) :
    (j.k, j.v) :: (r₁.toList ++ (t.first C).1.after) = t.toList ++ C.after := by
  have hlist := congrArg Tree.toList (plug_first t C)
  rw [toList_plug, toList_plug, h, before_first] at hlist
  simpa [Tree.toList] using List.append_cancel_left hlist

/-- After the last node there is nothing. -/
theorem next_cases (C : Ctx w) (t : Tree w) :
    ((C.next t).2 = .nil ∧ C.after = []) ∨
      ∃ c l i r, (C.next t).2 = .node c l i r ∧ (C.next t).1.plug (.node c l i r) = C.plug t ∧
        C.after = (i.k, i.v) :: (r.toList ++ (C.next t).1.after) := by
  induction C generalizing t with
  | top => exact .inl ⟨rfl, rfl⟩
  | step d c up i u ih =>
    cases d with
    | l => exact .inr ⟨c, t, i, u, rfl, rfl, rfl⟩
    | r => exact ih _

/-! ### In the heap -/

theorem descend_on {n : ℕ} (ht : t ≠ .nil) (hn : t.height ≤ n) :
    On s (C.plug t) (descend .l n t.ptr) (t.first C).2.ptr (C.plug t) := by
  fun_induction Tree.first t C generalizing n with
  | case1 C => exact absurd rfl ht
  | case2 c i r C =>
    obtain ⟨n, rfl⟩ : ∃ m, n = m + 1 := ⟨n - 1, by simp only [Tree.height] at hn; omega⟩
    refine .bind (On.ld_field C .l c .nil i r) ?_
    rw [if_neg (not_not.mpr (show Tree.nil.ptr = NULL from rfl))]
    exact Acts.pure _ _
  | case3 c c' l j r' i r C ih =>
    obtain ⟨n, rfl⟩ : ∃ m, n = m + 1 := ⟨n - 1, by simp only [Tree.height] at hn; omega⟩
    refine .bind (On.ld_field C .l c (.node c' l j r') i r) ?_
    refine On.ne_null (C := .step .l c C i r) (t := .node c' l j r') (by simp) fun hnull => ?_
    rw [if_pos hnull]
    exact ih (by simp) (by simp only [Tree.height] at hn ⊢; omega)

theorem climb_on {n : ℕ} (ht : t ≠ .nil) (hn : C.depth < n) :
    On s (C.plug t) (climb n t.ptr C.parent) (C.next t).2.ptr (C.plug t) := by
  induction C generalizing t n with
  | top =>
    obtain ⟨n, rfl⟩ : ∃ m, n = m + 1 := ⟨n - 1, by omega⟩
    rw [Ctx.parent, climb, if_pos rfl]
    exact Acts.pure _ _
  | step d c up i u ih =>
    obtain ⟨n, rfl⟩ : ∃ m, n = m + 1 := ⟨n - 1, by omega⟩
    simp only [Ctx.depth] at hn
    refine On.ne_null (C := up) (t := .join d c t i u) (by simp [Tree.join]) fun hnull => ?_
    rw [Ctx.parent, climb, if_neg (show i.n ≠ NULL from hnull)]
    cases d with
    | l =>
      refine .bind (On.ld_field up .r c u i t) (On.ptr_ne (d := .l) (u := u) ht fun hne => ?_)
      rw [if_neg hne]
      exact Acts.pure _ _
    | r =>
      refine .bind (On.ld_field up .r c t i u) ?_
      rw [if_pos rfl]
      exact .bind (On.ld_p up .r c t i u) (ih (t := .join .r c t i u) (by simp [Tree.join]) (by omega))

/-- The node after the one in the hole, in its own hole. -/
def Tree.next (C : Ctx w) : Tree w → Ctx w × Tree w
  | .nil => (C, .nil)
  | .node c l i .nil => C.next (.node c l i .nil)
  | .node c l i (.node c' l' j r') => (Tree.node c' l' j r').first (.step .r c C i l)

/-- The next node has the next entry. -/
theorem Tree.next_cases (C : Ctx w) (c : Color) (l r : Tree w) (i : Item w) :
    (((Tree.node c l i r).next C).2 = .nil ∧ r.toList ++ C.after = []) ∨
      ∃ c' l' j r', ((Tree.node c l i r).next C).2 = .node c' l' j r' ∧
        ((Tree.node c l i r).next C).1.plug (.node c' l' j r') = C.plug (.node c l i r) ∧
        r.toList ++ C.after = (j.k, j.v) :: (r'.toList ++ ((Tree.node c l i r).next C).1.after) := by
  cases r with
  | nil => exact Rbtree.next_cases C (.node c l i .nil)
  | node c' l' j r' =>
    obtain ⟨c₁, j₁, r₁, h⟩ := first_eq (t := .node c' l' j r') (by simp) (.step .r c C i l)
    refine .inr ⟨c₁, .nil, j₁, r₁, h, ?_, (first_rest h).symm⟩
    rw [← h]
    exact plug_first _ _

theorem successor_on {n : ℕ} (ht : t ≠ .nil) (hn : (C.plug t).height ≤ n) :
    On s (C.plug t) (successor n t.ptr) (t.next C).2.ptr (C.plug t) := by
  have hd := depth_le_height C t
  refine On.ne_null ht fun hnull => ?_
  rw [successor, if_neg hnull]
  cases t with
  | nil => exact absurd rfl ht
  | node c l i r =>
    refine .bind (On.ld_field C .r c r i l) ?_
    cases r with
    | nil =>
      rw [if_neg (not_not.mpr (show Tree.nil.ptr = NULL from rfl))]
      exact .bind (On.ld_p C .r c .nil i l) (climb_on (t := .node c l i .nil) (by simp)
        (by simp only [Tree.height] at hd; omega))
    | node c' l' j r' =>
      refine On.ne_null (C := .step .r c C i l) (t := .node c' l' j r') (by simp) fun hr => ?_
      rw [if_pos hr]
      exact .bind (On.ld_field C .r c (.node c' l' j r') i l)
        (descend_on (C := .step .r c C i l) (by simp) (by simp only [Tree.height] at hd ⊢; omega))

end TinyStm.Rbtree
