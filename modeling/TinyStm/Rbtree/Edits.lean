import TinyStm.Rbtree.Shape

/-!
# What the accessors and rotations do to a tree

`On s t c r t'` says that `c` returns `r` and makes `t'` of the tree `t`. The functions
with loops are composed of the steps here and do not look into the heap themselves.
-/

namespace TinyStm.Rbtree

open Cells

variable {w : ℕ} {s : BitVec w} {α : Type} {m : M w α} {r : α}

abbrev On (s : BitVec w) (t : Tree w) (m : M w α) (r : α) (t' : Tree w) : Prop :=
  Acts (whole s t) m r (whole s t')

/-! ### Fields of one node -/

section Item

variable {n x k v c₁ p₁ l₁ r₁ : BitVec w}

/-- A store is described by the contents it leaves. -/
theorem cell_st {X Y : Field → Option (BitVec w)} {f : Field} {y : BitVec w} (h : X f = some y)
    (hY : ∀ g, Function.update X f (some x) g = Y g) :
    Acts (cell n X) (st n f x) () (cell n Y) := by
  rw [← funext hY]
  exact Acts.st h

theorem obj_st_k : Acts (cell n (obj c₁ k v p₁ l₁ r₁)) (st n .k x) () (cell n (obj c₁ x v p₁ l₁ r₁)) :=
  cell_st rfl fun g => by cases g <;> rfl

theorem obj_st_v : Acts (cell n (obj c₁ k v p₁ l₁ r₁)) (st n .v x) () (cell n (obj c₁ k x p₁ l₁ r₁)) :=
  cell_st rfl fun g => by cases g <;> rfl

theorem obj_st_p : Acts (cell n (obj c₁ k v p₁ l₁ r₁)) (st n .p x) () (cell n (obj c₁ k v x l₁ r₁)) :=
  cell_st rfl fun g => by cases g <;> rfl

theorem obj_st_l : Acts (cell n (obj c₁ k v p₁ l₁ r₁)) (st n .l x) () (cell n (obj c₁ k v p₁ x r₁)) :=
  cell_st rfl fun g => by cases g <;> rfl

theorem obj_st_r : Acts (cell n (obj c₁ k v p₁ l₁ r₁)) (st n .r x) () (cell n (obj c₁ k v p₁ l₁ x)) :=
  cell_st rfl fun g => by cases g <;> rfl

theorem obj_st_c : Acts (cell n (obj c₁ k v p₁ l₁ r₁)) (st n .c x) () (cell n (obj x k v p₁ l₁ r₁)) :=
  cell_st rfl fun g => by cases g <;> rfl

variable (i : Item w) {c c' : Color} {p l r : BitVec w} {d : Side} {a b : BitVec w}

theorem Item.ld_p : Acts (i.cell c p l r) (ld i.n .p) p (i.cell c p l r) := Acts.ld rfl

theorem Item.ld_c : Acts (i.cell c p l r) (ld i.n .c) c.word (i.cell c p l r) := Acts.ld rfl

theorem Item.ld_k : Acts (i.cell c p l r) (ld i.n .k) i.k (i.cell c p l r) := Acts.ld rfl

theorem Item.ld_v : Acts (i.cell c p l r) (ld i.n .v) i.v (i.cell c p l r) := Acts.ld rfl

theorem Item.ld_field :
    Acts (i.cell c p (d.pick a b) (d.pick b a)) (ld i.n d.field) a
      (i.cell c p (d.pick a b) (d.pick b a)) := by
  cases d <;> exact Acts.ld rfl

theorem Item.ld_other :
    Acts (i.cell c p (d.pick a b) (d.pick b a)) (ld i.n d.other.field) b
      (i.cell c p (d.pick a b) (d.pick b a)) := by
  cases d <;> exact Acts.ld rfl

theorem Item.st_p : Acts (i.cell c p l r) (st i.n .p x) () (i.cell c x l r) := obj_st_p

theorem Item.st_c : Acts (i.cell c p l r) (st i.n .c c'.word) () (i.cell c' p l r) := obj_st_c

theorem Item.st_k : Acts (i.cell c p l r) (st i.n .k x) () (Item.cell { i with k := x } c p l r) :=
  obj_st_k

theorem Item.st_v : Acts (i.cell c p l r) (st i.n .v x) () (Item.cell { i with v := x } c p l r) :=
  obj_st_v

theorem Item.st_field :
    Acts (i.cell c p (d.pick a b) (d.pick b a)) (st i.n d.field x) ()
      (i.cell c p (d.pick x b) (d.pick b x)) := by
  cases d
  · exact obj_st_l
  · exact obj_st_r

theorem Item.st_other :
    Acts (i.cell c p (d.pick a b) (d.pick b a)) (st i.n d.other.field x) ()
      (i.cell c p (d.pick a x) (d.pick x a)) := by
  cases d
  · exact obj_st_r
  · exact obj_st_l

end Item

theorem head_ld (s x : BitVec w) : Acts (cell s (head x)) (ld s .root) x (cell s (head x)) :=
  Acts.ld rfl

theorem head_st (s x y : BitVec w) : Acts (cell s (head x)) (st s .root y) () (cell s (head y)) :=
  cell_st rfl fun g => by cases g <;> rfl

/-! ### Addresses are different -/

theorem own_ne {o : BitVec w} {x : Field → Option (BitVec w)} {t : Tree w} {p : BitVec w}
    {R : Assn Field (BitVec w)} {H : Heap Field (BitVec w)}
    (h : (cell o x * (t.own p * R)) H) : t.ptr ≠ o := by
  cases t with
  | nil => exact fun h0 => cell_mul.ne_zero h h0.symm
  | node c l i r =>
    rw [Tree.own, Item.cell, mul_assoc] at h
    exact (cell_mul.ne h).symm

theorem own_ne_zero {t : Tree w} {p : BitVec w} {R : Assn Field (BitVec w)}
    {H : Heap Field (BitVec w)} (ht : t ≠ .nil) (h : (t.own p * R) H) : t.ptr ≠ NULL := by
  cases t with
  | nil => exact absurd rfl ht
  | node c l i r =>
    rw [Tree.own, Item.cell, mul_assoc] at h
    exact cell_mul.ne_zero h

/-! ### Reading -/

/-- What the node in the hole allows, where its entry may change. -/
theorem On.refocus {C : Ctx w} {d : Side} {c c' : Color} {t : Tree w} {i i' : Item w} {u : Tree w}
    (hn : i'.n = i.n)
    (h : i.n ≠ 0 → Acts (i.cell c C.parent (d.pick t.ptr u.ptr) (d.pick u.ptr t.ptr)) m r
      (i'.cell c' C.parent (d.pick t.ptr u.ptr) (d.pick u.ptr t.ptr))) :
    On s (C.plug (.join d c t i u)) m r (C.plug (.join d c' t i' u)) := by
  have hw : ∀ c (i : Item w), whole s (C.plug (.join d c t i u)) =
      i.cell c C.parent (d.pick t.ptr u.ptr) (d.pick u.ptr t.ptr) *
        (C.own s i.n * (t.own i.n * u.own i.n)) := by
    intro c i
    rw [whole_plug, own_join, Tree.ptr_join]
    ac_rfl
  rw [On, hw, hw, hn]
  exact Acts.ne_zero fun hi => (h hi).frame _

theorem On.focus {C : Ctx w} {d : Side} {c c' : Color} {t : Tree w} {i : Item w} {u : Tree w}
    (h : i.n ≠ 0 → Acts (i.cell c C.parent (d.pick t.ptr u.ptr) (d.pick u.ptr t.ptr)) m r
      (i.cell c' C.parent (d.pick t.ptr u.ptr) (d.pick u.ptr t.ptr))) :
    On s (C.plug (.join d c t i u)) m r (C.plug (.join d c' t i u)) := .refocus rfl h

theorem On.root (t : Tree w) : On s t (ld s .root) t.ptr t := (head_ld s t.ptr).frame _

section Focus

variable (C : Ctx w) (d : Side) (c : Color) (t : Tree w) (i : Item w) (u : Tree w)

theorem On.ld_p :
    On s (C.plug (.join d c t i u)) (ld i.n .p) C.parent (C.plug (.join d c t i u)) :=
  .focus fun _ => i.ld_p

theorem On.ld_c :
    On s (C.plug (.join d c t i u)) (ld i.n .c) c.word (C.plug (.join d c t i u)) :=
  .focus fun _ => i.ld_c

theorem On.ld_k :
    On s (C.plug (.join d c t i u)) (ld i.n .k) i.k (C.plug (.join d c t i u)) :=
  .focus fun _ => i.ld_k

theorem On.ld_v :
    On s (C.plug (.join d c t i u)) (ld i.n .v) i.v (C.plug (.join d c t i u)) :=
  .focus fun _ => i.ld_v

theorem On.ld_field :
    On s (C.plug (.join d c t i u)) (ld i.n d.field) t.ptr (C.plug (.join d c t i u)) :=
  .focus fun _ => i.ld_field

theorem On.childOf :
    On s (C.plug (.join d c t i u)) (childOf d i.n) t.ptr (C.plug (.join d c t i u)) :=
  .focus fun hi => by
    rw [Rbtree.childOf, if_pos hi]
    exact i.ld_field

theorem On.childOf_other :
    On s (C.plug (.join d c t i u)) (Rbtree.childOf d.other i.n) u.ptr
      (C.plug (.join d c t i u)) := by
  rw [← Tree.join_other]
  exact On.childOf C d.other c u i t

theorem On.leftOf :
    On s (C.plug (.join d c t i u)) (leftOf i.n) (d.pick t.ptr u.ptr) (C.plug (.join d c t i u)) := by
  cases d
  · exact On.childOf C .l c t i u
  · exact On.childOf_other C .r c t i u

end Focus

theorem On.parentOf (C : Ctx w) {t : Tree w} (ht : t ≠ .nil) :
    On s (C.plug t) (parentOf t.ptr) C.parent (C.plug t) := by
  cases t with
  | nil => exact absurd rfl ht
  | node c l i r =>
    refine On.focus (d := .l) fun hi => ?_
    rw [Tree.ptr, Rbtree.parentOf, if_pos hi]
    exact i.ld_p

/-- The parent of the parent of the hole. -/
theorem On.parentOf_parent (C : Ctx w) (t : Tree w) :
    On s (C.plug t) (Rbtree.parentOf C.parent) C.up.parent (C.plug t) := by
  cases C with
  | top =>
    rw [Ctx.parent, Rbtree.parentOf, if_neg (by simp)]
    exact Acts.pure _ _
  | step d c up i u => exact On.parentOf up (t := .join d c t i u) (by simp [Tree.join])

theorem On.colorOf (C : Ctx w) (t : Tree w) :
    On s (C.plug t) (colorOf t.ptr) t.color.word (C.plug t) := by
  cases t with
  | nil =>
    rw [Tree.ptr, Rbtree.colorOf, if_neg (by simp)]
    exact Acts.pure _ _
  | node c l i r =>
    refine On.focus (d := .l) fun hi => ?_
    rw [Tree.ptr, Rbtree.colorOf, if_pos hi]
    exact i.ld_c

/-! ### Writing -/

theorem On.setColor (C : Ctx w) (t : Tree w) (c : Color) :
    On s (C.plug t) (setColor t.ptr c.word) () (C.plug (t.paint c)) := by
  cases t with
  | nil =>
    rw [Tree.ptr, Rbtree.setColor, if_neg (by simp)]
    exact Acts.pure _ _
  | node c₀ l i r =>
    refine On.focus (d := .l) fun hi => ?_
    rw [Tree.ptr, Rbtree.setColor, if_pos hi]
    exact i.st_c

theorem relink_acts (d : Side) (C : Ctx w) (x y : BitVec w) (X : Field → Option (BitVec w)) :
    Acts (cell x X * C.own s x) (relink d s C.parent x y) () (cell x X * C.own s y) := by
  cases C with
  | top =>
    rw [Ctx.parent, relink, if_pos rfl]
    exact (head_st s x y).skip _
  | step e c up i u =>
    refine Acts.of_fact (φ := i.n ≠ 0 ∧ u.ptr ≠ x) (fun R H hP => ⟨?_, ?_⟩) fun hne => ?_
    · rw [Ctx.own, Item.cell, mul_assoc, mul_left_comm, mul_assoc] at hP
      exact cell_mul.ne_zero hP
    · rw [Ctx.own, mul_left_comm (i.cell _ _ _ _), mul_assoc, mul_assoc] at hP
      exact own_ne hP
    rw [Ctx.parent, relink, if_neg hne.1]
    refine .skip ?_ _
    by_cases he : d = e
    · subst he
      refine .bind (i.ld_field.frame _) ?_
      rw [if_pos rfl]
      exact i.st_field.frame _
    · obtain rfl : d = e.other := by cases d <;> cases e <;> simp_all [Side.other]
      refine .bind (i.ld_other.frame _) ?_
      rw [if_neg hne.2, Side.other_other]
      exact i.st_field.frame _

theorem setParent_acts (t : Tree w) (p q : BitVec w) :
    Acts (t.own p) (onlyIf (t.ptr ≠ NULL) (st t.ptr .p q)) () (t.own q) := by
  cases t with
  | nil =>
    rw [Tree.ptr, onlyIf, if_neg (by simp)]
    exact Acts.pure _ _
  | node c l i r =>
    refine Acts.ne_zero fun hi => ?_
    rw [Tree.ptr, onlyIf, if_pos hi]
    exact i.st_p.frame _

theorem On.rotate (C : Ctx w) (d : Side) (cx cr : Color) (t : Tree w) (i : Item w) (u : Tree w)
    (j : Item w) (e : Tree w) :
    On s (C.plug (.join d cx t i (.join d cr u j e))) (rotate d s i.n) ()
      (C.plug (.join d cr (.join d cx t i u) j e)) := by
  -- the two nodes, the subtree that changes its parent, and the link from above
  have hbefore : whole s (C.plug (.join d cx t i (.join d cr u j e))) =
      j.cell cr i.n (d.pick u.ptr e.ptr) (d.pick e.ptr u.ptr) * (u.own j.n *
        ((i.cell cx C.parent (d.pick t.ptr j.n) (d.pick j.n t.ptr) * C.own s i.n) *
          (t.own i.n * e.own j.n))) := by
    rw [whole_plug, own_join, own_join, Tree.ptr_join, Tree.ptr_join]
    ac_rfl
  have hafter : whole s (C.plug (.join d cr (.join d cx t i u) j e)) =
      j.cell cr C.parent (d.pick i.n e.ptr) (d.pick e.ptr i.n) * (u.own i.n *
        ((i.cell cx j.n (d.pick t.ptr u.ptr) (d.pick u.ptr t.ptr) * C.own s j.n) *
          (t.own i.n * e.own j.n))) := by
    rw [whole_plug, own_join, own_join, Tree.ptr_join, Tree.ptr_join]
    ac_rfl
  rw [On, hbefore, hafter, Rbtree.rotate]
  refine .bind ((((i.ld_other.frame _).frame _).skip _).skip _) ?_
  refine .bind (j.ld_field.frame _) ?_
  refine .bind ((((i.st_other.frame _).frame _).skip _).skip _) ?_
  refine .bind (((setParent_acts u _ _).frame _).skip _) ?_
  refine .bind ((((i.ld_p.frame _).frame _).skip _).skip _) ?_
  refine .bind (j.st_p.frame _) ?_
  refine .bind ((((relink_acts d C i.n j.n _).frame _).skip _).skip _) ?_
  refine .bind (j.st_field.frame _) ?_
  exact (((i.st_p.frame _).frame _).skip _).skip _

/-! ### Facts -/

theorem On.pos {t t' : Tree w} (h : 0 < w → On s t m r t') : On s t m r t' := by
  refine Acts.of_fact (fun R H hP => ?_) h
  rw [whole, Ctx.own, mul_assoc] at hP
  have hs := cell_mul.ne_zero hP
  rcases Nat.eq_zero_or_pos w with rfl | hw
  · exact absurd (BitVec.eq_nil s) hs
  · exact hw

theorem word_eq_red (hw : 0 < w) {c : Color} : c.word = (RED : BitVec w) ↔ c = .red := by
  cases c <;> simp [Color.word, Nat.ne_of_gt hw]

theorem word_eq_black (hw : 0 < w) {c : Color} : c.word = (BLACK : BitVec w) ↔ c = .black := by
  cases c <;> simp [Color.word, Nat.ne_of_gt hw]

theorem whole_ne_null {C : Ctx w} {t : Tree w} (ht : t ≠ .nil) {R : Assn Field (BitVec w)}
    {H : Heap Field (BitVec w)} (h : (whole s (C.plug t) * R) H) : t.ptr ≠ NULL := by
  rw [whole_plug, mul_comm (C.own s t.ptr), mul_assoc] at h
  exact own_ne_zero ht h

theorem On.ne_null {C : Ctx w} {t : Tree w} {Q : Assn Field (BitVec w)} (ht : t ≠ .nil)
    (h : t.ptr ≠ NULL → Acts (whole s (C.plug t)) m r Q) : Acts (whole s (C.plug t)) m r Q :=
  Acts.of_fact (fun _ _ => whole_ne_null ht) h

theorem black_ne_red (hw : 0 < w) : (Color.black.word : BitVec w) ≠ RED :=
  fun h => Color.noConfusion ((word_eq_red hw).mp h)

theorem red_ne_black (hw : 0 < w) : (Color.red.word : BitVec w) ≠ BLACK :=
  fun h => Color.noConfusion ((word_eq_black hw).mp h)

/-- The two subtrees of a node have different addresses. -/
theorem On.ptr_ne {C : Ctx w} {d : Side} {c : Color} {t : Tree w} {i : Item w} {u : Tree w}
    {t' : Tree w} (ht : t ≠ .nil) (h : t.ptr ≠ u.ptr → On s (C.plug (.join d c t i u)) m r t') :
    On s (C.plug (.join d c t i u)) m r t' := by
  refine Acts.of_fact (fun R H hP => ?_) h
  cases t with
  | nil => exact absurd rfl ht
  | node c₁ l j r₁ =>
    have heq : whole s (C.plug (.join d c (.node c₁ l j r₁) i u)) * R =
        j.cell c₁ i.n l.ptr r₁.ptr * (u.own i.n * (C.own s i.n *
          i.cell c C.parent (d.pick j.n u.ptr) (d.pick u.ptr j.n) *
            (l.own j.n * r₁.own j.n) * R)) := by
      rw [whole_plug, own_join, Tree.own]
      simp only [Tree.ptr]
      ac_rfl
    rw [heq] at hP
    exact (own_ne hP).symm

/-- The way up from a hole ends in the root. -/
theorem own_root (s : BitVec w) (C : Ctx w) (hC : C ≠ .top) (t : Tree w) (x : BitVec w) :
    ∃ X A, C.own s x = cell (C.plug t).ptr X * A := by
  induction C generalizing t x with
  | top => exact absurd rfl hC
  | step d c up i u ih =>
    by_cases hup : up = .top
    · subst hup
      exact ⟨_, _, rfl⟩
    · obtain ⟨X, A, hA⟩ := ih hup (.join d c t i u) i.n
      refine ⟨X, i.cell c up.parent (d.pick x u.ptr) (d.pick u.ptr x) * (u.own i.n * A), ?_⟩
      rw [Ctx.own, hA, Ctx.plug]
      ac_rfl

/-- Below the root no node is the root. -/
theorem On.root_ne {C : Ctx w} (hC : C ≠ .top) {t t' : Tree w}
    (h : t.ptr ≠ (C.plug t).ptr → On s (C.plug t) m r t') : On s (C.plug t) m r t' := by
  refine Acts.of_fact (fun R H hP => ?_) h
  obtain ⟨X, A, hA⟩ := own_root s C hC t t.ptr
  rw [whole_plug, hA, show cell (C.plug t).ptr X * A * t.own C.parent * R =
    cell (C.plug t).ptr X * (t.own C.parent * (A * R)) by ac_rfl] at hP
  exact own_ne hP

end TinyStm.Rbtree
