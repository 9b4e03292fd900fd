import TinyStm.Rbtree.Balance
import TinyStm.Rbtree.Search

/-!
# Insertion

The loop of `fixAfterInsertion` from a red node in a hole where a black tree would fit:
it goes on two levels above, or one or two rotations end it. The loop of `insert` comes
to the hole where the search ends and puts the new node there.
-/

namespace TinyStm.Rbtree

open Cells

variable {w : ℕ} {s : BitVec w} {C : Ctx w} {d : Side} {cg cp : Color} {x u y : Tree w}
  {p g : Item w}

theorem Tree.join_ne_nil {d : Side} {c : Color} {t : Tree w} {i : Item w} {u : Tree w} :
    Tree.join d c t i u ≠ .nil := by simp [Tree.join]

/-- The color of the subtree on side `d`. -/
theorem On.setColor_child (C : Ctx w) (d : Side) (c c' : Color) (t : Tree w) (i : Item w)
    (u : Tree w) :
    On s (C.plug (.join d c t i u)) (Rbtree.setColor u.ptr c'.word) ()
      (C.plug (.join d c t i (u.paint c'))) := by
  have h := On.setColor (s := s) (.step d.other c C i t) u c'
  rwa [Ctx.plug, Ctx.plug, Tree.join_other, Tree.join_other] at h

theorem On.colorOf_child (C : Ctx w) (d : Side) (c : Color) (t : Tree w) (i : Item w)
    (u : Tree w) :
    On s (C.plug (.join d c t i u)) (Rbtree.colorOf u.ptr) u.color.word
      (C.plug (.join d c t i u)) := by
  have h := On.colorOf (s := s) (.step d.other c C i t) u
  rwa [Ctx.plug, Tree.join_other] at h

/-- The parent of a hole gets another color. -/
theorem On.setColor_parent (C : Ctx w) (d : Side) (c c' : Color) (t : Tree w) (i : Item w)
    (u : Tree w) :
    On s (C.plug (.join d c t i u)) (Rbtree.setColor i.n c'.word) () (C.plug (.join d c' t i u)) :=
  On.setColor C (.join d c t i u) c'

theorem fixInsertionUp_on (hx : x ≠ .nil) :
    On s (C.plug (.join d cg (.join d cp x p u) g y)) (fixInsertionUp d s x.ptr) ()
      (C.plug (.join d .black x p (.join d .red u g y))) := by
  have hpar : ∀ cg cp, On s (C.plug (.join d cg (.join d cp x p u) g y)) (parentOf x.ptr) p.n
      (C.plug (.join d cg (.join d cp x p u) g y)) := fun cg cp =>
    On.parentOf (.step d cp (.step d cg C g y) p u) hx
  have hgrand : ∀ cg cp, On s (C.plug (.join d cg (.join d cp x p u) g y)) (parentOf p.n) g.n
      (C.plug (.join d cg (.join d cp x p u) g y)) := fun cg cp =>
    On.parentOf_parent (.step d cp (.step d cg C g y) p u) x
  unfold fixInsertionUp
  refine .bind (hpar _ _) (.bind (On.setColor_parent (.step d cg C g y) d cp .black x p u) ?_)
  refine .bind (hpar _ _) (.bind (hgrand _ _) ?_)
  refine .bind (On.setColor_parent C d cg .red _ g y) ?_
  refine .bind (hpar _ _) (.bind (hgrand _ _) ?_)
  have hrot := On.rotate (s := s) C d.other .red .black y g u p x
  simp only [Tree.join_other] at hrot
  refine On.ne_null Tree.join_ne_nil fun hg : g.n ≠ NULL => ?_
  rw [onlyIf, if_pos hg]
  exact .bind (hpar _ _) (.bind (hgrand _ _) hrot)

/-- The uncle is red. -/
theorem fixInsertionSide_recolor {e : Side} (hx : x ≠ .nil) (hy : y.color = .red) :
    On s (C.plug (.join d cg (.join e cp x p u) g y)) (fixInsertionSide d s x.ptr) g.n
      (C.plug (.join d .red (.join e .black x p u) g (y.paint .black))) := by
  have hpar : ∀ cg cp y, On s (C.plug (.join d cg (.join e cp x p u) g y)) (parentOf x.ptr) p.n
      (C.plug (.join d cg (.join e cp x p u) g y)) := fun cg cp y =>
    On.parentOf (.step e cp (.step d cg C g y) p u) hx
  have hgrand : ∀ cg cp y, On s (C.plug (.join d cg (.join e cp x p u) g y)) (parentOf p.n) g.n
      (C.plug (.join d cg (.join e cp x p u) g y)) := fun cg cp y =>
    On.parentOf_parent (.step e cp (.step d cg C g y) p u) x
  unfold fixInsertionSide
  refine .bind (hpar _ _ _) (.bind (hgrand _ _ _) (.bind (On.childOf_other C d cg _ g y) ?_))
  refine .bind (On.colorOf_child C d cg _ g y) ?_
  rw [hy, if_pos (show Color.red.word = RED from rfl)]
  refine .bind (hpar _ _ _) (.bind (On.setColor_parent (.step d cg C g y) e cp .black x p u) ?_)
  refine .bind (On.setColor_child C d cg .black _ g y) ?_
  refine .bind (hpar _ _ _) (.bind (hgrand _ _ _) (.bind (On.setColor_parent C d cg .red _ g _) ?_))
  exact .bind (hpar _ _ _) (hgrand _ _ _)

section Side

variable (hw : 0 < w)

include hw

/-- The uncle is black and `x` is an outer grandchild. -/
theorem fixInsertionSide_outer (hx : x ≠ .nil) (hy : y.color = .black) :
    On s (C.plug (.join d cg (.join d cp x p u) g y)) (fixInsertionSide d s x.ptr) x.ptr
      (C.plug (.join d .black x p (.join d .red u g y))) := by
  have hpar : On s (C.plug (.join d cg (.join d cp x p u) g y)) (parentOf x.ptr) p.n
      (C.plug (.join d cg (.join d cp x p u) g y)) :=
    On.parentOf (.step d cp (.step d cg C g y) p u) hx
  unfold fixInsertionSide
  refine .bind hpar (.bind (On.parentOf_parent (.step d cp (.step d cg C g y) p u) x) ?_)
  refine .bind (On.childOf_other C d cg _ g y) (.bind (On.colorOf_child C d cg _ g y) ?_)
  rw [hy, if_neg (black_ne_red hw)]
  refine .bind hpar (.bind (On.childOf_other (.step d cg C g y) d cp x p u) ?_)
  refine On.ptr_ne (C := .step d cg C g y) hx fun hne => ?_
  rw [if_neg hne]
  exact .bind (Acts.pure _ _) (.bind (fixInsertionUp_on hx) (Acts.pure _ _))

/-- The uncle is black and `x` is an inner grandchild. -/
theorem fixInsertionSide_inner {cx : Color} {i : Item w} {a b : Tree w} (hy : y.color = .black) :
    On s (C.plug (.join d cg (.join d cp u p (.join d cx a i b)) g y)) (fixInsertionSide d s i.n) p.n
      (C.plug (.join d .black (.join d cp u p a) i (.join d .red b g y))) := by
  have hC : ∀ t, (Ctx.step d.other cp (.step d cg C g y) p u).plug t =
      C.plug (.join d cg (.join d cp u p t) g y) := fun t => by
    rw [Ctx.plug, Ctx.plug, Tree.join_other]
  have hpar := On.parentOf (s := s) (.step d.other cp (.step d cg C g y) p u)
    (Tree.join_ne_nil (d := d) (c := cx) (t := a) (i := i) (u := b))
  have hgrand := On.parentOf_parent (s := s) (.step d.other cp (.step d cg C g y) p u)
    (.join d cx a i b)
  rw [hC] at hpar hgrand
  unfold fixInsertionSide
  refine .bind hpar (.bind hgrand ?_)
  refine .bind (On.childOf_other C d cg _ g y) (.bind (On.colorOf_child C d cg _ g y) ?_)
  rw [hy, if_neg (black_ne_red hw)]
  refine .bind hpar (.bind (On.childOf_other (.step d cg C g y) d cp u p (.join d cx a i b)) ?_)
  rw [Tree.ptr_join, if_pos rfl]
  have hrot := On.rotate (s := s) (.step d cg C g y) d cp cx u p a i b
  exact .bind (.bind hpar (.bind hrot (Acts.pure _ _)))
    (.bind (fixInsertionUp_on Tree.join_ne_nil) (Acts.pure _ _))

end Side

/-- A red node seen from side `d`. -/
theorem RB.flip_red {h : ℕ} {a b : Tree w} {i : Item w} (d f : Side) (ha : RB .black h a)
    (hb : RB .black h b) :
    ∃ a' b', Tree.join f .red a i b = .join d .red a' i b' ∧ RB .black h a' ∧ RB .black h b' := by
  cases d <;> cases f
  · exact ⟨a, b, rfl, ha, hb⟩
  · exact ⟨b, a, rfl, hb, ha⟩
  · exact ⟨b, a, rfl, hb, ha⟩
  · exact ⟨a, b, rfl, ha, hb⟩

theorem Side.pick_eq {a b : BitVec w} (h : a ≠ b) :
    (if a = d.pick a b then Side.l else .r) = d := by
  cases d <;> simp [Side.pick, h]

section Loop

variable (hw : 0 < w) {e f : Side} {a b t₁ t₂ : Tree w} {i : Item w} {n : ℕ} {x' : BitVec w}

theorem fixInsertionLoop_top :
    On s (Ctx.top.plug (.join f .red a i b)) (fixInsertionLoop s (n + 1) i.n) ()
      (Ctx.top.plug (.join f .red a i b)) := by
  refine On.ne_null Tree.join_ne_nil fun hi : i.n ≠ NULL => ?_
  rw [fixInsertionLoop, if_neg hi]
  refine .bind (On.root _) ?_
  rw [Ctx.plug, Tree.ptr_join, if_pos rfl]
  exact Acts.pure _ _

/-- Below a red node it takes another round. -/
theorem fixInsertionLoop_red
    (hside : On s (C.plug (.join d cg (.join e .red (.join f .red a i b) p u) g y))
      (fixInsertionSide d s i.n) x' t₁)
    (hloop : On s t₁ (fixInsertionLoop s n x') () t₂) :
    On s (C.plug (.join d cg (.join e .red (.join f .red a i b) p u) g y))
      (fixInsertionLoop s (n + 1) i.n) () t₂ := by
  let D : Ctx w := .step e .red (.step d cg C g y) p u
  refine On.ne_null (C := D) Tree.join_ne_nil fun hi : i.n ≠ NULL => ?_
  refine On.root_ne (by simp [D]) fun hro => ?_
  rw [Tree.ptr_join] at hro
  rw [fixInsertionLoop, if_neg hi]
  refine .bind (On.root _) ?_
  rw [if_neg hro]
  refine .bind (On.ld_p D f .red a i b) (.bind (On.ld_c (.step d cg C g y) e .red _ p u) ?_)
  rw [if_neg (not_not.mpr (show Color.red.word = RED from rfl))]
  have hpar := On.parentOf (s := s) D (Tree.join_ne_nil (d := f) (c := .red) (t := a) (i := i) (u := b))
  refine .bind hpar (.bind hpar (.bind (On.parentOf_parent D _) ?_))
  refine .bind (On.leftOf C d cg _ g y) ?_
  refine On.ptr_ne (C := C) Tree.join_ne_nil fun hne => ?_
  rw [show D.parent = (Tree.join e .red (Tree.join f .red a i b) p u).ptr from rfl, Side.pick_eq hne]
  exact .bind hside hloop

include hw

/-- The loop ends below a black node. -/
theorem fixInsertionLoop_black :
    On s (C.plug (.join e .black (.join f .red a i b) p u)) (fixInsertionLoop s (n + 1) i.n) ()
      (C.plug (.join e .black (.join f .red a i b) p u)) := by
  refine On.ne_null (C := .step e .black C p u) Tree.join_ne_nil fun hi : i.n ≠ NULL => ?_
  refine On.root_ne (by simp) fun hro => ?_
  rw [Tree.ptr_join] at hro
  rw [fixInsertionLoop, if_neg hi]
  refine .bind (On.root _) ?_
  rw [if_neg hro]
  refine .bind (On.ld_p (.step e .black C p u) f .red a i b) (.bind (On.ld_c C e .black _ p u) ?_)
  rw [if_pos (black_ne_red hw)]
  exact Acts.pure _ _

/-- The loop ends in a tree with the same entries that is red-black but for a red root. -/
theorem fixInsertionLoop_on {h : ℕ} (ha : RB .black h a) (hb : RB .black h b)
    (hC : Fits .black h C) (hn : C.depth < n) :
    ∃ t', On s (C.plug (.join f .red a i b)) (fixInsertionLoop s n i.n) () t' ∧
      t'.toList = (C.plug (.join f .red a i b)).toList ∧ ∃ c m, RB c m t' := by
  induction n generalizing C f a b i h with
  | zero => omega
  | succ n ih =>
    cases hC with
    | top => exact ⟨_, fixInsertionLoop_top, rfl, _, _, ha.join_red hb⟩
    | black hu hup =>
      obtain ⟨m, hm⟩ := hup.plug ((ha.join_red hb).join_black hu)
      exact ⟨_, fixInsertionLoop_black hw, rfl, _, m, hm⟩
    | @red e _ up p u hu hup =>
      obtain ⟨d, c', up, g, y, rfl, hy, hup'⟩ := hup.of_red
      simp only [Ctx.depth] at hn
      have hx : Tree.join f .red a i b ≠ .nil := Tree.join_ne_nil
      cases hc : y.color with
      | red =>
        obtain ⟨t', hact, hlist, hRB⟩ := ih (f := d) (i := g) ((ha.join_red hb).join_black hu)
          (hy.paint_red hc) hup' (by omega)
        refine ⟨t', fixInsertionLoop_red (fixInsertionSide_recolor hx hc) hact, ?_, hRB⟩
        rw [hlist]
        refine toList_plug_congr up ?_
        rw [toList_join, toList_join e, toList_join d, toList_join e, toList_paint]
      | black =>
        obtain rfl : c' = .black := hy.color.symm.trans hc
        by_cases he : e = d
        · subst he
          obtain ⟨t', hact, hlist, hRB⟩ := ih (C := .step e .black up p (.join e .red u g y)) ha hb
            (.black (hu.join_red hy) hup') (by simp only [Ctx.depth]; omega)
          refine ⟨t', fixInsertionLoop_red (fixInsertionSide_outer hw hx hc) hact, ?_, hRB⟩
          rw [hlist]
          exact toList_plug_congr up (toList_rotate ..).symm
        · obtain rfl : e = d.other := by cases d <;> cases e <;> simp_all [Side.other]
          obtain ⟨a', b', hflip, ha', hb'⟩ := ha.flip_red d f hb (i := i)
          rw [hflip]
          obtain ⟨t', hact, hlist, hRB⟩ := ih (C := .step d .black up i (.join d .red b' g y)) (f := d)
            hu ha' (.black (hb'.join_red hy) hup') (by simp only [Ctx.depth]; omega)
          refine ⟨t', fixInsertionLoop_red ?_ hact, ?_, hRB⟩
          · rw [Tree.join_other]
            exact fixInsertionSide_inner hw hc
          · rw [hlist]
            exact toList_plug_congr up (by cases d <;> simp [Tree.join, Side.pick, Tree.toList, Side.other])

end Loop

/-! ### The new node -/

theorem paintBlack_on {t : Tree w} (ht : t ≠ .nil) :
    On s (C.plug t) (do
      let c ← ld t.ptr .c
      onlyIf (c ≠ BLACK) (st t.ptr .c BLACK)) () (C.plug (t.paint .black)) := by
  refine On.pos fun hw => ?_
  cases t with
  | nil => exact absurd rfl ht
  | node c l i r =>
    refine .bind (On.ld_c C .l c l i r) ?_
    cases c with
    | red =>
      rw [onlyIf, if_pos (red_ne_black hw)]
      have hst : Acts (i.cell .red C.parent l.ptr r.ptr) (st i.n .c Color.black.word) ()
        (i.cell .black C.parent l.ptr r.ptr) := i.st_c
      exact On.focus (d := .l) (t := l) (u := r) fun _ => hst
    | black =>
      rw [onlyIf, if_neg (not_not.mpr (show Color.black.word = BLACK from rfl))]
      exact Acts.pure _ _

/-- `fixAfterInsertion` once the new node is red. -/
theorem fixAfterInsertion_on {f : Side} {a b : Tree w} {i : Item w} {h n : ℕ} (hw : 0 < w)
    (ha : RB .black h a) (hb : RB .black h b) (hC : Fits .black h C) (hn : C.depth < n) :
    ∃ t', (∀ P, Acts P (st i.n .c RED) () (whole s (C.plug (.join f .red a i b))) →
        Acts P (fixAfterInsertion n s i.n) () (whole s t')) ∧
      t'.toList = (C.plug (.join f .red a i b)).toList ∧ ∃ m, RB .black m t' := by
  obtain ⟨t', hact, hlist, c, m, hRB⟩ := fixInsertionLoop_on (s := s) hw ha hb hC hn
  have hne : t' ≠ .nil := by
    rintro rfl
    rw [toList_plug, toList_join] at hlist
    cases f <;> simp [Tree.toList, Side.pick] at hlist
  exact ⟨t'.paint .black, fun P hP => .bind hP (.bind hact (.bind (On.root _) (paintBlack_on (C := .top) hne))),
    by rw [toList_paint, hlist], hRB.paint_black⟩

/-- A node that `malloc` has returned, with any contents. -/
def spare (n : BitVec w) : Assn Field (BitVec w) :=
  fun H => ∃ c k v p l r, Cells.cell n (obj c k v p l r) H

variable {α : Type} {m : M w α} {r : α} {n k v : BitVec w} {P Q : Assn Field (BitVec w)}

theorem spare_acts (h : ∀ c k v p l r' : BitVec w,
      Acts (P * Cells.cell n (obj c k v p l r')) m r Q) :
    Acts (P * spare n) m r Q := by
  rw [mul_comm]
  refine Acts.of_part fun H hH => ?_
  obtain ⟨c, k, v, p, l, r', hH⟩ := hH
  exact ⟨_, hH, mul_comm P _ ▸ h c k v p l r'⟩

theorem insertLeaf_on {c : Color} {up : Ctx w} {i : Item w} {h fuel : ℕ} (hw : 0 < w)
    (hC : RB .black h ((Ctx.step d c up i u).plug .nil)) (hn : up.depth + 1 < fuel) :
    ∃ t', Acts (whole s ((Ctx.step d c up i u).plug .nil) * spare n)
        (insertLeaf d fuel s k v n i.n) NULL (whole s t') ∧
      t'.toList = (Ctx.step d c up i u).before ++ (k, v) :: (Ctx.step d c up i u).after ∧
      ∃ m, RB .black m t' := by
  obtain ⟨c', h', hnil, hfits⟩ := hC.focus
  cases hnil
  obtain ⟨t', hfix, hlist, hRB⟩ := fixAfterInsertion_on (s := s) (f := .l) (i := ⟨n, k, v⟩) hw
    .nil .nil hfits hn
  refine ⟨t', spare_acts fun _ _ _ _ _ _ => ?_, by rw [hlist, toList_plug]; rfl, hRB⟩
  have hbefore : whole s ((Ctx.step d c up i u).plug .nil) =
      up.own s i.n * (u.own i.n * i.cell c up.parent (d.pick NULL u.ptr) (d.pick u.ptr NULL)) := by
    rw [Ctx.plug, whole_plug, own_join, Tree.ptr_join, Tree.own, Tree.ptr, one_mul,
      mul_comm (u.own i.n)]
  have hafter : whole s ((Ctx.step d c up i u).plug (.join .l .red .nil ⟨n, k, v⟩ .nil)) =
      up.own s i.n * (u.own i.n * i.cell c up.parent (d.pick n u.ptr) (d.pick u.ptr n)) *
        Cells.cell n (obj RED k v i.n NULL NULL) := by
    rw [whole_plug, own_join, Tree.own, Tree.ptr_join, one_mul, mul_one, Ctx.own]
    show _ * Cells.cell n (obj RED k v i.n NULL NULL) = _
    ac_rfl
  rw [hbefore, insertLeaf]
  refine .bind (obj_st_l.skip _) (.bind (obj_st_r.skip _) ?_)
  refine .bind (obj_st_k.skip _) (.bind (obj_st_v.skip _) ?_)
  refine .bind (obj_st_p.skip _) (.bind (((i.st_field.skip _).skip _).frame _) ?_)
  refine .bind (hfix _ ?_) (Acts.pure _ _)
  rw [hafter]
  exact obj_st_c.skip _

/-! ### The way to the leaf -/

variable {compare : BitVec w → BitVec w → ℤ} {A : Assn Field (BitVec w)}

theorem insertLoop_child {c : Color} {t u : Tree w} {i : Item w} {fuel l : ℕ} {r : BitVec w}
    (hloop : t ≠ .nil → Acts (whole s (C.plug (.join d c t i u)) * A)
      (insertLoop compare fuel s k v n l t.ptr) r Q)
    (hleaf : t = .nil → Acts (whole s (C.plug (.join d c t i u)) * A)
      (insertLeaf d fuel s k v n i.n) r Q) :
    Acts (whole s (C.plug (.join d c t i u)) * A) (do
      let q ← ld i.n d.field
      if q ≠ NULL then insertLoop compare fuel s k v n l q
      else insertLeaf d fuel s k v n i.n) r Q := by
  refine .bind ((On.ld_field C d c t i u).frame _) ?_
  by_cases ht : t = .nil
  · rw [if_neg (not_not.mpr (show t.ptr = NULL by rw [ht]; rfl))]
    exact hleaf ht
  · refine Acts.of_fact (fun R H hP => ?_) fun hnull : t.ptr ≠ NULL => ?_
    · rw [mul_assoc] at hP
      exact whole_ne_null (C := .step d c C i u) ht hP
    · rw [if_pos hnull]
      exact hloop ht

/-- The loop of `insert` reaches the node with the key, or the hole for it. -/
theorem insertLoop_on {t : Tree w} {fuel l : ℕ} {r : BitVec w} (ht : t ≠ .nil)
    (hl : t.height ≤ l)
    (hfound : (t.seek compare k C).2 ≠ .nil → Acts (whole s (C.plug t) * A)
      (pure (t.seek compare k C).2.ptr) r Q)
    (hnew : ∀ d c up i u, t.seek compare k C = (.step d c up i u, .nil) →
      Acts (whole s (C.plug t) * A) (insertLeaf d fuel s k v n i.n) r Q) :
    Acts (whole s (C.plug t) * A) (insertLoop compare fuel s k v n l t.ptr) r Q := by
  induction t generalizing C l with
  | nil => exact absurd rfl ht
  | node c t₁ i t₂ ih₁ ih₂ =>
    simp only [Tree.height] at hl
    obtain ⟨l, rfl⟩ : ∃ m, l = m + 1 := ⟨l - 1, by omega⟩
    rw [insertLoop]
    rw [Tree.seek] at hfound hnew
    refine .bind ((On.ld_k C .l c t₁ i t₂).frame _) ?_
    split_ifs at hfound hnew ⊢ with h₀ h₁
    · exact hfound (by simp)
    · exact insertLoop_child (fun h => ih₁ (C := .step .l c C i t₂) h (by omega) hfound hnew)
        fun h => hnew .l c C i t₂ (by rw [h]; rfl)
    · exact insertLoop_child (d := .r) (fun h => ih₂ (C := .step .r c C i t₁) h (by omega) hfound hnew)
        fun h => hnew .r c C i t₁ (by rw [h]; rfl)

variable {t : Tree w} {h fuel : ℕ}

/-- A key that is there: `insert` returns its node. -/
theorem insert_found (hf : t.height < fuel) (hfound : (t.seek compare k .top).2 ≠ .nil) :
    Acts (whole s t * A) (insert compare fuel s k v n) (t.seek compare k .top).2.ptr
      (whole s t * A) := by
  have ht : t ≠ .nil := by
    rintro rfl
    exact hfound rfl
  refine .bind ((On.root t).frame _) (Acts.of_fact (fun R H hP => ?_) fun hnull : t.ptr ≠ NULL => ?_)
  · rw [mul_assoc] at hP
    exact whole_ne_null (C := .top) ht hP
  · rw [if_neg hnull]
    exact insertLoop_on (C := .top) ht (Nat.le_of_lt hf) (fun _ => Acts.pure _ _)
      fun d c up i u h => absurd (congrArg Prod.snd h) hfound

theorem insert_first :
    Acts (whole s .nil * spare n) (insert compare fuel s k v n) NULL
      (whole s (.node .black .nil ⟨n, k, v⟩ .nil)) := by
  refine spare_acts fun _ _ _ _ _ _ => .bind ((On.root _).frame _) ?_
  rw [show (Tree.nil : Tree w).ptr = NULL from rfl, if_pos rfl]
  refine Acts.of_fact (φ := n ≠ NULL) (fun R H hP => ?_) fun hn => ?_
  · rw [mul_comm (whole s _), mul_assoc] at hP
    exact cell_mul.ne_zero hP
  rw [if_neg hn]
  refine .bind (obj_st_l.skip _) (.bind (obj_st_r.skip _) ?_)
  refine .bind (obj_st_p.skip _) (.bind (obj_st_k.skip _) ?_)
  refine .bind (obj_st_v.skip _) (.bind (obj_st_c.skip _) ?_)
  simp only [whole, Tree.own, Ctx.own, mul_one]
  exact .bind ((head_st s _ _).frame _) (Acts.pure _ _)

/-- A key that is not: the new node comes into the tree. -/
theorem insert_new (hw : 0 < w) (hRB : RB .black h t) (hf : t.height < fuel)
    (hnil : (t.seek compare k .top).2 = .nil) :
    ∃ t', Acts (whole s t * spare n) (insert compare fuel s k v n) NULL (whole s t') ∧
      t'.toList = (t.seek compare k .top).1.before ++ (k, v) :: (t.seek compare k .top).1.after ∧
      ∃ m, RB .black m t' := by
  by_cases ht : t = .nil
  · subst ht
    exact ⟨_, insert_first, rfl, 1, .black .nil .nil⟩
  obtain ⟨D, hD⟩ : ∃ D, D = (t.seek compare k .top).1 := ⟨_, rfl⟩
  have hplug : D.plug .nil = t := by
    rw [hD, ← hnil]
    exact plug_seek t .top
  rw [← hD]
  have hdepth := depth_le_height D .nil
  rw [hplug] at hdepth
  cases D with
  | top => exact absurd hplug.symm ht
  | step d c up i u =>
    obtain ⟨t', hact, hlist, hRB'⟩ := insertLeaf_on (s := s) (k := k) (v := v) (n := n) (h := h) hw
      (hplug.symm ▸ hRB) (show up.depth + 1 < fuel by simp only [Ctx.depth, Tree.height] at hdepth; omega)
    refine ⟨t', .bind ((On.root t).frame _) (Acts.of_fact (fun R H hP => ?_) fun hnull : t.ptr ≠ NULL => ?_), hlist,
      hRB'⟩
    · rw [mul_assoc] at hP
      exact whole_ne_null (C := .top) ht hP
    · rw [if_neg hnull]
      refine insertLoop_on (C := .top) ht (Nat.le_of_lt hf) (fun h => absurd hnil h)
        fun d' c' up' i' u' h => ?_
      rw [h] at hD
      cases hD
      rw [hplug] at hact
      exact hact

end TinyStm.Rbtree
