import TinyStm.Rbtree.Delete
import TinyStm.Rbtree.Walk

/-!
# Taking a node out

A node with two children gets the entry of its successor, which goes instead; the only
child of a node takes its place; a leaf is cut off, after `fixAfterDeletion` if it is
black. The node that is out is apart from the tree.
-/

namespace TinyStm.Rbtree

open Cells

variable {w : ℕ} {s : BitVec w} {C : Ctx w} {d : Side} {c c' : Color} {t l r u : Tree w}
  {i j : Item w}

/-! ### A leaf -/

/-- A leaf apart from the tree around it. -/
theorem whole_leaf (E : Ctx w) :
    whole s (E.plug (.node c .nil i .nil)) = E.own s i.n * i.cell c E.parent NULL NULL := by
  rw [whole_plug, Tree.own, Tree.own, one_mul, mul_one]
  rfl

theorem whole_hole (E : Ctx w) : whole s (E.plug .nil) = E.own s NULL := by
  rw [whole_plug, Tree.own, mul_one]
  rfl

theorem unlink_acts {up : Ctx w} {pl pr : BitVec w} :
    Acts ((Ctx.step d c' up j u).own s i.n * i.cell c j.n pl pr) (unlink j.n i.n) ()
      ((Ctx.step d c' up j u).own s NULL * i.cell c j.n pl pr) := by
  refine Acts.of_fact (φ := u.ptr ≠ i.n) (fun R H hP => ?_) fun hu => ?_
  · rw [Ctx.own, show ∀ A B D E F : Assn Field (BitVec w), A * (B * D) * E * F = E * (B * (A * D * F))
      from fun A B D E F => by ac_rfl] at hP
    exact own_ne hP
  rw [Ctx.own, Ctx.own]
  cases d with
  | l =>
    refine .bind (((j.ld_field (d := .l)).frame _).frame _) ?_
    rw [if_pos rfl]
    exact ((j.st_field (d := .l)).frame _).frame _
  | r =>
    refine .bind (((j.ld_other (d := .r)).frame _).frame _) ?_
    rw [if_neg hu.symm]
    refine .bind (((j.ld_field (d := .r)).frame _).frame _) ?_
    rw [onlyIf, if_pos rfl]
    exact ((j.st_field (d := .r)).frame _).frame _

theorem detach_on {E : Ctx w} (hE : E ≠ .top) :
    Acts (whole s (E.plug (.node c .nil i .nil))) (detach i.n) i.n
      (whole s (E.plug .nil) * i.cell c NULL NULL NULL) := by
  cases E with
  | top => exact absurd rfl hE
  | step d c' up j u =>
    rw [whole_leaf, whole_hole]
    refine Acts.of_fact (φ := j.n ≠ NULL) (fun R H hP => ?_) fun hj => ?_
    · rw [Ctx.own, Item.cell, mul_assoc, mul_assoc] at hP
      exact cell_mul.ne_zero hP
    refine .bind (i.ld_p.skip _) (.bind (r := ()) ?_ (Acts.pure _ _))
    rw [Ctx.parent, onlyIf, if_pos hj]
    exact .bind unlink_acts (i.st_p.skip _)

/-- The parent of a hole below the root is a node. -/
theorem parent_ne_null (hC : C ≠ .top) {R : Assn Field (BitVec w)} {H : Heap Field (BitVec w)}
    (h : (whole s (C.plug t) * R) H) : C.parent ≠ NULL := by
  cases C with
  | top => exact absurd rfl hC
  | step d c up j u => exact whole_ne_null (t := .join d c t j u) Tree.join_ne_nil h

theorem toList_hole_ne_nil (hC : C ≠ .top) : (C.plug .nil).toList ≠ [] := by
  cases C with
  | top => exact absurd rfl hC
  | step d c up j u =>
    rw [Ctx.plug, toList_plug, toList_join]
    simp

variable {k : ℕ} {x : BitVec w} {Q : Assn Field (BitVec w)}

theorem removeNode_leaf (hw : 0 < w)
    (htop : C = .top → Acts (whole s (C.plug (.node c .nil i .nil)))
      (do st s .root NULL; pure i.n) x Q)
    (hstep : C ≠ .top → Acts (whole s (C.plug (.node c .nil i .nil)))
      (do onlyIf (c = .black) (fixAfterDeletion k s i.n); detach i.n) x Q) :
    Acts (whole s (C.plug (.node c .nil i .nil))) (removeNode k s i.n) x Q := by
  refine .bind (On.ld_field C .l c .nil i .nil) (.bind (r := NULL)
    (Q := whole s (C.plug (.node c .nil i .nil))) ?_ ?_)
  · rw [if_neg (not_not.mpr (show Tree.nil.ptr = NULL from rfl))]
    exact On.ld_field C .r c .nil i .nil
  rw [if_neg (not_not.mpr rfl)]
  refine .bind (On.ld_p C .l c .nil i .nil) ?_
  by_cases hC : C = .top
  · rw [hC, Ctx.parent, if_pos rfl, ← hC]
    exact htop hC
  · refine Acts.of_fact (fun R H => parent_ne_null hC) fun hp => ?_
    rw [if_neg hp]
    refine .bind (On.ld_c C .l c .nil i .nil) ?_
    simp only [word_eq_black hw]
    exact hstep hC

/-- A node without children is taken out. -/
theorem removeNode_leaf_on {h : ℕ} (hw : 0 < w) (ht : RB .black h (C.plug (.node c .nil i .nil)))
    (hk : C.depth < k) :
    ∃ T c', Acts (whole s (C.plug (.node c .nil i .nil))) (removeNode k s i.n) i.n
        (whole s T * i.cell c' NULL NULL NULL) ∧
      T.toList = (C.plug .nil).toList ∧ ∃ m, RB .black m T := by
  by_cases hC : C = .top
  · subst hC
    refine ⟨.nil, c, removeNode_leaf hw (fun _ => ?_) fun h => absurd rfl h, rfl, 0, .nil⟩
    rw [whole_leaf, whole, Tree.own, mul_one]
    exact .bind ((head_st s _ _).frame _) (Acts.pure _ _)
  obtain ⟨c', n, hleaf, hfits⟩ := ht.focus
  cases hleaf with
  | red hl hr =>
    cases hl
    obtain ⟨m, hm⟩ := hfits.to_black.plug .nil
    refine ⟨C.plug .nil, .red, removeNode_leaf hw (fun h => absurd h hC) fun _ => ?_, rfl, m, hm⟩
    exact .bind (Acts.pure _ _) (detach_on hC)
  | black hl hr =>
    cases hl
    obtain ⟨T, T₀, hact, ⟨E, rfl, rfl⟩, hlist, hm⟩ := fixAfterDeletion_on (s := s) (.leaf i) .nil hfits hk
    have hE : E ≠ .top := by
      rintro rfl
      exact toList_hole_ne_nil hC hlist.symm
    refine ⟨E.plug .nil, .black, removeNode_leaf hw (fun h => absurd h hC) fun _ => ?_, hlist, hm⟩
    exact .bind hact (detach_on hE)

/-! ### A node with one child -/

/-- The only child of a black node is a red leaf, which takes its place. -/
theorem replaceBy_on (hk : 0 < k) :
    Acts (whole s (C.plug (.join d .black (.node .red .nil j .nil) i .nil)))
      (replaceBy k s i.n j.n) i.n
      (whole s (C.plug (.node .black .nil j .nil)) * i.cell .black NULL NULL NULL) := by
  have hbefore : whole s (C.plug (.join d .black (.node .red .nil j .nil) i .nil)) =
      j.cell .red i.n NULL NULL *
        (i.cell .black C.parent (d.pick j.n NULL) (d.pick NULL j.n) * C.own s i.n) := by
    simp only [whole_plug, own_join, Tree.own, Tree.ptr, mul_one]
    ac_rfl
  have hafter : whole s (C.plug (.node .red .nil j .nil)) * i.cell .black NULL NULL NULL =
      j.cell .red C.parent NULL NULL * (i.cell .black NULL NULL NULL * C.own s j.n) := by
    rw [whole_leaf]
    ac_rfl
  have hfix : On s (C.plug (.node .red .nil j .nil)) (fixAfterDeletion k s j.n) ()
      (C.plug (.node .black .nil j .nil)) := by
    obtain ⟨k, rfl⟩ : ∃ m, k = m + 1 := ⟨k - 1, by omega⟩
    exact fixAfterDeletion_of_loop (t := .node .red .nil j .nil) (by simp)
      (fixDeletionLoop_stop (.inr rfl))
  rw [hbefore, replaceBy]
  refine .bind ((i.ld_p.frame _).skip _) (.bind (j.st_p.frame _) ?_)
  refine .bind ((i.ld_p.frame _).skip _) (.bind ((relink_acts .l C i.n j.n _).skip _) ?_)
  refine .bind ((i.st_field (d := .l).frame _).skip _) ?_
  refine .bind ((i.st_field (d := .r).frame _).skip _) (.bind ((i.st_p.frame _).skip _) ?_)
  refine .bind ((i.ld_c.frame _).skip _) ?_
  rw [onlyIf, if_pos (show Color.black.word = BLACK from rfl)]
  refine .bind (r := ()) ?_ (Acts.pure _ _)
  have hframe := hfix.frame (i.cell .black NULL NULL NULL)
  rw [hafter] at hframe
  exact hframe

theorem removeNode_child (ht : t ≠ .nil)
    (h : Acts (whole s (C.plug (.join d c t i .nil))) (replaceBy k s i.n t.ptr) x Q) :
    Acts (whole s (C.plug (.join d c t i .nil))) (removeNode k s i.n) x Q := by
  refine Acts.of_fact (fun R H hP => ?_) fun hnull : t.ptr ≠ NULL => ?_
  · exact whole_ne_null (C := .step d c C i .nil) ht hP
  cases d with
  | l =>
    refine .bind (On.ld_field C .l c t i .nil) ?_
    rw [if_pos hnull]
    refine .bind (On.ld_field C .l c t i .nil) ?_
    rw [if_pos hnull]
    exact h
  | r =>
    refine .bind (On.ld_field C .l c .nil i t) ?_
    rw [if_neg (not_not.mpr (show Tree.nil.ptr = NULL from rfl))]
    refine .bind (On.ld_field C .r c t i .nil) ?_
    rw [if_pos hnull]
    exact h

/-- A node with at most one child is taken out. -/
theorem removeNode_on {h : ℕ} (hw : 0 < w) (ht : RB .black h (C.plug (.join d c t i .nil)))
    (hk : C.depth < k) :
    ∃ T c', Acts (whole s (C.plug (.join d c t i .nil))) (removeNode k s i.n) i.n
        (whole s T * i.cell c' NULL NULL NULL) ∧
      T.toList = (C.plug t).toList ∧ ∃ m, RB .black m T := by
  by_cases hnil : t = .nil
  · subst hnil
    rw [show (Tree.join d c .nil i .nil : Tree w) = .node c .nil i .nil by cases d <;> rfl] at ht ⊢
    exact removeNode_leaf_on hw ht hk
  obtain ⟨c', n, hj, hfits⟩ := ht.focus
  obtain ⟨j, rfl, rfl, rfl, rfl⟩ :
      ∃ j, c = .black ∧ t = .node .red .nil j .nil ∧ c' = .black ∧ n = 1 := by
    cases c with
    | red =>
      obtain ⟨rfl, ht, hn⟩ := hj.of_join_red
      cases hn
      obtain h | ⟨j, rfl⟩ := ht.zero
      · exact absurd h hnil
      · cases ht
    | black =>
      obtain ⟨rfl, m, rfl, ⟨_, ht⟩, _, hn⟩ := hj.of_join_black
      cases hn
      obtain h | ⟨j, rfl⟩ := ht.zero
      · exact absurd h hnil
      · exact ⟨j, rfl, rfl, rfl, rfl⟩
  exact ⟨_, .black, removeNode_child hnil (replaceBy_on (by omega)), toList_plug_congr C rfl,
    hfits.plug (.black .nil .nil)⟩

/-! ### The node with the entry -/

theorem deleteTarget_one {P : Assn Field (BitVec w)} (h : l = .nil ∨ r = .nil)
    (hP : P = whole s (C.plug (.node c l i r))) : Acts P (deleteTarget k i.n) i.n P := by
  subst hP
  refine .bind (On.ld_field C .l c l i r) (.bind (r := false)
    (Q := whole s (C.plug (.node c l i r))) ?_ ?_)
  · obtain rfl | rfl := h
    · rw [if_neg (not_not.mpr (show Tree.nil.ptr = NULL from rfl))]
      exact Acts.pure _ _
    · split_ifs with hl
      · refine .bind (On.ld_field C .r c .nil i l) ?_
        rw [decide_eq_false (not_not.mpr (show Tree.nil.ptr = NULL from rfl))]
        exact Acts.pure _ _
      · exact Acts.pure _ _
  · rw [if_neg (by simp)]
    exact Acts.pure _ _

/-- A node with two children gets the entry of the first node on its right. -/
theorem deleteTarget_two {c₁ : Color} {r₁ : Tree w} (hl : l ≠ .nil) (hr : r ≠ .nil)
    (hfirst : (r.first (.step .r c C i l)).2 = .node c₁ .nil j r₁)
    (hk : (C.plug (.node c l i r)).height ≤ k) :
    On s (C.plug (.node c l i r)) (deleteTarget k i.n) j.n
      (C.plug (.node c l { i with k := j.k, v := j.v } r)) := by
  -- the node that the successor is, whatever the entry of `i`
  have hplug : ∀ i : Item w, (r.first (.step .r c C i l)).1.plug (.node c₁ .nil j r₁) =
      C.plug (.node c l i r) := fun i' => by
    rw [← hfirst, first_snd r (.step .r c C i l) (.step .r c C i' l)]
    exact plug_first r (.step .r c C i' l)
  have hld_k := On.ld_k (s := s) (r.first (.step .r c C i l)).1 .l c₁ .nil j r₁
  have hld_v := On.ld_v (s := s) (r.first (.step .r c C { i with k := j.k } l)).1 .l c₁ .nil j r₁
  have hsucc := successor_on (s := s) (C := C) (t := .node c l i r) (by simp) hk
  rw [show (Tree.node c l i r).next C = r.first (.step .r c C i l) by
    cases r with
    | nil => exact absurd rfl hr
    | node => rfl, hfirst] at hsucc
  rw [Tree.join, Side.pick, Side.pick, hplug] at hld_k hld_v
  refine Acts.of_fact (φ := l.ptr ≠ NULL ∧ r.ptr ≠ NULL) (fun R H hP => ?_) fun hne => ?_
  · exact ⟨whole_ne_null (C := .step .l c C i r) hl hP, whole_ne_null (C := .step .r c C i l) hr hP⟩
  refine .bind (On.ld_field C .l c l i r) (.bind (r := true)
    (Q := whole s (C.plug (.node c l i r))) ?_ ?_)
  · rw [if_pos hne.1]
    refine .bind (On.ld_field C .r c r i l) ?_
    rw [decide_eq_true hne.2]
    exact Acts.pure _ _
  rw [if_pos rfl]
  refine .bind hsucc (.bind hld_k ?_)
  have hst_k : On s (C.plug (.node c l i r)) (st i.n .k j.k) ()
      (C.plug (.node c l { i with k := j.k } r)) := On.refocus (d := .l) rfl fun _ => i.st_k
  have hst_v : On s (C.plug (.node c l { i with k := j.k } r)) (st i.n .v j.v) ()
      (C.plug (.node c l { i with k := j.k, v := j.v } r)) :=
    On.refocus (d := .l) rfl fun _ => Item.st_v { i with k := j.k }
  exact .bind hst_k (.bind hld_v (.bind hst_v (Acts.pure _ _)))

/-- `delete_node` takes the entry out of the tree, and returns a node apart from it. -/
theorem deleteNode_on {h : ℕ} (hw : 0 < w) (ht : RB .black h (C.plug (.node c l i r)))
    (hk : (C.plug (.node c l i r)).height < k) :
    ∃ T j c', Acts (whole s (C.plug (.node c l i r))) (deleteNode k s i.n) j.n
        (whole s T * Item.cell j c' NULL NULL NULL) ∧
      T.toList = C.before ++ (l.toList ++ (r.toList ++ C.after)) ∧ ∃ m, RB .black m T := by
  have hd := depth_le_height C (.node c l i r)
  by_cases hone : l = .nil ∨ r = .nil
  · obtain ⟨d, t, hj, hlist⟩ : ∃ d t, Tree.node c l i r = .join d c t i .nil ∧
        t.toList = l.toList ++ r.toList := by
      obtain rfl | rfl := hone
      · exact ⟨.r, r, rfl, rfl⟩
      · exact ⟨.l, l, rfl, by simp [Tree.toList]⟩
    have htarget := deleteTarget_one (s := s) (C := C) (c := c) (i := i) (k := k) hone rfl
    rw [hj] at ht htarget ⊢
    obtain ⟨T, c', hact, hT, hm⟩ := removeNode_on (s := s) (k := k) hw ht (by omega)
    refine ⟨T, i, c', .bind htarget hact, ?_, hm⟩
    rw [hT, toList_plug, hlist, List.append_assoc]
  · obtain ⟨hl, hr⟩ := not_or.mp hone
    obtain ⟨c₁, j, r₁, hfirst⟩ := first_eq hr (.step .r c C i l)
    obtain ⟨i', hi'⟩ : ∃ i' : Item w, i' = { i with k := j.k, v := j.v } := ⟨_, rfl⟩
    have htarget := deleteTarget_two (s := s) hl hr hfirst (Nat.le_of_lt hk)
    rw [← hi'] at htarget
    -- the successor is a node with no left child
    obtain ⟨E, hE⟩ : ∃ E, E = (r.first (.step .r c C i' l)).1 := ⟨_, rfl⟩
    have hplug : E.plug (.join .r c₁ r₁ j .nil) = C.plug (.node c l i' r) := by
      rw [hE, show Tree.join .r c₁ r₁ j .nil = (r.first (.step .r c C i' l)).2 by
        rw [first_snd r _ (.step .r c C i l), hfirst]; rfl]
      exact plug_first r (.step .r c C i' l)
    obtain ⟨cr, n, hRB, hfits⟩ := ht.focus
    obtain ⟨m, hm⟩ := hfits.plug (hRB.entry i')
    have hheight : (C.plug (.node c l i' r)).height = (C.plug (.node c l i r)).height :=
      height_plug_congr C rfl
    have hdE := depth_le_height E (.join .r c₁ r₁ j .nil)
    rw [hplug, hheight] at hdE
    rw [← hplug] at hm htarget
    obtain ⟨T, c', hact, hT, hm⟩ := removeNode_on (s := s) (k := k) hw hm (by omega)
    refine ⟨T, j, c', .bind htarget hact, ?_, hm⟩
    have hlist := congrArg Tree.toList hplug
    rw [toList_plug, toList_plug, hE, before_first, ← hE] at hlist
    rw [hT, toList_plug, hE, before_first, ← hE]
    simp only [Ctx.before, Tree.join, Side.pick, Tree.toList, List.append_assoc, List.nil_append,
      List.cons_append, hi', List.append_cancel_left_eq, List.cons.injEq, true_and] at hlist ⊢
    rw [hlist]

end TinyStm.Rbtree
