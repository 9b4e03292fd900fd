import TinyStm.Rbtree.Insert

/-!
# Deletion

The loop of `fixAfterDeletion` works on a tree with a leaf too many: without the leaf the
subtree at `x` lacks a black node.
-/

namespace TinyStm.Rbtree

open Cells

variable {w : ℕ} {s : BitVec w} {C : Ctx w} {d : Side} {c c' cp cu : Color} {t a b u u' : Tree w}
  {i p q n : Item w} {α : Type} {m : M w α} {r : α}

/-- What happens on the other side. -/
theorem On.other (h : On s ((Ctx.step d.other c C i t).plug u) m r
      ((Ctx.step d.other c C i t).plug u')) :
    On s (C.plug (.join d c t i u)) m r (C.plug (.join d c t i u')) := by
  rwa [Ctx.plug, Ctx.plug, Tree.join_other, Tree.join_other] at h

/-! ### One round -/

theorem nephewsBlack_on (hw : 0 < w) :
    On s (C.plug (.join d c a q b)) (nephewsBlack d q.n)
      (decide (a.color = .black ∧ b.color = .black)) (C.plug (.join d c a q b)) := by
  refine .bind (On.childOf C d c a q b) (.bind (On.colorOf (.step d c C q b) a) ?_)
  simp only [word_eq_black hw]
  by_cases ha : a.color = .black
  · rw [if_pos ha]
    refine .bind (On.childOf_other C d c a q b) (.bind (On.colorOf_child C d c a q b) ?_)
    simp only [word_eq_black hw, ha, true_and]
    exact Acts.pure _ _
  · rw [if_neg ha, decide_eq_false fun h => ha h.1]
    exact Acts.pure _ _

section Round

variable (ht : t ≠ .nil)

include ht

/-- The far nephew is red: one rotation at the parent. -/
theorem fixDeletionEnd_on :
    On s (C.plug (.join d cp t p (.join d cu a q b))) (fixDeletionEnd d s t.ptr q.n)
      (C.plug (.join d cp (.join d .black t p a) q (b.paint .black))).ptr
      (C.plug (.join d cp (.join d .black t p a) q (b.paint .black))) := by
  have hpar : ∀ cp cu b, On s (C.plug (.join d cp t p (.join d cu a q b))) (parentOf t.ptr) p.n
      (C.plug (.join d cp t p (.join d cu a q b))) := fun cp cu b =>
    On.parentOf (.step d cp C p _) ht
  unfold fixDeletionEnd
  refine .bind (hpar _ _ _) (.bind (On.colorOf C (.join d cp t p (.join d cu a q b))) ?_)
  refine .bind (On.setColor_child C d cp cp t p (.join d cu a q b)) ?_
  refine .bind (hpar _ _ _) (.bind (On.setColor_parent C d cp .black t p _) ?_)
  refine .bind (On.other (On.childOf_other (.step d.other .black C p t) d cp a q b)) ?_
  refine .bind (On.other (On.setColor_child (.step d.other .black C p t) d cp .black a q b)) ?_
  refine .bind (hpar _ _ _) (.bind (On.rotate C d .black cp t p a q (b.paint .black)) ?_)
  exact On.root _

theorem fixDeletionBlack_recolor (ha : a.color = .black) (hb : b.color = .black) :
    On s (C.plug (.join d cp t p (.join d cu a q b))) (fixDeletionBlack d s t.ptr q.n) p.n
      (C.plug (.join d cp t p (.join d .red a q b))) := by
  refine On.pos fun hw => .bind (On.other (nephewsBlack_on hw)) ?_
  rw [decide_eq_true ⟨ha, hb⟩, if_pos rfl]
  refine .bind (On.other (On.setColor_parent (.step d.other cp C p t) d cu .red a q b)) ?_
  exact On.parentOf (.step d cp C p _) ht

theorem fixDeletionBlack_far (hb : b.color = .red) :
    On s (C.plug (.join d cp t p (.join d cu a q b))) (fixDeletionBlack d s t.ptr q.n)
      (C.plug (.join d cp (.join d .black t p a) q (b.paint .black))).ptr
      (C.plug (.join d cp (.join d .black t p a) q (b.paint .black))) := by
  refine On.pos fun hw => .bind (On.other (nephewsBlack_on hw)) ?_
  rw [hb, decide_eq_false (by simp), if_neg (by simp)]
  refine .bind (On.other (On.childOf_other (.step d.other cp C p t) d cu a q b)) ?_
  refine .bind (On.other (On.colorOf_child (.step d.other cp C p t) d cu a q b)) ?_
  rw [hb, if_neg (red_ne_black hw)]
  exact .bind (Acts.pure _ _) (fixDeletionEnd_on ht)

/-- The near nephew comes up. -/
theorem fixDeletionBlack_turn {a₁ a₂ : Tree w} :
    On s (C.plug (.join d cp t p (.join d cu (.join d .red a₁ n a₂) q b)))
      (do
        setColor (← childOf d q.n) BLACK
        setColor q.n RED
        rotate d.other s q.n
        childOf d.other (← parentOf t.ptr)) n.n
      (C.plug (.join d cp t p (.join d .black a₁ n (.join d .red a₂ q b)))) := by
  refine .bind (On.other (On.childOf (.step d.other cp C p t) d cu _ q b)) ?_
  refine .bind (On.other (On.setColor (.step d cu (.step d.other cp C p t) q b) _ .black)) ?_
  refine .bind (On.other (On.setColor_parent (.step d.other cp C p t) d cu .red _ q b)) ?_
  have hrot := On.rotate (s := s) (.step d.other cp C p t) d.other .red .black b q a₂ n a₁
  simp only [Tree.join_other] at hrot
  refine .bind (On.other hrot) (.bind (On.parentOf (.step d cp C p _) ht) ?_)
  exact On.childOf_other C d cp t p _

/-- The near nephew is red: it becomes the sibling. -/
theorem fixDeletionBlack_near {a₁ a₂ : Tree w} (hb : b.color = .black) :
    On s (C.plug (.join d cp t p (.join d cu (.join d .red a₁ n a₂) q b)))
      (fixDeletionBlack d s t.ptr q.n)
      (C.plug (.join d cp (.join d .black t p a₁) n (.join d .black a₂ q b))).ptr
      (C.plug (.join d cp (.join d .black t p a₁) n (.join d .black a₂ q b))) := by
  refine On.pos fun hw => .bind (On.other (nephewsBlack_on hw)) ?_
  rw [decide_eq_false (by simp [Tree.join, Tree.color]), if_neg (by simp)]
  refine .bind (On.other (On.childOf_other (.step d.other cp C p t) d cu _ q b)) ?_
  refine .bind (On.other (On.colorOf_child (.step d.other cp C p t) d cu _ q b)) ?_
  rw [hb, if_pos (show Color.black.word = BLACK from rfl)]
  exact .bind (fixDeletionBlack_turn ht) (fixDeletionEnd_on ht)

/-- The sibling is red: a black nephew becomes the sibling. -/
theorem fixDeletionSide_turn :
    On s (C.plug (.join d cp t p (.join d cu a q b)))
      (do
        setColor q.n BLACK
        setColor (← parentOf t.ptr) RED
        rotate d s (← parentOf t.ptr)
        childOf d.other (← parentOf t.ptr)) a.ptr
      (C.plug (.join d .black (.join d .red t p a) q b)) := by
  have hpar : ∀ cp cu, On s (C.plug (.join d cp t p (.join d cu a q b))) (parentOf t.ptr) p.n
      (C.plug (.join d cp t p (.join d cu a q b))) := fun cp cu =>
    On.parentOf (.step d cp C p _) ht
  refine .bind (On.other (On.setColor_parent (.step d.other cp C p t) d cu .black a q b)) ?_
  refine .bind (hpar _ _) (.bind (On.setColor_parent C d cp .red t p _) ?_)
  refine .bind (hpar _ _) (.bind (On.rotate C d .red .black t p a q b) ?_)
  refine .bind (On.parentOf (.step d .red (.step d .black C q b) p a) ht) ?_
  exact On.childOf_other (.step d .black C q b) d .red t p a

theorem fixDeletionSide_red {t' : Tree w} {x : BitVec w}
    (h : On s (C.plug (.join d .black (.join d .red t p a) q b)) (fixDeletionBlack d s t.ptr a.ptr) x t') :
    On s (C.plug (.join d cp t p (.join d .red a q b))) (fixDeletionSide d s t.ptr) x t' := by
  refine .bind (On.parentOf (.step d cp C p _) ht) (.bind (On.childOf_other C d cp t p _) ?_)
  refine .bind (On.colorOf_child C d cp t p _) ?_
  rw [if_pos (show (Tree.join d .red a q b).color.word = RED from rfl)]
  exact .bind (fixDeletionSide_turn ht) h

theorem fixDeletionSide_black {t' : Tree w} {x : BitVec w} (hu : u.color = .black)
    (h : On s (C.plug (.join d cp t p u)) (fixDeletionBlack d s t.ptr u.ptr) x t') :
    On s (C.plug (.join d cp t p u)) (fixDeletionSide d s t.ptr) x t' := by
  refine On.pos fun hw => ?_
  refine .bind (On.parentOf (.step d cp C p _) ht) (.bind (On.childOf_other C d cp t p _) ?_)
  refine .bind (On.colorOf_child C d cp t p _) ?_
  rw [hu, if_neg (black_ne_red hw)]
  exact .bind (Acts.pure _ _) h

end Round

/-! ### A leaf too many -/

/-- `t` has the leaf `i` that `t₀` does not have. -/
def Lacks (i : Item w) (t t₀ : Tree w) : Prop :=
  ∃ D : Ctx w, t = D.plug (.node .black .nil i .nil) ∧ t₀ = D.plug .nil

theorem Lacks.leaf (i : Item w) : Lacks i (.node .black .nil i .nil) .nil := ⟨.top, rfl, rfl⟩

section Lacks

variable {t₀ : Tree w}

theorem Lacks.plug (h : Lacks i t t₀) (C : Ctx w) : Lacks i (C.plug t) (C.plug t₀) := by
  obtain ⟨D, rfl, rfl⟩ := h
  exact ⟨C.comp D, (Ctx.plug_comp C D _).symm, (Ctx.plug_comp C D _).symm⟩

theorem Lacks.join (h : Lacks i t t₀) (d : Side) (c : Color) (p : Item w) (u : Tree w) :
    Lacks i (.join d c t p u) (.join d c t₀ p u) := h.plug (.step d c .top p u)

theorem plug_ne_nil (D : Ctx w) (ht : t ≠ .nil) : D.plug t ≠ .nil := by
  induction D generalizing t with
  | top => exact ht
  | step d c up i u ih => exact ih Tree.join_ne_nil

theorem Lacks.ne_nil (h : Lacks i t t₀) : t ≠ .nil := by
  obtain ⟨D, rfl, -⟩ := h
  exact plug_ne_nil D (by simp)

/-- The root of a tree with a hole gets another color. -/
theorem paint_plug (D : Ctx w) (hD : D ≠ .top) (c : Color) :
    ∃ D' : Ctx w, ∀ t, (D.plug t).paint c = D'.plug t := by
  induction D with
  | top => exact absurd rfl hD
  | step d c₁ up i u ih =>
    by_cases hup : up = .top
    · subst hup
      exact ⟨.step d c .top i u, fun t => rfl⟩
    · obtain ⟨up', h⟩ := ih hup
      exact ⟨.step d c₁ up' i u, fun t => h _⟩

theorem Lacks.paint (h : Lacks i t t₀) : Lacks i (t.paint .black) (t₀.paint .black) := by
  obtain ⟨D, rfl, rfl⟩ := h
  by_cases hD : D = .top
  · subst hD
    exact .leaf i
  · obtain ⟨D', hD'⟩ := paint_plug D hD .black
    exact ⟨D', hD' _, hD' _⟩

theorem color_plug (D : Ctx w) (hD : D ≠ .top) (t t' : Tree w) :
    (D.plug t).color = (D.plug t').color := by
  induction D generalizing t t' with
  | top => exact absurd rfl hD
  | step d c up i u ih =>
    by_cases hup : up = .top
    · subst hup
      rfl
    · exact ih hup _ _

theorem Lacks.color (h : Lacks i t t₀) : t.color = t₀.color := by
  obtain ⟨D, rfl, rfl⟩ := h
  by_cases hD : D = .top
  · subst hD
    rfl
  · exact color_plug D hD _ _

/-- The loop is over, and with a black root in the hole all is well. -/
structure Settled (C : Ctx w) (t t₀ : Tree w) : Prop where
  stop : C = .top ∨ t.color = .red
  balanced : ∃ m, RB .black m (C.plug (t₀.paint .black))

/-- `m` makes of `T`, which has the leaf `i` that `T₀` has not, another such tree with
the same entries, and returns the address of a subtree with the leaf. -/
def Leads (i : Item w) (s : BitVec w) (T T₀ : Tree w) (m : M w (BitVec w))
    (φ : Ctx w → Tree w → Tree w → Prop) : Prop :=
  ∃ C t t₀, On s T m t.ptr (C.plug t) ∧ Lacks i t t₀ ∧ (C.plug t₀).toList = T₀.toList ∧ φ C t t₀

/-- One level above the subtree still lacks a black node. -/
structure Deeper (C : Ctx w) (h : ℕ) (C' : Ctx w) (t₀ : Tree w) : Prop where
  hole : C' = C
  balanced : RB .black h t₀
  fits : Fits .black (h + 1) C

theorem Leads.mono {s : BitVec w} {T T₀ : Tree w} {m : M w (BitVec w)}
    {φ ψ : Ctx w → Tree w → Tree w → Prop} (h : Leads i s T T₀ m φ)
    (hφ : ∀ C t t₀, φ C t t₀ → ψ C t t₀) : Leads i s T T₀ m ψ := by
  obtain ⟨C, t, t₀, hact, hl, hlist, h⟩ := h
  exact ⟨C, t, t₀, hact, hl, hlist, hφ C t t₀ h⟩

/-- The round ends at the root. -/
theorem Lacks.leads_root {T₀ : Tree w} {m : M w (BitVec w)} {T T' T₀' : Tree w}
    (hact : On s T m T'.ptr T') (hl : Lacks i T' T₀') (hlist : T₀'.toList = T₀.toList)
    (hb : ∃ n, RB .black n T₀') : Leads i s T T₀ m Settled := by
  obtain ⟨n, hb⟩ := hb
  exact ⟨.top, T', T₀', hact, hl, hlist, .inl rfl, hb.paint_black⟩

/-- A round with a black sibling. -/
theorem fixDeletionBlack_leads {h : ℕ} (hl : Lacks i t t₀) (ht : RB .black h t₀)
    (ha : RB c h a) (hb : RB c' h b) (hC : Fits .black (h + 1) (.step d cp C p (.join d .black a q b))) :
    Leads i s (C.plug (.join d cp t p (.join d .black a q b)))
      (C.plug (.join d cp t₀ p (.join d .black a q b))) (fixDeletionBlack d s t.ptr q.n)
      fun C' t' t₀' => Settled C' t' t₀' ∨ cp = .black ∧ Deeper C (h + 1) C' t₀' := by
  have hne := hl.ne_nil
  cases c' with
  | red =>
    -- the far nephew is red
    refine (Lacks.leads_root (fixDeletionBlack_far hne hb.color)
      (((hl.join d .black p a).join d cp q _).plug C) ?_ ?_).mono fun _ _ _ => .inl
    · exact toList_plug_congr C (by cases d <;> simp [Tree.join, Side.pick, Tree.toList, toList_paint])
    · exact hC.step_plug (ht.join_black ha) (hb.paint_red hb.color)
  | black =>
    cases c with
    | red =>
      -- the near one is
      obtain ⟨a₁, n, a₂, rfl, ha₁, ha₂⟩ := ha.red_join d
      refine (Lacks.leads_root (fixDeletionBlack_near hne hb.color)
        (((hl.join d .black p a₁).join d cp n _).plug C) ?_ ?_).mono fun _ _ _ => .inl
      · exact toList_plug_congr C (by cases d <;> simp [Tree.join, Side.pick, Tree.toList])
      · exact hC.step_plug (ht.join_black ha₁) (ha₂.join_black hb)
    | black =>
      -- both are black, and the sibling becomes red
      refine ⟨C, _, .join d cp t₀ p (.join d .red a q b),
        fixDeletionBlack_recolor hne ha.color hb.color, hl.join d cp p _, ?_, ?_⟩
      · exact toList_plug_congr C (by cases d <;> simp [Tree.join, Side.pick, Tree.toList])
      · have hj : RB .black (h + 1) (.join d .black t₀ p (.join d .red a q b)) :=
          ht.join_black (ha.join_red hb)
        cases hC with
        | red hu hup => exact .inl ⟨.inr rfl, hup.to_black.plug hj⟩
        | black hu hup => exact .inr ⟨rfl, rfl, hj, hup⟩

/-- A round of the loop. -/
theorem fixDeletionSide_leads {h : ℕ} (hl : Lacks i t t₀) (ht : RB .black h t₀)
    (hC : Fits .black (h + 1) (.step d cp C p u)) :
    Leads i s (C.plug (.join d cp t p u)) (C.plug (.join d cp t₀ p u)) (fixDeletionSide d s t.ptr)
      fun C' t' t₀' => Settled C' t' t₀' ∨ Deeper C (h + 1) C' t₀' := by
  have hne := hl.ne_nil
  -- the sibling has black nodes below it, so it is not a leaf
  have hu : ∃ cu, RB cu (h + 1) u := by
    cases hC with
    | red hu hup => exact ⟨_, hu⟩
    | black hu hup => exact ⟨_, hu⟩
  obtain ⟨cu, hu⟩ := hu
  cases cu with
  | black =>
    obtain ⟨ca, a, q, cb, b, rfl, ha, hb⟩ := hu.black_join d
    obtain ⟨C', t', t₀', hact, h⟩ := fixDeletionBlack_leads (s := s) hl ht ha hb hC
    exact ⟨C', t', t₀', fixDeletionSide_black hne rfl hact, h.1, h.2.1, h.2.2.imp_right (·.2)⟩
  | red =>
    obtain ⟨a, q, b, rfl, ha, hb⟩ := hu.red_join d
    obtain ⟨ca, a₁, n, cb, a₂, rfl, ha₁, ha₂⟩ := ha.black_join d
    have hup : Fits .black (h + 2) C := by
      cases hC with
      | red hu' hup => exact absurd hu'.of_join_red.1 (by simp)
      | black hu' hup => exact hup
    have hC' : Fits .black (h + 1)
        (.step d .red (.step d .black C q b) p (.join d .black a₁ n a₂)) := .red ha (.black hb hup)
    obtain ⟨C', t', t₀', hact, hl', hlist, hφ⟩ := fixDeletionBlack_leads (s := s) hl ht ha₁ ha₂ hC'
    refine ⟨C', t', t₀', fixDeletionSide_red hne hact, hl', ?_, .inl ?_⟩
    · rw [hlist]
      exact toList_plug_congr C (by cases d <;> simp [Tree.join, Side.pick, Tree.toList])
    · exact hφ.resolve_right fun h => Color.noConfusion h.1

/-! ### The loop -/

theorem fixDeletionLoop_stop {k : ℕ} (h : C = .top ∨ t.color = .red) :
    On s (C.plug t) (fixDeletionLoop s (k + 1) t.ptr) t.ptr (C.plug t) := by
  refine .bind (On.root _) ?_
  by_cases hC : C = .top
  · subst hC
    rw [Ctx.plug, if_pos rfl]
    exact Acts.pure _ _
  · refine On.pos fun hw => On.root_ne hC fun hro => ?_
    rw [if_neg hro]
    refine .bind (On.colorOf C t) ?_
    rw [h.resolve_left hC, if_pos (red_ne_black hw)]
    exact Acts.pure _ _

theorem fixDeletionLoop_step {k : ℕ} {x y : BitVec w} {t₁ t₂ : Tree w} (ht : t ≠ .nil)
    (hc : t.color = .black)
    (hside : On s (C.plug (.join d cp t p u)) (fixDeletionSide d s t.ptr) x t₁)
    (hloop : On s t₁ (fixDeletionLoop s k x) y t₂) :
    On s (C.plug (.join d cp t p u)) (fixDeletionLoop s (k + 1) t.ptr) y t₂ := by
  refine .bind (On.root _) (On.root_ne (C := .step d cp C p u) (by simp) fun hro => ?_)
  rw [Ctx.plug] at hro
  rw [if_neg hro]
  refine .bind (On.colorOf (.step d cp C p u) t) ?_
  rw [hc, if_neg (not_not.mpr (show Color.black.word = BLACK from rfl))]
  refine .bind (On.parentOf (.step d cp C p u) ht) (.bind (On.leftOf C d cp t p u) ?_)
  refine On.ptr_ne ht fun hne => ?_
  rw [Side.pick_eq hne]
  exact .bind hside hloop

/-- The loop ends where a black root is all that the tree needs. -/
theorem fixDeletionLoop_leads {h k : ℕ} (hl : Lacks i t t₀) (ht : RB .black h t₀)
    (hC : Fits .black (h + 1) C) (hk : C.depth < k) :
    Leads i s (C.plug t) (C.plug t₀) (fixDeletionLoop s k t.ptr) Settled := by
  induction k generalizing C t t₀ h with
  | zero => omega
  | succ k ih =>
    cases C with
    | top =>
      exact ⟨.top, t, t₀, fixDeletionLoop_stop (.inl rfl), hl, rfl, .inl rfl, ht.paint_black⟩
    | step d cp C p u =>
      have hc : t.color = .black := hl.color.trans ht.color
      simp only [Ctx.depth] at hk
      obtain ⟨C', t', t₀', hside, hl', hlist, hset | ⟨rfl, ht', hC'⟩⟩ :=
        fixDeletionSide_leads (s := s) hl ht hC
      · obtain ⟨k, rfl⟩ : ∃ m, k = m + 1 := ⟨k - 1, by omega⟩
        exact ⟨C', t', t₀', fixDeletionLoop_step hl.ne_nil hc hside
          (fixDeletionLoop_stop hset.stop), hl', hlist, hset⟩
      · obtain ⟨C'', t'', t₀'', hloop, hl'', hlist', hset⟩ := ih hl' ht' hC' (by omega)
        exact ⟨C'', t'', t₀'', fixDeletionLoop_step hl.ne_nil hc hside hloop, hl'',
          hlist'.trans hlist, hset⟩

/-- After the loop the root of the subtree becomes black. -/
theorem fixAfterDeletion_of_loop {k : ℕ} {x : BitVec w} {T : Tree w} (ht : t ≠ .nil)
    (hloop : On s T (fixDeletionLoop s k x) t.ptr (C.plug t)) :
    On s T (fixAfterDeletion k s x) () (C.plug (t.paint .black)) := by
  refine .bind hloop (On.ne_null ht fun hnull => ?_)
  rw [onlyIf, if_pos hnull]
  exact paintBlack_on ht

/-- After `fixAfterDeletion` the tree without the leaf is red-black. -/
theorem fixAfterDeletion_on {h k : ℕ} (hl : Lacks i t t₀) (ht : RB .black h t₀)
    (hC : Fits .black (h + 1) C) (hk : C.depth < k) :
    ∃ T T₀, On s (C.plug t) (fixAfterDeletion k s t.ptr) () T ∧ Lacks i T T₀ ∧
      T₀.toList = (C.plug t₀).toList ∧ ∃ m, RB .black m T₀ := by
  obtain ⟨C', t', t₀', hloop, hl', hlist, hset⟩ := fixDeletionLoop_leads (s := s) hl ht hC hk
  refine ⟨C'.plug (t'.paint .black), C'.plug (t₀'.paint .black),
    fixAfterDeletion_of_loop hl'.ne_nil hloop, hl'.paint.plug C', ?_, hset.balanced⟩
  rw [← hlist]
  exact toList_plug_congr C' (toList_paint _ _)

end Lacks

end TinyStm.Rbtree
