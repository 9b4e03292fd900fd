import TinyStm.Rbtree.Shape

/-!
# Red and black

A red node has black children, and every path from a node to a leaf has the same number
of black nodes; for a tree with a hole, what fits into it.
-/

namespace TinyStm.Rbtree

variable {w : ℕ}

/-- A tree with root color `c` and `h` black nodes on every path. -/
inductive RB : Color → ℕ → Tree w → Prop
  | nil : RB .black 0 .nil
  | red {h : ℕ} {l : Tree w} {i : Item w} {r : Tree w} : RB .black h l → RB .black h r → RB .red h (.node .red l i r)
  | black {c c' : Color} {h : ℕ} {l : Tree w} {i : Item w} {r : Tree w} : RB c h l → RB c' h r → RB .black (h + 1) (.node .black l i r)

/-- A tree of root color `c` with `h` black nodes on every path fits into the hole. -/
inductive Fits : Color → ℕ → Ctx w → Prop
  | top {h : ℕ} : Fits .black h .top
  | red {d : Side} {h : ℕ} {up : Ctx w} {i : Item w} {u : Tree w} :
      RB .black h u → Fits .red h up → Fits .black h (.step d .red up i u)
  | black {d : Side} {c c' : Color} {h : ℕ} {up : Ctx w} {i : Item w} {u : Tree w} :
      RB c' h u → Fits .black (h + 1) up → Fits c h (.step d .black up i u)

variable {d : Side} {c c' : Color} {h : ℕ} {t u : Tree w} {i : Item w} {C : Ctx w}

theorem RB.color (ht : RB c h t) : t.color = c := by cases ht <;> rfl

theorem RB.join_red (ht : RB .black h t) (hu : RB .black h u) : RB .red h (.join d .red t i u) := by
  cases d
  · exact .red ht hu
  · exact .red hu ht

theorem RB.join_black (ht : RB c h t) (hu : RB c' h u) :
    RB .black (h + 1) (.join d .black t i u) := by
  cases d
  · exact .black ht hu
  · exact .black hu ht

theorem RB.of_join_red (ht : RB c h (.join d .red t i u)) :
    c = .red ∧ RB .black h t ∧ RB .black h u := by
  cases d <;> cases ht with
  | red hl hr => first | exact ⟨rfl, hl, hr⟩ | exact ⟨rfl, hr, hl⟩

theorem RB.of_join_black (ht : RB c h (.join d .black t i u)) :
    c = .black ∧ ∃ n, h = n + 1 ∧ (∃ c, RB c n t) ∧ ∃ c, RB c n u := by
  cases d <;> cases ht with
  | black hl hr => first | exact ⟨rfl, _, rfl, ⟨_, hl⟩, _, hr⟩ | exact ⟨rfl, _, rfl, ⟨_, hr⟩, _, hl⟩

theorem RB.red_join (d : Side) (ht : RB .red h t) :
    ∃ a q b, t = .join d .red a q b ∧ RB .black h a ∧ RB .black h b := by
  cases ht with
  | red hl hr =>
    cases d
    · exact ⟨_, _, _, rfl, hl, hr⟩
    · exact ⟨_, _, _, rfl, hr, hl⟩

theorem RB.black_join (d : Side) (ht : RB .black (h + 1) t) :
    ∃ c a q c' b, t = .join d .black a q b ∧ RB c h a ∧ RB c' h b := by
  cases ht with
  | black hl hr =>
    cases d
    · exact ⟨_, _, _, _, _, rfl, hl, hr⟩
    · exact ⟨_, _, _, _, _, rfl, hr, hl⟩

/-- The entry of a node does not matter. -/
theorem RB.entry {l r : Tree w} (ht : RB c h (.node c' l i r)) (j : Item w) :
    RB c h (.node c' l j r) := by
  cases ht with
  | red hl hr => exact .red hl hr
  | black hl hr => exact .black hl hr

/-- Without black nodes there is at most one node. -/
theorem RB.zero (ht : RB c 0 t) : t = .nil ∨ ∃ j, t = .node .red .nil j .nil := by
  have hnil : ∀ {t : Tree w}, RB .black 0 t → t = .nil := fun ht => by
    cases ht
    rfl
  cases ht with
  | nil => exact .inl rfl
  | red hl hr =>
    rw [hnil hl, hnil hr]
    exact .inr ⟨_, rfl⟩

/-- A red root may become black. -/
theorem RB.paint_black (ht : RB c h t) : ∃ n, RB .black n (t.paint .black) := by
  cases ht with
  | nil => exact ⟨0, .nil⟩
  | red hl hr => exact ⟨_, .black hl hr⟩
  | black hl hr => exact ⟨_, .black hl hr⟩

theorem RB.paint_red (ht : RB c h t) (hc : t.color = .red) : RB .black (h + 1) (t.paint .black) := by
  cases ht with
  | nil => cases hc
  | red hl hr => exact .black hl hr
  | black hl hr => cases hc

theorem Fits.plug (hC : Fits c h C) (ht : RB c h t) : ∃ n, RB .black n (C.plug t) := by
  induction C generalizing c h t with
  | top =>
    cases hC
    exact ⟨h, ht⟩
  | step d c up i u ih =>
    cases hC with
    | red hu hup => exact ih hup (ht.join_red hu)
    | black hu hup => exact ih hup (ht.join_black hu)

/-- Two black trees fit below the parent of a hole for one of them. -/
theorem Fits.step_plug {j : Item w} {x y : Tree w} (hC : Fits .black h (.step d c C i u))
    (hx : RB .black h x) (hy : RB .black h y) : ∃ n, RB .black n (C.plug (.join d c x j y)) := by
  cases hC with
  | red hu hup => exact hup.plug (hx.join_red hy)
  | black hu hup => exact hup.plug (hx.join_black hy)

/-- Every subtree of a red-black tree fits into its hole. -/
theorem RB.focus (ht : RB .black h (C.plug t)) : ∃ c n, RB c n t ∧ Fits c n C := by
  induction C generalizing t with
  | top => exact ⟨_, _, ht, .top⟩
  | step d c up i u ih =>
    obtain ⟨c', n, hj, hup⟩ := ih ht
    cases c with
    | red =>
      obtain ⟨rfl, ht, hu⟩ := hj.of_join_red
      exact ⟨_, _, ht, .red hu hup⟩
    | black =>
      obtain ⟨rfl, m, rfl, ⟨c, ht⟩, c', hu⟩ := hj.of_join_black
      exact ⟨_, _, ht, .black hu hup⟩

/-- Above a red node there is a black one. -/
theorem Fits.of_red (hC : Fits .red h C) :
    ∃ (d : Side) (c' : Color) (up : Ctx w) (i : Item w) (u : Tree w), C = .step d .black up i u ∧
      RB c' h u ∧ Fits .black (h + 1) up := by
  cases hC with
  | black hu hup => exact ⟨_, _, _, _, _, rfl, hu, hup⟩

/-- Where a red node fits, a black one does. -/
theorem Fits.to_black (hC : Fits c h C) : Fits .black h C := by
  cases hC with
  | top => exact .top
  | red hu hup => exact .red hu hup
  | black hu hup => exact .black hu hup

end TinyStm.Rbtree
