import TinyStm.Rbtree.Map
import TinyStm.Rbtree.Walk

/-!
# The self-check

`rbtree_verify` walks through the tree in order and compares every key with the next one;
then it computes the black heights. It prints what is wrong, and does not always return
it, so what it prints is part of the result.
-/

namespace TinyStm.Rbtree

open Cells Entries

variable {w : ℕ} {s : BitVec w} {compare : BitVec w → BitVec w → ℤ} {D : BitVec w → Prop}
  {L : List (BitVec w × BitVec w)}

/-- What is printed. -/
inductive Report where
  | imbalance (depth left right : ℕ)
  | lineage
  | verify
  | rootParent
  | rootColor
  | badParent
  | keyOrder
  deriving DecidableEq

/-! ### The code -/

/-- `child != NULL && child->p != n`, with what is printed then. -/
def checkParent (rep : Report) (n child : BitVec w) : M w (List Report) :=
  if child ≠ NULL then do
    let p ← ld child .p
    pure (if p ≠ n then [rep] else [])
  else pure []

/-- `child != NULL && child->c != BLACK`. -/
def redChild (child : BitVec w) : M w Bool :=
  if child ≠ NULL then do
    let c ← ld child .c
    pure (decide (c ≠ BLACK))
  else pure false

/-- What `verifyRedBlack` does after its calls (`rbtree.c:1166-1193`). -/
def verifyNode (root : BitVec w) (depth left right : ℕ) : M w (ℕ × List Report) := do
  let imbalance := if left ≠ right then [Report.imbalance depth left right] else []
  let lineageL ← checkParent .lineage root (← ld root .l)
  let lineageR ← checkParent .lineage root (← ld root .r)
  let printed := imbalance ++ lineageL ++ lineageR
  let c ← ld root .c
  if c = RED then do
    let redL ← redChild (← ld root .l)
    if redL = true then pure (0, printed ++ [.verify])
    else do
      let redR ← redChild (← ld root .r)
      if redR = true then pure (0, printed ++ [.verify])
      else pure (left, printed)
  else if c ≠ BLACK then pure (0, printed ++ [.verify])
  else pure (left + 1, printed)

/-- `verifyRedBlack` (`rbtree.c:1150-1194`): the black height, and what is printed. -/
def verifyRedBlack : ℕ → BitVec w → ℕ → M w (ℕ × List Report)
  | 0, _, _ => .fail
  | n + 1, root, depth =>
    if root = NULL then pure (1, [])
    else do
      let (left, printedL) ← verifyRedBlack n (← ld root .l) (depth + 1)
      let (right, printedR) ← verifyRedBlack n (← ld root .r) (depth + 1)
      if left = 0 ∨ right = 0 then pure (0, printedL ++ printedR)
      else do
        let (height, printed) ← verifyNode root depth left right
        pure (height, printedL ++ printedR ++ printed)

/-- `firstEntry` (`rbtree.c:1087-1097`). -/
def firstEntry (fuel : ℕ) (s : BitVec w) : M w (BitVec w) := do
  let p ← ld s .root
  if p ≠ NULL then descend .l fuel p else pure p

/-- The loop of `rbtree_verify` (`rbtree.c:1223-1245`): whether it was left by its end,
the nodes that it counted, and what is printed. -/
def verifyLoop (compare : BitVec w → BitVec w → ℤ) (fuel : ℕ) :
    ℕ → BitVec w → ℕ → M w (Bool × ℕ × List Report)
  | 0, _, _ => .fail
  | n + 1, its, ctr =>
    if its = NULL then pure (true, ctr, [])
    else do
      let badL ← checkParent .badParent its (← ld its .l)
      let badR ← checkParent .badParent its (← ld its .r)
      let nxt ← successor fuel its
      if nxt = NULL then pure (true, ctr + 1, badL ++ badR)
      else do
        let k ← ld its .k
        let k' ← ld nxt .k
        if compare k k' ≥ 0 then pure (false, ctr + 1, badL ++ badR ++ [.keyOrder])
        else do
          let (ok, ctr, printed) ← verifyLoop compare fuel n nxt (ctr + 1)
          pure (ok, ctr, badL ++ badR ++ printed)

/-- `rbtree_verify` (`rbtree.c:1201-1254`): its result, the nodes that it counted, and
what it prints without `verbose`. -/
def rbtreeVerify (compare : BitVec w → BitVec w → ℤ) (fuel : ℕ) (s : BitVec w) :
    M w (ℤ × ℕ × List Report) := do
  let root ← ld s .root
  if root = NULL then pure (1, 0, [])
  else do
    let p ← ld root .p
    if p ≠ NULL then pure (-1, 0, [.rootParent])
    else do
      let c ← ld root .c
      let color := if c ≠ BLACK then [Report.rootColor] else []
      let (ok, ctr, printed) ← verifyLoop compare fuel fuel (← firstEntry fuel s) 0
      if ok = false then pure (-3, ctr, color ++ printed)
      else do
        let (vfy, printed') ← verifyRedBlack fuel root 0
        pure (vfy, ctr, color ++ printed ++ printed')

/-! ### On a red-black tree -/

variable {C : Ctx w} {d : Side} {c : Color} {t l r u : Tree w} {i : Item w} {fuel h : ℕ}

theorem checkParent_on (rep : Report) :
    On s (C.plug (.join d c t i u)) (checkParent rep i.n t.ptr) [] (C.plug (.join d c t i u)) := by
  cases t with
  | nil =>
    rw [checkParent, if_neg (not_not.mpr (show Tree.nil.ptr = NULL from rfl))]
    exact Acts.pure _ _
  | node c' l' j r' =>
    refine On.ne_null (C := .step d c C i u) (t := .node c' l' j r') (by simp) fun hnull => ?_
    rw [checkParent, if_pos hnull]
    refine .bind (On.ld_p (.step d c C i u) .l c' l' j r') ?_
    rw [Ctx.parent, if_neg (not_not.mpr rfl)]
    exact Acts.pure _ _

theorem redChild_on (hw : 0 < w) :
    On s (C.plug (.join d c t i u)) (redChild t.ptr) (decide (t.color = .red))
      (C.plug (.join d c t i u)) := by
  cases t with
  | nil =>
    rw [redChild, if_neg (not_not.mpr (show Tree.nil.ptr = NULL from rfl))]
    exact Acts.pure _ _
  | node c' l' j r' =>
    refine On.ne_null (C := .step d c C i u) (t := .node c' l' j r') (by simp) fun hnull => ?_
    rw [redChild, if_pos hnull]
    refine .bind (On.ld_c (.step d c C i u) .l c' l' j r') ?_
    have hc : c'.word ≠ (BLACK : BitVec w) ↔ c' = .red :=
      (word_eq_black hw).not.trans (by cases c' <;> simp)
    rw [decide_eq_decide.mpr hc]
    exact Acts.pure _ _

theorem verifyNode_on {n depth : ℕ} (hw : 0 < w) (ht : RB c h (.node c l i r))
    (hn : n = if c = .red then h + 1 else h) :
    On s (C.plug (.node c l i r)) (verifyNode i.n depth n n) (h + 1, []) (C.plug (.node c l i r)) := by
  refine .bind (On.ld_field C .l c l i r) (.bind (checkParent_on (d := .l) .lineage) ?_)
  refine .bind (On.ld_field C .r c r i l) (.bind (checkParent_on (d := .r) .lineage) ?_)
  refine .bind (On.ld_c C .l c l i r) ?_
  rw [if_neg (not_not.mpr rfl)]
  cases ht with
  | red hl hr =>
    rw [if_pos (show Color.red.word = RED from rfl), hn, if_pos rfl]
    refine .bind (On.ld_field C .l .red l i r) (.bind (redChild_on (d := .l) hw) ?_)
    rw [hl.color, if_neg (by simp)]
    refine .bind (On.ld_field C .r .red r i l) (.bind (redChild_on (d := .r) hw) ?_)
    rw [hr.color, if_neg (by simp)]
    exact Acts.pure _ _
  | black hl hr =>
    rw [if_neg (black_ne_red hw), if_neg (not_not.mpr (show Color.black.word = BLACK from rfl)), hn]
    exact Acts.pure _ _

theorem verifyRedBlack_node {n depth v x : ℕ}
    (hl : On s (C.plug (.node c l i r)) (verifyRedBlack n l.ptr (depth + 1)) (v + 1, [])
      (C.plug (.node c l i r)))
    (hr : On s (C.plug (.node c l i r)) (verifyRedBlack n r.ptr (depth + 1)) (v + 1, [])
      (C.plug (.node c l i r)))
    (hnode : On s (C.plug (.node c l i r)) (verifyNode i.n depth (v + 1) (v + 1)) (x, [])
      (C.plug (.node c l i r))) :
    On s (C.plug (.node c l i r)) (verifyRedBlack (n + 1) i.n depth) (x, [])
      (C.plug (.node c l i r)) := by
  refine On.ne_null (by simp) fun hnull : i.n ≠ NULL => ?_
  rw [verifyRedBlack, if_neg hnull]
  refine .bind (On.ld_field C .l c l i r) (.bind hl ?_)
  refine .bind (On.ld_field C .r c r i l) (.bind hr ?_)
  dsimp only
  rw [if_neg (by omega)]
  exact .bind hnode (Acts.pure _ _)

/-- `verifyRedBlack` finds the black height and nothing to complain of. -/
theorem verifyRedBlack_on {n depth : ℕ} (hw : 0 < w) (ht : RB c h t) (hn : t.height < n) :
    On s (C.plug t) (verifyRedBlack n t.ptr depth) (h + 1, []) (C.plug t) := by
  obtain ⟨n, rfl⟩ : ∃ m, n = m + 1 := ⟨n - 1, by omega⟩
  induction ht generalizing C n depth with
  | nil =>
    rw [Tree.ptr, verifyRedBlack, if_pos rfl]
    exact Acts.pure _ _
  | @red h l i r hl hr ihl ihr =>
    simp only [Tree.height] at hn
    obtain ⟨n, rfl⟩ : ∃ m, n = m + 1 := ⟨n - 1, by omega⟩
    exact verifyRedBlack_node (ihl (C := .step .l .red C i r) n (by omega))
      (ihr (C := .step .r .red C i l) n (by omega)) (verifyNode_on hw (.red hl hr) rfl)
  | @black c c' h l i r hl hr ihl ihr =>
    simp only [Tree.height] at hn
    obtain ⟨n, rfl⟩ : ∃ m, n = m + 1 := ⟨n - 1, by omega⟩
    exact verifyRedBlack_node (ihl (C := .step .l .black C i r) n (by omega))
      (ihr (C := .step .r .black C i l) n (by omega)) (verifyNode_on hw (.black hl hr) rfl)

/-- The loop counts the node it is at and all that come after it. -/
theorem verifyLoop_on {n ctr : ℕ} (hL : Sorted compare D (C.plug (.node c l i r)).toList)
    (hf : (C.plug (.node c l i r)).height ≤ fuel) (hn : (r.toList ++ C.after).length < n) :
    On s (C.plug (.node c l i r)) (verifyLoop compare fuel n i.n ctr)
      (true, ctr + 1 + (r.toList ++ C.after).length, []) (C.plug (.node c l i r)) := by
  induction n generalizing C c l i r ctr with
  | zero => omega
  | succ n ih =>
    refine On.ne_null (by simp) fun hnull : i.n ≠ NULL => ?_
    rw [verifyLoop, if_neg hnull]
    refine .bind (On.ld_field C .l c l i r) (.bind (checkParent_on (d := .l) .badParent) ?_)
    refine .bind (On.ld_field C .r c r i l) (.bind (checkParent_on (d := .r) .badParent) ?_)
    refine .bind (successor_on (t := .node c l i r) (by simp) hf) ?_
    obtain ⟨hnil, hrest⟩ | ⟨c', l', j, r', hnext, hplug, hrest⟩ := Tree.next_cases C c l r i
    · rw [hnil, if_pos (show Tree.nil.ptr = NULL from rfl), hrest]
      exact Acts.pure _ _
    · obtain ⟨E, hE⟩ : ∃ E, E = ((Tree.node c l i r).next C).1 := ⟨_, rfl⟩
      rw [← hE] at hplug hrest
      have hlt : compare i.k j.k < 0 := by
        have hpair := hL.lt
        rw [toList_plug, Tree.toList, List.append_assoc, List.cons_append, hrest,
          List.pairwise_append] at hpair
        have := (List.pairwise_append.mp hpair.2.1).2.1
        exact (List.pairwise_cons.mp this).1 (j.k, j.v) List.mem_cons_self
      have hrec : On s (E.plug (.node c' l' j r')) (verifyLoop compare fuel n j.n (ctr + 1))
          (true, ctr + 1 + 1 + (r'.toList ++ E.after).length, []) (E.plug (.node c' l' j r')) :=
        ih (hplug ▸ hL) (hplug ▸ hf)
          (by rw [hrest] at hn; simp only [List.length_cons] at hn; omega)
      have hld := On.ld_k (s := s) E .l c' l' j r'
      rw [Tree.join, Side.pick, Side.pick] at hld
      rw [hplug] at hrec hld
      rw [hnext]
      refine Acts.of_fact (φ := j.n ≠ NULL) (fun R H hP => ?_) fun hj => ?_
      · exact whole_ne_null (C := E) (t := .node c' l' j r') (by simp) (hplug ▸ hP)
      rw [if_neg (show (Tree.node c' l' j r').ptr ≠ NULL from hj)]
      refine .bind (On.ld_k C .l c l i r) (.bind hld ?_)
      rw [if_neg (by omega), hrest]
      refine .bind hrec ?_
      rw [show ctr + 1 + ((j.k, j.v) :: (r'.toList ++ E.after)).length =
        ctr + 1 + 1 + (r'.toList ++ E.after).length by simp only [List.length_cons]; omega]
      exact Acts.pure _ _

theorem height_le_length (t : Tree w) : t.height ≤ t.toList.length := by
  induction t with
  | nil => simp [Tree.height]
  | node c l i r ihl ihr =>
    simp only [Tree.height, Tree.toList, List.length_append, List.length_cons]
    omega

theorem firstEntry_on (ht : t ≠ .nil) (hf : t.height ≤ fuel) :
    On s t (firstEntry fuel s) (t.first .top).2.ptr t := by
  refine .bind (On.root t) (On.ne_null (C := .top) ht fun hnull => ?_)
  rw [if_pos hnull]
  exact descend_on (C := .top) ht hf

/-- On a sorted red-black tree `rbtree_verify` counts all entries, returns the black
height and prints nothing. -/
theorem rbtreeVerify_on (hw : 0 < w) (ht : RB .black h t) (hL : Sorted compare D t.toList)
    (hf : t.toList.length < fuel) :
    On s t (rbtreeVerify compare fuel s) ((h + 1 : ℕ), t.toList.length, []) t := by
  have hle := height_le_length t
  have hwalk : On s t (verifyRedBlack fuel t.ptr 0) (h + 1, []) t :=
    verifyRedBlack_on (C := .top) hw ht (by omega)
  refine .bind (On.root t) ?_
  cases t with
  | nil =>
    cases ht
    exact Acts.pure _ _
  | node c l i r =>
    obtain rfl : c = .black := ht.color
    refine On.ne_null (C := .top) (by simp) fun hnull => ?_
    rw [if_neg hnull]
    refine .bind (On.ld_p .top .l .black l i r) ?_
    rw [Ctx.parent, if_neg (not_not.mpr rfl)]
    refine .bind (On.ld_c .top .l .black l i r)
      (.bind (firstEntry_on (t := .node .black l i r) (by simp) (by omega)) ?_)
    -- the walk from the first node
    obtain ⟨E, hE⟩ : ∃ E, E = ((Tree.node .black l i r).first .top).1 := ⟨_, rfl⟩
    obtain ⟨c₁, j, r₁, hfirst⟩ := first_eq (t := .node .black l i r) (by simp) .top
    have hrest := congrArg List.length (first_rest hfirst)
    have hplug := plug_first (.node .black l i r) .top
    rw [← hE, hfirst, Ctx.plug] at hplug
    rw [← hE, Ctx.after, List.append_nil, List.length_cons] at hrest
    have hloop : On s (E.plug (.node c₁ .nil j r₁)) (verifyLoop compare fuel fuel j.n 0)
        (true, 0 + 1 + (r₁.toList ++ E.after).length, []) (E.plug (.node c₁ .nil j r₁)) :=
      verifyLoop_on (hplug ▸ hL) (by rw [hplug]; omega) (by omega)
    rw [hplug, show 0 + 1 + (r₁.toList ++ E.after).length = (Tree.node .black l i r).toList.length by
      omega] at hloop
    rw [hfirst]
    refine .bind hloop ?_
    dsimp only
    rw [if_neg (by simp), if_neg (not_not.mpr (show Color.black.word = BLACK from rfl))]
    exact .bind hwalk (Acts.pure _ _)

end TinyStm.Rbtree
