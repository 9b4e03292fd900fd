import TinyStm.Lib.Entries
import TinyStm.Rbtree.Edits

/-!
# Look-up

Where the search for a key ends: in the node with the key, or in the hole where it
belongs. What comes before the hole in the order of the tree is smaller and what comes
after it is larger.
-/

namespace TinyStm.Rbtree

open Cells Entries

variable {w : ℕ} {s : BitVec w} {compare : BitVec w → BitVec w → ℤ} {k : BitVec w}

/-! ### Around a hole -/

def Tree.height : Tree w → ℕ
  | .nil => 0
  | .node _ l _ r => max l.height r.height + 1

/-- The entries before the hole. -/
def Ctx.before : Ctx w → List (BitVec w × BitVec w)
  | .top => []
  | .step .l _ up _ _ => up.before
  | .step .r _ up i u => up.before ++ (u.toList ++ [(i.k, i.v)])

def Ctx.after : Ctx w → List (BitVec w × BitVec w)
  | .top => []
  | .step .l _ up i u => (i.k, i.v) :: u.toList ++ up.after
  | .step .r _ up _ _ => up.after

theorem toList_plug (C : Ctx w) (t : Tree w) :
    (C.plug t).toList = C.before ++ (t.toList ++ C.after) := by
  induction C generalizing t with
  | top => simp [Ctx.plug, Ctx.before, Ctx.after]
  | step d c up i u ih =>
    cases d <;> simp [Ctx.plug, ih, Tree.join, Side.pick, Tree.toList, Ctx.before, Ctx.after]

theorem depth_le_height (C : Ctx w) (t : Tree w) : C.depth + t.height ≤ (C.plug t).height := by
  induction C generalizing t with
  | top => simp [Ctx.depth, Ctx.plug]
  | step d c up i u ih =>
    have h := ih (.join d c t i u)
    have hj : t.height + 1 ≤ (Tree.join d c t i u).height := by
      cases d <;> simp only [Tree.join, Side.pick, Tree.height] <;> omega
    simp only [Ctx.depth, Ctx.plug]
    omega

theorem height_plug_congr (C : Ctx w) {t t' : Tree w} (h : t.height = t'.height) :
    (C.plug t).height = (C.plug t').height := by
  induction C generalizing t t' with
  | top => exact h
  | step d c up i u ih => exact ih (by cases d <;> simp only [Tree.join, Side.pick, Tree.height, h])

/-! ### The search -/

/-- The hole around the node with the key `k`, or around the place for it. -/
def Tree.seek (compare : BitVec w → BitVec w → ℤ) (k : BitVec w) : Tree w → Ctx w → Ctx w × Tree w
  | .nil, C => (C, .nil)
  | .node c l i r, C =>
    if compare k i.k = 0 then (C, .node c l i r)
    else if compare k i.k < 0 then seek compare k l (.step .l c C i r)
    else seek compare k r (.step .r c C i l)

theorem plug_seek (t : Tree w) (C : Ctx w) :
    (t.seek compare k C).1.plug (t.seek compare k C).2 = C.plug t := by
  induction t generalizing C with
  | nil => rfl
  | node c l i r ihl ihr =>
    rw [Tree.seek]
    split_ifs with h₀ h₁
    · rfl
    · exact ihl _
    · exact ihr _

variable {D : BitVec w → Prop}

/-- The hole is the place of `k` in the order. -/
abbrev Ctx.Around (compare : BitVec w → BitVec w → ℤ) (D : BitVec w → Prop) (k : BitVec w)
    (C : Ctx w) : Prop := Split compare D k C.before C.after

theorem Ctx.Around.step_l {C : Ctx w} {c : Color} {l r : Tree w} {i : Item w}
    (hD : Ordered compare D) (hk : D k) (hs : Sorted compare D (C.plug (.node c l i r)).toList)
    (hC : C.Around compare D k) (hlt : compare k i.k < 0) :
    (Ctx.step .l c C i r).Around compare D k := by
  refine ⟨hC.lt, fun e he => ?_⟩
  rw [toList_plug, Tree.toList] at hs
  simp only [Ctx.after, List.cons_append, List.mem_cons, List.mem_append] at he
  obtain rfl | he | he := he
  · exact ⟨hs.mem (i.k, i.v) (by simp), hlt⟩
  · have hie : compare i.k e.1 < 0 := by
      have hnode := (List.pairwise_append.mp (List.pairwise_append.mp hs.lt).2.1).1
      exact (List.pairwise_cons.mp (List.pairwise_append.mp hnode).2.1).1 e he
    have hDe : D e.1 := hs.mem e (by simp [he])
    exact ⟨hDe, hD.trans hk (hs.mem (i.k, i.v) (by simp)) hDe hlt hie⟩
  · exact hC.gt e he

theorem Ctx.Around.step_r {C : Ctx w} {c : Color} {l r : Tree w} {i : Item w}
    (hD : Ordered compare D) (hk : D k) (hs : Sorted compare D (C.plug (.node c l i r)).toList)
    (hC : C.Around compare D k) (hlt : compare i.k k < 0) :
    (Ctx.step .r c C i l).Around compare D k := by
  refine ⟨fun e he => ?_, hC.gt⟩
  rw [toList_plug, Tree.toList] at hs
  simp only [Ctx.before, List.mem_append, List.mem_singleton] at he
  obtain he | he | rfl := he
  · exact hC.lt e he
  · have hie : compare e.1 i.k < 0 := by
      have hnode := (List.pairwise_append.mp (List.pairwise_append.mp hs.lt).2.1).1
      exact (List.pairwise_append.mp hnode).2.2 e he (i.k, i.v) (by simp)
    have hDe : D e.1 := hs.mem e (by simp [he])
    exact ⟨hDe, hD.trans hDe (hs.mem (i.k, i.v) (by simp)) hk hie hlt⟩
  · exact ⟨hs.mem (i.k, i.v) (by simp), hlt⟩

/-- In a sorted tree the search ends in the place of `k`. -/
theorem seek_around (hD : Ordered compare D) (hk : D k) {t : Tree w} {C : Ctx w}
    (hs : Sorted compare D (C.plug t).toList) (hC : C.Around compare D k) :
    (t.seek compare k C).1.Around compare D k := by
  induction t generalizing C with
  | nil => exact hC
  | node c l i r ihl ihr =>
    have hi : D i.k := hs.mem (i.k, i.v) (by rw [toList_plug, Tree.toList]; simp)
    rw [Tree.seek]
    split_ifs with h₀ h₁
    · exact hC
    · exact ihl hs (hC.step_l hD hk hs h₁)
    · exact ihr hs (hC.step_r hD hk hs ((hD.symm hk hi).mp (by omega)))

theorem seek_node {t : Tree w} {C : Ctx w} {c : Color} {l r : Tree w} {i : Item w}
    (h : (t.seek compare k C).2 = .node c l i r) : compare k i.k = 0 := by
  induction t generalizing C with
  | nil => cases h
  | node c₁ l₁ j r₁ ihl ihr =>
    rw [Tree.seek] at h
    split_ifs at h with h₀ h₁
    · cases h
      exact h₀
    · exact ihl h
    · exact ihr h

/-! ### The loop -/

theorem lookupLoop_on {t : Tree w} {C : Ctx w} {n : ℕ} (hn : t.height < n) :
    On s (C.plug t) (lookupLoop compare k n t.ptr) (t.seek compare k C).2.ptr (C.plug t) := by
  induction t generalizing C n with
  | nil =>
    obtain ⟨n, rfl⟩ : ∃ m, n = m + 1 := ⟨n - 1, by omega⟩
    rw [Tree.ptr, lookupLoop, if_pos rfl]
    exact Acts.pure _ _
  | node c l i r ihl ihr =>
    obtain ⟨n, rfl⟩ : ∃ m, n = m + 1 := ⟨n - 1, by omega⟩
    simp only [Tree.height] at hn
    refine On.ne_null (by simp) fun hi => ?_
    rw [lookupLoop, if_neg hi]
    refine .bind (On.ld_k C .l c l i r) ?_
    rw [Tree.seek]
    split_ifs with h₀ h₁
    · exact Acts.pure _ _
    · exact .bind (On.ld_field C .l c l i r) (ihl (C := .step .l c C i r) (by omega))
    · exact .bind (On.ld_field C .r c r i l) (ihr (C := .step .r c C i l) (by omega))

/-- `lookup` returns the node where the search ends. -/
theorem lookup_on {t : Tree w} {n : ℕ} (hn : t.height < n) :
    On s t (lookup compare n s k) (t.seek compare k .top).2.ptr t :=
  .bind (On.root t) (lookupLoop_on (C := .top) hn)

end TinyStm.Rbtree
