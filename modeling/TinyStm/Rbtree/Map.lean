import TinyStm.Rbtree.Remove
import Mathlib.Data.Nat.Log

/-!
# The map

What the functions of the interface do to the map that the tree stands for. A tree is as
high as twice the logarithm of its size, which bounds the rounds of every loop.
-/

namespace TinyStm.Rbtree

open Cells Entries

variable {w : ℕ} {s : BitVec w} {compare : BitVec w → BitVec w → ℤ} {D : BitVec w → Prop}
  {k v n : BitVec w} {L : List (BitVec w × BitVec w)} {A Q : Assn Field (BitVec w)} {fuel : ℕ}

/-! ### The height -/

theorem RB.height_le {c : Color} {h : ℕ} {t : Tree w} (ht : RB c h t) :
    t.height ≤ 2 * h + if c = .red then 1 else 0 := by
  induction ht with
  | nil => simp [Tree.height]
  | red hl hr ihl ihr => simp [Tree.height] at *; omega
  | @black c c' h l i r hl hr ihl ihr =>
    have hc : ∀ c : Color, (if c = .red then 1 else 0) ≤ 1 := fun c => by split <;> simp
    have := hc c
    have := hc c'
    simp only [Tree.height]
    omega

theorem RB.size_le {c : Color} {h : ℕ} {t : Tree w} (ht : RB c h t) :
    2 ^ h ≤ t.toList.length + 1 := by
  induction ht with
  | nil => simp
  | red hl hr ihl ihr => simp only [Tree.toList, List.length_append, List.length_cons]; omega
  | black hl hr ihl ihr =>
    simp only [Tree.toList, List.length_append, List.length_cons, pow_succ]
    omega

/-- The height is at most twice the logarithm of the size. -/
theorem RB.height_log {h : ℕ} {t : Tree w} (ht : RB .black h t) :
    t.height ≤ 2 * Nat.log 2 (t.toList.length + 1) := by
  have hlog : h ≤ Nat.log 2 (t.toList.length + 1) := Nat.le_log_of_pow_le (by simp) ht.size_le
  have hle := ht.height_le
  simp at hle
  omega

/-! ### The tree and its map -/

/-- A red-black tree at `s` with the entries `L`. -/
def IsMap (s : BitVec w) (L : List (BitVec w × BitVec w)) : Assn Field (BitVec w) :=
  fun H => ∃ t h, RB .black h t ∧ t.toList = L ∧ whole s t H

theorem isMap_acts {α : Type} {m : M w α} {r : α}
    (h : ∀ t n, RB .black n t → t.toList = L → Acts (whole s t * A) m r Q) :
    Acts (IsMap s L * A) m r Q := by
  refine Acts.of_part fun H hH => ?_
  obtain ⟨t, n, ht, hL, hH⟩ := hH
  exact ⟨_, hH, h t n ht hL⟩

theorem isMap_only {α : Type} {m : M w α} {r : α}
    (h : ∀ t n, RB .black n t → t.toList = L → Acts (whole s t) m r Q) :
    Acts (IsMap s L) m r Q := by
  rw [← mul_one (IsMap s L)]
  exact isMap_acts fun t n ht hL => by
    rw [mul_one]
    exact h t n ht hL

theorem isMap_of_whole {t : Tree w} {h : ℕ} (ht : RB .black h t) (hL : t.toList = L)
    (H : Heap Field (BitVec w)) (hH : whole s t H) : IsMap s L H := ⟨t, h, ht, hL, hH⟩

/-- The key is not there, and the search ends in the hole `C`. -/
structure Missing (compare : BitVec w → BitVec w → ℤ) (k : BitVec w) (t : Tree w) (C : Ctx w) :
    Prop where
  tree : t = C.plug .nil
  seek : t.seek compare k .top = (C, .nil)
  lookup : t.toList.lookup k = none
  put : ∀ v, put compare k v t.toList = C.before ++ (k, v) :: C.after
  erase : erase compare k t.toList = t.toList

/-- The search ends in a node. -/
structure Found (compare : BitVec w → BitVec w → ℤ) (k : BitVec w) (t : Tree w) (C : Ctx w)
    (c : Color) (l : Tree w) (i : Item w) (r : Tree w) : Prop where
  tree : t = C.plug (.node c l i r)
  key : i.k = k
  seek : t.seek compare k .top = (C, .node c l i r)
  lookup : t.toList.lookup k = some i.v
  put : ∀ v, put compare k v t.toList = (C.plug (.node c l { i with v := v } r)).toList
  erase : erase compare k t.toList = C.before ++ (l.toList ++ (r.toList ++ C.after))

theorem seek_cases (hD : Ordered compare D) (hk : D k) {t : Tree w}
    (hL : Sorted compare D t.toList) :
    (∃ C, Missing compare k t C) ∨ ∃ C c l i r, Found compare k t C c l i r := by
  obtain ⟨C, hC⟩ : ∃ C, C = (t.seek compare k .top).1 := ⟨_, rfl⟩
  have hplug : t = C.plug (t.seek compare k .top).2 := by
    rw [hC]
    exact (plug_seek t .top).symm
  have haround : C.Around compare D k := by
    rw [hC]
    exact seek_around hD hk (C := .top) hL ⟨by simp [Ctx.before], by simp [Ctx.after]⟩
  have hlist := congrArg Tree.toList hplug
  rw [toList_plug] at hlist
  cases hu : (t.seek compare k .top).2 with
  | nil =>
    rw [hu] at hplug hlist
    refine .inl ⟨C, hplug, Prod.ext hC.symm hu, ?_, fun v => ?_, ?_⟩
    · rw [hlist, haround.lookup_eq hD hk]
      rfl
    · rw [hlist, haround.put_eq hD hk (by simp [Tree.toList])]
    · rw [hlist, haround.erase_eq hD hk (by simp [Tree.toList])]
      rfl
  | node c l i r =>
    rw [hu] at hplug hlist
    have hik : i.k = k := by
      refine (hD.eq hk (hL.mem (i.k, i.v) ?_) (seek_node hu)).symm
      rw [hlist, Tree.toList]
      simp
    have hmid : t.toList = (C.before ++ l.toList) ++ ([(k, i.v)] ++ (r.toList ++ C.after)) := by
      rw [hlist, Tree.toList, hik]
      simp
    have hs : Split compare D k (C.before ++ l.toList) (r.toList ++ C.after) :=
      (hmid ▸ hL : Sorted compare D _).split
    refine .inr ⟨C, c, l, i, r, hplug, hik, Prod.ext hC.symm hu, ?_, fun v => ?_, ?_⟩
    · rw [hmid, hs.lookup_eq hD hk, List.lookup_cons_self]
    · rw [hmid, hs.put_eq hD hk (by simp), toList_plug, Tree.toList, hik]
      simp
    · rw [hmid, hs.erase_eq hD hk (by simp), List.append_assoc]

/-! ### The interface -/

theorem release_spare (n : BitVec w) : Acts (spare n) (Cmd.release n : M w Unit) () 1 := by
  rw [← mul_one (spare n), mul_comm]
  refine spare_acts fun c k v p l r => ?_
  rw [one_mul]
  exact Acts.release _ _

/-- `insert` finds the node of a key that is there. -/
theorem Found.insert {t : Tree w} {C : Ctx w} {c : Color} {l r : Tree w} {i : Item w}
    (h : Found compare k t C c l i r) (hf : t.height < fuel) {α : Type} {g : BitVec w → M w α} {x : α}
    (hg : i.n ≠ NULL → Acts (whole s t * spare n) (g i.n) x Q) :
    Acts (whole s t * spare n) (insert compare fuel s k v n >>= g) x Q := by
  have hins := insert_found (s := s) (A := spare n) (k := k) (v := v) (n := n) hf
    (by rw [h.seek]; simp)
  rw [h.seek] at hins
  refine .bind hins (Acts.of_fact (fun R H hP => ?_) hg)
  rw [h.tree, mul_assoc] at hP
  exact whole_ne_null (t := .node c l i r) (by simp) hP

section Interface

variable (hD : Ordered compare D) (hk : D k) (hL : Sorted compare D L)
  (hf : 2 * Nat.log 2 (L.length + 1) < fuel)

include hD hk hL hf

theorem rbtreeGet_on :
    Acts (IsMap s L) (rbtreeGet compare fuel s k) ((L.lookup k).getD NULL) (IsMap s L) := by
  refine isMap_only fun t h ht hLt => ?_
  subst hLt
  refine .bind (lookup_on (Nat.lt_of_le_of_lt ht.height_log hf))
    (.imp (Q := whole s t) ?_ (isMap_of_whole ht rfl))
  obtain ⟨C, hmiss⟩ | ⟨C, c, l, i, r, hfound⟩ := seek_cases hD hk hL
  · rw [hmiss.seek, hmiss.lookup, if_neg (not_not.mpr (show Tree.nil.ptr = NULL from rfl))]
    exact Acts.pure _ _
  · rw [hfound.seek, hfound.lookup, hfound.tree]
    refine On.ne_null (by simp) fun hi => ?_
    rw [if_pos hi]
    exact On.ld_v C .l c l i r

theorem rbtreeContains_on :
    Acts (IsMap s L) (rbtreeContains compare fuel s k) (decide (L.lookup k ≠ none)) (IsMap s L) := by
  refine isMap_only fun t h ht hLt => ?_
  subst hLt
  refine .bind (lookup_on (Nat.lt_of_le_of_lt ht.height_log hf))
    (.imp (Q := whole s t) ?_ (isMap_of_whole ht rfl))
  obtain ⟨C, hmiss⟩ | ⟨C, c, l, i, r, hfound⟩ := seek_cases hD hk hL
  · rw [hmiss.seek, hmiss.lookup]
    exact Acts.pure _ _
  · rw [hfound.seek, hfound.lookup, hfound.tree]
    refine On.ne_null (by simp) fun hi => ?_
    rw [decide_eq_true hi]
    exact Acts.pure _ _

variable (hw : 0 < w)

include hw

theorem rbtreeInsert_on :
    Acts (IsMap s L * spare n) (rbtreeInsert compare fuel s k v n) (decide (L.lookup k = none))
      (IsMap s (if L.lookup k = none then put compare k v L else L)) := by
  refine isMap_acts fun t h ht hLt => ?_
  subst hLt
  have hh : t.height < fuel := Nat.lt_of_le_of_lt ht.height_log hf
  obtain ⟨C, hmiss⟩ | ⟨C, c, l, i, r, hfound⟩ := seek_cases hD hk hL
  · obtain ⟨t', hact, hlist, m, ht'⟩ := insert_new (s := s) (n := n) (v := v) hw ht hh
      (congrArg Prod.snd hmiss.seek)
    rw [decide_eq_true hmiss.lookup, if_pos hmiss.lookup]
    refine .imp (.bind hact ?_) (isMap_of_whole ht' ?_)
    · rw [onlyIf, if_neg (not_not.mpr rfl)]
      exact .bind (Acts.pure _ _) (Acts.pure _ _)
    · rw [hlist, hmiss.put, hmiss.seek]
  · rw [hfound.lookup, decide_eq_false (by simp), if_neg (by simp)]
    refine hfound.insert hh fun hi => .imp (Q := whole s t * 1) ?_ ?_
    · rw [onlyIf, if_pos hi, decide_eq_false hi]
      exact .bind ((release_spare n).skip _) (Acts.pure _ _)
    · rw [mul_one]
      exact isMap_of_whole ht rfl

theorem rbtreeUpdate_on :
    Acts (IsMap s L * spare n) (rbtreeUpdate compare fuel s k v n) (decide (L.lookup k ≠ none))
      (IsMap s (put compare k v L)) := by
  refine isMap_acts fun t h ht hLt => ?_
  subst hLt
  have hh : t.height < fuel := Nat.lt_of_le_of_lt ht.height_log hf
  obtain ⟨C, hmiss⟩ | ⟨C, c, l, i, r, hfound⟩ := seek_cases hD hk hL
  · obtain ⟨t', hact, hlist, m, ht'⟩ := insert_new (s := s) (n := n) (v := v) hw ht hh
      (congrArg Prod.snd hmiss.seek)
    rw [decide_eq_false (by simp [hmiss.lookup])]
    refine .imp (.bind hact ?_) (isMap_of_whole ht' ?_)
    · rw [if_neg (not_not.mpr rfl)]
      exact Acts.pure _ _
    · rw [hlist, hmiss.put, hmiss.seek]
  · rw [hfound.lookup, decide_eq_true (by simp)]
    have htree := hfound.tree
    rw [htree] at ht
    obtain ⟨c', m, hRB, hfits⟩ := ht.focus
    obtain ⟨m', hm'⟩ := hfits.plug (hRB.entry { i with v := v })
    have hst : On s t (st i.n .v v) () (C.plug (.node c l { i with v := v } r)) :=
      htree ▸ On.refocus (d := .l) rfl fun _ => i.st_v
    refine hfound.insert hh fun hi =>
      .imp (Q := whole s (C.plug (.node c l { i with v := v } r)) * 1) ?_ ?_
    · rw [if_pos hi]
      exact .bind (hst.frame _) (.bind ((release_spare n).skip _) (Acts.pure _ _))
    · rw [mul_one]
      exact isMap_of_whole hm' (hfound.put v).symm

theorem rbtreeDelete_on :
    Acts (IsMap s L) (rbtreeDelete compare fuel s k) (decide (L.lookup k ≠ none))
      (IsMap s (erase compare k L)) := by
  refine isMap_only fun t h ht hLt => ?_
  subst hLt
  have hh : t.height < fuel := Nat.lt_of_le_of_lt ht.height_log hf
  refine .bind (lookup_on hh) ?_
  obtain ⟨C, hmiss⟩ | ⟨C, c, l, i, r, hfound⟩ := seek_cases hD hk hL
  · rw [hmiss.seek, hmiss.erase, decide_eq_false (by simp [hmiss.lookup])]
    refine .imp (Q := whole s t) ?_ (isMap_of_whole ht rfl)
    rw [if_neg (not_not.mpr (show Tree.nil.ptr = NULL from rfl))]
    refine .bind (Acts.pure _ _) ?_
    rw [onlyIf, if_neg (not_not.mpr (show Tree.nil.ptr = NULL from rfl))]
    exact .bind (Acts.pure _ _) (Acts.pure _ _)
  · have htree := hfound.tree
    rw [hfound.seek, hfound.lookup, hfound.erase, decide_eq_true (by simp)]
    rw [htree] at ht hh ⊢
    obtain ⟨T, j, c', hdel, hT, m, hm⟩ := deleteNode_on (s := s) hw ht hh
    refine .imp (Q := whole s T * 1) (On.ne_null (by simp) fun hi => ?_) ?_
    · rw [if_pos hi]
      refine .bind hdel (Acts.of_fact (φ := j.n ≠ NULL) (fun R H hP => ?_) fun hj => ?_)
      · rw [mul_comm (whole s T), mul_assoc] at hP
        exact cell_mul.ne_zero hP
      rw [onlyIf, if_pos hj, decide_eq_true hj]
      exact .bind ((Acts.release _ _).skip _) (Acts.pure _ _)
    · rw [mul_one]
      exact isMap_of_whole hm hT

end Interface

end TinyStm.Rbtree
