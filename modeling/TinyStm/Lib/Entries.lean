import Mathlib.Algebra.Order.Ring.Int
import Mathlib.Data.List.Basic
import Mathlib.Logic.Function.Basic

/-!
# Sorted lists of entries

Lists of keys and values in the order of a three-way comparison, which need only be one
on the keys that occur: what stands before and after a key, and the list with the key put
in or taken out, as a map.
-/

namespace TinyStm.Entries

variable {K V : Type} {cmp : K → K → ℤ} {D : K → Prop}

/-- `cmp` orders the keys in `D`. -/
structure Ordered (cmp : K → K → ℤ) (D : K → Prop) : Prop where
  eq : ∀ {a b}, D a → D b → cmp a b = 0 → a = b
  refl : ∀ {a}, D a → cmp a a = 0
  symm : ∀ {a b}, D a → D b → (0 < cmp a b ↔ cmp b a < 0)
  trans : ∀ {a b c}, D a → D b → D c → cmp a b < 0 → cmp b c < 0 → cmp a c < 0

/-- The keys are in `D` and strictly increase. -/
structure Sorted (cmp : K → K → ℤ) (D : K → Prop) (L : List (K × V)) : Prop where
  mem : ∀ e ∈ L, D e.1
  lt : L.Pairwise fun a b => cmp a.1 b.1 < 0

def below (cmp : K → K → ℤ) (k : K) (L : List (K × V)) : List (K × V) :=
  L.filter fun e => cmp e.1 k < 0

def above (cmp : K → K → ℤ) (k : K) (L : List (K × V)) : List (K × V) :=
  L.filter fun e => cmp k e.1 < 0

/-- The list with the value `v` for the key `k`. -/
def put (cmp : K → K → ℤ) (k : K) (v : V) (L : List (K × V)) : List (K × V) :=
  below cmp k L ++ (k, v) :: above cmp k L

/-- The list without the key `k`. -/
def erase (cmp : K → K → ℤ) (k : K) (L : List (K × V)) : List (K × V) :=
  below cmp k L ++ above cmp k L

/-! ### Around a key -/

/-- `k` belongs between `A` and `B`. -/
structure Split (cmp : K → K → ℤ) (D : K → Prop) (k : K) (A B : List (K × V)) : Prop where
  lt : ∀ e ∈ A, D e.1 ∧ cmp e.1 k < 0
  gt : ∀ e ∈ B, D e.1 ∧ cmp k e.1 < 0

section Split

variable {k : K} {v : V} {A B L M : List (K × V)}

/-- Smaller keys are not larger. -/
theorem Ordered.not_gt (hD : Ordered cmp D) {a b : K} (ha : D a) (hb : D b) (h : cmp a b < 0) :
    ¬ cmp b a < 0 := fun h' => by
  have := (hD.symm ha hb).mpr h'
  omega

theorem Split.below_eq (hD : Ordered cmp D) (hk : D k) (h : Split cmp D k A B)
    (hM : ∀ e ∈ M, e.1 = k) : below cmp k (A ++ (M ++ B)) = A := by
  have hA : A.filter (fun e => cmp e.1 k < 0) = A :=
    List.filter_eq_self.mpr fun e he => by simp [(h.lt e he).2]
  have hM : M.filter (fun e => cmp e.1 k < 0) = [] :=
    List.filter_eq_nil_iff.mpr fun e he => by simp [hM e he, hD.refl hk]
  have hB : B.filter (fun e => cmp e.1 k < 0) = [] :=
    List.filter_eq_nil_iff.mpr fun e he => by
      simpa using hD.not_gt hk (h.gt e he).1 (h.gt e he).2
  rw [below, List.filter_append, List.filter_append, hA, hM, hB, List.append_nil, List.append_nil]

theorem Split.above_eq (hD : Ordered cmp D) (hk : D k) (h : Split cmp D k A B)
    (hM : ∀ e ∈ M, e.1 = k) : above cmp k (A ++ (M ++ B)) = B := by
  have hB : B.filter (fun e => cmp k e.1 < 0) = B :=
    List.filter_eq_self.mpr fun e he => by simp [(h.gt e he).2]
  have hM : M.filter (fun e => cmp k e.1 < 0) = [] :=
    List.filter_eq_nil_iff.mpr fun e he => by simp [hM e he, hD.refl hk]
  have hA : A.filter (fun e => cmp k e.1 < 0) = [] :=
    List.filter_eq_nil_iff.mpr fun e he => by
      simpa using hD.not_gt (h.lt e he).1 hk (h.lt e he).2
  rw [above, List.filter_append, List.filter_append, hA, hM, hB, List.nil_append, List.nil_append]

theorem Split.put_eq (hD : Ordered cmp D) (hk : D k) (h : Split cmp D k A B)
    (hM : ∀ e ∈ M, e.1 = k) (v : V) : put cmp k v (A ++ (M ++ B)) = A ++ (k, v) :: B := by
  rw [put, h.below_eq hD hk hM, h.above_eq hD hk hM]

theorem Split.erase_eq (hD : Ordered cmp D) (hk : D k) (h : Split cmp D k A B)
    (hM : ∀ e ∈ M, e.1 = k) : erase cmp k (A ++ (M ++ B)) = A ++ B := by
  rw [erase, h.below_eq hD hk hM, h.above_eq hD hk hM]

/-- A sorted list around a key. -/
theorem Sorted.exists_split (hD : Ordered cmp D) (hk : D k) (hL : Sorted cmp D L) :
    ∃ A M B, L = A ++ (M ++ B) ∧ Split cmp D k A B ∧ (∀ e ∈ M, e.1 = k) ∧ M.length ≤ 1 := by
  induction L with
  | nil => exact ⟨[], [], [], rfl, ⟨by simp, by simp⟩, by simp, by simp⟩
  | cons e L ih =>
    obtain ⟨hlt, hpair⟩ := List.pairwise_cons.mp hL.lt
    have he : D e.1 := hL.mem e List.mem_cons_self
    have hmem : ∀ f ∈ L, D f.1 := fun f hf => hL.mem f (List.mem_cons_of_mem _ hf)
    obtain h | h | h := lt_trichotomy (cmp e.1 k) 0
    · obtain ⟨A, M, B, rfl, hs, hM, hlen⟩ := ih ⟨hmem, hpair⟩
      refine ⟨e :: A, M, B, rfl, ⟨fun f hf => ?_, hs.gt⟩, hM, hlen⟩
      obtain rfl | hf := List.mem_cons.mp hf
      · exact ⟨he, h⟩
      · exact hs.lt f hf
    · obtain rfl := hD.eq he hk h
      exact ⟨[], [e], L, rfl, ⟨by simp, fun f hf => ⟨hmem f hf, hlt f hf⟩⟩, by simp, by simp⟩
    · have hke : cmp k e.1 < 0 := (hD.symm he hk).mp h
      refine ⟨[], [], e :: L, rfl, ⟨by simp, fun f hf => ?_⟩, by simp, by simp⟩
      obtain rfl | hf := List.mem_cons.mp hf
      · exact ⟨he, hke⟩
      · exact ⟨hmem f hf, hD.trans hk he (hmem f hf) hke (hlt f hf)⟩

/-- A key in a sorted list is between what stands before and after it. -/
theorem Sorted.split (hL : Sorted cmp D (A ++ (k, v) :: B)) : Split cmp D k A B := by
  obtain ⟨-, hB, hlt⟩ := List.pairwise_append.mp hL.lt
  refine ⟨fun e he => ⟨hL.mem e (by simp [he]), hlt e he (k, v) (by simp)⟩, fun e he => ?_⟩
  exact ⟨hL.mem e (by simp [he]), (List.pairwise_cons.mp hB).1 e he⟩

theorem Split.sorted_cons (h : Split cmp D k A B) (hk : D k) (hAB : Sorted cmp D (A ++ B)) :
    Sorted cmp D (A ++ (k, v) :: B) := by
  obtain ⟨hA, hB, hlt⟩ := List.pairwise_append.mp hAB.lt
  refine ⟨fun e he => ?_, List.pairwise_append.mpr ⟨hA, List.pairwise_cons.mpr ⟨?_, hB⟩, ?_⟩⟩
  · simp only [List.mem_append, List.mem_cons] at he
    obtain he | rfl | he := he
    · exact (h.lt e he).1
    · exact hk
    · exact (h.gt e he).1
  · exact fun e he => (h.gt e he).2
  · intro a ha b hb
    obtain rfl | hb := List.mem_cons.mp hb
    · exact (h.lt a ha).2
    · exact hlt a ha b hb

end Split

/-! ### Sorted lists as maps -/

section Map

variable {k : K} {v : V} {L : List (K × V)}

theorem Sorted.sublist {L' : List (K × V)} (h : Sorted cmp D L) (hs : L'.Sublist L) :
    Sorted cmp D L' := ⟨fun e he => h.mem e (hs.subset he), h.lt.sublist hs⟩

theorem Sorted.erase (hD : Ordered cmp D) (hk : D k) (hL : Sorted cmp D L) :
    Sorted cmp D (erase cmp k L) := by
  obtain ⟨A, M, B, rfl, hs, hM, -⟩ := hL.exists_split hD hk
  rw [hs.erase_eq hD hk hM]
  exact hL.sublist ((List.sublist_append_right M B).append_left A)

theorem Sorted.put (hD : Ordered cmp D) (hk : D k) (hL : Sorted cmp D L) :
    Sorted cmp D (put cmp k v L) := by
  obtain ⟨A, M, B, rfl, hs, hM, -⟩ := hL.exists_split hD hk
  rw [hs.put_eq hD hk hM]
  exact hs.sorted_cons hk (hL.sublist ((List.sublist_append_right M B).append_left A))

variable [DecidableEq K]

theorem lookup_eq_none {k' : K} (h : ∀ e ∈ L, e.1 ≠ k') : L.lookup k' = none := by
  rw [List.lookup_eq_none_iff]
  intro p hp
  simpa using (h p hp).symm

/-- Only the entries with the key itself matter. -/
theorem Split.lookup_eq {A M B : List (K × V)} (hD : Ordered cmp D) (hk : D k)
    (h : Split cmp D k A B) :
    (A ++ (M ++ B)).lookup k = M.lookup k := by
  have hA : A.lookup k = none := lookup_eq_none fun e he h' => by
    have := (h.lt e he).2
    rw [h', hD.refl hk] at this
    omega
  have hB : B.lookup k = none := lookup_eq_none fun e he h' => by
    have := (h.gt e he).2
    rw [h', hD.refl hk] at this
    omega
  rw [List.lookup_append, List.lookup_append, hA, hB]
  simp

theorem Sorted.lookup_put (hD : Ordered cmp D) (hk : D k) (hL : Sorted cmp D L) :
    (fun k' => (Entries.put cmp k v L).lookup k') =
      Function.update (fun k' => L.lookup k') k (some v) := by
  obtain ⟨A, M, B, rfl, hs, hM, -⟩ := hL.exists_split hD hk
  funext k'
  rw [hs.put_eq hD hk hM]
  by_cases hk' : k' = k
  · subst hk'
    rw [Function.update_self]
    exact (hs.lookup_eq (M := [(k', v)]) hD hk).trans (by simp)
  · have hM' : M.lookup k' = none := lookup_eq_none fun e he h => hk' (h ▸ hM e he)
    rw [Function.update_of_ne hk', List.lookup_append, List.lookup_append, List.lookup_append, hM',
      List.lookup_cons, beq_false_of_ne hk']
    simp

theorem Sorted.lookup_erase (hD : Ordered cmp D) (hk : D k) (hL : Sorted cmp D L) :
    (fun k' => (Entries.erase cmp k L).lookup k') =
      Function.update (fun k' => L.lookup k') k none := by
  obtain ⟨A, M, B, rfl, hs, hM, -⟩ := hL.exists_split hD hk
  funext k'
  rw [hs.erase_eq hD hk hM]
  by_cases hk' : k' = k
  · subst hk'
    rw [Function.update_self]
    exact hs.lookup_eq (M := []) hD hk
  · have hM' : M.lookup k' = none := lookup_eq_none fun e he h => hk' (h ▸ hM e he)
    rw [Function.update_of_ne hk', List.lookup_append, List.lookup_append, List.lookup_append, hM']
    simp

/-- The keys of a list of entries. -/
theorem lookup_ne_none {k : K} : L.lookup k ≠ none ↔ k ∈ L.map (·.1) := by
  induction L with
  | nil => simp
  | cons e L ih =>
    rw [List.lookup_cons, List.map_cons, List.mem_cons]
    by_cases h : k = e.1
    · simp [h]
    · rw [beq_false_of_ne h, ih]
      simp [h]

end Map

end TinyStm.Entries
