import Mathlib.Algebra.BigOperators.Group.List.Basic
import Mathlib.Algebra.Field.Basic
import Mathlib.Algebra.CharZero.Defs
import Mathlib.Tactic.Abel
import Mathlib.Tactic.FieldSimp
import Mathlib.Tactic.Ring

/-!
# Means, squared deviations and costs of prefixes

The mean and the sum of squared deviations of a list of numbers, the one-pass recurrence for
both and the pooling formula. Then sums of a cost over the prefixes of a list, and when they do
not depend on its order.
-/

namespace TinyStm.Pooling

section Moments

variable {K : Type*} [Field K]

def mean (xs : List K) : K := xs.sum / xs.length

def squares (xs : List K) : K := (xs.map fun x => x ^ 2).sum

/-- The sum of the squared deviations from the mean. -/
def deviations (xs : List K) : K := (xs.map fun x => (x - mean xs) ^ 2).sum

@[simp] theorem mean_nil : mean ([] : List K) = 0 := by
  simp [mean]

@[simp] theorem deviations_nil : deviations ([] : List K) = 0 := rfl

theorem squares_append (xs ys : List K) : squares (xs ++ ys) = squares xs + squares ys := by
  simp [squares]

theorem sum_sub_sq (xs : List K) (c : K) :
    (xs.map fun x => (x - c) ^ 2).sum = squares xs - 2 * c * xs.sum + xs.length * c ^ 2 := by
  induction xs with
  | nil => simp [squares]
  | cons x xs ih =>
    have hsq : squares (x :: xs) = x ^ 2 + squares xs := by simp [squares]
    rw [List.map_cons, List.sum_cons, ih, hsq, List.sum_cons, List.length_cons]
    push_cast
    ring

theorem mean_perm {xs ys : List K} (h : xs.Perm ys) : mean xs = mean ys := by
  rw [mean, mean, h.sum_eq, h.length_eq]

theorem deviations_perm {xs ys : List K} (h : xs.Perm ys) : deviations xs = deviations ys := by
  rw [deviations, deviations, mean_perm h]
  exact (h.map _).sum_eq

variable [CharZero K]

theorem length_mul_mean (xs : List K) : xs.length * mean xs = xs.sum := by
  cases xs with
  | nil => simp
  | cons x xs =>
    have hn : ((x :: xs).length : K) ≠ 0 := Nat.cast_ne_zero.mpr (by simp)
    rw [mean, mul_div_cancel₀ _ hn]

theorem deviations_eq (xs : List K) : deviations xs = squares xs - xs.length * mean xs ^ 2 := by
  have hsum := length_mul_mean xs
  rw [deviations, sum_sub_sq, ← hsum]
  ring

/-- The mean of one more number, from the mean so far. -/
theorem mean_snoc (xs : List K) (x : K) :
    mean (xs ++ [x]) = mean xs + (x - mean xs) / (xs.length + 1 : ℕ) := by
  have hn : ((xs.length + 1 : ℕ) : K) ≠ 0 := Nat.cast_ne_zero.mpr (by simp)
  have hsum := length_mul_mean xs
  have hlen : (xs ++ [x]).length = xs.length + 1 := by simp
  have hsum' : (xs ++ [x]).sum = xs.sum + x := by simp
  rw [mean, hlen, hsum', ← hsum]
  field_simp
  push_cast
  ring

/-- The one-pass recurrence for the squared deviations. -/
theorem deviations_snoc (xs : List K) (x : K) :
    deviations (xs ++ [x]) = deviations xs + (x - mean xs) * (x - mean (xs ++ [x])) := by
  have hn : ((xs.length + 1 : ℕ) : K) ≠ 0 := Nat.cast_ne_zero.mpr (by simp)
  have hsq : squares (xs ++ [x]) = squares xs + x ^ 2 := by simp [squares]
  have hlen : (xs ++ [x]).length = xs.length + 1 := by simp
  rw [deviations_eq, deviations_eq, mean_snoc, hsq, hlen]
  field_simp
  push_cast
  ring

theorem mean_append (xs ys : List K) :
    mean (xs ++ ys) = (xs.length * mean xs + ys.length * mean ys) / (xs.length + ys.length : ℕ) := by
  rw [length_mul_mean, length_mul_mean, mean, List.sum_append, List.length_append]

/-- The pooling formula. -/
theorem deviations_append (xs ys : List K) :
    deviations (xs ++ ys) =
      deviations xs + (xs.length * mean xs * mean xs + deviations ys + ys.length * mean ys * mean ys) -
        (xs.length + ys.length : ℕ) * mean (xs ++ ys) ^ 2 := by
  rw [deviations_eq, deviations_eq, deviations_eq, squares_append, List.length_append]
  ring

end Moments

/-! ### Costs of prefixes -/

section Prefix

variable {M K : Type*} [AddCommMonoid M] [AddCommGroup K] (cost : M → K)

/-- The costs of the sums `m + x₁`, `m + x₁ + x₂`, ... added up. -/
def prefixCost (m : M) : List M → K
  | [] => 0
  | x :: xs => cost (m + x) + prefixCost (m + x) xs

theorem prefixCost_append (xs ys : List M) (m : M) :
    prefixCost cost m (xs ++ ys) = prefixCost cost m xs + prefixCost cost (m + xs.sum) ys := by
  induction xs generalizing m with
  | nil => simp [prefixCost]
  | cons x xs ih =>
    rw [List.cons_append, prefixCost, prefixCost, ih, List.sum_cons, add_assoc, add_assoc]

/-- Two neighbours change places. -/
theorem prefixCost_swap (a b : M) (xs : List M) (m : M) :
    prefixCost cost m (a :: b :: xs) + cost (m + b) =
      prefixCost cost m (b :: a :: xs) + cost (m + a) := by
  have hcomm : m + a + b = m + b + a := add_right_comm m a b
  rw [prefixCost, prefixCost, prefixCost, prefixCost, hcomm]
  abel

/-- Every order of the images comes from an order of the elements. -/
theorem exists_perm_of_map {α β : Type*} {f : α → β} {xs : List α} {ys : List β}
    (h : (xs.map f).Perm ys) : ∃ xs', xs.Perm xs' ∧ ys = xs'.map f := by
  have hmap : List.Forall₂ (fun x y => y = f x) xs (xs.map f) := by
    rw [List.forall₂_map_right_iff]
    exact List.forall₂_same.mpr fun _ _ => rfl
  have hcomp : Relation.Comp (List.Forall₂ fun x y => y = f x) List.Perm xs ys := ⟨_, hmap, h⟩
  rw [List.forall₂_comp_perm_eq_perm_comp_forall₂] at hcomp
  obtain ⟨xs', hperm, hf⟩ := hcomp
  refine ⟨xs', hperm, ?_⟩
  rw [← List.forall₂_eq_eq_eq, List.forall₂_map_right_iff]
  exact hf.flip

/-- Any two of the elements cost the same on top of any selection of the others. -/
def Exchangeable (xs : List M) : Prop :=
  ∀ ps a b rest, xs.Perm (ps ++ a :: b :: rest) →
    cost (ps.sum + a) = cost (ps.sum + b)

theorem prefixCost_perm {all xs ys : List M} (h : Exchangeable cost all) (hp : xs.Perm ys) :
    ∀ ps, all.Perm (ps ++ xs) →
      prefixCost cost ps.sum xs = prefixCost cost ps.sum ys := by
  induction hp with
  | nil => exact fun _ _ => rfl
  | cons x _ ih =>
    intro ps hall
    have hrest := ih (ps ++ [x]) (by simpa using hall)
    rw [List.sum_append, List.sum_singleton] at hrest
    rw [prefixCost, prefixCost, hrest]
  | swap a b l =>
    intro ps hall
    have hswap := prefixCost_swap cost b a l ps.sum
    rw [h ps b a l hall] at hswap
    exact add_right_cancel hswap
  | trans hxy _ ih₁ ih₂ =>
    intro ps hall
    exact (ih₁ ps hall).trans (ih₂ ps (hall.trans (hxy.append_left ps)))

/-- The sum over the prefixes is the same in every order exactly when the elements are
exchangeable. -/
theorem prefixCost_orderFree_iff (xs : List M) :
    (∀ ys, xs.Perm ys → prefixCost cost 0 ys = prefixCost cost 0 xs) ↔ Exchangeable cost xs := by
  constructor
  · intro h ps a b rest hp
    have hswapped : xs.Perm (ps ++ b :: a :: rest) := hp.trans ((List.Perm.swap b a rest).append_left ps)
    have heq : prefixCost cost 0 (ps ++ a :: b :: rest) = prefixCost cost 0 (ps ++ b :: a :: rest) :=
      (h _ hp).trans (h _ hswapped).symm
    rw [prefixCost_append, prefixCost_append, zero_add] at heq
    have hswap := prefixCost_swap cost a b rest ps.sum
    rw [add_left_cancel heq] at hswap
    exact (add_left_cancel hswap).symm
  · intro h ys hp
    have := prefixCost_perm cost h hp [] (List.Perm.refl xs)
    exact this.symm

end Prefix

end TinyStm.Pooling
