import Mathlib.Algebra.BigOperators.Group.List.Basic
import Mathlib.Data.BitVec
import TinyStm.Lib.Rounding

/-!
# Sliding windows of clock samples (sliding-window.h) and their use (stm.c)

A window keeps the last `S_WINDOW_SIZE` samples with running sums modulo `2 ^ 64` and caches
their mean, `0.0` meaning none. `stm_validate` and `stm_read_invisible` turn the mean time between
two validations of a transaction profile into an integer.
-/

namespace TinyStm.Mb

open Rounding

/-- A double that is not negative. -/
inductive Mean
  | nan
  | inf
  | num (q : ℚ)
  deriving DecidableEq

/-- `(double) sum / (double) n`. -/
def Mean.quot (sum : BitVec 64) (n : ℕ) : Mean :=
  if n = 0 then if sum = 0 then .nan else .inf
  else .num (roundTo 53 (roundTo 53 sum.toNat / n))

/-- `win_block_t`. -/
structure WinBlock where
  value : BitVec 64
  sum : BitVec 64

/-- `window_t`. -/
structure Window where
  mean : Mean
  filled : Bool
  position : ℕ
  window : ℕ → WinBlock

/-- A window as `calloc` leaves it. -/
def Window.init : Window := ⟨.num 0, false, 0, fun _ => ⟨0, 0⟩⟩

section

variable (W : ℕ)

/-- `winS_updateU`. -/
def Window.updateU (w : Window) (sample : BitVec 64) : Window :=
  let newPosition := (w.position + 1) % W
  let sum := (w.window w.position).sum - (w.window newPosition).value + sample
  { mean := .num 0
    filled := w.filled || newPosition = 0
    position := newPosition
    window := Function.update w.window newPosition ⟨sample, sum⟩ }

/-- The number of samples that `winS_getMeanU` divides by. -/
def Window.divisor (w : Window) : ℕ := if w.filled then W else w.position

/-- `winS_getMeanU`. -/
def Window.getMeanU (w : Window) : Mean × Window :=
  if w.mean = .num 0 then
    let mean := Mean.quot (w.window w.position).sum (w.divisor W)
    (mean, { w with mean })
  else (w.mean, w)

/-- What is done with one window. -/
inductive WinOp
  | updateU (sample : BitVec 64)
  | getMeanU

def Window.apply (w : Window) : WinOp → Window
  | .updateU sample => w.updateU W sample
  | .getMeanU => (w.getMeanU W).2

/-- The samples given to a window, the last one first. -/
def samplesOf (ops : List WinOp) : List (BitVec 64) :=
  ops.foldl (fun xs op => match op with | .updateU sample => sample :: xs | .getMeanU => xs) []

/-- The sum of the last `W` samples. -/
def lastSum (xs : List (BitVec 64)) : BitVec 64 := (xs.take W).sum

/-- The mean of the last `W` samples. -/
def lastMean (xs : List (BitVec 64)) : Mean := Mean.quot (lastSum W xs) (min xs.length W)

/-! ### What a window holds -/

/-- The window has been given the samples `xs`, the last one first. -/
structure Window.Holds (w : Window) (xs : List (BitVec 64)) : Prop where
  position : w.position = xs.length % W
  filled : w.filled = decide (W ≤ xs.length)
  value : ∀ j, j < W → (w.window ((xs.length + W - j) % W)).value = xs.getD j 0
  sum : (w.window w.position).sum = lastSum W xs
  cached : w.mean = .num 0 ∨ w.mean = lastMean W xs

end

variable {W : ℕ} {w : Window} {xs : List (BitVec 64)}

theorem Window.Holds.init (hW : 0 < W) : Window.init.Holds W [] where
  position := (Nat.zero_mod W).symm
  filled := by
    rw [List.length_nil, decide_eq_false (by omega)]
    rfl
  value := fun _ _ => rfl
  sum := by
    rw [lastSum, List.take_nil, List.sum_nil]
    rfl
  cached := .inl rfl

theorem Window.Holds.divisor (h : w.Holds W xs) : w.divisor W = min xs.length W := by
  rw [Window.divisor, h.filled]
  by_cases hle : W ≤ xs.length
  · rw [decide_eq_true hle, if_pos rfl]
    omega
  · rw [decide_eq_false hle, if_neg (by decide), h.position, Nat.mod_eq_of_lt (by omega)]
    omega

/-- The sample that leaves is taken off the sum, the new one added. -/
theorem lastSum_cons (hW : 0 < W) (x : BitVec 64) :
    lastSum W (x :: xs) = lastSum W xs - xs.getD (W - 1) 0 + x := by
  obtain ⟨n, rfl⟩ : ∃ n, W = n + 1 := ⟨W - 1, by omega⟩
  have htake : (xs.take (n + 1)).sum = (xs.take n).sum + xs.getD n 0 := by
    rw [List.take_add_one, List.sum_append, List.getD_eq_getElem?_getD]
    cases xs[n]? with
    | none => simp
    | some y => simp
  rw [lastSum, lastSum, List.take_succ_cons, List.sum_cons, htake, Nat.add_sub_cancel,
    BitVec.add_sub_cancel, BitVec.add_comm]

theorem mod_slot_ne {n j k : ℕ} (hj : j < k) (hk : k < W) : (n + W - j) % W ≠ (n + W - k) % W := by
  intro heq
  have hdvd := (Nat.modEq_iff_dvd' (n := W) (by omega : n + W - k ≤ n + W - j)).mp heq.symm
  have hle := Nat.le_of_dvd (by omega) hdvd
  omega

theorem Window.Holds.updateU (h : w.Holds W xs) (hW : 0 < W) (x : BitVec 64) :
    (w.updateU W x).Holds W (x :: xs) := by
  have hpos : (w.position + 1) % W = (xs.length + 1) % W := by
    rw [h.position, Nat.mod_add_mod]
  have hslot : (xs.length + W - (W - 1)) % W = (xs.length + 1) % W := by
    congr 1
    omega
  have hold := h.value (W - 1) (by omega)
  rw [hslot] at hold
  have hsum : (w.window w.position).sum - (w.window ((w.position + 1) % W)).value + x =
      lastSum W (x :: xs) := by
    rw [hpos, hold, h.sum, lastSum_cons hW]
  constructor
  · exact hpos
  · have hzero : (xs.length + 1) % W = 0 → W ≤ xs.length + 1 :=
      fun h0 => Nat.le_of_dvd (Nat.succ_pos _) (Nat.dvd_of_mod_eq_zero h0)
    rw [Window.updateU, h.filled, List.length_cons]
    dsimp only
    rw [hpos]
    by_cases hfull : W ≤ xs.length
    · rw [decide_eq_true hfull, decide_eq_true (show W ≤ xs.length + 1 by omega), Bool.true_or]
    · rw [decide_eq_false hfull, Bool.false_or]
      apply decide_eq_decide.mpr
      refine ⟨hzero, fun hle => ?_⟩
      rw [show xs.length + 1 = W by omega, Nat.mod_self]
  · intro j hj
    rw [List.length_cons]
    change (Function.update w.window ((w.position + 1) % W) _ _).value = _
    rw [hpos]
    cases j with
    | zero =>
      rw [Nat.sub_zero, Nat.add_mod_right, Function.update_self]
      rfl
    | succ j =>
      have hshift : xs.length + 1 + W - (j + 1) = xs.length + W - j := by omega
      have hne : (xs.length + W - j) % W ≠ (xs.length + 1) % W := by
        rw [← hslot]
        exact mod_slot_ne (by omega) (by omega)
      rw [hshift, Function.update_of_ne hne, h.value j (by omega)]
      rfl
  · change (Function.update w.window ((w.position + 1) % W) _ ((w.position + 1) % W)).sum = _
    rw [Function.update_self]
    exact hsum
  · exact .inl rfl

/-- The mean is that of the last samples, cached or not. -/
theorem Window.Holds.getMeanU (h : w.Holds W xs) :
    (w.getMeanU W).1 = lastMean W xs ∧ (w.getMeanU W).2.Holds W xs := by
  unfold Window.getMeanU
  split
  · have hmean : Mean.quot (w.window w.position).sum (w.divisor W) = lastMean W xs := by
      rw [h.sum, h.divisor, lastMean]
    exact ⟨hmean, h.position, h.filled, h.value, h.sum, .inr hmean⟩
  · next hne => exact ⟨h.cached.resolve_left hne, h⟩

/-- One window, any sequence of updates and reads. -/
theorem window_holds (hW : 0 < W) (ops : List WinOp) :
    (ops.foldl (Window.apply W) Window.init).Holds W (samplesOf ops) := by
  have hgen : ∀ w xs, w.Holds W xs → (ops.foldl (Window.apply W) w).Holds W
      (ops.foldl (fun xs op => match op with | .updateU sample => sample :: xs | .getMeanU => xs) xs) := by
    induction ops with
    | nil => exact fun _ _ h => h
    | cons op ops ih =>
      intro w xs h
      cases op with
      | updateU sample => exact ih _ _ (h.updateU hW sample)
      | getMeanU => exact ih _ _ h.getMeanU.2
  exact hgen _ _ (Window.Holds.init hW)

end TinyStm.Mb
