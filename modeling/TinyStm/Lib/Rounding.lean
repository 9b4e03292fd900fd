import Mathlib.Algebra.Order.Floor.Ring
import Mathlib.Data.Int.Log
import Mathlib.Data.Rat.Floor
import Mathlib.Tactic.Linarith
import Mathlib.Tactic.NormNum

/-!
# Rounding to a binary format

The rational nearest to a number among those with `p` binary digits, ties to even, the exponent
unbounded. A format of the IEEE standard rounds so whatever is neither too large nor subnormal.
-/

namespace TinyStm.Rounding

/-- The nearest integer, ties to even. -/
def nearestEven (q : ℚ) : ℤ :=
  if q - ⌊q⌋ < 1 / 2 then ⌊q⌋
  else if 1 / 2 < q - ⌊q⌋ then ⌊q⌋ + 1
  else if ⌊q⌋ % 2 = 0 then ⌊q⌋
  else ⌊q⌋ + 1

/-- The weight of the last of `p` binary digits of `q`. -/
def ulp (p : ℕ) (q : ℚ) : ℚ := 2 ^ (Int.log 2 |q| - (p - 1))

/-- `q` rounded to `p` binary digits. -/
def roundTo (p : ℕ) (q : ℚ) : ℚ := nearestEven (q / ulp p q) * ulp p q

theorem nearestEven_intCast (n : ℤ) : nearestEven n = n := by
  rw [nearestEven, Int.floor_intCast, sub_self, if_pos (by norm_num)]

theorem le_nearestEven {n : ℤ} {q : ℚ} (h : n ≤ q) : n ≤ nearestEven q := by
  have hfloor : n ≤ ⌊q⌋ := Int.le_floor.mpr h
  unfold nearestEven
  split
  · exact hfloor
  · split
    · omega
    · split
      · exact hfloor
      · omega

theorem nearestEven_le {n : ℤ} {q : ℚ} (h : q ≤ n) : nearestEven q ≤ n := by
  rcases h.lt_or_eq with hlt | heq
  · have hfloor : ⌊q⌋ < n := Int.floor_lt.mpr hlt
    unfold nearestEven
    split
    · omega
    · split
      · omega
      · split
        · omega
        · omega
  · rw [heq, nearestEven_intCast]

/-- An even integer is reached from half a unit below on. -/
theorem nearestEven_lt_iff {n : ℤ} {q : ℚ} (heven : n % 2 = 0) :
    nearestEven q < n ↔ q < n - 1 / 2 := by
  have hle := Int.floor_le q
  have hlt := Int.lt_floor_add_one q
  rcases lt_trichotomy (⌊q⌋ + 1) n with hbelow | hat | habove
  · have hcast : ((⌊q⌋ : ℤ) : ℚ) + 2 ≤ n := by exact_mod_cast (by omega : ⌊q⌋ + 2 ≤ n)
    have hround : nearestEven q ≤ ⌊q⌋ + 1 := nearestEven_le (by push_cast; exact hlt.le)
    exact ⟨fun _ => by linarith, fun _ => by omega⟩
  · have hcast : ((⌊q⌋ : ℤ) : ℚ) = n - 1 := by
      rw [← hat]
      push_cast
      ring
    have hodd : ¬ ⌊q⌋ % 2 = 0 := by omega
    unfold nearestEven
    rw [if_neg hodd, ite_self, hcast]
    split
    · next hhalf => exact ⟨fun _ => by linarith, fun _ => by omega⟩
    · next hhalf => exact ⟨fun h => by omega, fun h => absurd (by linarith) hhalf⟩
  · have hcast : (n : ℚ) ≤ ⌊q⌋ := by exact_mod_cast (by omega : n ≤ ⌊q⌋)
    have hround : n ≤ nearestEven q := le_nearestEven (hcast.trans hle)
    exact ⟨fun h => by omega, fun h => by linarith⟩

theorem ulp_pos (p : ℕ) (q : ℚ) : 0 < ulp p q := zpow_pos (by norm_num) _

theorem roundTo_zero (p : ℕ) : roundTo p 0 = 0 := by
  have h : nearestEven ((0 : ℚ) / ulp p 0) = 0 := by
    rw [zero_div]
    exact_mod_cast nearestEven_intCast 0
  rw [roundTo, h, Int.cast_zero, zero_mul]

/-- A power of two, counted in units. -/
theorem zpow_div_ulp (p : ℕ) (q : ℚ) (k : ℤ) :
    (2 : ℚ) ^ k / ulp p q = 2 ^ (k - (Int.log 2 |q| - (p - 1))) := by
  rw [ulp, ← zpow_sub₀ (by norm_num)]

theorem zpow_intCast_of_nonneg {k : ℤ} (hk : 0 ≤ k) : ((2 ^ k.toNat : ℤ) : ℚ) = 2 ^ k := by
  obtain ⟨n, rfl⟩ := Int.eq_ofNat_of_zero_le hk
  rw [Int.toNat_natCast, zpow_natCast]
  push_cast
  rfl

variable {p : ℕ} {q : ℚ}

theorem zpow_log_le (hq : 0 < q) : (2 : ℚ) ^ Int.log 2 |q| ≤ q := by
  rw [abs_of_pos hq]
  exact_mod_cast Int.zpow_log_le_self (b := 2) (by norm_num) hq

theorem lt_zpow_succ_log (hq : 0 < q) : q < 2 ^ (Int.log 2 |q| + 1) := by
  rw [abs_of_pos hq]
  exact_mod_cast Int.lt_zpow_succ_log_self (b := 2) (by norm_num) q

/-- The power of two above `q` is `2 ^ p` units. -/
theorem zpow_succ_log_div_ulp (p : ℕ) (q : ℚ) :
    (2 : ℚ) ^ (Int.log 2 |q| + 1) / ulp p q = ((2 ^ p : ℤ) : ℚ) := by
  have hexp : Int.log 2 |q| + 1 - (Int.log 2 |q| - ((p : ℤ) - 1)) = p := by ring
  rw [zpow_div_ulp, hexp, zpow_natCast]
  push_cast
  rfl

/-- Rounding does not pass a power of two downwards. -/
theorem le_roundTo (hp : 0 < p) {k : ℤ} (hk : (2 : ℚ) ^ k ≤ q) : 2 ^ k ≤ roundTo p q := by
  have hq : 0 < q := lt_of_lt_of_le (zpow_pos (by norm_num) k) hk
  have hkl : k ≤ Int.log 2 |q| := by
    rw [abs_of_pos hq]
    exact (Int.zpow_le_iff_le_log (b := 2) (by norm_num) hq).mp (by exact_mod_cast hk)
  have hexp : 0 ≤ Int.log 2 |q| - (Int.log 2 |q| - ((p : ℤ) - 1)) := by omega
  have hunits : (2 : ℚ) ^ (Int.log 2 |q|) / ulp p q ≤ q / ulp p q :=
    div_le_div_of_nonneg_right (zpow_log_le hq) (ulp_pos p q).le
  rw [zpow_div_ulp, ← zpow_intCast_of_nonneg hexp] at hunits
  have hround : (2 : ℚ) ^ (Int.log 2 |q|) / ulp p q ≤ nearestEven (q / ulp p q) := by
    rw [zpow_div_ulp, ← zpow_intCast_of_nonneg hexp]
    exact_mod_cast le_nearestEven hunits
  calc (2 : ℚ) ^ k ≤ 2 ^ Int.log 2 |q| := zpow_le_zpow_right₀ (by norm_num) hkl
    _ ≤ nearestEven (q / ulp p q) * ulp p q := (div_le_iff₀ (ulp_pos p q)).mp hround

theorem roundTo_le_succ (hq : 0 < q) : roundTo p q ≤ 2 ^ (Int.log 2 |q| + 1) := by
  have hunits : q / ulp p q ≤ ((2 ^ p : ℤ) : ℚ) := by
    rw [← zpow_succ_log_div_ulp p q]
    exact div_le_div_of_nonneg_right (lt_zpow_succ_log hq).le (ulp_pos p q).le
  have hround : (nearestEven (q / ulp p q) : ℚ) ≤ 2 ^ (Int.log 2 |q| + 1) / ulp p q := by
    rw [zpow_succ_log_div_ulp]
    exact_mod_cast nearestEven_le hunits
  exact (le_div_iff₀ (ulp_pos p q)).mp hround

/-- A positive number stays below `2 ^ k` exactly when it is more than half a unit below it. -/
theorem roundTo_lt_iff (hp : 0 < p) (hq : 0 < q) (k : ℤ) :
    roundTo p q < 2 ^ k ↔ q < 2 ^ k - 2 ^ (k - p - 1) := by
  have hpos : (0 : ℚ) < 2 ^ (k - p - 1) := zpow_pos (by norm_num) _
  rcases lt_trichotomy (Int.log 2 |q| + 1) k with hbelow | hat | habove
  · have htwice : (2 : ℚ) ^ k = 2 ^ (k - 1) + 2 ^ (k - 1) := by
      rw [← two_mul, ← zpow_one_add₀ (by norm_num)]
      congr 1
      ring
    have hhalf : (2 : ℚ) ^ (Int.log 2 |q| + 1) ≤ 2 ^ (k - 1) :=
      zpow_le_zpow_right₀ (by norm_num) (by omega)
    have hsmall : (2 : ℚ) ^ (k - p - 1) ≤ 2 ^ (k - 1) :=
      zpow_le_zpow_right₀ (by norm_num) (by omega)
    have hround := roundTo_le_succ (p := p) hq
    have hlt := lt_zpow_succ_log hq
    exact ⟨fun _ => by linarith, fun _ => by linarith⟩
  · have hu := ulp_pos p q
    have heven : (2 ^ p : ℤ) % 2 = 0 := Int.emod_eq_zero_of_dvd (dvd_pow_self 2 hp.ne')
    have hunits := zpow_succ_log_div_ulp p q
    have hulp : (2 : ℚ) ^ (k - p - 1) = 1 / 2 * ulp p q := by
      rw [ulp, one_div, ← zpow_neg_one, ← zpow_add₀ (by norm_num)]
      congr 1
      omega
    rw [hat] at hunits
    have hk : (2 : ℚ) ^ k = ((2 ^ p : ℤ) : ℚ) * ulp p q := by
      rw [← hunits, div_mul_cancel₀ _ hu.ne']
    rw [roundTo, hk, hulp, ← sub_mul, mul_lt_mul_iff_of_pos_right hu, ← div_lt_iff₀ hu,
      ← nearestEven_lt_iff heven]
    exact Int.cast_lt
  · have hle : (2 : ℚ) ^ k ≤ q :=
      (zpow_le_zpow_right₀ (by norm_num) (by omega)).trans (zpow_log_le hq)
    have hround := le_roundTo hp hle
    exact ⟨fun h => by linarith, fun h => by linarith⟩

/-- The largest number of `p` digits below `2 ^ k`. -/
theorem roundTo_le_pred (hp : 0 < p) (hq : 0 < q) {k : ℤ} (h : roundTo p q < 2 ^ k) :
    roundTo p q ≤ 2 ^ k - 2 ^ (k - p) := by
  rcases lt_trichotomy (Int.log 2 |q| + 1) k with hbelow | hat | habove
  · have htwice : (2 : ℚ) ^ k = 2 ^ (k - 1) + 2 ^ (k - 1) := by
      rw [← two_mul, ← zpow_one_add₀ (by norm_num)]
      congr 1
      ring
    have hhalf : (2 : ℚ) ^ (Int.log 2 |q| + 1) ≤ 2 ^ (k - 1) :=
      zpow_le_zpow_right₀ (by norm_num) (by omega)
    have hsmall : (2 : ℚ) ^ (k - p) ≤ 2 ^ (k - 1) :=
      zpow_le_zpow_right₀ (by norm_num) (by omega)
    have hround := roundTo_le_succ (p := p) hq
    linarith
  · have hu := ulp_pos p q
    have hunits := zpow_succ_log_div_ulp p q
    have hulp : (2 : ℚ) ^ (k - p) = ulp p q := by
      rw [ulp]
      congr 1
      omega
    rw [hat] at hunits
    have hk : (2 : ℚ) ^ k = ((2 ^ p : ℤ) : ℚ) * ulp p q := by
      rw [← hunits, div_mul_cancel₀ _ hu.ne']
    rw [roundTo, hk, mul_lt_mul_iff_of_pos_right hu, Int.cast_lt] at h
    have hle : (nearestEven (q / ulp p q) : ℚ) ≤ ((2 ^ p : ℤ) : ℚ) - 1 := by
      exact_mod_cast Int.le_sub_one_of_lt h
    have hmul := mul_le_mul_of_nonneg_right hle hu.le
    rw [roundTo, hk, hulp]
    linarith
  · have hle : (2 : ℚ) ^ k ≤ q :=
      (zpow_le_zpow_right₀ (by norm_num) (by omega)).trans (zpow_log_le hq)
    have hround := le_roundTo hp hle
    linarith

/-- Rounding twice does not reach a power of two that rounding once does not. -/
theorem roundTo_roundTo_lt_iff (hp : 0 < p) (hq : 0 < q) (hr : 0 < roundTo p q) (k : ℤ) :
    roundTo p (roundTo p q) < 2 ^ k ↔ roundTo p q < 2 ^ k := by
  have hhalf : (2 : ℚ) ^ (k - p - 1) < 2 ^ (k - p) :=
    zpow_lt_zpow_right₀ (by norm_num) (by omega)
  have hpos : (0 : ℚ) < 2 ^ (k - p - 1) := zpow_pos (by norm_num) _
  rw [roundTo_lt_iff hp hr]
  constructor
  · intro h
    linarith
  · intro h
    have hpred := roundTo_le_pred hp hq h
    linarith

/-- An integer of at most `p` digits is not changed. -/
theorem roundTo_intCast {n : ℤ} (hn : |n| < 2 ^ p) : roundTo p n = n := by
  rcases eq_or_ne n 0 with rfl | hne
  · exact_mod_cast roundTo_zero p
  · have hpos : (0 : ℚ) < |(n : ℚ)| := abs_pos.mpr (Int.cast_ne_zero.mpr hne)
    have hlog : Int.log 2 |(n : ℚ)| < p := by
      rw [← Int.lt_zpow_iff_log_lt (b := 2) (by norm_num) hpos, zpow_natCast]
      exact_mod_cast hn
    have hexp : 0 ≤ -(Int.log 2 |(n : ℚ)| - ((p : ℤ) - 1)) := by omega
    have hinv : (n : ℚ) / ulp p n = ((n * 2 ^ (-(Int.log 2 |(n : ℚ)| - ((p : ℤ) - 1))).toNat : ℤ) : ℚ) := by
      rw [Int.cast_mul, zpow_intCast_of_nonneg hexp, zpow_neg, ulp, div_eq_mul_inv]
    rw [roundTo, hinv, nearestEven_intCast, ← hinv, div_mul_cancel₀ _ (ulp_pos p n).ne']

end TinyStm.Rounding
