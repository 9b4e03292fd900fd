import Mathlib.Algebra.Order.Floor.Ring
import Mathlib.Data.Rat.Floor
import Mathlib.Logic.Function.Basic
import Mathlib.Tactic.Linarith
import Mathlib.Tactic.NormNum

/-!
# The keys of the model cache (mb-hash-table.c, `MB_APPROX_PRECISION`)

`hashT_get` cuts the bits of two doubles below a binary place and forms an index from the
mantissas. Doubles are 64-bit patterns; a finite one stands for a rational.
-/

namespace TinyStm.Mb

/-! ### Doubles -/

/-- `(dbl_ull & DOUBLE_EXP_MASK) >> 52`. -/
def dblExp (x : BitVec 64) : ℕ := ((x &&& 0x7FF0000000000000#64) >>> 52).toNat

/-- `dbl_ull & DOUBLE_MAN_MASK`. -/
def dblMan (x : BitVec 64) : BitVec 64 := x &&& 0x000FFFFFFFFFFFFF#64

def Finite (x : BitVec 64) : Prop := dblExp x ≠ 0x7FF

instance (x : BitVec 64) : Decidable (Finite x) := inferInstanceAs (Decidable (¬ _))

/-- The absolute value of a finite double. -/
def magnitude (x : BitVec 64) : ℚ :=
  if dblExp x = 0 then (dblMan x).toNat * 2 ^ (-1074 : ℤ)
  else (2 ^ 52 + (dblMan x).toNat) * 2 ^ ((dblExp x : ℤ) - 1075)

def value (x : BitVec 64) : ℚ := if x.msb then -magnitude x else magnitude x

/-- `==` on doubles. -/
def dblEq (x y : BitVec 64) : Bool :=
  if Finite x ∧ Finite y then value x = value y else x = y && dblMan x = 0

/-! ### Keys -/

/-- The macros of mb-hash-table.h, with what makes them shifts and an `int` product that C defines. -/
structure KeyConfig where
  urRound : ℤ
  accRound : ℤ
  tvRound : ℕ
  tvBits : ℕ
  urBits : ℕ
  accBits : ℕ
  tvRound_lt : tvRound < 64
  tvBits_pos : 0 < tvBits
  bits_le : tvBits + urBits + accBits ≤ 30

/-- The defaults. -/
def KeyConfig.default : KeyConfig where
  urRound := 12
  accRound := 12
  tvRound := 12
  tvBits := 7
  urBits := 7
  accBits := 7
  tvRound_lt := by decide
  tvBits_pos := by decide
  bits_le := by decide

/-- `HASH_T_SIZE`. -/
def KeyConfig.size (cfg : KeyConfig) : ℕ := 2 ^ cfg.tvBits * 2 ^ cfg.urBits * 2 ^ cfg.accBits

/-- The rounding of one argument, `none` where `hashT_get` returns at once. -/
def roundBits (R : ℤ) (x : BitVec 64) : Option (BitVec 64) :=
  if dblExp x = 0x7FF then none
  else if dblExp x = 0 then some 0
  else
    let sh : ℤ := 52 - (R + ((dblExp x : ℤ) - 1023))
    if 52 ≤ sh then some 0
    else if 0 < sh then some ((x >>> sh.toNat) <<< sh.toNat)
    else some x

structure Key where
  idx : BitVec 64
  tv : BitVec 64
  ur : BitVec 64
  acc : BitVec 64

/-- The rounded arguments and their index. -/
def hashKey (cfg : KeyConfig) (tv ur acc : BitVec 64) : Option Key := do
  let tv := tv &&& (BitVec.allOnes 64 <<< cfg.tvRound)
  let tvMask := BitVec.allOnes 64 >>> (64 - cfg.tvBits)
  let idx := ((tv >>> cfg.tvRound) &&& tvMask) * BitVec.ofNat 64 (2 ^ cfg.urBits * 2 ^ cfg.accBits)
  let ur ← roundBits cfg.urRound ur
  let idx := idx + (dblMan ur >>> (52 - cfg.urBits)) * BitVec.ofNat 64 (2 ^ cfg.accBits)
  let acc ← roundBits cfg.accRound acc
  let idx := idx + dblMan acc >>> (52 - cfg.accBits)
  pure ⟨idx, tv, ur, acc⟩

/-- `mb_data_t` with the key it is stored under and what `mb_calculate` has found. -/
structure Data (C : Type*) where
  tValidation : BitVec 64
  uRate : BitVec 64
  aRead : BitVec 64
  opt : C

def Data.matches {C : Type*} (d : Data C) (k : Key) : Bool :=
  k.tv = d.tValidation && dblEq k.ur d.uRate && dblEq k.acc d.aRead

/-- `hashT_get` by one thread, on the lists of the buckets: the table after it, what it stores in
`*data_p`, and whether it is a hit. -/
def hashTGet {C : Type*} (cfg : KeyConfig) (optOf : BitVec 64 → BitVec 64 → BitVec 64 → C)
    (hashT : ℕ → List (Data C)) (tv ur acc : BitVec 64) :
    (ℕ → List (Data C)) × Option (Data C) × Bool :=
  match hashKey cfg tv ur acc with
  | none => (hashT, none, false)
  | some k =>
    match (hashT k.idx.toNat).find? fun d => d.matches k with
    | some d => (hashT, some d, true)
    | none =>
      let d : Data C := ⟨k.tv, k.ur, k.acc, optOf k.tv k.ur k.acc⟩
      (Function.update hashT k.idx.toNat (d :: hashT k.idx.toNat), some d, false)

/-! ### The index -/

theorem dblMan_toNat (x : BitVec 64) : (dblMan x).toNat = x.toNat % 2 ^ 52 := by
  rw [dblMan, BitVec.toNat_and]
  exact Nat.and_two_pow_sub_one_eq_mod x.toNat 52

theorem dblExp_eq (x : BitVec 64) : dblExp x = x.toNat / 2 ^ 52 % 2 ^ 11 := by
  have hmask : (0x7FF0000000000000#64).toNat >>> 52 = 2 ^ 11 - 1 := by decide
  rw [dblExp, BitVec.toNat_ushiftRight, BitVec.toNat_and, Nat.shiftRight_and_distrib, hmask,
    Nat.and_two_pow_sub_one_eq_mod, Nat.shiftRight_eq_div_pow]

theorem toNat_man_shift (x : BitVec 64) {b : ℕ} (hb : b ≤ 52) :
    (dblMan x >>> (52 - b)).toNat < 2 ^ b := by
  rw [BitVec.toNat_ushiftRight, dblMan_toNat, Nat.shiftRight_eq_div_pow,
    Nat.div_lt_iff_lt_mul (Nat.two_pow_pos _), ← pow_add, Nat.add_sub_cancel' hb]
  exact Nat.mod_lt _ (Nat.two_pow_pos 52)

theorem toNat_mask {b : ℕ} (hb : b ≤ 64) (x : BitVec 64) :
    (x &&& (BitVec.allOnes 64 >>> (64 - b))).toNat < 2 ^ b := by
  have hmask : (BitVec.allOnes 64 >>> (64 - b)).toNat < 2 ^ b := by
    rw [BitVec.toNat_ushiftRight, Nat.shiftRight_eq_div_pow, Nat.div_lt_iff_lt_mul (Nat.two_pow_pos _),
      ← pow_add, Nat.add_sub_cancel' hb]
    exact (BitVec.allOnes 64).isLt
  rw [BitVec.toNat_and]
  exact lt_of_le_of_lt Nat.and_le_right hmask

/-- Three digits in mixed radix. -/
theorem digits_lt {a b c A B C : ℕ} (ha : a < A) (hb : b < B) (hc : c < C) :
    a * (B * C) + b * C + c < A * B * C := by
  have h1 : b * C + c < B * C := by
    calc b * C + c < b * C + C := by omega
      _ = (b + 1) * C := by ring
      _ ≤ B * C := Nat.mul_le_mul_right C hb
  calc a * (B * C) + b * C + c < a * (B * C) + B * C := by omega
    _ = (a + 1) * (B * C) := by ring
    _ ≤ A * (B * C) := Nat.mul_le_mul_right _ ha
    _ = A * B * C := by ring

theorem toNat_add_le (x y : BitVec 64) : (x + y).toNat ≤ x.toNat + y.toNat := by
  rw [BitVec.toNat_add]
  exact Nat.mod_le _ _

theorem toNat_mul_le (x : BitVec 64) (n : ℕ) : (x * BitVec.ofNat 64 n).toNat ≤ x.toNat * n := by
  rw [BitVec.toNat_mul, BitVec.toNat_ofNat]
  exact (Nat.mod_le _ _).trans (Nat.mul_le_mul_left _ (Nat.mod_le _ _))

theorem hashKey_idx_lt {cfg : KeyConfig} {tv ur acc : BitVec 64} {k : Key}
    (h : hashKey cfg tv ur acc = some k) : k.idx.toNat < cfg.size := by
  simp only [hashKey, Option.bind_eq_bind, Option.bind_eq_some_iff, Option.pure_def,
    Option.some.injEq] at h
  obtain ⟨u, -, a, -, rfl⟩ := h
  have hbits := cfg.bits_le
  have ht := toNat_mask (b := cfg.tvBits) (by omega)
    ((tv &&& (BitVec.allOnes 64 <<< cfg.tvRound)) >>> cfg.tvRound)
  have hu := toNat_man_shift u (b := cfg.urBits) (by omega)
  have ha := toNat_man_shift a (b := cfg.accBits) (by omega)
  refine lt_of_le_of_lt ?_ (digits_lt ht hu ha)
  refine (toNat_add_le _ _).trans (Nat.add_le_add_right ?_ _)
  exact (toNat_add_le _ _).trans (Nat.add_le_add (toNat_mul_le _ _) (toNat_mul_le _ _))

/-! ### Rounding -/

/-- `q` cut towards zero to a multiple of `2 ^ -R`. -/
def truncTo (R : ℤ) (q : ℚ) : ℚ :=
  if q < 0 then -(⌊-q * 2 ^ R⌋ * 2 ^ (-R)) else ⌊q * 2 ^ R⌋ * 2 ^ (-R)

/-- Not less than `2 ^ -R`, yet below `2 ^ (1 - R)` or subnormal. -/
def FallsToZero (R : ℤ) (x : BitVec 64) : Prop :=
  2 ^ (-R) ≤ magnitude x ∧ (magnitude x < 2 ^ (1 - R) ∨ dblExp x = 0)

variable {R : ℤ} {x y : BitVec 64}

theorem magnitude_nonneg (x : BitVec 64) : 0 ≤ magnitude x := by
  unfold magnitude
  split
  · exact mul_nonneg (Nat.cast_nonneg _) (zpow_nonneg (by norm_num) _)
  · exact mul_nonneg (by positivity) (zpow_nonneg (by norm_num) _)

theorem truncTo_value (R : ℤ) (x : BitVec 64) :
    truncTo R (value x) =
      if x.msb then -((⌊magnitude x * 2 ^ R⌋ : ℚ) * 2 ^ (-R))
      else (⌊magnitude x * 2 ^ R⌋ : ℚ) * 2 ^ (-R) := by
  have hnonneg := magnitude_nonneg x
  unfold truncTo value
  cases hmsb : x.msb with
  | false =>
    rw [if_neg Bool.false_ne_true, if_neg Bool.false_ne_true, if_neg (not_lt.mpr hnonneg)]
  | true =>
    rw [if_pos rfl, if_pos rfl]
    rcases hnonneg.lt_or_eq with hpos | hzero
    · rw [if_pos (by linarith), neg_neg]
    · rw [← hzero]
      simp

theorem value_zero : value 0 = 0 := by
  have hmag : magnitude 0 = 0 := by
    have hexp : dblExp 0 = 0 := by decide
    have hman : (dblMan 0).toNat = 0 := by decide
    rw [magnitude, if_pos hexp, hman, Nat.cast_zero, zero_mul]
  rw [value, if_neg (by decide), hmag]

/-- Rounding to zero is right below `2 ^ -R` only. -/
theorem truncTo_eq_zero_iff (R : ℤ) (x : BitVec 64) :
    value 0 = truncTo R (value x) ↔ magnitude x < 2 ^ (-R) := by
  have hunit : (0 : ℚ) < 2 ^ (-R) := zpow_pos (by norm_num) _
  have hscale : (0 : ℚ) < 2 ^ R := zpow_pos (by norm_num) _
  have hnonneg : 0 ≤ magnitude x * 2 ^ R := mul_nonneg (magnitude_nonneg x) hscale.le
  have hfloor : (⌊magnitude x * 2 ^ R⌋ : ℚ) * 2 ^ (-R) = 0 ↔ magnitude x < 2 ^ (-R) := by
    rw [mul_eq_zero, or_iff_left hunit.ne', Int.cast_eq_zero, Int.floor_eq_zero_iff, Set.mem_Ico,
      and_iff_right hnonneg, zpow_neg, ← one_div, lt_div_iff₀ hscale]
  rw [value_zero, truncTo_value, ← hfloor]
  split
  · exact zero_eq_neg.trans Iff.rfl
  · exact eq_comm

theorem dblMan_lt (x : BitVec 64) : (dblMan x).toNat < 2 ^ 52 := by
  rw [dblMan_toNat]
  exact Nat.mod_lt _ (Nat.two_pow_pos 52)

theorem two_pow_52_mul (k : ℤ) : (2 : ℚ) ^ 52 * 2 ^ (k - 1075) = 2 ^ (k - 1023) := by
  rw [← zpow_natCast, ← zpow_add₀ (by norm_num)]
  congr 1
  push_cast
  ring

/-- A normal number and its exponent. -/
theorem magnitude_bounds (h : dblExp x ≠ 0) :
    2 ^ ((dblExp x : ℤ) - 1023) ≤ magnitude x ∧ magnitude x < 2 ^ ((dblExp x : ℤ) - 1022) := by
  have hman : ((dblMan x).toNat : ℚ) < 2 ^ 52 := by exact_mod_cast dblMan_lt x
  have hzero : (0 : ℚ) ≤ (dblMan x).toNat := Nat.cast_nonneg _
  have hunit : (0 : ℚ) < 2 ^ ((dblExp x : ℤ) - 1075) := zpow_pos (by norm_num) _
  have htwice : (2 : ℚ) ^ ((dblExp x : ℤ) - 1022) = 2 * 2 ^ ((dblExp x : ℤ) - 1023) := by
    rw [← zpow_one_add₀ (by norm_num)]
    congr 1
    ring
  rw [magnitude, if_neg h, htwice, ← two_pow_52_mul, ← mul_assoc]
  constructor
  · exact mul_le_mul_of_nonneg_right (by linarith) hunit.le
  · exact mul_lt_mul_of_pos_right (by linarith) hunit

/-! ### Clearing low bits -/

theorem toNat_cut (x : BitVec 64) (sh : ℕ) : ((x >>> sh) <<< sh).toNat = x.toNat / 2 ^ sh * 2 ^ sh := by
  have hle : x.toNat / 2 ^ sh * 2 ^ sh ≤ x.toNat := Nat.div_mul_le_self _ _
  have hlt := x.isLt
  rw [BitVec.toNat_shiftLeft, BitVec.toNat_ushiftRight, Nat.shiftRight_eq_div_pow, Nat.shiftLeft_eq]
  exact Nat.mod_eq_of_lt (by omega)

/-- Clearing bits of the mantissa leaves the rest of the pattern. -/
theorem cut_fields (x : BitVec 64) {sh : ℕ} (hsh : sh ≤ 52) :
    dblExp ((x >>> sh) <<< sh) = dblExp x ∧
      (dblMan ((x >>> sh) <<< sh)).toNat = (dblMan x).toNat / 2 ^ sh * 2 ^ sh ∧
      ((x >>> sh) <<< sh).msb = x.msb := by
  have hpow : (2 : ℕ) ^ 52 = 2 ^ sh * 2 ^ (52 - sh) := by
    rw [← pow_add, Nat.add_sub_cancel' hsh]
  have hcut := toNat_cut x sh
  have hsplit : x.toNat / 2 ^ sh * 2 ^ sh =
      x.toNat / 2 ^ 52 * 2 ^ 52 + x.toNat % 2 ^ 52 / 2 ^ sh * 2 ^ sh := by
    have hdiv : x.toNat / 2 ^ sh = 2 ^ (52 - sh) * (x.toNat / 2 ^ 52) + x.toNat % 2 ^ 52 / 2 ^ sh := by
      rw [← Nat.mul_add_div (Nat.two_pow_pos sh), ← Nat.mul_assoc, ← hpow, Nat.div_add_mod]
    rw [hdiv, hpow]
    ring
  have hman : x.toNat % 2 ^ 52 / 2 ^ sh * 2 ^ sh < 2 ^ 52 :=
    lt_of_le_of_lt (Nat.div_mul_le_self _ _) (Nat.mod_lt _ (Nat.two_pow_pos 52))
  refine ⟨?_, ?_, ?_⟩
  · rw [dblExp_eq, dblExp_eq, hcut, hsplit]
    congr 1
    omega
  · rw [dblMan_toNat, dblMan_toNat, hcut, hsplit]
    omega
  · rw [BitVec.msb_eq_decide, BitVec.msb_eq_decide, hcut, hsplit]
    apply decide_eq_decide.mpr
    omega

/-- Above `2 ^ (1 - R)` the bits that are cleared are those below `2 ^ -R`. -/
theorem value_cut (hexp : dblExp x ≠ 0) {sh : ℕ} (hsh : (sh : ℤ) = 52 - (R + ((dblExp x : ℤ) - 1023)))
    (hle : sh ≤ 52) : value ((x >>> sh) <<< sh) = truncTo R (value x) := by
  obtain ⟨hexp', hman', hmsb'⟩ := cut_fields x hle
  have hpow : (2 : ℕ) ^ 52 = 2 ^ sh * 2 ^ (52 - sh) := by
    rw [← pow_add, Nat.add_sub_cancel' hle]
  have hunit : (2 : ℚ) ^ ((dblExp x : ℤ) - 1075) * 2 ^ R = ((2 ^ sh : ℕ) : ℚ)⁻¹ := by
    rw [← zpow_add₀ (by norm_num), Nat.cast_pow, ← zpow_natCast, ← zpow_neg]
    congr 1
    omega
  have hback : ((2 ^ sh : ℕ) : ℚ) * 2 ^ ((dblExp x : ℤ) - 1075) = 2 ^ (-R) := by
    rw [Nat.cast_pow, ← zpow_natCast, Nat.cast_ofNat, ← zpow_add₀ (by norm_num)]
    congr 1
    omega
  have hfloor : ⌊magnitude x * 2 ^ R⌋ = ((2 ^ 52 + (dblMan x).toNat) / 2 ^ sh : ℕ) := by
    have hquot : magnitude x * 2 ^ R = ((2 ^ 52 + (dblMan x).toNat : ℕ) : ℚ) / ((2 ^ sh : ℕ) : ℚ) := by
      rw [magnitude, if_neg hexp, mul_assoc, hunit, div_eq_mul_inv]
      push_cast
      rfl
    rw [hquot, Rat.floor_natCast_div_natCast]
    exact (Int.natCast_div _ _).symm
  have hcut : magnitude ((x >>> sh) <<< sh) = (⌊magnitude x * 2 ^ R⌋ : ℚ) * 2 ^ (-R) := by
    have hnat : 2 ^ 52 + (dblMan x).toNat / 2 ^ sh * 2 ^ sh =
        (2 ^ 52 + (dblMan x).toNat) / 2 ^ sh * 2 ^ sh := by
      rw [hpow, Nat.mul_add_div (Nat.two_pow_pos sh)]
      ring
    have hcast : (2 ^ 52 + ((dblMan x).toNat / 2 ^ sh * 2 ^ sh : ℕ) : ℚ) =
        ((2 ^ 52 + (dblMan x).toNat) / 2 ^ sh : ℕ) * ((2 ^ sh : ℕ) : ℚ) := by
      exact_mod_cast hnat
    rw [magnitude, hexp', if_neg hexp, hman', hcast, mul_assoc, hback, hfloor]
    norm_cast
  rw [value, truncTo_value, hmsb', hcut]

/-- Numbers that are already multiples of `2 ^ -R`. -/
theorem value_multiple (hexp : dblExp x ≠ 0) (h : 52 - (R + ((dblExp x : ℤ) - 1023)) ≤ 0) :
    value x = truncTo R (value x) := by
  have hscaled : magnitude x * 2 ^ R =
      (((2 ^ 52 + (dblMan x).toNat) * 2 ^ ((dblExp x : ℤ) - 1075 + R).toNat : ℕ) : ℤ) := by
    have hexp2 : (2 : ℚ) ^ ((dblExp x : ℤ) - 1075) * 2 ^ R =
        ((2 ^ ((dblExp x : ℤ) - 1075 + R).toNat : ℕ) : ℚ) := by
      rw [← zpow_add₀ (by norm_num), Nat.cast_pow, ← zpow_natCast, Nat.cast_ofNat]
      congr 1
      omega
    rw [magnitude, if_neg hexp, mul_assoc, hexp2]
    push_cast
    rfl
  have hmag : (⌊magnitude x * 2 ^ R⌋ : ℚ) * 2 ^ (-R) = magnitude x := by
    have hfloor : (⌊magnitude x * 2 ^ R⌋ : ℚ) = magnitude x * 2 ^ R := by
      rw [hscaled, Int.floor_intCast]
    rw [hfloor, mul_assoc, ← zpow_add₀ (by norm_num), add_neg_cancel, zpow_zero, mul_one]
  rw [truncTo_value, hmag, value]

/-- The rounding is exact but for the numbers that fall to zero. -/
theorem roundBits_spec (R : ℤ) (hfin : Finite x) :
    ∃ y, roundBits R x = some y ∧ (value y = truncTo R (value x) ↔ ¬ FallsToZero R x) := by
  unfold roundBits FallsToZero
  rw [if_neg hfin]
  by_cases hexp : dblExp x = 0
  · refine ⟨0, if_pos hexp, ?_⟩
    rw [truncTo_eq_zero_iff, not_and_or, not_le, or_iff_left fun h => h (.inr hexp)]
  · obtain ⟨hlow, hhigh⟩ := magnitude_bounds hexp
    rw [if_neg hexp]
    dsimp only
    split
    · next hsh =>
      have hsmall : magnitude x < 2 ^ (1 - R) :=
        hhigh.trans_le (zpow_le_zpow_right₀ (by norm_num) (by omega))
      refine ⟨0, rfl, ?_⟩
      rw [truncTo_eq_zero_iff, not_and_or, not_le, or_iff_left fun h => h (.inl hsmall)]
    · next hsh =>
      have hlarge : 2 ^ (1 - R) ≤ magnitude x :=
        (zpow_le_zpow_right₀ (by norm_num) (by omega)).trans hlow
      have hnot : ¬ (2 ^ (-R) ≤ magnitude x ∧ (magnitude x < 2 ^ (1 - R) ∨ dblExp x = 0)) := by
        rintro ⟨-, hlt | h0⟩
        · exact absurd hlt (not_lt.mpr hlarge)
        · exact hexp h0
      split
      · next hpos =>
        refine ⟨_, rfl, iff_of_true ?_ hnot⟩
        exact value_cut hexp (by omega) (by omega)
      · next hpos => exact ⟨x, rfl, iff_of_true (value_multiple hexp (by omega)) hnot⟩

/-! ### The key of a call -/

variable {cfg : KeyConfig} {tv ur acc : BitVec 64} {C : Type*}

theorem roundBits_none (h : ¬ Finite x) : roundBits R x = none := if_pos (not_not.mp h)

theorem hashKey_some (cfg : KeyConfig) (tv : BitVec 64) (hur : Finite ur) (hacc : Finite acc) :
    ∃ k, hashKey cfg tv ur acc = some k ∧ roundBits cfg.urRound ur = some k.ur ∧
      roundBits cfg.accRound acc = some k.acc := by
  obtain ⟨u, hu, -⟩ := roundBits_spec cfg.urRound hur
  obtain ⟨a, ha, -⟩ := roundBits_spec cfg.accRound hacc
  simp only [hashKey, hu, ha, Option.bind_eq_bind, Option.bind_some, Option.pure_def,
    Option.some.injEq, exists_eq_left']
  trivial

theorem hashKey_none (h : ¬ (Finite ur ∧ Finite acc)) : hashKey cfg tv ur acc = none := by
  rw [not_and_or] at h
  rcases h with h | h
  · simp only [hashKey, roundBits_none h, Option.bind_eq_bind, Option.bind_none]
  · simp only [hashKey, roundBits_none h, Option.bind_eq_bind, Option.bind_none]
    cases roundBits cfg.urRound ur <;> rfl

/-- `*data_p` is assigned by every call that gets as far as the table. -/
theorem hashTGet_assigns (optOf : BitVec 64 → BitVec 64 → BitVec 64 → C) (hashT : ℕ → List (Data C)) :
    (hashTGet cfg optOf hashT tv ur acc).2.1.isSome = true ↔ Finite ur ∧ Finite acc := by
  by_cases h : Finite ur ∧ Finite acc
  · obtain ⟨k, hk, -⟩ := hashKey_some cfg tv h.1 h.2
    rw [hashTGet, hk]
    dsimp only
    split
    · exact iff_of_true rfl h
    · exact iff_of_true rfl h
  · rw [hashTGet, hashKey_none h]
    exact iff_of_false Bool.false_ne_true h

/-- What a call is to do: assign `*data_p`, and cut finite arguments at their binary places. -/
def KeyRight (cfg : KeyConfig) (optOf : BitVec 64 → BitVec 64 → BitVec 64 → C)
    (hashT : ℕ → List (Data C)) (tv ur acc : BitVec 64) : Prop :=
  (hashTGet cfg optOf hashT tv ur acc).2.1.isSome = true ∧
    (∀ y, roundBits cfg.urRound ur = some y → value y = truncTo cfg.urRound (value ur)) ∧
    ∀ y, roundBits cfg.accRound acc = some y → value y = truncTo cfg.accRound (value acc)

/-- Both arguments are finite and neither falls to zero. -/
def Roundable (cfg : KeyConfig) (ur acc : BitVec 64) : Prop :=
  (Finite ur ∧ ¬ FallsToZero cfg.urRound ur) ∧ Finite acc ∧ ¬ FallsToZero cfg.accRound acc

theorem roundBits_exact_iff (hfin : Finite x) :
    (∀ y, roundBits R x = some y → value y = truncTo R (value x)) ↔ ¬ FallsToZero R x := by
  obtain ⟨y, hy, hiff⟩ := roundBits_spec R hfin
  rw [← hiff, hy]
  exact ⟨fun h => h y rfl, fun h z hz => by rwa [← Option.some.inj hz]⟩

theorem roundBits_finite (h : roundBits R x = some y) : Finite y := by
  unfold roundBits at h
  split at h
  · cases h
  · next hfin =>
    split at h
    · cases h
      decide
    · dsimp only at h
      split at h
      · cases h
        decide
      · split at h
        · cases h
          rw [Finite, (cut_fields x (by omega)).1]
          exact hfin
        · cases h
          exact hfin

/-- A rounded argument and the multiple it stands for. -/
def Rounded (R : ℤ) (x y : BitVec 64) : Prop := Finite y ∧ value y = truncTo R (value x)

theorem dblEq_iff_of_rounded {x' y' : BitVec 64} (h : Rounded R x y) (h' : Rounded R x' y') :
    dblEq y y' = true ↔ truncTo R (value x) = truncTo R (value x') := by
  rw [dblEq, if_pos ⟨h.1, h'.1⟩, decide_eq_true_eq, h.2, h'.2]

theorem hashKey_rounded {k : Key} (h : Roundable cfg ur acc) (hk : hashKey cfg tv ur acc = some k) :
    Rounded cfg.urRound ur k.ur ∧ Rounded cfg.accRound acc k.acc := by
  obtain ⟨k', hk', hu, ha⟩ := hashKey_some cfg tv h.1.1 h.2.1
  rw [hk] at hk'
  cases hk'
  exact ⟨⟨roundBits_finite hu, (roundBits_exact_iff h.1.1).mpr h.1.2 _ hu⟩,
    roundBits_finite ha, (roundBits_exact_iff h.2.1).mpr h.2.2 _ ha⟩

/-- The index of every key is inside the table; a call assigns `*data_p` and rounds as it should
exactly for finite arguments that do not fall to zero; and two such calls have equal rounded arguments
exactly when these are cut to the same multiples. -/
theorem key_right_iff (cfg : KeyConfig) (optOf : BitVec 64 → BitVec 64 → BitVec 64 → C)
    (hashT : ℕ → List (Data C)) (tv ur acc : BitVec 64) :
    (∀ k, hashKey cfg tv ur acc = some k → k.idx.toNat < cfg.size) ∧
    (KeyRight cfg optOf hashT tv ur acc ↔ Roundable cfg ur acc) ∧
    ∀ tv' ur' acc' k k', Roundable cfg ur acc → Roundable cfg ur' acc' →
      hashKey cfg tv ur acc = some k → hashKey cfg tv' ur' acc' = some k' →
      (dblEq k.ur k'.ur = true ↔
        truncTo cfg.urRound (value ur) = truncTo cfg.urRound (value ur')) ∧
      (dblEq k.acc k'.acc = true ↔
        truncTo cfg.accRound (value acc) = truncTo cfg.accRound (value acc')) := by
  refine ⟨fun k hk => hashKey_idx_lt hk, ?_, ?_⟩
  · rw [KeyRight, hashTGet_assigns, Roundable]
    constructor
    · rintro ⟨⟨hur, hacc⟩, hu, ha⟩
      exact ⟨⟨hur, (roundBits_exact_iff hur).mp hu⟩, hacc, (roundBits_exact_iff hacc).mp ha⟩
    · rintro ⟨⟨hur, hu⟩, hacc, ha⟩
      exact ⟨⟨hur, hacc⟩, (roundBits_exact_iff hur).mpr hu, (roundBits_exact_iff hacc).mpr ha⟩
  · intro tv' ur' acc' k k' h h' hk hk'
    obtain ⟨hu, ha⟩ := hashKey_rounded h hk
    obtain ⟨hu', ha'⟩ := hashKey_rounded h' hk'
    exact ⟨dblEq_iff_of_rounded hu hu', dblEq_iff_of_rounded ha ha'⟩

theorem not_fallsToZero (hexp : dblExp x ≠ 0) (h : 1 - R ≤ (dblExp x : ℤ) - 1023) :
    ¬ FallsToZero R x := by
  rintro ⟨-, hlt | h0⟩
  · have hle := (zpow_le_zpow_right₀ (by norm_num : (1 : ℚ) ≤ 2) h).trans (magnitude_bounds hexp).1
    exact absurd hlt (not_lt.mpr hle)
  · exact hexp h0

/-- The keys of a quarter and a half for two periods. -/
theorem key_right_iff_quarter : ∃ k k',
    hashKey .default 5000 0x3FD0000000000000 0x3FE0000000000000 = some k ∧
      hashKey .default 9000 0x3FD0000000000000 0x3FE0000000000000 = some k' ∧
      dblEq k.ur k'.ur = true := by
  have hround : Roundable .default 0x3FD0000000000000 0x3FE0000000000000 :=
    ⟨⟨by decide, not_fallsToZero (by decide) (by decide)⟩, by decide,
      not_fallsToZero (by decide) (by decide)⟩
  obtain ⟨k, hk, -⟩ := hashKey_some .default 5000 hround.1.1 hround.2.1
  obtain ⟨k', hk', -⟩ := hashKey_some .default 9000 hround.1.1 hround.2.1
  have hsame := (key_right_iff .default (fun _ _ _ => ()) (fun _ => []) 5000 0x3FD0000000000000
    0x3FE0000000000000).2.2 9000 0x3FD0000000000000 0x3FE0000000000000 k k' hround hround hk hk'
  exact ⟨k, k', hk, hk', hsame.1.mpr rfl⟩

/-- With the default of 12 places `2 ^ -12` is rounded to zero, and for an infinite argument `*data_p`
is not assigned. -/
theorem key_wrong :
    (¬ ∀ (cfg : KeyConfig) (optOf : BitVec 64 → BitVec 64 → BitVec 64 → Unit) hashT tv ur acc,
      Finite ur → Finite acc → KeyRight cfg optOf hashT tv ur acc) ∧
    ¬ ∀ (cfg : KeyConfig) (optOf : BitVec 64 → BitVec 64 → BitVec 64 → Unit) hashT tv ur acc,
      (hashTGet cfg optOf hashT tv ur acc).2.1.isSome = true := by
  constructor
  · intro h
    have hright := h .default (fun _ _ _ => ()) (fun _ => []) 5000 0x3F30000000000000 0 (by decide)
      (by decide)
    have hzero := (truncTo_eq_zero_iff 12 _).mp (hright.2.1 0 (by decide))
    have hlow := (magnitude_bounds (x := 0x3F30000000000000) (by decide)).1
    have hexp : ((dblExp 0x3F30000000000000 : ℕ) : ℤ) - 1023 = -12 := by decide
    rw [hexp] at hlow
    exact absurd hzero (not_lt.mpr hlow)
  · intro h
    have hinf := h .default (fun _ _ _ => ()) (fun _ => []) 5000 0x7FF0000000000000 0
    rw [hashTGet_assigns] at hinf
    exact absurd hinf.1 (by decide)

end TinyStm.Mb
