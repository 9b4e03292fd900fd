import TinyStm.Mb.Key

/-!
# Equal keys and their buckets

The comparison of keys in `hashT_get` is an equivalence on finite doubles, and keys that compare
equal have one index, with `MB_APPROX_PRECISION` and without.
-/

namespace TinyStm.Mb

variable {x y z : BitVec 64} {cfg : KeyConfig} {approx : Bool}

/-! ### Comparing doubles -/

theorem abs_value (x : BitVec 64) : |value x| = magnitude x := by
  have hnonneg := magnitude_nonneg x
  unfold value
  split
  · rw [abs_neg, abs_of_nonneg hnonneg]
  · exact abs_of_nonneg hnonneg

theorem dblMan_eq_of_cast {x y : BitVec 64} {u : ℚ} (hu : u ≠ 0) {k : ℚ}
    (h : (k + (dblMan x).toNat) * u = (k + (dblMan y).toNat) * u) : dblMan x = dblMan y := by
  have hcast := mul_right_cancel₀ hu h
  rw [add_right_inj] at hcast
  exact BitVec.eq_of_toNat_eq (by exact_mod_cast hcast)

/-- A subnormal number is below every normal one. -/
theorem magnitude_lt_of_subnormal (hx : dblExp x = 0) (hy : dblExp y ≠ 0) : magnitude x < magnitude y := by
  have hman : ((dblMan x).toNat : ℚ) < 2 ^ 52 := by exact_mod_cast dblMan_lt x
  have hlow := (magnitude_bounds hy).1
  have hpow : (2 : ℚ) ^ 52 * 2 ^ (-1074 : ℤ) = 2 ^ (-1022 : ℤ) := by
    rw [← zpow_natCast, ← zpow_add₀ (by norm_num)]
    norm_num
  have hmin : (2 : ℚ) ^ (-1022 : ℤ) ≤ 2 ^ ((dblExp y : ℤ) - 1023) :=
    zpow_le_zpow_right₀ (by norm_num) (by omega)
  have hsub : magnitude x < 2 ^ (-1022 : ℤ) := by
    rw [magnitude, if_pos hx, ← hpow]
    exact mul_lt_mul_of_pos_right hman (zpow_pos (by norm_num) _)
  exact hsub.trans_le (hmin.trans hlow)

/-- The exponent is that of the power of two below. -/
theorem dblExp_le_of_magnitude (hx : dblExp x ≠ 0) (hy : dblExp y ≠ 0) (h : magnitude x ≤ magnitude y) :
    dblExp x ≤ dblExp y := by
  have hlt := ((magnitude_bounds hx).1.trans h).trans_lt (magnitude_bounds hy).2
  have hexp := (zpow_lt_zpow_iff_right₀ (by norm_num : (1 : ℚ) < 2)).mp hlt
  omega

theorem dblMan_eq_of_magnitude (h : magnitude x = magnitude y) : dblMan x = dblMan y := by
  by_cases hx : dblExp x = 0
  · by_cases hy : dblExp y = 0
    · rw [magnitude, if_pos hx, magnitude, if_pos hy] at h
      refine dblMan_eq_of_cast (u := 2 ^ (-1074 : ℤ)) (k := 0) (zpow_pos (by norm_num) _).ne' ?_
      rw [zero_add, zero_add]
      exact h
    · exact absurd h (magnitude_lt_of_subnormal hx hy).ne
  · by_cases hy : dblExp y = 0
    · exact absurd h (magnitude_lt_of_subnormal hy hx).ne'
    · have hexp := le_antisymm (dblExp_le_of_magnitude hx hy h.le) (dblExp_le_of_magnitude hy hx h.ge)
      rw [magnitude, if_neg hx, magnitude, if_neg hy, hexp] at h
      exact dblMan_eq_of_cast (zpow_pos (by norm_num) _).ne' h

theorem dblEq_iff_finite (hx : Finite x) (hy : Finite y) : dblEq x y = true ↔ value x = value y := by
  rw [dblEq, if_pos ⟨hx, hy⟩, decide_eq_true_eq]

theorem dblEq_iff_not_finite (h : ¬ (Finite x ∧ Finite y)) : dblEq x y = true ↔ x = y ∧ dblMan x = 0 := by
  rw [dblEq, if_neg h, Bool.and_eq_true, decide_eq_true_eq, decide_eq_true_eq]

theorem dblEq_refl (hx : Finite x) : dblEq x x = true := (dblEq_iff_finite hx hx).mpr rfl

theorem dblEq_trans (h : dblEq x y = true) (h' : dblEq y z = true) : dblEq x z = true := by
  by_cases hfin : Finite x ∧ Finite y
  · by_cases hfin' : Finite y ∧ Finite z
    · rw [dblEq_iff_finite hfin.1 hfin.2] at h
      rw [dblEq_iff_finite hfin'.1 hfin'.2] at h'
      exact (dblEq_iff_finite hfin.1 hfin'.2).mpr (h.trans h')
    · obtain ⟨rfl, -⟩ := (dblEq_iff_not_finite hfin').mp h'
      exact h
  · obtain ⟨rfl, -⟩ := (dblEq_iff_not_finite hfin).mp h
    exact h'

theorem dblMan_eq_of_dblEq (h : dblEq x y = true) : dblMan x = dblMan y := by
  by_cases hfin : Finite x ∧ Finite y
  · rw [dblEq_iff_finite hfin.1 hfin.2] at h
    apply dblMan_eq_of_magnitude
    rw [← abs_value, ← abs_value, h]
  · rw [((dblEq_iff_not_finite hfin).mp h).1]

/-! ### Keys of both builds -/

/-- The key of `hashT_get` without `MB_APPROX_PRECISION`: the arguments as they are. -/
def rawKey (cfg : KeyConfig) (tv ur acc : BitVec 64) : Key :=
  let tvMask := BitVec.allOnes 64 >>> (64 - cfg.tvBits)
  let idx := (tv &&& tvMask) * BitVec.ofNat 64 (2 ^ cfg.urBits * 2 ^ cfg.accBits)
  let idx := idx + (dblMan ur >>> (52 - cfg.urBits)) * BitVec.ofNat 64 (2 ^ cfg.accBits)
  let idx := idx + dblMan acc >>> (52 - cfg.accBits)
  ⟨idx, tv, ur, acc⟩

/-- The key of a call; `approx` is `MB_APPROX_PRECISION`. -/
def callKey (approx : Bool) (cfg : KeyConfig) (tv ur acc : BitVec 64) : Option Key :=
  if approx then hashKey cfg tv ur acc else some (rawKey cfg tv ur acc)

/-- The comparison in the loop of `hashT_get`. -/
def Key.Same (k k' : Key) : Prop := k.tv = k'.tv ∧ dblEq k.ur k'.ur = true ∧ dblEq k.acc k'.acc = true

instance (k k' : Key) : Decidable (k.Same k') := inferInstanceAs (Decidable (_ ∧ _ ∧ _))

theorem Key.Same.trans {k k' k'' : Key} (h : k.Same k') (h' : k'.Same k'') : k.Same k'' :=
  ⟨h.1.trans h'.1, dblEq_trans h.2.1 h'.2.1, dblEq_trans h.2.2 h'.2.2⟩

/-- A key that a call with finite arguments has. -/
def IsKey (approx : Bool) (cfg : KeyConfig) (k : Key) : Prop :=
  ∃ tv ur acc, Finite ur ∧ Finite acc ∧ callKey approx cfg tv ur acc = some k

theorem hashKey_eq {tv ur acc : BitVec 64} {k : Key} (h : hashKey cfg tv ur acc = some k) :
    roundBits cfg.urRound ur = some k.ur ∧ roundBits cfg.accRound acc = some k.acc ∧
      k.idx = ((k.tv >>> cfg.tvRound) &&& (BitVec.allOnes 64 >>> (64 - cfg.tvBits))) *
          BitVec.ofNat 64 (2 ^ cfg.urBits * 2 ^ cfg.accBits) +
        (dblMan k.ur >>> (52 - cfg.urBits)) * BitVec.ofNat 64 (2 ^ cfg.accBits) +
        dblMan k.acc >>> (52 - cfg.accBits) := by
  simp only [hashKey, Option.bind_eq_bind, Option.bind_eq_some_iff, Option.pure_def,
    Option.some.injEq] at h
  obtain ⟨u, hu, a, ha, rfl⟩ := h
  exact ⟨hu, ha, rfl⟩

theorem IsKey.same_refl {k : Key} (h : IsKey approx cfg k) : k.Same k := by
  obtain ⟨tv, ur, acc, hur, hacc, hk⟩ := h
  unfold callKey at hk
  split at hk
  · obtain ⟨hu, ha, -⟩ := hashKey_eq hk
    exact ⟨rfl, dblEq_refl (roundBits_finite hu), dblEq_refl (roundBits_finite ha)⟩
  · cases hk
    exact ⟨rfl, dblEq_refl hur, dblEq_refl hacc⟩

/-- Equal keys are in one bucket. -/
theorem IsKey.idx_eq {k k' : Key} (h : IsKey approx cfg k) (h' : IsKey approx cfg k') (hs : k.Same k') :
    k.idx = k'.idx := by
  obtain ⟨tv, ur, acc, -, -, hk⟩ := h
  obtain ⟨tv', ur', acc', -, -, hk'⟩ := h'
  have hu := dblMan_eq_of_dblEq hs.2.1
  have ha := dblMan_eq_of_dblEq hs.2.2
  unfold callKey at hk hk'
  split at hk
  · next happrox =>
    rw [if_pos happrox] at hk'
    rw [(hashKey_eq hk).2.2, (hashKey_eq hk').2.2, hs.1, hu, ha]
  · next happrox =>
    rw [if_neg happrox] at hk'
    cases hk
    cases hk'
    have htv : tv = tv' := hs.1
    simp only [rawKey] at hu ha ⊢
    rw [htv, hu, ha]

end TinyStm.Mb
