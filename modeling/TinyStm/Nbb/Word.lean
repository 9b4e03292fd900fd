import Mathlib.Data.Nat.Bitwise
import Mathlib.Tactic.Ring

/-!
# Entry words of the non-blocking bounded list (datatypes/nbblist.h)

An entry packs a version and a value into one `uint64_t`: `val_nbits` low bits
for the value, the other `ver_nbits` for the version. `Shape` holds the fields
that `nbb_list_create` sets once and nobody writes again.
-/

namespace TinyStm.Nbb

structure Shape where
  length : ℕ
  valNbits : ℕ
  length_pos : 0 < length
  valNbits_pos : 0 < valNbits
  valNbits_lt : valNbits < 64

variable (s : Shape)

def Shape.verNbits : ℕ := 64 - s.valNbits

def Shape.valMask : BitVec 64 := (1#64 <<< s.valNbits) - 1#64

def Shape.verMask : BitVec 64 := ((1#64 <<< s.verNbits) - 1#64) <<< s.valNbits

def nbbListVal (mask : BitVec 64) : BitVec 64 := mask &&& s.valMask

def nbbListVer (mask : BitVec 64) : BitVec 64 := (mask &&& s.verMask) >>> s.valNbits

def nbbListMask (ver val : BitVec 64) : BitVec 64 :=
  (ver <<< s.valNbits) ||| (val <<< s.verNbits >>> s.verNbits)

theorem Shape.verNbits_lt : s.verNbits < 64 := by
  have := s.valNbits_pos
  unfold Shape.verNbits
  omega

theorem Shape.two_pow_bits : 2 ^ s.verNbits * 2 ^ s.valNbits = 2 ^ 64 := by
  rw [← Nat.pow_add]
  congr 1
  have := s.valNbits_lt
  unfold Shape.verNbits
  omega

/-- The mask of `k` low bits. -/
theorem toNat_one_shiftLeft_sub_one {k : ℕ} (hk : k < 64) :
    ((1#64 <<< k) - 1#64).toNat = 2 ^ k - 1 := by
  have hpow : 2 ^ k < 2 ^ 64 := Nat.pow_lt_pow_right (by decide) hk
  have hpos : 0 < 2 ^ k := Nat.two_pow_pos k
  have hshift : (1#64 <<< k).toNat = 2 ^ k := by
    rw [BitVec.toNat_shiftLeft, Nat.shiftLeft_eq]
    simpa using Nat.mod_eq_of_lt hpow
  rw [BitVec.toNat_sub, hshift]
  have h1 : (1#64).toNat = 1 := rfl
  rw [h1]
  have : 2 ^ 64 - 1 + 2 ^ k = (2 ^ k - 1) + 2 ^ 64 := by omega
  rw [this, Nat.add_mod_right]
  exact Nat.mod_eq_of_lt (by omega)

theorem toNat_nbbListVal (w : BitVec 64) :
    (nbbListVal s w).toNat = w.toNat % 2 ^ s.valNbits := by
  rw [nbbListVal, BitVec.toNat_and, Shape.valMask,
    toNat_one_shiftLeft_sub_one s.valNbits_lt, Nat.and_two_pow_sub_one_eq_mod]

theorem toNat_verMask : s.verMask.toNat = (2 ^ s.verNbits - 1) * 2 ^ s.valNbits := by
  have hpos : 0 < 2 ^ s.valNbits := Nat.two_pow_pos _
  have hprod := s.two_pow_bits
  have hlt : (2 ^ s.verNbits - 1) * 2 ^ s.valNbits < 2 ^ 64 := by
    rw [← hprod, Nat.sub_mul, Nat.one_mul]
    have : 0 < 2 ^ s.verNbits * 2 ^ s.valNbits := by
      rw [hprod]
      decide
    omega
  rw [Shape.verMask, BitVec.toNat_shiftLeft, toNat_one_shiftLeft_sub_one s.verNbits_lt,
    Nat.shiftLeft_eq]
  exact Nat.mod_eq_of_lt hlt

theorem toNat_nbbListVer (w : BitVec 64) :
    (nbbListVer s w).toNat = w.toNat / 2 ^ s.valNbits := by
  have hw : w.toNat / 2 ^ s.valNbits < 2 ^ s.verNbits := by
    rw [Nat.div_lt_iff_lt_mul (Nat.two_pow_pos _), s.two_pow_bits]
    exact w.isLt
  rw [nbbListVer, BitVec.toNat_ushiftRight, BitVec.toNat_and, toNat_verMask,
    Nat.shiftRight_and_distrib]
  simp only [Nat.shiftRight_eq_div_pow]
  rw [Nat.mul_div_cancel _ (Nat.two_pow_pos _), Nat.and_two_pow_sub_one_eq_mod]
  exact Nat.mod_eq_of_lt hw

theorem toNat_mask_low {v : BitVec 64} (hv : v.toNat < 2 ^ s.valNbits) :
    (v <<< s.verNbits >>> s.verNbits).toNat = v.toNat := by
  rw [BitVec.toNat_ushiftRight, BitVec.toNat_shiftLeft, Nat.shiftLeft_eq,
    Nat.shiftRight_eq_div_pow, Nat.mod_eq_of_lt]
  · exact Nat.mul_div_cancel _ (Nat.two_pow_pos _)
  · rw [← s.two_pow_bits, Nat.mul_comm]
    exact Nat.mul_lt_mul_of_pos_left hv (Nat.two_pow_pos _)

/-- What `__nbb_list_mask` writes when the version and the value fit their fields. -/
theorem toNat_nbbListMask {r v : BitVec 64} (hr : r.toNat < 2 ^ s.verNbits)
    (hv : v.toNat < 2 ^ s.valNbits) :
    (nbbListMask s r v).toNat = r.toNat * 2 ^ s.valNbits + v.toNat := by
  have hhi : (r <<< s.valNbits).toNat = r.toNat * 2 ^ s.valNbits := by
    rw [BitVec.toNat_shiftLeft, Nat.shiftLeft_eq]
    apply Nat.mod_eq_of_lt
    rw [← s.two_pow_bits]
    exact Nat.mul_lt_mul_of_pos_right hr (Nat.two_pow_pos _)
  rw [nbbListMask, BitVec.toNat_or, hhi, toNat_mask_low s hv, Nat.mul_comm]
  exact (Nat.two_pow_add_eq_or_of_lt hv _).symm

/-- The value survives even when the version does not fit. -/
theorem nbbListVal_mask {r v : BitVec 64} (hv : v.toNat < 2 ^ s.valNbits) :
    nbbListVal s (nbbListMask s r v) = v := by
  have hdvd : 2 ^ s.valNbits ∣ 2 ^ 64 := pow_dvd_pow 2 s.valNbits_lt.le
  have hhi : (r <<< s.valNbits).toNat % 2 ^ s.valNbits = 0 := by
    rw [BitVec.toNat_shiftLeft, Nat.shiftLeft_eq, Nat.mod_mod_of_dvd _ hdvd, Nat.mul_mod_left]
  apply BitVec.eq_of_toNat_eq
  rw [toNat_nbbListVal, nbbListMask, BitVec.toNat_or, Nat.or_mod_two_pow, hhi,
    toNat_mask_low s hv, Nat.zero_or, Nat.mod_eq_of_lt hv]

theorem nbbListVer_mask {r v : BitVec 64} (hr : r.toNat < 2 ^ s.verNbits)
    (hv : v.toNat < 2 ^ s.valNbits) : nbbListVer s (nbbListMask s r v) = r := by
  apply BitVec.eq_of_toNat_eq
  rw [toNat_nbbListVer, toNat_nbbListMask s hr hv, Nat.mul_comm,
    Nat.mul_add_div (Nat.two_pow_pos _), Nat.div_eq_of_lt hv, Nat.add_zero]

end TinyStm.Nbb
