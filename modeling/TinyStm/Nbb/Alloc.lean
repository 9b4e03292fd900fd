import Mathlib.Data.Nat.Log
import Mathlib.Tactic.Ring

/-!
# The node allocator of the scheduler (core/nbblist.c, datatypes/nbblist.h)

A bitmap of 64-bit chunks says which nodes are taken; bit 0 is never given out.
`mem_alloc_init` rounds the length up to a power of two and gives the bitmap a
whole number of chunks, so the bitmap may have more bits than there are nodes.
-/

namespace TinyStm.Nbb

/-- `MEM_ALLOC_LEN` on `int` arguments, as the `size_t` that `mem_alloc_init` gets. -/
def memAllocLen (nenq ndeq qlength : ℕ) : ℕ :=
  ((BitVec.ofNat 32 (nenq * (ndeq * qlength) + 1)).signExtend 64).toNat

def builtinClzl (n : ℕ) : ℕ := 63 - Nat.log 2 n

/-- One plus the index of the lowest set bit, `0` if there is none. -/
def builtinFfsl (x : BitVec 64) : ℕ :=
  match (List.range 64).find? fun i => x.getLsbD i with
  | some i => i + 1
  | none => 0

def lengthPow2 (length : ℕ) : ℕ := 2 ^ (64 - builtinClzl length) % 2 ^ 64

def busymapLength (length : ℕ) : ℕ :=
  lengthPow2 length / 64 + if lengthPow2 length % 64 ≠ 0 then 1 else 0

def freePos (chunk : BitVec 64) : ℕ := builtinFfsl (~~~chunk) - 1

def setBit (chunk : BitVec 64) (pos : ℕ) : BitVec 64 := chunk ||| (1#64 <<< pos)

def clearBit (chunk : BitVec 64) (pos : ℕ) : BitVec 64 := chunk &&& ~~~(1#64 <<< pos)

/-- The bit of node `id`. -/
def busy (busymap : ℕ → BitVec 64) (id : ℕ) : Bool := (busymap (id / 64)).getLsbD (id % 64)

theorem memAllocLen_eq {nenq ndeq qlength : ℕ} (h : nenq * (ndeq * qlength) + 1 < 2 ^ 31) :
    memAllocLen nenq ndeq qlength = nenq * (ndeq * qlength) + 1 := by
  unfold memAllocLen
  generalize nenq * (ndeq * qlength) + 1 = n at h
  have hn : (BitVec.ofNat 32 n).toNat = n := Nat.mod_eq_of_lt (by omega)
  have hmsb : (BitVec.ofNat 32 n).msb = false := by
    rw [BitVec.msb_eq_false_iff_two_mul_lt, hn]
    omega
  rw [BitVec.signExtend_eq_setWidth_of_msb_false hmsb, BitVec.toNat_setWidth, hn]
  exact Nat.mod_eq_of_lt (by omega)

theorem lengthPow2_eq {n : ℕ} (hn : n < 2 ^ 63) : lengthPow2 n = 2 ^ (Nat.log 2 n + 1) := by
  have hlog : Nat.log 2 n < 63 ∨ n = 0 := by
    rcases Nat.eq_zero_or_pos n with h0 | hpos
    · exact .inr h0
    · exact .inl ((Nat.log_lt_iff_lt_pow (by decide) (by omega)).mpr hn)
  have hlt : Nat.log 2 n < 63 := by
    rcases hlog with h | rfl
    · exact h
    · simp
  have hexp : 64 - builtinClzl n = Nat.log 2 n + 1 := by
    unfold builtinClzl
    omega
  rw [lengthPow2, hexp]
  exact Nat.mod_eq_of_lt (Nat.pow_lt_pow_right (by decide) (by omega))

theorem lt_lengthPow2 {n : ℕ} (hn : n < 2 ^ 63) : n < lengthPow2 n := by
  rw [lengthPow2_eq hn]
  exact Nat.lt_pow_succ_log_self (by decide) n

theorem lengthPow2_le {n : ℕ} (hpos : 0 < n) (hn : n < 2 ^ 63) : lengthPow2 n ≤ 2 * n := by
  rw [lengthPow2_eq hn, pow_succ, Nat.mul_comm]
  exact Nat.mul_le_mul_left 2 (Nat.pow_log_le_self 2 (by omega))

/-- Either the chunks hold exactly one bit for each node, or one chunk is enough. -/
theorem busymapLength_spec {n : ℕ} (hn : n < 2 ^ 63) :
    64 * busymapLength n = lengthPow2 n ∨ lengthPow2 n < 64 ∧ busymapLength n = 1 := by
  have hpow := lengthPow2_eq hn
  unfold busymapLength
  rcases Nat.lt_or_ge (Nat.log 2 n + 1) 6 with hlt | hge
  · right
    have h64 : lengthPow2 n < 64 := by
      rw [hpow]
      exact Nat.pow_lt_pow_right (by decide) hlt
    have hne : lengthPow2 n ≠ 0 := by
      rw [hpow]
      exact (Nat.two_pow_pos _).ne'
    refine ⟨h64, ?_⟩
    rw [Nat.div_eq_of_lt h64, Nat.mod_eq_of_lt h64, if_pos hne]
  · left
    have hdvd : 64 ∣ lengthPow2 n := by
      rw [hpow]
      exact pow_dvd_pow 2 hge
    rw [Nat.mod_eq_zero_of_dvd hdvd, if_neg (by simp), Nat.add_zero]
    exact Nat.mul_div_cancel' hdvd

/-- The position that `mem_node_acquire` picks is the lowest free one. -/
theorem freePos_spec {chunk : BitVec 64} (h : chunk ≠ BitVec.allOnes 64) :
    freePos chunk < 64 ∧ chunk.getLsbD (freePos chunk) = false ∧
      ∀ j, j < freePos chunk → chunk.getLsbD j = true := by
  unfold freePos builtinFfsl
  cases hf : (List.range 64).find? fun i => (~~~chunk).getLsbD i with
  | none =>
    exfalso
    apply h
    apply BitVec.eq_of_getLsbD_eq
    intro i hi
    have := List.find?_eq_none.mp hf i (List.mem_range.mpr hi)
    rw [BitVec.getLsbD_allOnes]
    simpa [hi] using this
  | some i =>
    obtain ⟨hi, as, bs, hab, hlow⟩ := List.find?_eq_some_iff_append.mp hf
    have hmem : i ∈ List.range 64 := List.mem_of_find?_eq_some hf
    have hi64 := List.mem_range.mp hmem
    simp only [Nat.add_sub_cancel]
    refine ⟨hi64, ?_, fun j hj => ?_⟩
    · simpa [hi64] using hi
    · have hlen : as.length = i := by
        have h1 : (List.range 64)[as.length]? = some i := by
          rw [hab]
          simp
        rw [List.getElem?_range] at h1
        · simpa using h1
        · by_contra hge
          rw [List.getElem?_eq_none (by simpa using hge)] at h1
          cases h1
      have hjmem : j ∈ as := by
        have h1 : (List.range 64)[j]? = as[j]? := by
          rw [hab, List.getElem?_append_left (by omega)]
        rw [List.getElem?_range (by omega)] at h1
        exact List.mem_of_getElem? h1.symm
      have := hlow j hjmem
      simpa [show j < 64 by omega] using this

theorem getLsbD_setBit {chunk : BitVec 64} {pos j : ℕ} (hj : j < 64) :
    (setBit chunk pos).getLsbD j = (chunk.getLsbD j || decide (j = pos)) := by
  unfold setBit
  rw [BitVec.getLsbD_or, BitVec.getLsbD_shiftLeft]
  by_cases hjp : j = pos
  · subst hjp
    simp [hj]
  · by_cases hlt : j < pos
    · simp [hlt, hjp]
    · have : j - pos ≠ 0 := by omega
      simp [hj, hjp, this, BitVec.getLsbD_one]

theorem getLsbD_clearBit {chunk : BitVec 64} {pos j : ℕ} (hj : j < 64) :
    (clearBit chunk pos).getLsbD j = (chunk.getLsbD j && !decide (j = pos)) := by
  unfold clearBit
  rw [BitVec.getLsbD_and, BitVec.getLsbD_not, BitVec.getLsbD_shiftLeft]
  by_cases hjp : j = pos
  · subst hjp
    simp [hj]
  · by_cases hlt : j < pos
    · simp [hlt, hjp, hj]
    · have : j - pos ≠ 0 := by omega
      simp [hj, hjp, this, BitVec.getLsbD_one]

theorem div_mod_eq_iff {id b pos : ℕ} (hpos : pos < 64) :
    id = b * 64 + pos ↔ id / 64 = b ∧ id % 64 = pos := by
  omega

theorem busy_setBit {m : ℕ → BitVec 64} {b pos : ℕ} (hpos : pos < 64) (id : ℕ) :
    busy (Function.update m b (setBit (m b) pos)) id = true ↔
      busy m id = true ∨ id = b * 64 + pos := by
  have hmod : id % 64 < 64 := Nat.mod_lt _ (by decide)
  rw [div_mod_eq_iff hpos]
  unfold busy
  by_cases hb : id / 64 = b
  · subst hb
    rw [Function.update_self, getLsbD_setBit hmod]
    simp
  · rw [Function.update_of_ne hb]
    simp [hb]

theorem busy_clearBit {m : ℕ → BitVec 64} {b pos : ℕ} (hpos : pos < 64) (id : ℕ) :
    busy (Function.update m b (clearBit (m b) pos)) id = true ↔
      busy m id = true ∧ id ≠ b * 64 + pos := by
  have hmod : id % 64 < 64 := Nat.mod_lt _ (by decide)
  rw [Ne, div_mod_eq_iff hpos]
  unfold busy
  by_cases hb : id / 64 = b
  · subst hb
    rw [Function.update_self, getLsbD_clearBit hmod]
    simp
  · rw [Function.update_of_ne hb]
    simp [hb]

end TinyStm.Nbb
