import Mathlib.Algebra.Group.Nat.Defs
import Mathlib.Data.List.Basic
import Mathlib.Data.List.Nodup
import Mathlib.Data.List.Perm.Basic
import Mathlib.Tactic.Cases
import Mathlib.Tactic.Common
import TinyStm.Lib.Bytes

/-!
# Dynamic memory in transactions (`mod_mem.c`)

`stm_free2` overwrites the freed words with an empty mask, to acquire their locks, and
puts the block on the list `freed`; `stm_malloc` puts a block on the list `allocated`.
The callbacks that `stm_commit` and `stm_rollback` run at the end of an attempt empty
both lists. A rollback can come out of any call of the attempt. It jumps to the start of
the transaction or, with `no_retry`, returns to the call that it came out of.
-/

namespace TinyStm.Mem

open Bytes

/-- An address or a `size_t`; `w` is `sizeof(stm_word_t)`. -/
abbrev Addr (w : WordSize) := BitVec w.bits

variable {w : WordSize}

/-- `(x + 3) >> 2` and `(x + 7) >> 3`. -/
def words (x : Addr w) : Addr w := (x + BitVec.ofNat w.bits (w.bytes - 1)) >>> w.shift

/-- `(size + 3) & ~0x03` and `(size + 7) & ~0x07`. -/
def roundUp (size : Addr w) : Addr w :=
  (size + BitVec.ofNat w.bits (w.bytes - 1)) &&& ~~~(BitVec.ofNat w.bits (w.bytes - 1))

/-- The addresses of `while (size-- > 0) stm_store2(a++, 0, 0)`. -/
def storeLoop (a : Addr w) : ℕ → List (Addr w)
  | 0 => []
  | n + 1 => a :: storeLoop (a + BitVec.ofNat w.bits w.bytes) n

/-- The words that `stm_free2` overwrites. -/
def overwritten (addr idx size : Addr w) : List (Addr w) :=
  if 0 < size then
    storeLoop (addr + BitVec.ofNat w.bits w.bytes * words idx) (words size).toNat
  else []

/-! ### The words of a freed range -/

/-- The word that holds a byte. -/
def wordOf (b : Addr w) : Addr w := b >>> w.shift <<< w.shift

/-- The overwritten words are those that hold a byte of `[addr + idx, addr + idx + size)`. -/
def Covers (addr idx size : Addr w) : Prop :=
  ∀ x, x ∈ overwritten addr idx size ↔
    ∃ i < size.toNat, wordOf (addr + idx + BitVec.ofNat w.bits i) = x

theorem mem_storeLoop {a x : Addr w} {n : ℕ} :
    x ∈ storeLoop a n ↔ ∃ k < n, x = a + BitVec.ofNat w.bits (w.bytes * k) := by
  induction n generalizing a with
  | zero => simp [storeLoop]
  | succ n ih =>
    rw [storeLoop, List.mem_cons, ih]
    constructor
    · rintro (rfl | ⟨k, hk, rfl⟩)
      · exact ⟨0, Nat.succ_pos n, by simp⟩
      · refine ⟨k + 1, Nat.succ_lt_succ hk, ?_⟩
        rw [BitVec.add_assoc, ← BitVec.ofNat_add, Nat.mul_succ, Nat.add_comm]
    · rintro ⟨k, hk, rfl⟩
      cases k with
      | zero => exact .inl (by simp)
      | succ k =>
        refine .inr ⟨k, Nat.lt_of_succ_lt_succ hk, ?_⟩
        rw [BitVec.add_assoc, ← BitVec.ofNat_add, Nat.mul_succ, Nat.add_comm (w.bytes * k)]

theorem toNat_words (x : Addr w) :
    (words x).toNat = (x.toNat + (w.bytes - 1)) % 2 ^ w.bits / w.bytes := by
  rw [words, BitVec.toNat_ushiftRight, BitVec.toNat_add, BitVec.toNat_ofNat,
    Nat.mod_eq_of_lt w.bytes_lt, Nat.shiftRight_eq_div_pow, w.two_pow_shift]

theorem toNat_wordOf (x : Addr w) : (wordOf x).toNat = x.toNat / w.bytes * w.bytes := by
  rw [wordOf, BitVec.toNat_shiftLeft, BitVec.toNat_ushiftRight, Nat.shiftRight_eq_div_pow,
    Nat.shiftLeft_eq, w.two_pow_shift]
  exact Nat.mod_eq_of_lt (Nat.lt_of_le_of_lt (Nat.div_mul_le_self _ _) x.isLt)

/-- In an aligned range the word of byte `i` is word `i / w.bytes`. -/
theorem wordOf_add {c : Addr w} (hc : c.toNat % w.bytes = 0) (i : ℕ) :
    wordOf (c + BitVec.ofNat w.bits i) = c + BitVec.ofNat w.bits (w.bytes * (i / w.bytes)) := by
  apply BitVec.eq_of_toNat_eq
  rw [toNat_wordOf, BitVec.toNat_add, BitVec.toNat_add, BitVec.toNat_ofNat, BitVec.toNat_ofNat]
  have hx := c.isLt
  generalize c.toNat = c at hc hx
  cases w <;> simp only [WordSize.bits, WordSize.bytes] at hc hx ⊢ <;> omega

/-- An index at a word: the loop starts at the first word of the range. -/
theorem start_of_aligned (addr : Addr w) {idx : Addr w} (hi : idx.toNat % w.bytes = 0) :
    addr + BitVec.ofNat w.bits w.bytes * words idx = addr + idx := by
  congr 1
  apply BitVec.eq_of_toNat_eq
  rw [BitVec.toNat_mul, BitVec.toNat_ofNat, toNat_words]
  have hx := idx.isLt
  generalize idx.toNat = i at hi hx
  cases w <;> simp only [WordSize.bits, WordSize.bytes] at hi hx ⊢ <;> omega

/-- Any other index: the loop starts one word late. -/
theorem start_of_not_aligned {addr idx : Addr w} (ha : addr.toNat % w.bytes = 0)
    (hi : idx.toNat % w.bytes ≠ 0) :
    addr + BitVec.ofNat w.bits w.bytes * words idx =
      wordOf (addr + idx) + BitVec.ofNat w.bits w.bytes := by
  apply BitVec.eq_of_toNat_eq
  rw [BitVec.toNat_add, BitVec.toNat_add, BitVec.toNat_mul, BitVec.toNat_ofNat, toNat_words,
    toNat_wordOf, BitVec.toNat_add]
  have hx := idx.isLt
  have hy := addr.isLt
  generalize idx.toNat = i at hi hx
  generalize addr.toNat = a at ha hy
  cases w <;> simp only [WordSize.bits, WordSize.bytes] at ha hi hx hy ⊢ <;> omega

/-- The count of words is short of the whole address space. -/
theorem toNat_words_lt (x : Addr w) : w.bytes * (words x).toNat + w.bytes ≤ 2 ^ w.bits := by
  rw [toNat_words]
  cases w <;> simp only [WordSize.bits, WordSize.bytes] <;> omega

theorem lt_words_iff {size : Addr w} (hs : size.toNat + w.bytes ≤ 2 ^ w.bits) (k : ℕ) :
    k < (words size).toNat ↔ w.bytes * k < size.toNat := by
  rw [toNat_words]
  generalize size.toNat = s at hs
  cases w <;> simp only [WordSize.bits, WordSize.bytes] at hs ⊢ <;> omega

/-- The last sizes of the type wrap to no words at all. -/
theorem words_eq_zero {size : Addr w} (hs : 2 ^ w.bits < size.toNat + w.bytes) :
    (words size).toNat = 0 := by
  rw [toNat_words]
  have hx := size.isLt
  generalize size.toNat = s at hs hx
  cases w <;> simp only [WordSize.bits, WordSize.bytes] at hs hx ⊢ <;> omega

/-- The word before the start of the loop is never overwritten. -/
theorem not_mem_storeLoop {a : Addr w} {n : ℕ} (hn : w.bytes * n + w.bytes ≤ 2 ^ w.bits) :
    a ∉ storeLoop (a + BitVec.ofNat w.bits w.bytes) n := by
  rw [mem_storeLoop]
  rintro ⟨k, hk, h⟩
  have h := congrArg BitVec.toNat h
  rw [BitVec.toNat_add, BitVec.toNat_add, BitVec.toNat_ofNat, BitVec.toNat_ofNat] at h
  have hx := a.isLt
  generalize a.toNat = a at h hx
  cases w <;> simp only [WordSize.bits, WordSize.bytes] at hn h hx <;> omega

theorem overwritten_of_pos {addr idx size : Addr w} (hs : 0 < size) :
    overwritten addr idx size =
      storeLoop (addr + BitVec.ofNat w.bits w.bytes * words idx) (words size).toNat :=
  if_pos hs

/-- An aligned index covers the range. -/
theorem covers_of_aligned {addr idx size : Addr w} (ha : addr.toNat % w.bytes = 0)
    (hs : 0 < size) (hi : idx.toNat % w.bytes = 0) (hw : size.toNat + w.bytes ≤ 2 ^ w.bits) :
    Covers addr idx size := by
  have hc : (addr + idx).toNat % w.bytes = 0 := by
    rw [BitVec.toNat_add, Nat.mod_mod_of_dvd _ w.dvd_bits, Nat.add_mod, ha, hi]
    exact Nat.zero_mod _
  intro x
  rw [overwritten_of_pos hs, start_of_aligned addr hi, mem_storeLoop]
  constructor
  · rintro ⟨k, hk, rfl⟩
    refine ⟨w.bytes * k, (lt_words_iff hw k).mp hk, ?_⟩
    rw [wordOf_add hc, Nat.mul_div_cancel_left _ w.bytes_pos]
  · rintro ⟨i, hlt, rfl⟩
    refine ⟨i / w.bytes, (lt_words_iff hw _).mpr ?_, wordOf_add hc i⟩
    exact Nat.lt_of_le_of_lt (Nat.mul_div_le i w.bytes) hlt

/-- `stm_free2` overwrites exactly the words of the freed range when the index is a multiple
of the word size and the size does not wrap in `size + 7`. -/
theorem free2_covers_iff (addr idx size : Addr w) (ha : addr.toNat % w.bytes = 0)
    (hs : 0 < size) :
    Covers addr idx size ↔
      idx.toNat % w.bytes = 0 ∧ size.toNat + w.bytes ≤ 2 ^ w.bits := by
  refine ⟨fun h => ?_, fun ⟨hi, hw⟩ => covers_of_aligned ha hs hi hw⟩
  -- the word of the first byte is in the range, so it has to be one of the stores
  have hfirst := (h (wordOf (addr + idx))).mpr ⟨0, hs, by simp⟩
  rw [overwritten_of_pos hs] at hfirst
  by_cases hi : idx.toNat % w.bytes = 0
  · refine ⟨hi, ?_⟩
    by_contra hw
    rw [words_eq_zero (Nat.lt_of_not_le hw)] at hfirst
    exact List.not_mem_nil hfirst
  · rw [start_of_not_aligned ha hi] at hfirst
    exact absurd hfirst (not_mem_storeLoop (toNat_words_lt size))

theorem free2_covers_header :
    Covers (4096 : Addr .eight) 8 24 ↔
      (8 : Addr .eight).toNat % 8 = 0 ∧ (24 : Addr .eight).toNat + 8 ≤ 2 ^ 64 :=
  free2_covers_iff (4096 : Addr .eight) 8 24 (by decide) (by decide)

/-- Eight bytes from byte 4 on are overwritten from byte 8 on. -/
theorem free2_first_word_missed :
    overwritten (4096 : Addr .eight) 4 8 = [4104] ∧ ¬ Covers (4096 : Addr .eight) 4 8 := by
  refine ⟨by decide, fun h => ?_⟩
  have h := (h 4096).mpr ⟨0, by decide, by decide⟩
  exact absurd h (by decide)

end TinyStm.Mem
