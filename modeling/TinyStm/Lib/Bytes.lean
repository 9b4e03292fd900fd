import Mathlib.Algebra.Group.Nat.Defs
import Mathlib.Data.Nat.Basic
import Mathlib.Logic.Function.Basic
import Mathlib.Tactic.SplitIfs

/-!
# Little-endian bytes and lanes of a bit vector

A bit vector seen as an array of lanes of `k` bits, the byte lists it stands for,
and reads and writes of byte ranges in a memory of bytes. A machine word has four
bytes or eight.
-/

namespace TinyStm.Bytes

abbrev Byte := BitVec 8

/-- The size of a machine word. -/
inductive WordSize where
  | four
  | eight
  deriving DecidableEq, Repr

namespace WordSize

def bytes : WordSize → ℕ
  | four => 4
  | eight => 8

def shift : WordSize → ℕ
  | four => 2
  | eight => 3

/-- The width of a word. -/
def bits (z : WordSize) : ℕ := 8 * z.bytes

theorem bits_eq (z : WordSize) : z.bits = 8 * z.bytes := rfl

theorem bytes_pos (z : WordSize) : 0 < z.bytes := by cases z <;> decide

theorem bytes_lt (z : WordSize) : z.bytes - 1 < 2 ^ z.bits := by cases z <;> decide

theorem two_pow_shift (z : WordSize) : 2 ^ z.shift = z.bytes := by cases z <;> rfl

/-- The words of an address space fill it. -/
theorem dvd_bits (z : WordSize) : z.bytes ∣ 2 ^ z.bits := by cases z <;> decide

end WordSize

variable {w k : ℕ}

/-! ### Lanes -/

/-- Lane `j` of width `k`. -/
def lane (k : ℕ) (v : BitVec w) (j : ℕ) : BitVec k := v.extractLsb' (k * j) k

/-- Replace lane `j`. -/
def setLane (v : BitVec w) (j : ℕ) (x : BitVec k) : BitVec w :=
  (v &&& ~~~((BitVec.allOnes k).setWidth w <<< (k * j))) ||| (x.setWidth w <<< (k * j))

def byteAt (v : BitVec w) (j : ℕ) : Byte := lane 8 v j

def setByte (v : BitVec w) (j : ℕ) (b : Byte) : BitVec w := setLane v j b

theorem getLsbD_setLane (v : BitVec w) (j : ℕ) (x : BitVec k) {i : ℕ} (hi : i < w) :
    (setLane v j x).getLsbD i =
      if k * j ≤ i ∧ i < k * j + k then x.getLsbD (i - k * j) else v.getLsbD i := by
  simp only [setLane, BitVec.getLsbD_or, BitVec.getLsbD_and, BitVec.getLsbD_not,
    BitVec.getLsbD_shiftLeft, BitVec.getLsbD_setWidth, BitVec.getLsbD_allOnes, hi, decide_true,
    Bool.true_and]
  by_cases hlo : i < k * j
  · rw [if_neg (by omega)]
    simp [hlo]
  · by_cases hhi : i < k * j + k
    · rw [if_pos ⟨by omega, hhi⟩]
      have h₁ : i - k * j < w := by omega
      have h₂ : i - k * j < k := by omega
      simp [hlo, h₁, h₂]
    · rw [if_neg (by omega)]
      have h₂ : ¬ i - k * j < k := by omega
      have hx : x.getLsbD (i - k * j) = false := BitVec.getLsbD_of_ge _ _ (by omega)
      simp [h₂, hx]

theorem getLsbD_byteAt (v : BitVec w) (j : ℕ) {i : ℕ} (hi : i < 8) :
    (byteAt v j).getLsbD i = v.getLsbD (8 * j + i) := by
  simp [byteAt, lane, hi]

/-- The bytes of a vector with one lane of `c` bytes replaced. -/
theorem byteAt_setLane {c n : ℕ} (hk : k = 8 * c) (hw : w = 8 * n) (v : BitVec w) (j : ℕ)
    (x : BitVec k) {i : ℕ} (hi : i < n) :
    byteAt (setLane v j x) i =
      if c * j ≤ i ∧ i < c * j + c then byteAt x (i - c * j) else byteAt v i := by
  subst hk
  apply BitVec.eq_of_getLsbD_eq
  intro r hr
  rw [getLsbD_byteAt _ _ hr, getLsbD_setLane _ _ _ (by omega)]
  have hassoc : 8 * c * j = 8 * (c * j) := Nat.mul_assoc ..
  rw [hassoc]
  by_cases hin : c * j ≤ i ∧ i < c * j + c
  · rw [if_pos hin, if_pos (by omega), getLsbD_byteAt _ _ hr]
    congr 1
    omega
  · rw [if_neg hin, if_neg (by omega), getLsbD_byteAt _ _ hr]

/-- The bytes of a lane. -/
theorem byteAt_lane {c : ℕ} (hk : k = 8 * c) (v : BitVec w) (j : ℕ) {i : ℕ} (hi : i < c) :
    byteAt (lane k v j) i = byteAt v (c * j + i) := by
  subst hk
  apply BitVec.eq_of_getLsbD_eq
  intro r hr
  have hassoc : 8 * c * j = 8 * (c * j) := Nat.mul_assoc ..
  have hlt : 8 * i + r < 8 * c := by omega
  rw [getLsbD_byteAt _ _ hr, getLsbD_byteAt _ _ hr, lane, BitVec.getLsbD_extractLsb', hassoc,
    decide_eq_true hlt, Bool.true_and]
  congr 1
  omega

theorem eq_of_byteAt {n : ℕ} (hw : w = 8 * n) {u v : BitVec w}
    (h : ∀ i < n, byteAt u i = byteAt v i) : u = v := by
  apply BitVec.eq_of_getLsbD_eq
  intro r hr
  have hbyte := congrArg (fun b => b.getLsbD (r % 8)) (h (r / 8) (by omega))
  simp only [getLsbD_byteAt _ _ (Nat.mod_lt r (by omega : 8 > 0))] at hbyte
  have hsplit : 8 * (r / 8) + r % 8 = r := Nat.div_add_mod ..
  rwa [hsplit] at hbyte

theorem byteAt_setWidth {n : ℕ} (hk : 8 * n ≤ k) (v : BitVec w) {i : ℕ} (hi : i < n) :
    byteAt (v.setWidth k) i = byteAt v i := by
  apply BitVec.eq_of_getLsbD_eq
  intro r hr
  rw [getLsbD_byteAt _ _ hr, getLsbD_byteAt _ _ hr, BitVec.getLsbD_setWidth,
    decide_eq_true (by omega), Bool.true_and]

theorem byteAt_zero (w i : ℕ) : byteAt (0 : BitVec w) i = 0 := by
  simp [byteAt, lane]

theorem byteAt_allOnes {n : ℕ} (hw : w = 8 * n) {i : ℕ} (hi : i < n) :
    byteAt (BitVec.allOnes w) i = BitVec.allOnes 8 := by
  apply BitVec.eq_of_getLsbD_eq
  intro r hr
  have hlt : 8 * i + r < w := by omega
  rw [getLsbD_byteAt _ _ hr, BitVec.getLsbD_allOnes, BitVec.getLsbD_allOnes, decide_eq_true hlt,
    decide_eq_true hr]

/-! ### Byte memory -/

/-- The `c` bytes from address `a` on. -/
def readBytes (m : ℕ → Byte) : ℕ → ℕ → List Byte
  | _, 0 => []
  | a, c + 1 => m a :: readBytes m (a + 1) c

/-- Write the bytes from address `a` on. -/
def writeBytes (m : ℕ → Byte) : ℕ → List Byte → ℕ → Byte
  | _, [] => m
  | a, b :: bs => writeBytes (Function.update m a b) (a + 1) bs

@[simp] theorem length_readBytes (m : ℕ → Byte) (a c : ℕ) : (readBytes m a c).length = c := by
  induction c generalizing a with
  | zero => rfl
  | succ c ih => simp [readBytes, ih]

theorem readBytes_add (m : ℕ → Byte) (a c d : ℕ) :
    readBytes m a (c + d) = readBytes m a c ++ readBytes m (a + c) d := by
  induction c generalizing a with
  | zero => simp [readBytes]
  | succ c ih =>
    have hs : c + 1 + d = (c + d) + 1 := by omega
    rw [hs, readBytes, ih (a + 1), readBytes, List.cons_append]
    congr 3
    omega

theorem readBytes_congr {m m' : ℕ → Byte} {a b c : ℕ} (h : ∀ i < c, m (a + i) = m' (b + i)) :
    readBytes m a c = readBytes m' b c := by
  induction c generalizing a b with
  | zero => rfl
  | succ c ih =>
    have hhead : m a = m' b := h 0 (by omega)
    have htail : ∀ i < c, m (a + 1 + i) = m' (b + 1 + i) := fun i hi => by
      have := h (i + 1) (by omega)
      rwa [Nat.add_right_comm a, Nat.add_right_comm b]
    rw [readBytes, readBytes, hhead, ih htail]

theorem getD_readBytes (m : ℕ → Byte) (a : ℕ) {c i : ℕ} (hi : i < c) (d : Byte) :
    (readBytes m a c).getD i d = m (a + i) := by
  induction c generalizing a i with
  | zero => omega
  | succ c ih =>
    cases i with
    | zero => rfl
    | succ i =>
      rw [readBytes, List.getD_cons_succ, ih (a + 1) (by omega)]
      congr 1
      omega

theorem writeBytes_append (m : ℕ → Byte) (a : ℕ) (bs cs : List Byte) :
    writeBytes m a (bs ++ cs) = writeBytes (writeBytes m a bs) (a + bs.length) cs := by
  induction bs generalizing m a with
  | nil => rfl
  | cons b bs ih =>
    rw [List.cons_append, writeBytes, ih, writeBytes, List.length_cons]
    congr 1
    omega

/-- A write changes the bytes of its range and no others. -/
theorem writeBytes_apply (m : ℕ → Byte) (a : ℕ) (bs : List Byte) (c : ℕ) :
    writeBytes m a bs c = if a ≤ c ∧ c < a + bs.length then bs.getD (c - a) 0 else m c := by
  induction bs generalizing m a with
  | nil =>
    rw [if_neg (by simp), writeBytes]
  | cons b bs ih =>
    rw [writeBytes, ih]
    rcases Nat.lt_trichotomy c a with hlt | heq | hgt
    · rw [if_neg (by omega), if_neg (by omega), Function.update_of_ne (by omega)]
    · rw [if_neg (by omega), if_pos (by simp; omega), heq, Function.update_self, Nat.sub_self]
      rfl
    · have hsub : c - a = (c - (a + 1)) + 1 := by omega
      by_cases hin : c < a + 1 + bs.length
      · rw [if_pos ⟨by omega, hin⟩, if_pos (by simp; omega), hsub, List.getD_cons_succ]
      · rw [if_neg (by omega), if_neg (by simp; omega), Function.update_of_ne (by omega)]

theorem writeBytes_congr {m m' : ℕ → Byte} {c : ℕ} (h : m c = m' c) (a : ℕ) (bs : List Byte) :
    writeBytes m a bs c = writeBytes m' a bs c := by
  rw [writeBytes_apply, writeBytes_apply, h]

/-! ### Byte lists -/

/-- The first `c` bytes. -/
def toBytes (c : ℕ) (v : BitVec w) : List Byte := readBytes (byteAt v) 0 c

/-- The vector with the given bytes. -/
def ofBytes (w : ℕ) : List Byte → BitVec w
  | [] => 0
  | b :: bs => setByte (ofBytes w bs <<< 8) 0 b

@[simp] theorem length_toBytes (c : ℕ) (v : BitVec w) : (toBytes c v).length = c := by
  simp [toBytes]

theorem getD_toBytes {c i : ℕ} (v : BitVec w) (hi : i < c) (d : Byte) :
    (toBytes c v).getD i d = byteAt v i := by
  rw [toBytes, getD_readBytes _ _ hi, Nat.zero_add]

theorem byteAt_ofBytes {n : ℕ} (hw : w = 8 * n) (bs : List Byte) {i : ℕ} (hi : i < n) :
    byteAt (ofBytes w bs) i = bs.getD i 0 := by
  induction bs generalizing i with
  | nil => exact byteAt_zero w i
  | cons b bs ih =>
    rw [ofBytes, setByte, byteAt_setLane (c := 1) rfl hw _ _ _ hi]
    cases i with
    | zero =>
      rw [if_pos (by omega)]
      simp [byteAt, lane]
    | succ i =>
      rw [if_neg (by omega), List.getD_cons_succ, ← ih (by omega)]
      apply BitVec.eq_of_getLsbD_eq
      intro r hr
      have hlt : 8 * (i + 1) + r < w := by omega
      have hge : ¬ 8 * (i + 1) + r < 8 := by omega
      have hsub : 8 * (i + 1) + r - 8 = 8 * i + r := by omega
      rw [getLsbD_byteAt _ _ hr, getLsbD_byteAt _ _ hr, BitVec.getLsbD_shiftLeft,
        decide_eq_true hlt, decide_eq_false hge, hsub]
      rfl

/-- A vector is determined by its list of bytes. -/
theorem ofBytes_eq_iff {n : ℕ} (hw : w = 8 * n) {bs : List Byte} {v : BitVec w}
    (h : ∀ i < n, bs.getD i 0 = byteAt v i) : ofBytes w bs = v :=
  eq_of_byteAt hw fun i hi => (byteAt_ofBytes hw bs hi).trans (h i hi)

end TinyStm.Bytes
