import TinyStm.Seq.Same
import TinyStm.Wrap.Refine

/-!
# Sequences of typed accesses

The accessors of one lane, `stm_set_bytes`, and the refinement of a memory of bytes
by every sequence of calls. The word accesses may be those of a transaction.
-/

namespace TinyStm.Wrap

open Bytes

variable {z : WordSize} {A : WordAccess z.bits}

/-! ### `stm_set_bytes` -/

theorem byteAt_fillAll (byte : Byte) (n i : ℕ) (val : BitVec z.bits) {j : ℕ} (hj : j < z.bytes) :
    byteAt (fillAll z byte n i val) j =
      writeBytes (byteAt val) i (List.replicate n byte) j := by
  induction n generalizing i val with
  | zero => rfl
  | succ n ih =>
    rw [fillAll, ih, List.replicate_succ, writeBytes]
    exact writeBytes_congr (byteAt_setByte val i byte hj) ..

theorem byteAt_maskLast (count i : ℕ) (mask : BitVec z.bits) {j : ℕ} (hj : j < z.bytes) :
    byteAt (maskLast z count i mask) j =
      writeBytes (byteAt mask) i (List.replicate count 0xFF) j := by
  induction count generalizing i mask with
  | zero => rfl
  | succ count ih =>
    rw [maskLast, ih, List.replicate_succ, writeBytes]
    exact writeBytes_congr (byteAt_setByte mask i _ hj) ..

theorem maskFirst_eq (count i : ℕ) (mask : BitVec z.bits) :
    maskFirst z count i mask =
      (maskLast z (min count (z.bytes - i)) i mask, count - (z.bytes - i)) := by
  induction count generalizing i mask with
  | zero => simp [maskFirst, maskLast]
  | succ count ih =>
    rw [maskFirst]
    by_cases hi : i < z.bytes
    · have hmin : min (count + 1) (z.bytes - i) = min count (z.bytes - (i + 1)) + 1 := by omega
      have hsub : count - (z.bytes - (i + 1)) = count + 1 - (z.bytes - i) := by omega
      rw [if_pos hi, ih, hmin, maskLast, hsub]
    · have hz : z.bytes - i = 0 := by omega
      rw [if_neg hi, hz, Nat.min_zero]
      rfl

section Set

variable {val : BitVec z.bits} {byte : Byte}

theorem bytesOf_store2_mask (hval : ∀ j < z.bytes, byteAt val j = byte) (count i a : ℕ)
    (s : A.State) (hlen : i + count ≤ z.bytes) :
    bytesOf A (A.store2 s a val (maskLast z count i 0)) =
      writeBytes (bytesOf A s) (z.bytes * a + i) (List.replicate count byte) := by
  have hr : (List.replicate count byte).length = count := List.length_replicate
  refine bytesOf_store2_write (by omega) (fun j h₁ h₂ => ?_) fun j hj => ?_
  · rw [hval j (by omega), getD_replicate _ _ (by omega)]
  · rw [byteAt_maskLast _ _ _ hj, writeBytes_apply, List.length_replicate, List.length_replicate]
    by_cases hin : i ≤ j ∧ j < i + count
    · rw [if_pos hin, if_pos hin, getD_replicate _ _ (by omega)]
    · rw [if_neg hin, if_neg hin, byteAt_zero]

theorem setWords_eq (hval : ∀ j < z.bytes, byteAt val j = byte) (count a : ℕ) (s : A.State) :
    ∃ s', setWords A val count a s = (count % z.bytes, a + count / z.bytes, s') ∧
      bytesOf A s' = writeBytes (bytesOf A s) (z.bytes * a)
        (List.replicate (z.bytes * (count / z.bytes)) byte) := by
  have hpos := z.bytes_pos
  induction count using Nat.strong_induction_on generalizing a s with
  | _ count ih =>
    rw [setWords]
    by_cases hle : z.bytes ≤ count
    · rw [if_pos hle]
      obtain ⟨s', hrec, hs'⟩ := ih (count - z.bytes) (by omega) (a + 1) (A.store s a val)
      have hdiv : count / z.bytes = (count - z.bytes) / z.bytes + 1 := Nat.div_eq_sub_div hpos hle
      have hmod : count % z.bytes = (count - z.bytes) % z.bytes := Nat.mod_eq_sub_mod hle
      have hsum : z.bytes * ((count - z.bytes) / z.bytes + 1) =
          z.bytes + z.bytes * ((count - z.bytes) / z.bytes) := by rw [Nat.mul_add]; omega
      refine ⟨s', ?_, ?_⟩
      · rw [hrec, hdiv, hmod]
        simp only [Prod.mk.injEq, true_and, and_true]
        omega
      · rw [hs', bytesOf_store_write (l := List.replicate z.bytes byte) List.length_replicate
          (fun j hj => by rw [hval j hj, getD_replicate _ _ hj]), hdiv, hsum,
          ← List.replicate_append_replicate, writeBytes_append, List.length_replicate,
          Nat.mul_add, Nat.mul_one]
    · rw [if_neg hle, Nat.div_eq_of_lt (by omega), Nat.mod_eq_of_lt (by omega)]
      exact ⟨s, rfl, rfl⟩

theorem setAligned_eq (hval : ∀ j < z.bytes, byteAt val j = byte) (count a : ℕ) (s : A.State) :
    bytesOf A (let r := setWords A val count a s
      if 0 < r.1 then A.store2 r.2.2 r.2.1 val (maskLast z r.1 0 0) else r.2.2) =
      writeBytes (bytesOf A s) (z.bytes * a) (List.replicate count byte) := by
  obtain ⟨s', hw, hs'⟩ := setWords_eq (A := A) hval count a s
  have hdiv : z.bytes * (count / z.bytes) + count % z.bytes = count := Nat.div_add_mod ..
  simp only [hw]
  by_cases hr : 0 < count % z.bytes
  · have hlt := Nat.mod_lt count z.bytes_pos
    rw [if_pos hr, bytesOf_store2_mask hval _ 0 _ _ (by omega), hs', Nat.mul_add, Nat.add_zero]
    conv_rhs => rw [← hdiv, ← List.replicate_append_replicate, writeBytes_append,
      List.length_replicate]
  · rw [if_neg hr, hs']
    congr 2
    omega

end Set

theorem stmSetBytes_eq (junk : BitVec z.bits) (s : A.State) (addr : ℕ) (byte : Byte)
    (count : ℕ) : bytesOf A (stmSetBytes A junk s addr byte count) =
      writeBytes (bytesOf A s) addr (List.replicate count byte) := by
  have hsplit : z.bytes * (addr / z.bytes) + addr % z.bytes = addr := Nat.div_add_mod ..
  have hval : ∀ j < z.bytes, byteAt (fillAll z byte z.bytes 0 junk) j = byte := by
    intro j hj
    rw [byteAt_fillAll _ _ _ _ hj, writeBytes_apply, List.length_replicate, if_pos (by omega),
      getD_replicate _ _ (by omega)]
  unfold stmSetBytes
  by_cases hsz : count = 0
  · rw [if_pos hsz, hsz]
    rfl
  · rw [if_neg hsz]
    by_cases hi : addr % z.bytes = 0
    · simp only [hi, ne_eq, not_true_eq_false, if_false]
      rw [hi, Nat.add_zero] at hsplit
      rw [setAligned_eq hval, hsplit]
    · simp only [ne_eq, hi, not_false_eq_true, if_true]
      set i := addr % z.bytes with hidef
      have hilt : i < z.bytes := Nat.mod_lt _ z.bytes_pos
      rw [setAligned_eq hval, maskFirst_eq, bytesOf_store2_mask hval _ _ _ _ (by omega), hsplit]
      by_cases hshort : count ≤ z.bytes - i
      · rw [Nat.min_eq_left hshort, Nat.sub_eq_zero_of_le hshort]
        rfl
      · have hstart : z.bytes * (addr / z.bytes + 1) = addr + (z.bytes - i) := by
          rw [Nat.mul_add, Nat.mul_one]
          omega
        have hsum : count = (z.bytes - i) + (count - (z.bytes - i)) := by omega
        conv_rhs => rw [hsum, ← List.replicate_append_replicate, writeBytes_append,
          List.length_replicate]
        rw [Nat.min_eq_right (by omega), hstart]

/-! ### Lanes -/

/-- An aligned lane lies in one word. -/
theorem lane_offset {c addr : ℕ} (hc : 0 < c) (hdvd : c ∣ z.bytes) (hal : addr % c = 0) :
    c * (addr % z.bytes / c) = addr % z.bytes ∧ addr % z.bytes + c ≤ z.bytes := by
  have hmod : addr % z.bytes % c = 0 := by rw [Nat.mod_mod_of_dvd _ hdvd, hal]
  obtain ⟨l, hl⟩ := Nat.dvd_of_mod_eq_zero hmod
  obtain ⟨n, hn⟩ := hdvd
  have hlt : addr % z.bytes < z.bytes := Nat.mod_lt _ z.bytes_pos
  rw [hl] at hlt ⊢
  rw [hn] at hlt ⊢
  rw [Nat.mul_div_cancel_left _ hc]
  refine ⟨rfl, ?_⟩
  have hln : l + 1 ≤ n := Nat.lt_of_mul_lt_mul_left hlt
  calc c * l + c = c * (l + 1) := by rw [Nat.mul_add, Nat.mul_one]
    _ ≤ c * n := Nat.mul_le_mul_left _ hln

/-- What a load of `c` bytes does. -/
def Loads (A : WordAccess z.bits) (c : ℕ) {k : ℕ} (p : BitVec k × A.State) (s : A.State)
    (addr : ℕ) : Prop :=
  p.1 = ofBytes k (readBytes (bytesOf A s) addr c) ∧ bytesOf A p.2 = bytesOf A s

/-- What a store of `c` bytes does. -/
def Stores (A : WordAccess z.bits) (c : ℕ) {k : ℕ} (s' s : A.State) (addr : ℕ)
    (value : BitVec k) : Prop :=
  bytesOf A s' = writeBytes (bytesOf A s) addr (toBytes c value)

theorem loadSplit_loads (k c : ℕ) (misaligned : Bool) (s : A.State) (addr : ℕ) :
    Loads A c (loadSplit A k c misaligned s addr) s addr := by
  obtain ⟨s', hs', hb⟩ := stmLoadBytes_eq (A := A) misaligned s addr c
  unfold loadSplit
  rw [hs']
  exact ⟨rfl, hb⟩

theorem Loads.of_bytes {c k : ℕ} {p : BitVec k × A.State} {s : A.State} {addr : ℕ}
    (hk : k = 8 * c) (hval : ∀ i < c, byteAt p.1 i = bytesOf A s (addr + i))
    (hmem : bytesOf A p.2 = bytesOf A s) : Loads A c p s addr := by
  refine ⟨(ofBytes_eq_iff hk fun i hi => ?_).symm, hmem⟩
  rw [getD_readBytes _ _ hi, hval i hi]

theorem loadLane_loads {c k : ℕ} (hk : k = 8 * c) (hc : 0 < c) (hdvd : c ∣ z.bytes)
    (s : A.State) {addr : ℕ} (hal : addr % c = 0) : Loads A c (loadLane A k c s addr) s addr := by
  obtain ⟨hoff, hend⟩ := lane_offset hc hdvd hal
  have hsplit : z.bytes * (addr / z.bytes) + addr % z.bytes = addr := Nat.div_add_mod ..
  refine .of_bytes hk (fun i hi => ?_) (bytesOf_load ..)
  show byteAt (lane k (A.load s (addr / z.bytes)).1 (addr % z.bytes / c)) i = _
  rw [byteAt_lane hk _ _ hi, hoff, byteAt_load _ _ (by omega), ← Nat.add_assoc, hsplit]

theorem storeLane_stores {c k : ℕ} (hk : k = 8 * c) (hc : 0 < c) (hdvd : c ∣ z.bytes)
    (junk : BitVec z.bits) (s : A.State) {addr : ℕ} (hal : addr % c = 0) (value : BitVec k) :
    Stores A c (storeLane A c junk s addr value) s addr value := by
  obtain ⟨hoff, hend⟩ := lane_offset hc hdvd hal
  have hsplit : z.bytes * (addr / z.bytes) + addr % z.bytes = addr := Nat.div_add_mod ..
  have hlen : (toBytes c value).length = c := length_toBytes ..
  unfold Stores storeLane
  conv_rhs => rw [← hsplit]
  refine bytesOf_store2_write (by omega) (fun j h₁ h₂ => ?_) fun j hj => ?_
  · rw [byteAt_setLane hk z.bits_eq _ _ _ (by omega), hoff, if_pos (by omega),
      getD_toBytes _ (by omega)]
  · rw [byteAt_setLane hk z.bits_eq _ _ _ hj, hoff, hlen, byteAt_zero]
    by_cases hin : addr % z.bytes ≤ j ∧ j < addr % z.bytes + c
    · rw [if_pos hin, if_pos hin, byteAt_allOnes hk (by omega)]
      rfl
    · rw [if_neg hin, if_neg hin]

/-- A load and a store of a full word. -/
theorem byteAt_load_aligned (s : A.State) {addr i c : ℕ} (hz : z.bytes = c)
    (hal : addr % c = 0) (hi : i < c) :
    byteAt (A.load s (addr / z.bytes)).1 i = bytesOf A s (addr + i) := by
  subst hz
  have hsplit : z.bytes * (addr / z.bytes) + addr % z.bytes = addr := Nat.div_add_mod ..
  rw [byteAt_load _ _ hi]
  congr 1
  omega

theorem bytesOf_store_aligned {k c : ℕ} (s : A.State) {addr : ℕ} (hz : z.bytes = c)
    (hal : addr % c = 0) (value : BitVec k) :
    bytesOf A (A.store s (addr / z.bytes) (value.setWidth z.bits)) =
      writeBytes (bytesOf A s) addr (toBytes c value) := by
  subst hz
  have hsplit : z.bytes * (addr / z.bytes) + addr % z.bytes = addr := Nat.div_add_mod ..
  rw [bytesOf_store_write (l := toBytes z.bytes value) (length_toBytes ..) fun j hj => ?_]
  · congr 1
    omega
  · rw [byteAt_setWidth z.bits_eq.ge _ hj, getD_toBytes _ hj]

theorem bytes_four_or_eight (z : WordSize) : z.bytes = 4 ∨ z.bytes = 8 := by
  cases z
  · exact .inl rfl
  · exact .inr rfl

theorem dvd_bytes (z : WordSize) : 2 ∣ z.bytes ∧ 4 ∣ z.bytes := by
  cases z <;> decide

/-! ### Unsigned accessors -/

variable (e : Env z) (s : A.State) (addr : ℕ)

theorem stmLoadU8_loads : Loads A 1 (stmLoadU8 A s addr) s addr :=
  loadLane_loads rfl Nat.one_pos (one_dvd _) s (Nat.mod_one _)

theorem stmLoadU16_loads : Loads A 2 (stmLoadU16 A e.misaligned s addr) s addr := by
  unfold stmLoadU16
  split
  · exact loadSplit_loads ..
  · next hal => exact loadLane_loads rfl Nat.two_pos (dvd_bytes z).1 s (not_not.mp hal)

theorem stmLoadU32_loads : Loads A 4 (stmLoadU32 A e.misaligned s addr) s addr := by
  unfold stmLoadU32
  split
  · exact loadSplit_loads ..
  · next hal =>
    have hal : addr % 4 = 0 := not_not.mp hal
    split
    · next hz =>
      refine .of_bytes rfl (fun i hi => ?_) (bytesOf_load ..)
      rw [byteAt_setWidth le_rfl _ hi]
      exact byteAt_load_aligned s hz hal hi
    · exact loadLane_loads rfl (by omega) (dvd_bytes z).2 s hal

/-- The bytes of a 64-bit union made of two 32-bit halves. -/
theorem byteAt_halves (junk : BitVec 64) (lo hi : BitVec 32) {i : ℕ} (h : i < 8) :
    byteAt (setLane (setLane junk 0 lo) 1 hi) i =
      if i < 4 then byteAt lo i else byteAt hi (i - 4) := by
  rw [byteAt_setLane (c := 4) (n := 8) rfl rfl _ _ _ h,
    byteAt_setLane (c := 4) (n := 8) rfl rfl _ _ _ h]
  by_cases hlt : i < 4
  · rw [if_neg (by omega), if_pos (by omega), if_pos hlt]
    rfl
  · rw [if_pos (by omega), if_neg hlt]

theorem stmLoadU64_loads : Loads A 8 (stmLoadU64 A e.misaligned e.junk64 s addr) s addr := by
  unfold stmLoadU64
  split
  · exact loadSplit_loads ..
  · next hal =>
    have hal : addr % 8 = 0 := not_not.mp hal
    split
    · next hz =>
      refine .of_bytes rfl (fun i hi => ?_) ((bytesOf_load ..).trans (bytesOf_load ..))
      have hnext : addr / z.bytes + 1 = (addr + 4) / z.bytes := by
        rw [hz]
        omega
      rw [byteAt_halves _ _ _ hi, hnext]
      split
      · next hlt =>
        rw [byteAt_setWidth le_rfl _ hlt]
        exact byteAt_load_aligned s hz (by omega) hlt
      · next hge =>
        rw [byteAt_setWidth (n := 4) le_rfl _ (by omega),
          byteAt_load_aligned _ hz (by omega) (by omega), bytesOf_load]
        congr 1
        omega
    · next hz =>
      have hz : z.bytes = 8 := (bytes_four_or_eight z).resolve_left hz
      refine .of_bytes rfl (fun i hi => ?_) (bytesOf_load ..)
      rw [byteAt_setWidth le_rfl _ hi]
      exact byteAt_load_aligned s hz hal hi

theorem stmStoreU8_stores (v : BitVec 8) : Stores A 1 (stmStoreU8 A e.junk s addr v) s addr v :=
  storeLane_stores rfl Nat.one_pos (one_dvd _) _ s (Nat.mod_one _) v

theorem stmStoreU16_stores (v : BitVec 16) :
    Stores A 2 (stmStoreU16 A e.misaligned e.junk s addr v) s addr v := by
  unfold stmStoreU16
  split
  · exact stmStoreBytes_eq ..
  · next hal => exact storeLane_stores rfl Nat.two_pos (dvd_bytes z).1 _ s (not_not.mp hal) v

theorem stmStoreU32_stores (v : BitVec 32) :
    Stores A 4 (stmStoreU32 A e.misaligned e.junk s addr v) s addr v := by
  unfold stmStoreU32
  split
  · exact stmStoreBytes_eq ..
  · next hal =>
    have hal : addr % 4 = 0 := not_not.mp hal
    split
    · next hz =>
      exact bytesOf_store_aligned s hz hal v
    · exact storeLane_stores rfl (by omega) (dvd_bytes z).2 _ s hal v

theorem toBytes_halves (v : BitVec 64) :
    toBytes 8 v = toBytes 4 (lane 32 v 0) ++ toBytes 4 (lane 32 v 1) := by
  have hcut : toBytes 8 v = readBytes (byteAt v) 0 4 ++ readBytes (byteAt v) 4 4 :=
    readBytes_add (byteAt v) 0 4 4
  rw [hcut, toBytes, toBytes]
  congr 1
  · refine readBytes_congr fun i hi => ?_
    rw [Nat.zero_add, byteAt_lane (c := 4) rfl _ _ hi]
    congr 1
    omega
  · refine readBytes_congr fun i hi => ?_
    rw [Nat.zero_add, byteAt_lane (c := 4) rfl _ _ hi]

theorem stmStoreU64_stores (v : BitVec 64) :
    Stores A 8 (stmStoreU64 A e.misaligned e.junk s addr v) s addr v := by
  unfold stmStoreU64
  split
  · exact stmStoreBytes_eq ..
  · next hal =>
    have hal : addr % 8 = 0 := not_not.mp hal
    split
    · next hz =>
      have hnext : addr / z.bytes + 1 = (addr + 4) / z.bytes := by
        rw [hz]
        omega
      unfold Stores
      rw [hnext, bytesOf_store_aligned _ hz (by omega), bytesOf_store_aligned _ hz (by omega),
        toBytes_halves, writeBytes_append, length_toBytes]
    · next hz =>
      have hz : z.bytes = 8 := (bytes_four_or_eight z).resolve_left hz
      exact bytesOf_store_aligned s hz hal v

/-! ### Byte memory as the specification -/

/-- The value of a type that the bytes stand for. -/
def decode (bs : List Byte) : (t : Ty) → t.Val
  | .u8 | .uchar => ofBytes 8 bs
  | .u16 | .ushort => ofBytes 16 bs
  | .u32 | .uint | .float | .ulong false => ofBytes 32 bs
  | .u64 | .double | .ulong true => ofBytes 64 bs
  | .char => Int8.ofBitVec (ofBytes 8 bs)
  | .short => Int16.ofBitVec (ofBytes 16 bs)
  | .int | .long false => Int32.ofBitVec (ofBytes 32 bs)
  | .long true => Int64.ofBitVec (ofBytes 64 bs)

def encode : (t : Ty) → t.Val → List Byte
  | .u8, v | .uchar, v => toBytes (w := 8) 1 v
  | .u16, v | .ushort, v => toBytes (w := 16) 2 v
  | .u32, v | .uint, v | .float, v | .ulong false, v => toBytes (w := 32) 4 v
  | .u64, v | .double, v | .ulong true, v => toBytes (w := 64) 8 v
  | .char, v => toBytes 1 (Int8.toBitVec v)
  | .short, v => toBytes 2 (Int16.toBitVec v)
  | .int, v | .long false, v => toBytes 4 (Int32.toBitVec v)
  | .long true, v => toBytes 8 (Int64.toBitVec v)

def Ty.size : Ty → ℕ
  | .u8 | .uchar | .char => 1
  | .u16 | .ushort | .short => 2
  | .u32 | .uint | .int | .float | .ulong false | .long false => 4
  | .u64 | .double | .ulong true | .long true => 8

/-- The calls on a memory of bytes. -/
def byteCall (m : ℕ → Byte) : Op → Out × (ℕ → Byte)
  | .load t addr => (.val t (decode (readBytes m addr t.size) t), m)
  | .loadBytes addr size => (.bytes (readBytes m addr size), m)
  | .store t addr v => (.none, writeBytes m addr (encode t v))
  | .storeBytes addr buf => (.none, writeBytes m addr buf)
  | .setBytes addr byte count => (.none, writeBytes m addr (List.replicate count byte))

def byteRun : List Op → (ℕ → Byte) → List Out × (ℕ → Byte)
  | [], m => ([], m)
  | op :: ops, m => ((byteCall m op).1 :: (byteRun ops (byteCall m op).2).1,
      (byteRun ops (byteCall m op).2).2)

theorem loadTy_eq (t : Ty) : (loadTy A e s addr t).1 = decode (readBytes (bytesOf A s) addr t.size) t ∧
    bytesOf A (loadTy A e s addr t).2 = bytesOf A s := by
  have h₈ := stmLoadU8_loads (A := A) s addr
  have h₁₆ := stmLoadU16_loads (A := A) e s addr
  have h₃₂ := stmLoadU32_loads (A := A) e s addr
  have h₆₄ := stmLoadU64_loads (A := A) e s addr
  cases t with
  | u8 | uchar => exact h₈
  | u16 | ushort => exact h₁₆
  | u32 | uint | float => exact h₃₂
  | u64 | double => exact h₆₄
  | char => exact ⟨congrArg Int8.ofBitVec h₈.1, h₈.2⟩
  | short => exact ⟨congrArg Int16.ofBitVec h₁₆.1, h₁₆.2⟩
  | int => exact ⟨congrArg Int32.ofBitVec h₃₂.1, h₃₂.2⟩
  | long eight =>
    cases eight
    · exact ⟨congrArg Int32.ofBitVec h₃₂.1, h₃₂.2⟩
    · exact ⟨congrArg Int64.ofBitVec h₆₄.1, h₆₄.2⟩
  | ulong eight =>
    cases eight
    · exact h₃₂
    · exact h₆₄

theorem storeTy_eq (t : Ty) (v : t.Val) :
    bytesOf A (storeTy A e s addr t v) = writeBytes (bytesOf A s) addr (encode t v) := by
  cases t with
  | u8 | uchar | char => exact stmStoreU8_stores e s addr _
  | u16 | ushort | short => exact stmStoreU16_stores e s addr _
  | u32 | uint | float | int => exact stmStoreU32_stores e s addr _
  | u64 | double => exact stmStoreU64_stores e s addr _
  | long eight | ulong eight =>
    cases eight
    · exact stmStoreU32_stores e s addr _
    · exact stmStoreU64_stores e s addr _

/-- A value read back as the type it was stored with. -/
theorem decode_encode (t : Ty) (v : t.Val) : decode (encode t v) t = v := by
  have hback : ∀ (c k : ℕ) (v : BitVec k), k = 8 * c → ofBytes k (toBytes c v) = v :=
    fun c k v hk => ofBytes_eq_iff hk fun i hi => getD_toBytes v hi 0
  cases t with
  | u8 | uchar => exact hback 1 8 _ rfl
  | u16 | ushort => exact hback 2 16 _ rfl
  | u32 | uint | float => exact hback 4 32 _ rfl
  | u64 | double => exact hback 8 64 _ rfl
  | char => exact congrArg Int8.ofBitVec (hback 1 8 _ rfl)
  | short => exact congrArg Int16.ofBitVec (hback 2 16 _ rfl)
  | int => exact congrArg Int32.ofBitVec (hback 4 32 _ rfl)
  | long eight =>
    cases eight
    · exact congrArg Int32.ofBitVec (hback 4 32 _ rfl)
    · exact congrArg Int64.ofBitVec (hback 8 64 _ rfl)
  | ulong eight =>
    cases eight
    · exact hback 4 32 _ rfl
    · exact hback 8 64 _ rfl

theorem call_eq (op : Op) : (call A e s op).1 = (byteCall (bytesOf A s) op).1 ∧
    bytesOf A (call A e s op).2 = (byteCall (bytesOf A s) op).2 := by
  cases op with
  | load t addr =>
    obtain ⟨hv, hm⟩ := loadTy_eq (A := A) e s addr t
    exact ⟨congrArg (Out.val t) hv, hm⟩
  | loadBytes addr size =>
    obtain ⟨s', hs', hm⟩ := stmLoadBytes_eq (A := A) e.misaligned s addr size
    simp only [call, hs']
    exact ⟨rfl, hm⟩
  | store t addr v => exact ⟨rfl, storeTy_eq e s addr t v⟩
  | storeBytes addr buf => exact ⟨rfl, stmStoreBytes_eq ..⟩
  | setBytes addr byte count => exact ⟨rfl, stmSetBytes_eq ..⟩

theorem byteRun_eq (ops : List (Env z × Op)) (s : A.State) :
    byteRun (ops.map Prod.snd) (bytesOf A s) = ((run A ops s).1, bytesOf A (run A ops s).2) := by
  induction ops generalizing s with
  | nil => rfl
  | cons p ops ih =>
    obtain ⟨e, op⟩ := p
    obtain ⟨hout, hmem⟩ := call_eq (A := A) e s op
    have htail := ih (call A e s op).2
    rw [hmem] at htail
    show ((byteCall (bytesOf A s) op).1 :: (byteRun (ops.map Prod.snd) _).1,
      (byteRun (ops.map Prod.snd) _).2) = _
    rw [htail, ← hout]
    rfl

/-- Every sequence of calls is a sequence of accesses to a memory of bytes, whatever the
uninitialised unions held. -/
theorem wrappers_byte_memory (A : WordAccess z.bits) (ops : List (Env z × Op)) (s : A.State) :
    (run A ops s).1 = (byteRun (ops.map Prod.snd) (bytesOf A s)).1 ∧
    bytesOf A (run A ops s).2 = (byteRun (ops.map Prod.snd) (bytesOf A s)).2 := by
  rw [byteRun_eq]
  exact ⟨rfl, rfl⟩

/-! ### Word accesses of a transaction -/

section Transaction

open TinyStm.Seq

variable {w : ℕ} {o : Opts w} {tid : ℕ}
  {I : Quiescent w → List (Store w) → Store3 w → Desc w → Prop}

/-- A transaction that runs alone, with the stores it has made. -/
structure Running (I : Quiescent w → List (Store w) → Store3 w → Desc w → Prop)
    (q : Quiescent w) where
  stores : List (Store w)
  store : Store3 w
  desc : Desc w
  inv : I q stores store desc

/-- Its calls are masked accesses to plain memory. -/
noncomputable def Running.access (h : Refines o tid I) (q : Quiescent w) : WordAccess w where
  State := Running I q
  load r a := (q.after r.stores a, ⟨r.stores, r.store, (h.load r.inv a).choose,
    (h.load r.inv a).choose_spec.2⟩)
  store r a v := ⟨_, _, _, (h.write r.inv a v (BitVec.allOnes w)).choose_spec.choose_spec.2⟩
  store2 r a v m := ⟨_, _, _, (h.write r.inv a v m).choose_spec.choose_spec.2⟩
  word r := q.after r.stores
  load_val _ _ := rfl
  load_word _ _ := rfl
  store_word r a v := by rw [after_snoc, mergeBits_allOnes]
  store2_word r a v m := after_snoc ..

/-- The values and the states are those of the calls of `stm.c`. -/
theorem Running.access_calls (h : Refines o tid I) (q : Quiescent w) (r : Running I q) (a : ℕ)
    (v m : BitVec w) :
    stmLoad o tid r.store r.desc a =
      .ok (((access h q).load r a).1, (((access h q).load r a).2 : Running I q).desc) ∧
    stmWrite o tid r.store r.desc a v (BitVec.allOnes w) =
      .ok (((access h q).store r a v : Running I q).store,
        ((access h q).store r a v : Running I q).desc) ∧
    stmWrite o tid r.store r.desc a v m =
      .ok ((((access h q).store2 r a v m) : Running I q).store,
        (((access h q).store2 r a v m) : Running I q).desc) :=
  ⟨(h.load r.inv a).choose_spec.1, (h.write r.inv a v _).choose_spec.choose_spec.1,
    (h.write r.inv a v m).choose_spec.choose_spec.1⟩

def Running.start (h : Refines o tid I) (q : Quiescent w) : Running I q :=
  ⟨[], q.store, q.fresh, h.start q⟩

/-- The bytes of a memory of words. -/
def wordBytes (z : WordSize) (m : ℕ → BitVec z.bits) (a : ℕ) : Byte :=
  byteAt (m (a / z.bytes)) (a % z.bytes)

/-- A transaction that runs alone reads and writes the bytes of plain memory through the
wrappers; a commit leaves the bytes it has written, an abort those there were. -/
theorem transaction_byte_memory {o : Opts z.bits}
    {I : Quiescent z.bits → List (Store z.bits) → Store3 z.bits → Desc z.bits → Prop}
    (h : Refines o tid I) (q : Quiescent z.bits) (ops : List (Env z × Op)) :
    ∃ r : Running I q,
      run (Running.access h q) ops (Running.start h q) =
        ((byteRun (ops.map Prod.snd) (wordBytes z q.mem)).1, r) ∧
      (∃ q', stmCommit o tid r.store r.desc = .ok (Quiescent.store q') ∧
        wordBytes z q'.mem = (byteRun (ops.map Prod.snd) (wordBytes z q.mem)).2) ∧
      ∃ q', stmAbort o r.store r.desc = .ok (Quiescent.store q') ∧ q'.mem = q.mem := by
  have hrun : byteRun (ops.map Prod.snd) (wordBytes z q.mem) = _ :=
    byteRun_eq (A := Running.access h q) ops (Running.start h q)
  let r : Running I q := (run (Running.access h q) ops (Running.start h q)).2
  obtain ⟨q', hcommit, hmem⟩ := h.commit r.inv
  rw [hrun]
  refine ⟨r, rfl, ⟨q', hcommit, ?_⟩, h.abort r.inv⟩
  rw [hmem]
  rfl

end Transaction

end TinyStm.Wrap
