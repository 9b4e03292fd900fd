import TinyStm.Wrap.Model

/-!
# The wrappers implement a memory of bytes

`bytesOf` reads a word memory as bytes. Each loop of the wrappers is a read or a
write of a range of bytes, and the ranges of the loops of one call add up to the
range of the call.
-/

namespace TinyStm.Wrap

open Bytes

variable {z : WordSize} (A : WordAccess z.bits)

/-- The bytes of the memory. -/
def bytesOf (s : A.State) (a : ℕ) : Byte := byteAt (A.word s (a / z.bytes)) (a % z.bytes)

variable {A} {s : A.State}

theorem byteAt_word (s : A.State) (a : ℕ) {j : ℕ} (hj : j < z.bytes) :
    byteAt (A.word s a) j = bytesOf A s (z.bytes * a + j) := by
  rw [bytesOf, Nat.mul_add_div z.bytes_pos, Nat.mul_add_mod, Nat.div_eq_of_lt hj,
    Nat.mod_eq_of_lt hj, Nat.add_zero]

theorem bytesOf_load (s : A.State) (a : ℕ) : bytesOf A (A.load s a).2 = bytesOf A s := by
  unfold bytesOf
  rw [A.load_word]

theorem byteAt_load (s : A.State) (a : ℕ) {j : ℕ} (hj : j < z.bytes) :
    byteAt (A.load s a).1 j = bytesOf A s (z.bytes * a + j) := by
  rw [A.load_val]
  exact byteAt_word s a hj

theorem byteAt_mergeBits {w : ℕ} (x v m : BitVec w) (j : ℕ) :
    byteAt (mergeBits x v m) j = mergeBits (byteAt x j) (byteAt v j) (byteAt m j) := by
  apply BitVec.eq_of_getLsbD_eq
  intro r hr
  simp only [mergeBits, BitVec.getLsbD_or, BitVec.getLsbD_and, BitVec.getLsbD_not, hr,
    getLsbD_byteAt _ _ hr, decide_true, Bool.true_and]
  by_cases hlt : 8 * j + r < w
  · simp [hlt]
  · have hm : m.getLsbD (8 * j + r) = false := BitVec.getLsbD_of_ge _ _ (by omega)
    have hx : x.getLsbD (8 * j + r) = false := BitVec.getLsbD_of_ge _ _ (by omega)
    simp [hm, hx]

/-- A masked store of whole bytes, in terms of the memory after it. -/
theorem bytesOf_store2 {a : ℕ} {val mask : BitVec z.bits} {m : ℕ → Byte}
    (hin : ∀ j < z.bytes, (byteAt mask j = 0xFF ∧ m (z.bytes * a + j) = byteAt val j) ∨
      (byteAt mask j = 0 ∧ m (z.bytes * a + j) = bytesOf A s (z.bytes * a + j)))
    (hout : ∀ c, c / z.bytes ≠ a → m c = bytesOf A s c) :
    bytesOf A (A.store2 s a val mask) = m := by
  funext c
  rw [bytesOf, A.store2_word]
  rcases eq_or_ne (c / z.bytes) a with rfl | hne
  · have hj : c % z.bytes < z.bytes := Nat.mod_lt _ z.bytes_pos
    have hc : z.bytes * (c / z.bytes) + c % z.bytes = c := Nat.div_add_mod ..
    rw [Function.update_self, byteAt_mergeBits]
    rcases hin _ hj with ⟨hm, hv⟩ | ⟨hm, hv⟩
    · rw [hc] at hv
      rw [hm, hv]
      exact mergeBits_allOnes ..
    · rw [hc] at hv
      rw [hm, hv]
      exact mergeBits_zero ..
  · rw [Function.update_of_ne hne, hout c hne]
    rfl

theorem store_eq_store2 (s : A.State) (a : ℕ) (v : BitVec z.bits) :
    bytesOf A (A.store s a v) = bytesOf A (A.store2 s a v (BitVec.allOnes _)) := by
  funext c
  rw [bytesOf, bytesOf, A.store_word, A.store2_word, mergeBits_allOnes]

/-- A word in the middle of a range of bytes. -/
theorem div_eq_of_range {a c : ℕ} (h₁ : z.bytes * a ≤ c) (h₂ : c < z.bytes * a + z.bytes) :
    c / z.bytes = a := by
  obtain ⟨j, rfl⟩ := Nat.exists_eq_add_of_le h₁
  have hj : j < z.bytes := by omega
  rw [Nat.mul_add_div z.bytes_pos, Nat.div_eq_of_lt hj, Nat.add_zero]

/-- A masked store of the bytes `bs` at byte `i` of word `a`. -/
theorem bytesOf_store2_write {a i : ℕ} {val mask : BitVec z.bits} {bs : List Byte}
    (hlen : i + bs.length ≤ z.bytes)
    (hval : ∀ j, i ≤ j → j < i + bs.length → byteAt val j = bs.getD (j - i) 0)
    (hmask : ∀ j < z.bytes, byteAt mask j = if i ≤ j ∧ j < i + bs.length then 0xFF else 0) :
    bytesOf A (A.store2 s a val mask) = writeBytes (bytesOf A s) (z.bytes * a + i) bs := by
  refine bytesOf_store2 (fun j hj => ?_) fun c hc => ?_
  · rw [hmask j hj, writeBytes_apply]
    by_cases hin : i ≤ j ∧ j < i + bs.length
    · rw [if_pos hin, if_pos (by omega), hval j hin.1 hin.2]
      refine .inl ⟨rfl, ?_⟩
      congr 1
      omega
    · rw [if_neg hin, if_neg (by omega)]
      exact .inr ⟨rfl, rfl⟩
  · rw [writeBytes_apply, if_neg]
    intro hr
    exact hc (div_eq_of_range (by omega) (by omega))

/-- A store of a full word. -/
theorem bytesOf_store_write {a : ℕ} {val : BitVec z.bits} {l : List Byte}
    (hlen : l.length = z.bytes) (hval : ∀ j < z.bytes, byteAt val j = l.getD j 0) :
    bytesOf A (A.store s a val) = writeBytes (bytesOf A s) (z.bytes * a) l := by
  rw [store_eq_store2]
  refine bytesOf_store2_write (i := 0) (by omega) (fun j _ hj => hval j (by omega)) fun j hj => ?_
  rw [if_pos (by omega), byteAt_allOnes z.bits_eq hj]
  rfl

/-! ### Loops of the loads -/

section Loads

variable {m : ℕ → Byte} {val : BitVec z.bits} {b : ℕ}

theorem loadLast_eq (hval : ∀ j < z.bytes, byteAt val j = m (b + j)) (size i : ℕ)
    (hi : i + size ≤ z.bytes) : loadLast z val size i = readBytes m (b + i) size := by
  induction size generalizing i with
  | zero => rfl
  | succ size ih =>
    rw [loadLast, readBytes, hval i (by omega), ih (i + 1) (by omega)]
    rfl

theorem loadFirst_eq (hval : ∀ j < z.bytes, byteAt val j = m (b + j)) (size i : ℕ) :
    loadFirst z val size i =
      (readBytes m (b + i) (min size (z.bytes - i)), size - (z.bytes - i)) := by
  induction size generalizing i with
  | zero => simp [loadFirst, readBytes]
  | succ size ih =>
    rw [loadFirst]
    by_cases hi : i < z.bytes
    · have hmin : min (size + 1) (z.bytes - i) = min size (z.bytes - (i + 1)) + 1 := by omega
      rw [if_pos hi, ih (i + 1), hmin, readBytes, hval i hi]
      refine Prod.ext rfl ?_
      show size - (z.bytes - (i + 1)) = size + 1 - (z.bytes - i)
      omega
    · have hz : z.bytes - i = 0 := by omega
      rw [if_neg hi, hz, Nat.min_zero]
      rfl

end Loads

theorem toBytes_load (s : A.State) (a : ℕ) :
    toBytes z.bytes (A.load s a).1 = readBytes (bytesOf A s) (z.bytes * a) z.bytes := by
  refine readBytes_congr fun i hi => ?_
  rw [Nat.zero_add, byteAt_load s a hi]

/-- The words from `a` on. -/
theorem loadWords_eq (misaligned : Bool) (size a : ℕ) (s : A.State) :
    ∃ s', loadWords A misaligned size a s =
      (readBytes (bytesOf A s) (z.bytes * a) (z.bytes * (size / z.bytes)), size % z.bytes,
        a + size / z.bytes, s') ∧ bytesOf A s' = bytesOf A s := by
  induction size using Nat.strong_induction_on generalizing a s with
  | _ size ih =>
    have hpos := z.bytes_pos
    rw [loadWords]
    by_cases hle : z.bytes ≤ size
    · rw [if_pos hle]
      have hword : (if misaligned = true then toBytes z.bytes (A.load s a).1
          else loadLast z (A.load s a).1 z.bytes 0) =
          readBytes (bytesOf A s) (z.bytes * a) z.bytes := by
        split
        · exact toBytes_load s a
        · exact loadLast_eq (fun j hj => byteAt_load s a hj) z.bytes 0 (by omega)
      obtain ⟨s', hrec, hs'⟩ := ih (size - z.bytes) (by omega) (a + 1) (A.load s a).2
      refine ⟨s', ?_, hs'.trans (bytesOf_load s a)⟩
      simp only [hword, hrec, bytesOf_load]
      have hdiv : size / z.bytes = (size - z.bytes) / z.bytes + 1 :=
        Nat.div_eq_sub_div hpos hle
      have hmod : size % z.bytes = (size - z.bytes) % z.bytes := Nat.mod_eq_sub_mod hle
      have hsum : z.bytes * ((size - z.bytes) / z.bytes + 1) =
          z.bytes + z.bytes * ((size - z.bytes) / z.bytes) := by rw [Nat.mul_add]; omega
      rw [hdiv, hmod, hsum, readBytes_add, Nat.mul_add, Nat.mul_one]
      simp only [Prod.mk.injEq, true_and, and_true]
      omega
    · rw [if_neg hle]
      have hlt : size < z.bytes := by omega
      refine ⟨s, ?_, rfl⟩
      rw [Nat.div_eq_of_lt hlt, Nat.mod_eq_of_lt hlt]
      rfl

/-- A range that starts at a word: full words, then the rest. -/
theorem loadAligned_eq (misaligned : Bool) (size a : ℕ) (s : A.State) (pre : List Byte) :
    ∃ s', (let r := loadWords A misaligned size a s
      if 0 < r.2.1 then
        let l := A.load r.2.2.2 r.2.2.1
        (pre ++ r.1 ++ loadLast z l.1 r.2.1 0, l.2)
      else (pre ++ r.1, r.2.2.2)) =
      (pre ++ readBytes (bytesOf A s) (z.bytes * a) size, s') ∧ bytesOf A s' = bytesOf A s := by
  obtain ⟨s₁, hw, hs₁⟩ := loadWords_eq misaligned size a s
  have hsize : z.bytes * (size / z.bytes) + size % z.bytes = size := Nat.div_add_mod ..
  simp only [hw]
  by_cases hr : 0 < size % z.bytes
  · rw [if_pos hr]
    refine ⟨(A.load s₁ (a + size / z.bytes)).2, Prod.ext ?_ rfl, (bytesOf_load ..).trans hs₁⟩
    have hlast := loadLast_eq (m := bytesOf A s) (fun j hj => by
      rw [byteAt_load s₁ (a + size / z.bytes) hj, hs₁]) (size % z.bytes) 0
      (by have := Nat.mod_lt size z.bytes_pos; omega)
    have hcut := readBytes_add (bytesOf A s) (z.bytes * a) (z.bytes * (size / z.bytes))
      (size % z.bytes)
    rw [hsize] at hcut
    simp only [hlast, hcut, List.append_assoc, Nat.mul_add, Nat.add_zero]
  · rw [if_neg hr]
    have hz : size % z.bytes = 0 := by omega
    have hfull : z.bytes * (size / z.bytes) = size := by omega
    exact ⟨s₁, by rw [hfull], hs₁⟩

theorem stmLoadBytes_eq (misaligned : Bool) (s : A.State) (addr size : ℕ) :
    ∃ s', stmLoadBytes A misaligned s addr size = (readBytes (bytesOf A s) addr size, s') ∧
      bytesOf A s' = bytesOf A s := by
  have hpos := z.bytes_pos
  have hsplit : z.bytes * (addr / z.bytes) + addr % z.bytes = addr := Nat.div_add_mod ..
  unfold stmLoadBytes
  by_cases hsz : size = 0
  · rw [if_pos hsz, hsz]
    exact ⟨s, rfl, rfl⟩
  · rw [if_neg hsz]
    by_cases hi : addr % z.bytes = 0
    · simp only [hi, ne_eq, not_true_eq_false, if_false]
      obtain ⟨s', hs', hb⟩ := loadAligned_eq misaligned size (addr / z.bytes) s []
      refine ⟨s', hs'.trans ?_, hb⟩
      rw [hi, Nat.add_zero] at hsplit
      rw [hsplit]
      rfl
    · simp only [ne_eq, hi, not_false_eq_true, if_true]
      set i := addr % z.bytes with hidef
      have hilt : i < z.bytes := Nat.mod_lt _ hpos
      have hfirst := loadFirst_eq (m := bytesOf A s) (b := z.bytes * (addr / z.bytes))
        (fun j hj => byteAt_load s (addr / z.bytes) hj) size i
      rw [hsplit] at hfirst
      simp only [hfirst]
      obtain ⟨s', hs', hb⟩ := loadAligned_eq misaligned (size - (z.bytes - i))
        (addr / z.bytes + 1) (A.load s (addr / z.bytes)).2
        (readBytes (bytesOf A s) addr (min size (z.bytes - i)))
      refine ⟨s', hs'.trans ?_, hb.trans (bytesOf_load ..)⟩
      refine Prod.ext ?_ rfl
      show _ ++ _ = _
      rw [bytesOf_load]
      by_cases hshort : size ≤ z.bytes - i
      · rw [Nat.min_eq_left hshort, Nat.sub_eq_zero_of_le hshort, readBytes, List.append_nil]
      · have hstart : z.bytes * (addr / z.bytes + 1) = addr + (z.bytes - i) := by
          rw [Nat.mul_add, Nat.mul_one]
          omega
        have hsum : size = (z.bytes - i) + (size - (z.bytes - i)) := by omega
        rw [Nat.min_eq_right (by omega), hstart]
        conv_rhs => rw [hsum, readBytes_add]

/-! ### Loops of the stores -/

theorem byteAt_setByte (v : BitVec z.bits) (i : ℕ) (b : Byte) {j : ℕ} (hj : j < z.bytes) :
    byteAt (setByte v i b) j = Function.update (byteAt v) i b j := by
  rw [setByte, byteAt_setLane (c := 1) rfl z.bits_eq _ _ _ hj]
  rcases eq_or_ne j i with rfl | hne
  · rw [if_pos (by omega), Function.update_self]
    simp [byteAt, lane]
  · rw [if_neg (by omega), Function.update_of_ne hne]

theorem getD_replicate {n i : ℕ} (b d : Byte) (hi : i < n) :
    (List.replicate n b).getD i d = b := by
  simp [hi]

/-- The union and the mask after the bytes of `buf` were put into them. -/
theorem byteAt_fillLast (buf : List Byte) (i : ℕ) (val mask : BitVec z.bits) {j : ℕ}
    (hj : j < z.bytes) :
    byteAt (fillLast z buf i val mask).1 j = writeBytes (byteAt val) i buf j ∧
    byteAt (fillLast z buf i val mask).2 j =
      writeBytes (byteAt mask) i (List.replicate buf.length 0xFF) j := by
  induction buf generalizing i val mask with
  | nil => exact ⟨rfl, rfl⟩
  | cons b buf ih =>
    obtain ⟨h₁, h₂⟩ := ih (i + 1) (setByte val i b) (setByte mask i 0xFF)
    rw [fillLast, h₁, h₂, List.length_cons, List.replicate_succ, writeBytes, writeBytes]
    exact ⟨writeBytes_congr (byteAt_setByte val i b hj) ..,
      writeBytes_congr (byteAt_setByte mask i _ hj) ..⟩

/-- The loop over the first bytes stops at the end of the word. -/
theorem fillFirst_eq (buf : List Byte) (i : ℕ) (val mask : BitVec z.bits) :
    fillFirst z buf i val mask =
      ((fillLast z (buf.take (z.bytes - i)) i val mask).1,
        (fillLast z (buf.take (z.bytes - i)) i val mask).2, buf.drop (z.bytes - i)) := by
  induction buf generalizing i val mask with
  | nil => simp [fillFirst, fillLast]
  | cons b buf ih =>
    rw [fillFirst]
    by_cases hi : i < z.bytes
    · have hsub : z.bytes - i = (z.bytes - (i + 1)) + 1 := by omega
      rw [if_pos hi, ih, hsub, List.take_succ_cons, List.drop_succ_cons, fillLast]
    · have hz : z.bytes - i = 0 := by omega
      rw [if_neg hi, hz]
      rfl

/-- The masked store that follows the loop. -/
theorem bytesOf_store2_fill (buf : List Byte) (i a : ℕ) (s : A.State)
    (hlen : i + buf.length ≤ z.bytes) :
    bytesOf A (A.store2 s a (fillLast z buf i 0 0).1 (fillLast z buf i 0 0).2) =
      writeBytes (bytesOf A s) (z.bytes * a + i) buf := by
  refine bytesOf_store2_write hlen (fun j h₁ h₂ => ?_) fun j hj => ?_
  · rw [(byteAt_fillLast buf i 0 0 (by omega)).1, writeBytes_apply, if_pos ⟨h₁, h₂⟩]
  · rw [(byteAt_fillLast buf i 0 0 hj).2, writeBytes_apply, List.length_replicate]
    by_cases hin : i ≤ j ∧ j < i + buf.length
    · rw [if_pos hin, if_pos hin, getD_replicate _ _ (by omega)]
    · rw [if_neg hin, if_neg hin, byteAt_zero]

/-- The words from `a` on. -/
theorem storeWords_eq (misaligned : Bool) (val : BitVec z.bits) (buf : List Byte) (a : ℕ)
    (s : A.State) :
    ∃ s', storeWords A misaligned val buf a s =
      (buf.drop (z.bytes * (buf.length / z.bytes)), a + buf.length / z.bytes, s') ∧
      bytesOf A s' =
        writeBytes (bytesOf A s) (z.bytes * a) (buf.take (z.bytes * (buf.length / z.bytes))) := by
  have hpos := z.bytes_pos
  induction hn : buf.length using Nat.strong_induction_on generalizing buf a s val with
  | _ n ih =>
    subst hn
    rw [storeWords]
    by_cases hle : z.bytes ≤ buf.length
    · rw [if_pos hle]
      have htake : (buf.take z.bytes).length = z.bytes := List.length_take_of_le hle
      -- one round stores the first word of `buf`, whichever way it is put together
      have hround : ∀ v u : BitVec z.bits, (∀ j < z.bytes, byteAt v j = (buf.take z.bytes).getD j 0) →
          ∃ s', storeWords A misaligned u (buf.drop z.bytes) (a + 1) (A.store s a v) =
            (buf.drop (z.bytes * (buf.length / z.bytes)), a + buf.length / z.bytes, s') ∧
            bytesOf A s' = writeBytes (bytesOf A s) (z.bytes * a)
              (buf.take (z.bytes * (buf.length / z.bytes))) := by
        intro v u hv
        have hdrop : (buf.drop z.bytes).length = buf.length - z.bytes := List.length_drop
        obtain ⟨s', hrec, hs'⟩ := ih _ (by omega) u (buf.drop z.bytes) (a + 1) (A.store s a v) rfl
        have hdiv : buf.length / z.bytes = (buf.length - z.bytes) / z.bytes + 1 :=
          Nat.div_eq_sub_div hpos hle
        have hsum : z.bytes * ((buf.length - z.bytes) / z.bytes + 1) =
            z.bytes + z.bytes * ((buf.length - z.bytes) / z.bytes) := by rw [Nat.mul_add]; omega
        refine ⟨s', ?_, ?_⟩
        · rw [hrec, hdrop, hdiv, hsum, List.drop_drop]
          simp only [Prod.mk.injEq, true_and, and_true]
          omega
        · rw [hs', bytesOf_store_write htake hv, hdrop, hdiv, hsum, List.take_add,
            writeBytes_append, htake, Nat.mul_add, Nat.mul_one]
      split
      · exact hround _ _ fun j hj => byteAt_ofBytes z.bits_eq _ hj
      · refine hround _ _ fun j hj => ?_
        rw [(byteAt_fillLast _ 0 val 0 hj).1, writeBytes_apply, if_pos (by omega), Nat.sub_zero]
    · rw [if_neg hle]
      refine ⟨s, ?_, ?_⟩
      · rw [Nat.div_eq_of_lt (by omega)]
        rfl
      · rw [Nat.div_eq_of_lt (by omega)]
        rfl

/-- A range that starts at a word. -/
theorem storeAligned_eq (misaligned : Bool) (val : BitVec z.bits) (buf : List Byte) (a : ℕ)
    (s : A.State) :
    bytesOf A (let r := storeWords A misaligned val buf a s
      if 0 < r.1.length then
        let l := fillLast z r.1 0 0 0
        A.store2 r.2.2 r.2.1 l.1 l.2
      else r.2.2) = writeBytes (bytesOf A s) (z.bytes * a) buf := by
  obtain ⟨s', hw, hs'⟩ := storeWords_eq misaligned val buf a s
  have hdiv : z.bytes * (buf.length / z.bytes) + buf.length % z.bytes = buf.length :=
    Nat.div_add_mod ..
  have hrest : (buf.drop (z.bytes * (buf.length / z.bytes))).length = buf.length % z.bytes := by
    rw [List.length_drop]
    omega
  have hlen : (buf.take (z.bytes * (buf.length / z.bytes))).length =
      z.bytes * (buf.length / z.bytes) := List.length_take_of_le (by omega)
  simp only [hw, hrest]
  by_cases hr : 0 < buf.length % z.bytes
  · have hlt := Nat.mod_lt buf.length z.bytes_pos
    rw [if_pos hr, bytesOf_store2_fill _ 0 _ _ (by omega), hs', Nat.mul_add, Nat.add_zero]
    conv_rhs => rw [← List.take_append_drop (z.bytes * (buf.length / z.bytes)) buf,
      writeBytes_append, hlen]
  · rw [if_neg hr, hs', List.take_of_length_le (by omega)]

theorem stmStoreBytes_eq (misaligned : Bool) (junk : BitVec z.bits) (s : A.State) (addr : ℕ)
    (buf : List Byte) :
    bytesOf A (stmStoreBytes A misaligned junk s addr buf) = writeBytes (bytesOf A s) addr buf := by
  have hsplit : z.bytes * (addr / z.bytes) + addr % z.bytes = addr := Nat.div_add_mod ..
  unfold stmStoreBytes
  by_cases hsz : buf.length = 0
  · rw [if_pos hsz, List.length_eq_zero_iff.mp hsz]
    rfl
  · rw [if_neg hsz]
    by_cases hi : addr % z.bytes = 0
    · simp only [hi, ne_eq, not_true_eq_false, if_false]
      rw [hi, Nat.add_zero] at hsplit
      rw [storeAligned_eq, hsplit]
    · simp only [ne_eq, hi, not_false_eq_true, if_true]
      set i := addr % z.bytes with hidef
      have hilt : i < z.bytes := Nat.mod_lt _ z.bytes_pos
      have hlen : (buf.take (z.bytes - i)).length = min (z.bytes - i) buf.length := List.length_take
      rw [storeAligned_eq, fillFirst_eq, bytesOf_store2_fill _ _ _ _ (by omega), hsplit]
      by_cases hshort : buf.length ≤ z.bytes - i
      · rw [List.take_of_length_le hshort, List.drop_of_length_le hshort]
        rfl
      · have hstart : z.bytes * (addr / z.bytes + 1) = addr + (z.bytes - i) := by
          rw [Nat.mul_add, Nat.mul_one]
          omega
        conv_rhs => rw [← List.take_append_drop (z.bytes - i) buf, writeBytes_append, hlen,
          Nat.min_eq_left (by omega)]
        rw [hstart]

end TinyStm.Wrap
