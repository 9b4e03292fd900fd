import TinyStm.Build

/-!
# Write sets

The stores of an attempt in program order, what they do to a word, and the
write-set arrays the three designs build from them: one merged entry per
address in the commit-time design (`stm.c:2429-2441`), entries linked per lock
in the encounter-time write-back design (`stm.c:2205-2258`).
-/

namespace TinyStm

variable {w : ℕ}

/-- One call of `stm_store2`; `stm_store` has the full mask. -/
structure Store (w : ℕ) where
  addr : ℕ
  value : BitVec w
  mask : BitVec w
  deriving DecidableEq, Repr

/-- The bits of `v` selected by `m`, the other bits of `x`. -/
def mergeBits (x v m : BitVec w) : BitVec w := (x &&& ~~~m) ||| (v &&& m)

/-- What a sequence of stores makes of the word `y` at address `a`. -/
def overlay : List (Store w) → ℕ → BitVec w → BitVec w
  | [], _, y => y
  | s :: ss, a, y => overlay ss a (if s.addr = a then mergeBits y s.value s.mask else y)

@[simp] theorem mergeBits_zero (x v : BitVec w) : mergeBits x v 0 = x := by
  simp [mergeBits]

@[simp] theorem mergeBits_allOnes (x v : BitVec w) :
    mergeBits x v (BitVec.allOnes w) = v := by
  simp [mergeBits]

@[simp] theorem mergeBits_self (v m : BitVec w) : mergeBits v v m = v := by
  apply BitVec.eq_of_getLsbD_eq
  intro i hi
  simp only [mergeBits, BitVec.getLsbD_or, BitVec.getLsbD_and, BitVec.getLsbD_not, hi,
    decide_true, Bool.true_and]
  cases v.getLsbD i <;> cases m.getLsbD i <;> rfl

/-- Two masked stores to one word are one masked store. -/
theorem mergeBits_mergeBits (x u m v n : BitVec w) :
    mergeBits (mergeBits x u m) v n = mergeBits x (mergeBits u v n) (m ||| n) := by
  apply BitVec.eq_of_getLsbD_eq
  intro i hi
  simp only [mergeBits, BitVec.getLsbD_or, BitVec.getLsbD_and, BitVec.getLsbD_not, hi,
    decide_true, Bool.true_and]
  cases x.getLsbD i <;> cases u.getLsbD i <;> cases m.getLsbD i <;> cases v.getLsbD i <;>
    cases n.getLsbD i <;> rfl

/-- A masked store leaves the bits outside its mask alone. -/
theorem mergeBits_getLsbD (x v m : BitVec w) (i : ℕ) (h : m.getLsbD i = false) :
    (mergeBits x v m).getLsbD i = x.getLsbD i := by
  by_cases hi : i < w
  · simp only [mergeBits, BitVec.getLsbD_or, BitVec.getLsbD_and, BitVec.getLsbD_not, h, hi,
      decide_true, Bool.not_false, Bool.and_true, Bool.and_false, Bool.or_false]
  · simp only [mergeBits, BitVec.getLsbD_or, BitVec.getLsbD_and, BitVec.getLsbD_not, h, hi,
      decide_false, Bool.false_and, Bool.and_false, Bool.or_false]
    exact (BitVec.getLsbD_of_ge x i (Nat.le_of_not_lt hi)).symm

theorem overlay_append (ss ts : List (Store w)) (a : ℕ) (y : BitVec w) :
    overlay (ss ++ ts) a y = overlay ts a (overlay ss a y) := by
  induction ss generalizing y with
  | nil => rfl
  | cons s ss ih => exact ih _

theorem overlay_snoc_self (ss : List (Store w)) (a : ℕ) (v m y : BitVec w) :
    overlay (ss ++ [⟨a, v, m⟩]) a y = mergeBits (overlay ss a y) v m := by
  rw [overlay_append]
  simp [overlay]

theorem overlay_snoc_of_ne (ss : List (Store w)) {a c : ℕ} (v m y : BitVec w) (h : c ≠ a) :
    overlay (ss ++ [⟨c, v, m⟩]) a y = overlay ss a y := by
  rw [overlay_append]
  simp [overlay, h]

/-- Stores with an empty mask have no effect. -/
theorem overlay_eq_self {ss : List (Store w)} {a : ℕ} (h : ∀ s ∈ ss, s.addr = a → s.mask = 0)
    (y : BitVec w) : overlay ss a y = y := by
  induction ss generalizing y with
  | nil => rfl
  | cons s ss ih =>
    have hs : (if s.addr = a then mergeBits y s.value s.mask else y) = y := by
      by_cases ha : s.addr = a
      · rw [if_pos ha, h s (List.mem_cons_self ..) ha, mergeBits_zero]
      · rw [if_neg ha]
    rw [overlay, hs]
    exact ih (fun s' hs' => h s' (List.mem_cons_of_mem _ hs')) y

theorem overlay_of_forall_ne {ss : List (Store w)} {a : ℕ} (h : ∀ s ∈ ss, s.addr ≠ a)
    (y : BitVec w) : overlay ss a y = y :=
  overlay_eq_self (fun s hs ha => absurd ha (h s hs)) y

/-- The bits of address `a` that a sequence of stores has written. -/
def writtenMask : List (Store w) → ℕ → BitVec w
  | [], _ => 0
  | s :: ss, a => (if s.addr = a then s.mask else 0) ||| writtenMask ss a

theorem writtenMask_append (ss ts : List (Store w)) (a : ℕ) :
    writtenMask (ss ++ ts) a = writtenMask ss a ||| writtenMask ts a := by
  induction ss with
  | nil => simp [writtenMask]
  | cons s ss ih => simp only [List.cons_append, writtenMask, ih, BitVec.or_assoc]

/-- Outside the written bits the overlay is the word below it. -/
theorem overlay_getLsbD (ss : List (Store w)) (a : ℕ) (y : BitVec w) (i : ℕ)
    (h : (writtenMask ss a).getLsbD i = false) :
    (overlay ss a y).getLsbD i = y.getLsbD i := by
  induction ss generalizing y with
  | nil => rfl
  | cons s ss ih =>
    simp only [writtenMask, BitVec.getLsbD_or, Bool.or_eq_false_iff] at h
    rw [overlay, ih _ h.2]
    by_cases ha : s.addr = a
    · rw [if_pos ha] at h ⊢
      exact mergeBits_getLsbD _ _ _ i h.1
    · rw [if_neg ha]

theorem mergeBits_getLsbD_written (x x' v m : BitVec w) (i : ℕ) (h : m.getLsbD i = true) :
    (mergeBits x v m).getLsbD i = (mergeBits x' v m).getLsbD i := by
  simp [mergeBits, h]

/-- A bit that differs below the stores and is written by one of them is the same
above them. -/
theorem overlay_getLsbD_written (ss : List (Store w)) (a : ℕ) (y y' : BitVec w) (i : ℕ)
    (h : y.getLsbD i = y'.getLsbD i ∨ (writtenMask ss a).getLsbD i = true) :
    (overlay ss a y).getLsbD i = (overlay ss a y').getLsbD i := by
  induction ss generalizing y y' with
  | nil =>
    rcases h with h | h
    · exact h
    · simp [writtenMask] at h
  | cons s ss ih =>
    rw [overlay, overlay]
    apply ih
    by_cases ha : s.addr = a
    · simp only [if_pos ha]
      cases hm : s.mask.getLsbD i with
      | true => exact .inl (mergeBits_getLsbD_written y y' s.value s.mask i hm)
      | false =>
        rw [mergeBits_getLsbD _ _ _ i hm, mergeBits_getLsbD _ _ _ i hm]
        simpa [writtenMask, ha, hm] using h
    · simpa [writtenMask, ha] using h

/-- A word that is written completely does not depend on what was there. -/
theorem overlay_eq_of_written {ss : List (Store w)} {a : ℕ}
    (h : writtenMask ss a = BitVec.allOnes w) (y y' : BitVec w) :
    overlay ss a y = overlay ss a y' := by
  apply BitVec.eq_of_getLsbD_eq
  intro i hi
  exact overlay_getLsbD_written ss a y y' i (.inr (by rw [h]; simp [hi]))

/-! ### Write-set entries (`stm.h:390-409`) -/

/-- One entry of the write-set array. `noDrop` belongs to the commit-time and
write-through designs, `next` (an index into the same array) to the
encounter-time write-back design. The field `lock` is `GET_LOCK(addr)` and is
recomputed from the address. -/
structure WEntry (w : ℕ) where
  addr : ℕ
  value : BitVec w
  mask : BitVec w
  version : Ver
  noDrop : Bool
  next : Option ℕ
  deriving DecidableEq, Repr

/-- The part of an entry that says which lock it belongs to and how it is linked. -/
def WEntry.shape (e : WEntry w) : ℕ × Ver × Bool × Option ℕ :=
  (e.addr, e.version, e.noDrop, e.next)

/-- `stm_has_written` (`stm.c:717-746`): the index of the entry of `addr`. -/
def stmHasWritten (ws : List (WEntry w)) (a : ℕ) : Option ℕ :=
  ws.findIdx? fun e => e.addr == a

theorem stmHasWritten_some {ws : List (WEntry w)} {a i : ℕ} (h : stmHasWritten ws a = some i) :
    ∃ e, ws[i]? = some e ∧ e.addr = a := by
  rw [stmHasWritten, List.findIdx?_eq_some_iff_getElem] at h
  obtain ⟨hi, he, -⟩ := h
  exact ⟨ws[i], List.getElem?_eq_getElem hi, by simpa using he⟩

theorem stmHasWritten_none {ws : List (WEntry w)} {a : ℕ} (h : stmHasWritten ws a = none)
    {e : WEntry w} (he : e ∈ ws) : e.addr ≠ a := by
  rw [stmHasWritten, List.findIdx?_eq_none_iff] at h
  simpa using h e he

/-! ### The chain of entries of one lock (`stm.c:1700-1723`, `stm.c:2228-2248`) -/

/-- Where the walk along the `next` links ends. -/
inductive Walk where
  | found (i : ℕ)
  | last (i : ℕ)
  deriving DecidableEq, Repr

/-- The `while (1)` loop over a chain, from entry `i`. The links lead upwards, so
the length of the array bounds the number of rounds. -/
def chainWalk (ws : List (WEntry w)) (a : ℕ) : ℕ → ℕ → Walk
  | 0, i => .last i
  | fuel + 1, i =>
    match ws[i]? with
    | none => .last i
    | some e =>
      if e.addr = a then .found i
      else match e.next with
        | none => .last i
        | some j => chainWalk ws a fuel j

/-- The links of a write set: each entry points to the next one of the same lock
`lk`, and the last one to nothing. -/
structure Chained (lk : ℕ → ℕ) (ws : List (WEntry w)) : Prop where
  last : ∀ {i : ℕ} {e : WEntry w}, ws[i]? = some e → e.next = none →
    ∀ {j : ℕ} {e' : WEntry w}, ws[j]? = some e' → lk e'.addr = lk e.addr → j ≤ i
  link : ∀ {i : ℕ} {e : WEntry w} {j : ℕ}, ws[i]? = some e → e.next = some j →
    i < j ∧ (∃ e', ws[j]? = some e' ∧ lk e'.addr = lk e.addr) ∧
      ∀ {n : ℕ} {e' : WEntry w}, i < n → ws[n]? = some e' → lk e'.addr = lk e.addr → j ≤ n

theorem getElem?_lt {ws : List (WEntry w)} {i : ℕ} {e : WEntry w} (h : ws[i]? = some e) :
    i < ws.length := (List.getElem?_eq_some_iff.mp h).1

/-- The walk from entry `i` finds the entry of `a` if there is one from `i` on,
and otherwise ends at the last entry of the lock. -/
theorem chainWalk_spec {lk : ℕ → ℕ} {ws : List (WEntry w)} (hc : Chained lk ws) (a : ℕ)
    (fuel : ℕ) {i : ℕ} {e : WEntry w} (hi : ws[i]? = some e) (hf : ws.length ≤ i + fuel) :
    match chainWalk ws a fuel i with
    | .found j => ∃ e', ws[j]? = some e' ∧ e'.addr = a ∧ lk e'.addr = lk e.addr
    | .last j => ∃ e', ws[j]? = some e' ∧ e'.next = none ∧ lk e'.addr = lk e.addr ∧
        ∀ n e'', i ≤ n → ws[n]? = some e'' → lk e''.addr = lk e.addr → e''.addr ≠ a := by
  induction fuel generalizing i e with
  | zero =>
    have := getElem?_lt hi
    omega
  | succ fuel ih =>
    by_cases ha : e.addr = a
    · have hw : chainWalk ws a (fuel + 1) i = .found i := by
        simp only [chainWalk, hi, if_pos ha]
      rw [hw]
      exact ⟨e, hi, ha, rfl⟩
    · cases hn : e.next with
      | none =>
        have hw : chainWalk ws a (fuel + 1) i = .last i := by
          simp only [chainWalk, hi, if_neg ha, hn]
        rw [hw]
        refine ⟨e, hi, hn, rfl, fun n e'' hin hne hlk => ?_⟩
        have hni : n = i := Nat.le_antisymm (hc.last hi hn hne hlk) hin
        subst hni
        rw [hi] at hne
        cases hne
        exact ha
      | some j =>
        obtain ⟨hij, ⟨e', hj, hlk⟩, hmin⟩ := hc.link hi hn
        have hrec := ih hj (by omega)
        have hstep : chainWalk ws a (fuel + 1) i = chainWalk ws a fuel j := by
          simp only [chainWalk, hi, if_neg ha, hn]
        rw [hstep]
        cases hw : chainWalk ws a fuel j with
        | found r =>
          rw [hw] at hrec
          obtain ⟨e'', h₁, h₂, h₃⟩ := hrec
          exact ⟨e'', h₁, h₂, h₃.trans hlk⟩
        | last r =>
          rw [hw] at hrec
          obtain ⟨e'', h₁, h₂, h₃, h₄⟩ := hrec
          refine ⟨e'', h₁, h₂, h₃.trans hlk, fun n f hin hnf hlkf => ?_⟩
          rcases Nat.eq_or_lt_of_le hin with heq | hlt
          · subst heq
            rw [hi] at hnf
            cases hnf
            exact ha
          · exact h₄ n f (hmin hlt hnf hlkf) hnf (hlkf.trans hlk.symm)

/-- Two arrays with the same addresses, versions, flags and links. -/
def SameShape (ws ws' : List (WEntry w)) : Prop := ws'.map WEntry.shape = ws.map WEntry.shape

section SameShape

variable {ws ws' : List (WEntry w)}

theorem SameShape.symm (h : SameShape ws ws') : SameShape ws' ws := Eq.symm h

theorem SameShape.length_eq (h : SameShape ws ws') : ws'.length = ws.length := by
  have := congrArg List.length h
  simpa using this

theorem SameShape.get (h : SameShape ws ws') {j : ℕ} {e' : WEntry w} (he' : ws'[j]? = some e') :
    ∃ e, ws[j]? = some e ∧ e.addr = e'.addr ∧ e.version = e'.version ∧ e.noDrop = e'.noDrop ∧
      e.next = e'.next := by
  have hj : (ws'.map WEntry.shape)[j]? = some e'.shape := by simp [he']
  rw [h, List.getElem?_map, Option.map_eq_some_iff] at hj
  obtain ⟨e, he, hs⟩ := hj
  simp only [WEntry.shape, Prod.mk.injEq] at hs
  exact ⟨e, he, hs.1, hs.2.1, hs.2.2.1, hs.2.2.2⟩

theorem sameShape_modify (i : ℕ) {f : WEntry w → WEntry w} (hf : ∀ e, (f e).shape = e.shape) :
    SameShape ws (ws.modify i f) := by
  refine List.ext_getElem? fun j => ?_
  by_cases hj : i = j
  · subst hj
    simp [Function.comp_def, hf]
  · simp [hj]

theorem Chained.reshape {lk : ℕ → ℕ} (hc : Chained lk ws) (h : SameShape ws ws') :
    Chained lk ws' where
  last hi hn _ _ hj hlk := by
    obtain ⟨e, he, ha, -, -, hnext⟩ := h.get hi
    obtain ⟨e₁, he₁, ha₁, -⟩ := h.get hj
    exact hc.last he (hnext.trans hn) he₁ (by rw [ha, ha₁]; exact hlk)
  link hi hn := by
    obtain ⟨e, he, ha, -, -, hnext⟩ := h.get hi
    obtain ⟨hlt, ⟨e', hj, hlk⟩, hmin⟩ := hc.link he (hnext.trans hn)
    obtain ⟨e₁, he₁, ha₁, -⟩ := h.symm.get hj
    refine ⟨hlt, ⟨e₁, he₁, by rw [ha₁, hlk, ha]⟩, fun hin hne hlk' => ?_⟩
    obtain ⟨e₂, he₂, ha₂, -⟩ := h.get hne
    exact hmin hin he₂ (by rw [ha₂, ha]; exact hlk')

end SameShape

/-- Append an entry and link it behind entry `prev` (`stm.c:2425-2428`). -/
def linkEntry (ws : List (WEntry w)) (prev : ℕ) (e : WEntry w) : List (WEntry w) :=
  (ws.modify prev fun p => { p with next := some ws.length }) ++ [e]

/-- The entries of an array with one more entry. -/
theorem getElem?_snoc {ws : List (WEntry w)} {e f : WEntry w} {j : ℕ} :
    (ws ++ [e])[j]? = some f ↔ ws[j]? = some f ∨ (j = ws.length ∧ f = e) := by
  rcases Nat.lt_trichotomy j ws.length with hj | hj | hj
  · rw [List.getElem?_append_left hj]
    have : j ≠ ws.length := by omega
    simp [this]
  · subst hj
    simp [eq_comm]
  · have h₁ : ws[j]? = none := List.getElem?_eq_none (by omega)
    have h₂ : (ws ++ [e])[j]? = none := List.getElem?_eq_none (by simp; omega)
    simp [h₁, h₂, Nat.ne_of_gt hj]

/-- A first entry for a lock. -/
theorem Chained.snoc {lk : ℕ → ℕ} {ws : List (WEntry w)} (hc : Chained lk ws) {e : WEntry w}
    (hn : e.next = none) (hnew : ∀ f ∈ ws, lk f.addr ≠ lk e.addr) : Chained lk (ws ++ [e]) where
  last hi hni _ _ hj hlk := by
    rcases getElem?_snoc.mp hi with hi' | ⟨rfl, rfl⟩ <;>
      rcases getElem?_snoc.mp hj with hj' | ⟨rfl, rfl⟩
    · exact hc.last hi' hni hj' hlk
    · exact absurd hlk.symm (hnew _ (List.mem_of_getElem? hi'))
    · exact (getElem?_lt hj').le
    · exact le_rfl
  link hi hni := by
    rcases getElem?_snoc.mp hi with hi' | ⟨rfl, rfl⟩
    · obtain ⟨hlt, ⟨e', hj, hlk⟩, hmin⟩ := hc.link hi' hni
      refine ⟨hlt, ⟨e', getElem?_snoc.mpr (.inl hj), hlk⟩, fun hin hne hlk' => ?_⟩
      rcases getElem?_snoc.mp hne with hne' | ⟨rfl, rfl⟩
      · exact hmin hin hne' hlk'
      · exact absurd hlk'.symm (hnew _ (List.mem_of_getElem? hi'))
    · rw [hn] at hni
      cases hni

/-- The entries of an array after `linkEntry`. -/
theorem getElem?_linkEntry {ws : List (WEntry w)} {prev : ℕ} {e f : WEntry w} {j : ℕ} :
    (linkEntry ws prev e)[j]? = some f ↔
      (∃ p, ws[j]? = some p ∧ f = if j = prev then { p with next := some ws.length } else p) ∨
      (j = ws.length ∧ f = e) := by
  rw [linkEntry, getElem?_snoc, List.length_modify]
  refine or_congr_left ?_
  by_cases hj : prev = j
  · subst hj
    simp [eq_comm]
  · have hj' : j ≠ prev := fun h => hj h.symm
    simp [hj, hj']

theorem length_linkEntry (ws : List (WEntry w)) (prev : ℕ) (e : WEntry w) :
    (linkEntry ws prev e).length = ws.length + 1 := by simp [linkEntry]

/-- A further entry for a lock, linked behind its last entry. -/
theorem Chained.linkEntry {lk : ℕ → ℕ} {ws : List (WEntry w)} (hc : Chained lk ws) {prev : ℕ}
    {p e : WEntry w} (hp : ws[prev]? = some p) (hpn : p.next = none) (hn : e.next = none)
    (hlk : lk e.addr = lk p.addr) : Chained lk (linkEntry ws prev e) where
  last {i f} hi hni j f' hj hlk' := by
    have hjlt := getElem?_lt hj
    rw [length_linkEntry] at hjlt
    rcases getElem?_linkEntry.mp hi with ⟨q, hq, rfl⟩ | ⟨rfl, rfl⟩
    · by_cases hip : i = prev
      · simp [hip] at hni
      · rw [if_neg hip] at hni hlk'
        rcases getElem?_linkEntry.mp hj with ⟨q', hq', rfl⟩ | ⟨rfl, rfl⟩
        · refine hc.last hq hni hq' ?_
          split at hlk' <;> exact hlk'
        · -- the new entry belongs to the lock of `prev`, whose last entry was `prev`
          have h₁ := hc.last hq hni hp (by rw [← hlk]; exact hlk')
          have h₂ := hc.last hp hpn hq (by rw [← hlk']; exact hlk)
          exact absurd (Nat.le_antisymm h₂ h₁) hip
    · omega
  link {i f n} hi hni := by
    rcases getElem?_linkEntry.mp hi with ⟨q, hq, rfl⟩ | ⟨rfl, rfl⟩
    · by_cases hip : i = prev
      · subst hip
        rw [hp] at hq
        cases hq
        simp only [if_true, Option.some.injEq] at hni ⊢
        subst hni
        refine ⟨getElem?_lt hp, ⟨e, getElem?_linkEntry.mpr (.inr ⟨rfl, rfl⟩), hlk⟩,
          fun {m f'} him hf hlk' => ?_⟩
        rcases getElem?_linkEntry.mp hf with ⟨q', hq', rfl⟩ | ⟨rfl, rfl⟩
        · rw [if_neg (by omega)] at hlk'
          have := hc.last hp hpn hq' hlk'
          omega
        · exact le_rfl
      · rw [if_neg hip] at hni ⊢
        obtain ⟨hlt, ⟨q', hq', hlkq⟩, hmin⟩ := hc.link hq hni
        refine ⟨hlt, ⟨_, getElem?_linkEntry.mpr (.inl ⟨q', hq', rfl⟩), ?_⟩,
          fun {m f'} him hf hlk' => ?_⟩
        · split <;> exact hlkq
        · rcases getElem?_linkEntry.mp hf with ⟨q'', hq'', rfl⟩ | ⟨rfl, rfl⟩
          · refine hmin him hq'' ?_
            split at hlk' <;> exact hlk'
          · exact (getElem?_lt hq').le
    · rw [hn] at hni
      cases hni

end TinyStm
