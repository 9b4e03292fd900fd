import TinyStm.Lib.History
import TinyStm.Nbb.Word

/-!
# The atomic steps of `nbb_list_insert` and `nbb_list_remove` (core/nbblist.c)

One step is one atomic load or compare-and-swap with the local computation up to
the next one. `head` and `tail` are `unsigned long`, so an index is a number
below 2^64 that wraps when it is incremented.
-/

namespace TinyStm.Nbb

structure Ring where
  entries : ℕ → BitVec 64
  head : ℕ
  tail : ℕ

/-- `nbb_list_create`, on memory that `malloc` returned zeroed. -/
def nbbListCreate : Ring := ⟨fun _ => 0#64, 0, 0⟩

def wrap (n : ℕ) : ℕ := n % 2 ^ 64

/-- The places of `nbb_list_insert` between its atomic operations. -/
inductive Insert where
  | start (val : BitVec 64)
  | scan (val : BitVec 64) (mytail mytailbase : ℕ)
  | cas (val : BitVec 64) (mytail mytailbase : ℕ)
  | publish (mytail mytailbase : ℕ)
  | reload (mytail : ℕ)
  | full
  | done
  deriving DecidableEq

/-- The places of `nbb_list_remove`. -/
inductive Remove where
  | start
  | scan (myhead myheadbase : ℕ)
  | cas (headmask : BitVec 64) (myhead myheadbase : ℕ)
  | publish (val : BitVec 64) (myhead myheadbase : ℕ)
  | reload (val : BitVec 64) (myhead : ℕ)
  | empty
  | done (val : BitVec 64)
  deriving DecidableEq

variable (s : Shape)

def Ring.entry (g : Ring) (i : ℕ) : BitVec 64 := g.entries (i % s.length)

def Ring.setEntry (g : Ring) (i : ℕ) (w : BitVec 64) : Ring :=
  { g with entries := Function.update g.entries (i % s.length) w }

/-- `ver` as the code computes it for the round of index `i`, plus `k`. -/
def round (i k : ℕ) : BitVec 64 := BitVec.ofNat 64 (i / s.length + k)

def Insert.step (g : Ring) : Insert → Ring × Insert
  | .start val => (g, .scan val g.tail g.tail)
  | .scan val mytail mytailbase =>
    let tailmask := g.entry s mytail
    if nbbListVal s tailmask ≠ 0#64 ∨ nbbListVer s tailmask ≠ round s mytail 0 then
      if nbbListVal s tailmask ≠ 0#64 ∧ nbbListVer s tailmask = round s mytail 0 then
        (g, .full)
      else (g, .scan val (wrap (mytail + 1)) mytailbase)
    else (g, .cas val mytail mytailbase)
  | .cas val mytail mytailbase =>
    let oldmask := nbbListMask s (round s mytail 0) 0#64
    let newmask := nbbListMask s (round s mytail 1) val
    if g.entry s mytail = oldmask then
      (g.setEntry s mytail newmask, .publish mytail mytailbase)
    else (g, .start val)
  | .publish mytail mytailbase =>
    if mytailbase < wrap (mytail + 1) then
      if g.tail = mytailbase then ({ g with tail := wrap (mytail + 1) }, .done)
      else (g, .reload mytail)
    else (g, .done)
  | .reload mytail => (g, .publish mytail g.tail)
  | .full => (g, .full)
  | .done => (g, .done)

def Remove.step (g : Ring) : Remove → Ring × Remove
  | .start => (g, .scan g.head g.head)
  | .scan myhead myheadbase =>
    let headmask := g.entry s myhead
    if nbbListVal s headmask = 0#64 ∨ nbbListVer s headmask ≠ round s myhead 1 then
      if nbbListVal s headmask = 0#64 ∧ nbbListVer s headmask = round s myhead 0 then
        (g, .empty)
      else (g, .scan (wrap (myhead + 1)) myheadbase)
    else (g, .cas headmask myhead myheadbase)
  | .cas headmask myhead myheadbase =>
    let oldmask := nbbListMask s (round s myhead 1) (nbbListVal s headmask)
    let newmask := nbbListMask s (round s myhead 1) 0#64
    if g.entry s myhead = oldmask then
      (g.setEntry s myhead newmask, .publish (nbbListVal s oldmask) myhead myheadbase)
    else (g, .start)
  | .publish val myhead myheadbase =>
    if myheadbase < wrap (myhead + 1) then
      if g.head = myheadbase then ({ g with head := wrap (myhead + 1) }, .done val)
      else (g, .reload val myhead)
    else (g, .done val)
  | .reload val myhead => (g, .publish val myhead g.head)
  | .empty => (g, .empty)
  | .done val => (g, .done val)

/-! ### The queue the entries stand for -/

/-- The word at index `i` while the queue `q` starts at index `h`: the indices
from `h` on hold the queue in their round plus one, the others of the window
are free in their round. -/
def cell (h : ℕ) (q : List (BitVec 64)) (i : ℕ) : BitVec 64 :=
  match q[i - h]? with
  | some v => nbbListMask s (round s i 1) v
  | none => nbbListMask s (round s i 0) 0#64

/-- The ring holds `q` from index `h` on. The published `head` and `tail` may lag
behind. -/
structure Holds (g : Ring) (h : ℕ) (q : List (BitVec 64)) : Prop where
  cells : ∀ i, h ≤ i → i < h + s.length → g.entry s i = cell s h q i
  cap : q.length ≤ s.length
  vals : ∀ v ∈ q, v ≠ 0#64 ∧ v.toNat < 2 ^ s.valNbits
  vers : h + q.length ≤ (2 ^ s.verNbits - 1) * s.length
  fits : h + q.length ≤ 2 ^ 64
  head_le : g.head ≤ h
  tail_le : g.tail ≤ h + q.length
  tail_lt : g.tail < 2 ^ 64

variable {s : Shape} {g : Ring} {h : ℕ} {q : List (BitVec 64)}

theorem Shape.two_pow_verNbits_le (s : Shape) : 2 ^ s.verNbits ≤ 2 ^ 64 :=
  Nat.pow_le_pow_right (by decide) s.verNbits_lt.le

theorem toNat_round {i k : ℕ} (hi : i / s.length + k < 2 ^ s.verNbits) :
    (round s i k).toNat = i / s.length + k :=
  Nat.mod_eq_of_lt (lt_of_lt_of_le hi s.two_pow_verNbits_le)

theorem entry_congr {i j : ℕ} (hij : i % s.length = j % s.length) :
    g.entry s i = g.entry s j := by
  unfold Ring.entry
  rw [hij]

namespace Holds

/-- Versions of the window fit their field. -/
theorem round_lt (hH : Holds s g h q) {i : ℕ} (hi : i < h + q.length + s.length) :
    i / s.length < 2 ^ s.verNbits := by
  rw [Nat.div_lt_iff_lt_mul s.length_pos]
  have hv := hH.vers
  have hpos : 0 < 2 ^ s.verNbits := Nat.two_pow_pos _
  rw [Nat.sub_mul, Nat.one_mul] at hv
  have hL : s.length ≤ 2 ^ s.verNbits * s.length := Nat.le_mul_of_pos_left _ hpos
  omega

theorem succ_round_lt (hH : Holds s g h q) {i : ℕ} (hi : i < h + q.length) :
    i / s.length + 1 < 2 ^ s.verNbits := by
  have hv := hH.vers
  have : i / s.length < 2 ^ s.verNbits - 1 := by
    rw [Nat.div_lt_iff_lt_mul s.length_pos]
    omega
  exact Nat.add_lt_of_lt_sub this

theorem cell_of_lt {i : ℕ} (hi : h ≤ i) (hT : i < h + q.length) :
    ∃ v, q[i - h]? = some v ∧ v ∈ q ∧ cell s h q i = nbbListMask s (round s i 1) v := by
  have hlt : i - h < q.length := by omega
  refine ⟨q[i - h], List.getElem?_eq_getElem hlt, List.getElem_mem hlt, ?_⟩
  unfold cell
  rw [List.getElem?_eq_getElem hlt]

theorem cell_of_le {i : ℕ} (hT : h + q.length ≤ i) :
    cell s h q i = nbbListMask s (round s i 0) 0#64 := by
  have hle : q.length ≤ i - h := by omega
  unfold cell
  rw [List.getElem?_eq_none hle]

/-- What a load at a queued index sees. -/
theorem load_queued (hH : Holds s g h q) {i : ℕ} (hi : h ≤ i) (hT : i < h + q.length) :
    q[i - h]? = some (nbbListVal s (g.entry s i)) ∧ nbbListVal s (g.entry s i) ≠ 0#64 ∧
      (nbbListVer s (g.entry s i)).toNat = i / s.length + 1 := by
  obtain ⟨v, hv, hmem, hcell⟩ := cell_of_lt (s := s) hi hT
  obtain ⟨hv0, hvlt⟩ := hH.vals v hmem
  have hr := hH.succ_round_lt hT
  have hcap := hH.cap
  have hrn := toNat_round hr
  rw [hH.cells i hi (by omega), hcell,
    nbbListVal_mask s hvlt, nbbListVer_mask s (by rw [hrn]; exact hr) hvlt]
  exact ⟨hv, hv0, hrn⟩

/-- What a load at a free index of the window sees. -/
theorem load_free (hH : Holds s g h q) {i : ℕ} (hT : h + q.length ≤ i) (hi : i < h + s.length) :
    nbbListVal s (g.entry s i) = 0#64 ∧ (nbbListVer s (g.entry s i)).toNat = i / s.length := by
  have hr : i / s.length + 0 < 2 ^ s.verNbits := hH.round_lt (by omega)
  have hrn := toNat_round hr
  have h0 : (0#64).toNat < 2 ^ s.valNbits := Nat.two_pow_pos _
  rw [hH.cells i (by omega) hi, cell_of_le hT,
    nbbListVal_mask s h0, nbbListVer_mask s (by rw [hrn]; exact hr) h0]
  exact ⟨rfl, hrn⟩

end Holds

/-- Every index has a counterpart in the window of one round. -/
theorem exists_window (s : Shape) (h x : ℕ) :
    ∃ i, h ≤ i ∧ i < h + s.length ∧ i % s.length = x % s.length := by
  have hL := s.length_pos
  refine ⟨h + (x + (s.length - h % s.length)) % s.length, by omega, ?_, ?_⟩
  · have := Nat.mod_lt (x + (s.length - h % s.length)) hL
    omega
  · rw [Nat.add_mod_mod]
    have hh : h % s.length < s.length := Nat.mod_lt _ hL
    have hsplit : h = s.length * (h / s.length) + h % s.length := (Nat.div_add_mod _ _).symm
    have : h + (x + (s.length - h % s.length)) = x + s.length * (h / s.length + 1) := by
      rw [Nat.mul_add, Nat.mul_one]
      omega
    rw [this, Nat.add_mul_mod_self_left]

theorem eq_add_of_mod {L i x k : ℕ} (hmod : i % L = x % L) (hdiv : i / L = x / L + k) :
    i = x + L * k := by
  have hi := Nat.div_add_mod i L
  have hx := Nat.div_add_mod x L
  rw [hdiv, Nat.mul_add, hmod] at hi
  omega

namespace Holds

variable {x : ℕ}

theorem ver_eq (hH : Holds s g h q) (hx : x ≤ h + q.length) {k : ℕ} (hk : k ≤ 1) {w : BitVec 64}
    (hver : nbbListVer s w = round s x k) : (nbbListVer s w).toNat = x / s.length + k := by
  have hL := s.length_pos
  have hr := hH.round_lt (i := x) (by omega)
  have hpow : 2 ^ s.verNbits < 2 ^ 64 := Nat.pow_lt_pow_right (by decide) s.verNbits_lt
  have hlt : x / s.length + k < 2 ^ 64 := by omega
  rw [hver]
  exact Nat.mod_eq_of_lt hlt

theorem ver_of_toNat {w : BitVec 64} {k : ℕ} (hver : (nbbListVer s w).toNat = x / s.length + k) :
    nbbListVer s w = round s x k := by
  have hlt : x / s.length + k < 2 ^ 64 := by
    rw [← hver]
    exact (nbbListVer s w).isLt
  apply BitVec.eq_of_toNat_eq
  rw [hver]
  exact (Nat.mod_eq_of_lt hlt).symm

/-- The word at any index, read through its counterpart in the window. -/
theorem load (hH : Holds s g h q) (x : ℕ) :
    ∃ i, h ≤ i ∧ i < h + s.length ∧ i % s.length = x % s.length ∧
      (i < h + q.length ∧ q[i - h]? = some (nbbListVal s (g.entry s x)) ∧
          nbbListVal s (g.entry s x) ≠ 0#64 ∧
          (nbbListVer s (g.entry s x)).toNat = i / s.length + 1 ∨
        h + q.length ≤ i ∧ nbbListVal s (g.entry s x) = 0#64 ∧
          (nbbListVer s (g.entry s x)).toNat = i / s.length) := by
  obtain ⟨i, hi, hiL, hmod⟩ := exists_window s h x
  refine ⟨i, hi, hiL, hmod, ?_⟩
  rw [← entry_congr hmod]
  by_cases hT : i < h + q.length
  · exact .inl ⟨hT, hH.load_queued hi hT⟩
  · exact .inr ⟨by omega, hH.load_free (by omega) hiL⟩

theorem insert_full (hH : Holds s g h q) (hx : x ≤ h + q.length)
    (hval : nbbListVal s (g.entry s x) ≠ 0#64)
    (hver : nbbListVer s (g.entry s x) = round s x 0) : q.length = s.length := by
  have hv := hH.ver_eq hx (by omega) hver
  have hcap := hH.cap
  obtain ⟨i, hi, hiL, hmod, ⟨_, _, _, hw⟩ | ⟨_, hw, _⟩⟩ := hH.load x
  · have : x = i + s.length * 1 := eq_add_of_mod hmod.symm (by omega)
    omega
  · exact absurd hw hval

theorem insert_free (hH : Holds s g h q) (hx : x ≤ h + q.length)
    (hval : nbbListVal s (g.entry s x) = 0#64)
    (hver : nbbListVer s (g.entry s x) = round s x 0) :
    x = h + q.length ∧ q.length < s.length := by
  have hv := hH.ver_eq hx (by omega) hver
  obtain ⟨i, hi, hiL, hmod, ⟨_, _, hw, _⟩ | ⟨hT, _, hw⟩⟩ := hH.load x
  · exact absurd hval hw
  · have : i = x + s.length * 0 := eq_add_of_mod hmod (by omega)
    omega

theorem insert_next (hH : Holds s g h q) (hx : x ≤ h + q.length)
    (hver : nbbListVer s (g.entry s x) ≠ round s x 0) : x < h + q.length := by
  have hcap := hH.cap
  have hL := s.length_pos
  rcases Nat.lt_or_ge x (h + q.length) with hlt | hge
  · exact hlt
  have hxT : x = h + q.length := by omega
  exfalso
  by_cases hfull : q.length < s.length
  · have hload := (hH.load_free (i := x) (by omega) (by omega)).2
    exact hver (ver_of_toNat hload)
  · have hxh : x = h + s.length := by omega
    have hmod : h % s.length = x % s.length := by
      rw [hxh, Nat.add_mod_right]
    have hload := (hH.load_queued (i := h) le_rfl (by omega)).2.2
    rw [entry_congr hmod] at hload
    refine hver (ver_of_toNat (k := 0) ?_)
    rw [hload, hxh, Nat.add_div_right _ hL]

theorem remove_empty (hH : Holds s g h q) (hx : x ≤ h)
    (hval : nbbListVal s (g.entry s x) = 0#64)
    (hver : nbbListVer s (g.entry s x) = round s x 0) : q = [] := by
  have hv := hH.ver_eq (by omega) (by omega) hver
  obtain ⟨i, hi, hiL, hmod, ⟨_, _, hw, _⟩ | ⟨hT, _, hw⟩⟩ := hH.load x
  · exact absurd hval hw
  · have : i = x + s.length * 0 := eq_add_of_mod hmod (by omega)
    exact List.eq_nil_of_length_eq_zero (by omega)

theorem remove_found (hH : Holds s g h q) (hx : x ≤ h)
    (hval : nbbListVal s (g.entry s x) ≠ 0#64)
    (hver : nbbListVer s (g.entry s x) = round s x 1) :
    x = h ∧ ∃ q', q = nbbListVal s (g.entry s x) :: q' := by
  have hv := hH.ver_eq (by omega) le_rfl hver
  obtain ⟨i, hi, hiL, hmod, ⟨hT, hq, _, hw⟩ | ⟨_, hw, _⟩⟩ := hH.load x
  · have hix : i = x + s.length * 0 := eq_add_of_mod hmod (by omega)
    have hih : i - h = 0 := by omega
    refine ⟨by omega, ?_⟩
    rw [hih] at hq
    cases q with
    | nil => cases hq
    | cons v q' =>
      simp only [List.getElem?_cons_zero, Option.some.injEq] at hq
      exact ⟨q', by rw [hq]⟩
  · exact absurd hw hval

theorem remove_next (hH : Holds s g h q) (hx : x ≤ h)
    (hval : nbbListVal s (g.entry s x) = 0#64 → nbbListVer s (g.entry s x) ≠ round s x 0)
    (hver : nbbListVal s (g.entry s x) ≠ 0#64 → nbbListVer s (g.entry s x) ≠ round s x 1) : x < h := by
  rcases Nat.lt_or_ge x h with hlt | hge
  · exact hlt
  have hxh : x = h := by omega
  have hL := s.length_pos
  exfalso
  by_cases hempty : q.length = 0
  · obtain ⟨h0, hload⟩ := hH.load_free (i := x) (by omega) (by omega)
    exact hval h0 (ver_of_toNat hload)
  · obtain ⟨_, h0, hload⟩ := hH.load_queued (i := x) (by omega) (by omega)
    exact hver h0 (ver_of_toNat hload)

/-- The compare-and-swap of a removal succeeds at the first queued index only. -/
theorem remove_cas (hH : Holds s g h q) (hx : x ≤ h) {w : BitVec 64}
    (hw : nbbListVal s w ≠ 0#64)
    (hcas : g.entry s x = nbbListMask s (round s x 1) (nbbListVal s w)) :
    x = h ∧ ∃ v q', nbbListVal s (g.entry s x) = v ∧ q = v :: q' := by
  have hwlt : (nbbListVal s w).toNat < 2 ^ s.valNbits := by
    rw [toNat_nbbListVal]
    exact Nat.mod_lt _ (Nat.two_pow_pos _)
  have hval : nbbListVal s (g.entry s x) ≠ 0#64 := by
    rw [hcas, nbbListVal_mask s hwlt]
    exact hw
  -- the queue is not empty, so the round of its first index still fits
  have hne : h < h + q.length := by
    obtain ⟨i, hi, _, _, ⟨hT, _⟩ | ⟨_, h0, _⟩⟩ := hH.load x
    · omega
    · exact absurd h0 hval
  have hr := hH.succ_round_lt (i := x) (by omega)
  have hver : nbbListVer s (g.entry s x) = round s x 1 := by
    rw [hcas]
    exact nbbListVer_mask s (by rw [toNat_round hr]; exact hr) hwlt
  obtain ⟨hxh, q', hq⟩ := hH.remove_found hx hval hver
  exact ⟨hxh, _, q', rfl, hq⟩

theorem entry_setEntry (g : Ring) (x : ℕ) (w : BitVec 64) {i : ℕ} :
    (g.setEntry s x w).entry s i = if i % s.length = x % s.length then w else g.entry s i := by
  show Function.update g.entries (x % s.length) w (i % s.length) = _
  exact Function.update_apply _ _ _ _

/-- Two indices of one window that meet in the array are equal. -/
theorem window_inj {i j : ℕ} (hi : h ≤ i) (hiL : i < h + s.length) (hj : h ≤ j)
    (hjL : j < h + s.length) (hmod : i % s.length = j % s.length) : i = j := by
  rcases Nat.le_total (j / s.length) (i / s.length) with hle | hle
  · obtain ⟨k, hk⟩ := Nat.exists_eq_add_of_le hle
    have hik := eq_add_of_mod hmod hk
    cases k with
    | zero => omega
    | succ k =>
      rw [Nat.mul_succ] at hik
      omega
  · obtain ⟨k, hk⟩ := Nat.exists_eq_add_of_le hle
    have hjk := eq_add_of_mod hmod.symm hk
    cases k with
    | zero => omega
    | succ k =>
      rw [Nat.mul_succ] at hjk
      omega

theorem enqueue (hH : Holds s g h q) (hlen : q.length < s.length) {v : BitVec 64} (hv0 : v ≠ 0#64)
    (hv : v.toNat < 2 ^ s.valNbits)
    (hver : (h + q.length) / s.length < 2 ^ s.verNbits - 1) (hT : h + q.length < 2 ^ 64) :
    Holds s (g.setEntry s (h + q.length) (nbbListMask s (round s (h + q.length) 1) v)) h
      (q ++ [v]) where
  cells i hi hiL := by
    rw [entry_setEntry]
    by_cases hix : i % s.length = (h + q.length) % s.length
    · have hiT : i = h + q.length := window_inj hi hiL (by omega) (by omega) hix
      have hq : (q ++ [v])[i - h]? = some v := by
        rw [hiT, Nat.add_sub_cancel_left]
        exact List.getElem?_concat_length
      rw [if_pos hix, cell, hq, hiT]
    · have hiT : i ≠ h + q.length := by
        rintro rfl
        exact hix rfl
      have hq : (q ++ [v])[i - h]? = q[i - h]? := by
        rcases Nat.lt_or_ge (i - h) q.length with hlt | hge
        · exact List.getElem?_append_left hlt
        · rw [List.getElem?_eq_none hge, List.getElem?_eq_none]
          rw [List.length_append, List.length_singleton]
          omega
      rw [if_neg hix, hH.cells i hi hiL, cell, cell, hq]
  cap := by
    rw [List.length_append, List.length_singleton]
    exact hlen
  vals u hu := by
    rcases List.mem_append.mp hu with hu | hu
    · exact hH.vals u hu
    · rw [List.mem_singleton.mp hu]
      exact ⟨hv0, hv⟩
  vers := by
    rw [Nat.div_lt_iff_lt_mul s.length_pos] at hver
    rw [List.length_append, List.length_singleton]
    omega
  fits := by
    rw [List.length_append, List.length_singleton]
    omega
  head_le := hH.head_le
  tail_le := by
    have := hH.tail_le
    rw [List.length_append]
    exact le_trans this (by omega)
  tail_lt := hH.tail_lt

theorem dequeue {v : BitVec 64} (hH : Holds s g h (v :: q)) :
    Holds s (g.setEntry s h (nbbListMask s (round s h 1) 0#64)) (h + 1) q where
  cells i hi hiL := by
    have hL := s.length_pos
    have hcap := hH.cap
    rw [List.length_cons] at hcap
    rw [entry_setEntry]
    by_cases hix : i % s.length = h % s.length
    · have hiL : i = h + s.length := by
        rcases Nat.lt_or_ge i (h + s.length) with hlt | hge
        · have := window_inj (h := h) (by omega) hlt le_rfl (by omega) hix
          omega
        · omega
      rw [if_pos hix, cell_of_le (by omega), hiL, round, round, Nat.add_div_right _ hL]
    · have hiL' : i < h + s.length := by
        rcases Nat.lt_or_ge i (h + s.length) with hlt | hge
        · exact hlt
        · have : i = h + s.length := by omega
          rw [this, Nat.add_mod_right] at hix
          exact absurd rfl hix
      have hq : (v :: q)[i - h]? = q[i - (h + 1)]? := by
        have : i - h = i - (h + 1) + 1 := by omega
        rw [this, List.getElem?_cons_succ]
      rw [if_neg hix, hH.cells i (by omega) hiL', cell, cell, hq]
  cap := by
    have := hH.cap
    rw [List.length_cons] at this
    omega
  vals u hu := hH.vals u (List.mem_cons_of_mem v hu)
  vers := by
    have := hH.vers
    rw [List.length_cons] at this
    omega
  fits := by
    have := hH.fits
    rw [List.length_cons] at this
    omega
  head_le := Nat.le_succ_of_le hH.head_le
  tail_le := by
    have := hH.tail_le
    rw [List.length_cons] at this
    exact le_trans this (by omega)
  tail_lt := hH.tail_lt

theorem setTail (hH : Holds s g h q) {t : ℕ} (ht : t < h + q.length) :
    Holds s { g with tail := wrap (t + 1) } h q :=
  { hH with
    tail_le := le_trans (Nat.mod_le _ _) ht
    tail_lt := Nat.mod_lt _ (by decide) }

theorem setHead (hH : Holds s g h q) {t : ℕ} (ht : t < h) :
    Holds s { g with head := wrap (t + 1) } h q :=
  { hH with head_le := le_trans (Nat.mod_le _ _) ht }

end Holds

/-! ### The bounded queue -/

inductive ListOp where
  | insert (val : BitVec 64)
  | remove
  deriving DecidableEq

/-- `1`, `NBB_LIST_FULL`, `1` with `*val`, `NBB_LIST_EMPTY`. -/
inductive ListRes where
  | inserted
  | full
  | removed (val : BitVec 64)
  | empty
  deriving DecidableEq

/-- A queue that holds at most `cap` values. -/
def fifo (cap : ℕ) : ListOp → List (BitVec 64) → List (BitVec 64) × ListRes
  | .insert v, q => if q.length < cap then (q ++ [v], .inserted) else (q, .full)
  | .remove, v :: q => (q, .removed v)
  | .remove, [] => ([], .empty)

end TinyStm.Nbb
