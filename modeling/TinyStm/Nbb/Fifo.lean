import Mathlib.Algebra.BigOperators.Fin
import TinyStm.Nbb.Ring

/-!
# The bounded list is a linearizable queue

`Insert.phase` and `Remove.phase` say where an operation stands in the atomic
queue: it takes effect with the compare-and-swap of its entry, or with the load
that makes it return full or empty. An index never runs past the end it scans
for (`Insert.Ok`, `Remove.Ok`), which is what makes these moments the right ones.
-/

namespace TinyStm.Nbb

open Interleave

variable (s : Shape)

def Insert.phase : Insert → Phase ListOp ListRes
  | .start v | .scan v _ _ | .cas v _ _ => .called (.insert v)
  | .publish _ _ | .reload _ | .done => .done .inserted
  | .full => .done .full

def Remove.phase : Remove → Phase ListOp ListRes
  | .start | .scan _ _ | .cas _ _ _ => .called .remove
  | .publish v _ _ | .reload v _ | .done v => .done (.removed v)
  | .empty => .done .empty

def ValOk (v : BitVec 64) : Prop := v ≠ 0#64 ∧ v.toNat < 2 ^ s.valNbits

/-- `t` is the index after the last queued value. -/
def Insert.Ok (t : ℕ) : Insert → Prop
  | .start v => ValOk s v
  | .scan v x _ | .cas v x _ => ValOk s v ∧ x ≤ t ∧ x < 2 ^ 64
  | .publish x _ | .reload x => x < t
  | .full | .done => True

/-- `h` is the index of the first queued value. -/
def Remove.Ok (h : ℕ) : Remove → Prop
  | .scan x _ => x ≤ h
  | .cas w x _ => x ≤ h ∧ nbbListVal s w ≠ 0#64
  | .publish _ x _ | .reload _ x => x < h
  | .start | .empty | .done _ => True

/-- The version the compare-and-swap is about to write fits its field. -/
def Insert.VerFits : Insert → Prop
  | .cas _ x _ => x / s.length < 2 ^ s.verNbits - 1
  | _ => True

/-- One step in the atomic queue, or none. -/
def Advance (cap : ℕ) (q : List (BitVec 64)) (p : Phase ListOp ListRes) (q' : List (BitVec 64))
    (p' : Phase ListOp ListRes) : Prop :=
  q' = q ∧ p' = p ∨
    ∃ o, p = .called o ∧ q' = (fifo cap o q).1 ∧ p' = .done (fifo cap o q).2

variable {s} {g : Ring} {h : ℕ} {q : List (BitVec 64)}

theorem Insert.Ok.mono {t t' : ℕ} {p : Insert} (hp : p.Ok s t) (ht : t ≤ t') : p.Ok s t' := by
  cases p with
  | start v => exact hp
  | scan v x b => exact ⟨hp.1, hp.2.1.trans ht, hp.2.2⟩
  | cas v x b => exact ⟨hp.1, hp.2.1.trans ht, hp.2.2⟩
  | publish x b => exact lt_of_lt_of_le hp ht
  | reload x => exact lt_of_lt_of_le hp ht
  | full => trivial
  | done => trivial

theorem Remove.Ok.mono {h h' : ℕ} {p : Remove} (hp : p.Ok s h) (hh : h ≤ h') : p.Ok s h' := by
  cases p with
  | start => trivial
  | scan x b => exact le_trans hp hh
  | cas w x b => exact ⟨hp.1.trans hh, hp.2⟩
  | publish v x b => exact lt_of_lt_of_le hp hh
  | reload v x => exact lt_of_lt_of_le hp hh
  | empty => trivial
  | done v => trivial

theorem wrap_succ_le {x t : ℕ} (hx : x < t) : wrap (x + 1) ≤ t :=
  le_trans (Nat.mod_le _ _) hx

/-- What one step of an insertion does to the queue. -/
theorem Insert.step_spec {p : Insert} (hH : Holds s g h q) (hp : p.Ok s (h + q.length))
    (hfit : p.VerFits s) :
    ∃ q', Holds s (p.step s g).1 h q' ∧ (p.step s g).2.Ok s (h + q'.length) ∧
      q.length ≤ q'.length ∧ Advance s.length q p.phase q' (p.step s g).2.phase := by
  cases p with
  | start v => exact ⟨q, hH, ⟨hp, hH.tail_le, hH.tail_lt⟩, le_rfl, .inl ⟨rfl, rfl⟩⟩
  | scan v x b =>
    obtain ⟨hv, hx, hx64⟩ := hp
    by_cases hver : nbbListVer s (g.entry s x) = round s x 0
    · by_cases hval : nbbListVal s (g.entry s x) = 0#64
      · have hstep : (Insert.scan v x b).step s g = (g, .cas v x b) := by
          simp [Insert.step, hver, hval]
        rw [hstep]
        exact ⟨q, hH, ⟨hv, hx, hx64⟩, le_rfl, .inl ⟨rfl, rfl⟩⟩
      · have hstep : (Insert.scan v x b).step s g = (g, .full) := by
          simp [Insert.step, hver, hval]
        have hfull := hH.insert_full hx hval hver
        rw [hstep]
        refine ⟨q, hH, trivial, le_rfl, .inr ⟨.insert v, rfl, ?_, ?_⟩⟩
        all_goals simp [fifo, hfull, Insert.phase]
    · have hstep : (Insert.scan v x b).step s g = (g, .scan v (wrap (x + 1)) b) := by
        simp [Insert.step, hver]
      have hnext := hH.insert_next hx hver
      rw [hstep]
      exact ⟨q, hH, ⟨hv, wrap_succ_le hnext, Nat.mod_lt _ (by decide)⟩, le_rfl, .inl ⟨rfl, rfl⟩⟩
  | cas v x b =>
    obtain ⟨hv, hx, hx64⟩ := hp
    by_cases hcas : g.entry s x = nbbListMask s (round s x 0) 0#64
    · have hstep : (Insert.cas v x b).step s g =
          (g.setEntry s x (nbbListMask s (round s x 1) v), .publish x b) := by
        simp [Insert.step, hcas]
      have hL := s.length_pos
      have hr : x / s.length + 0 < 2 ^ s.verNbits := hH.round_lt (by omega)
      have hrn := toNat_round hr
      have h0 : (0#64).toNat < 2 ^ s.valNbits := Nat.two_pow_pos _
      have hval : nbbListVal s (g.entry s x) = 0#64 := by
        rw [hcas]
        exact nbbListVal_mask s h0
      have hver : nbbListVer s (g.entry s x) = round s x 0 := by
        rw [hcas]
        exact nbbListVer_mask s (by rw [hrn]; exact hr) h0
      obtain ⟨rfl, hlen⟩ := hH.insert_free hx hval hver
      rw [hstep]
      refine ⟨q ++ [v], hH.enqueue hlen hv.1 hv.2 hfit hx64, ?_, ?_, .inr ⟨.insert v, rfl, ?_, ?_⟩⟩
      · show h + q.length < h + (q ++ [v]).length
        simp
      · simp
      · simp [fifo, hlen]
      · simp [fifo, hlen, Insert.phase]
    · have hstep : (Insert.cas v x b).step s g = (g, .start v) := by
        simp [Insert.step, hcas]
      rw [hstep]
      exact ⟨q, hH, hv, le_rfl, .inl ⟨rfl, rfl⟩⟩
  | publish x b =>
    by_cases hb : b < wrap (x + 1)
    · by_cases htail : g.tail = b
      · have hstep : (Insert.publish x b).step s g = ({ g with tail := wrap (x + 1) }, .done) := by
          simp [Insert.step, hb, htail]
        rw [hstep]
        exact ⟨q, hH.setTail hp, trivial, le_rfl, .inl ⟨rfl, rfl⟩⟩
      · have hstep : (Insert.publish x b).step s g = (g, .reload x) := by
          simp [Insert.step, hb, htail]
        rw [hstep]
        exact ⟨q, hH, hp, le_rfl, .inl ⟨rfl, rfl⟩⟩
    · have hstep : (Insert.publish x b).step s g = (g, .done) := by
        simp [Insert.step, hb]
      rw [hstep]
      exact ⟨q, hH, trivial, le_rfl, .inl ⟨rfl, rfl⟩⟩
  | reload x => exact ⟨q, hH, hp, le_rfl, .inl ⟨rfl, rfl⟩⟩
  | full => exact ⟨q, hH, trivial, le_rfl, .inl ⟨rfl, rfl⟩⟩
  | done => exact ⟨q, hH, trivial, le_rfl, .inl ⟨rfl, rfl⟩⟩

/-- What one step of a removal does to the queue. -/
theorem Remove.step_spec {p : Remove} (hH : Holds s g h q) (hp : p.Ok s h) :
    ∃ h' q', Holds s (p.step s g).1 h' q' ∧ (p.step s g).2.Ok s h' ∧ h ≤ h' ∧
      h + q.length = h' + q'.length ∧ Advance s.length q p.phase q' (p.step s g).2.phase := by
  cases p with
  | start => exact ⟨h, q, hH, hH.head_le, le_rfl, rfl, .inl ⟨rfl, rfl⟩⟩
  | scan x b =>
    by_cases hval : nbbListVal s (g.entry s x) = 0#64
    · by_cases hver : nbbListVer s (g.entry s x) = round s x 0
      · have hstep : (Remove.scan x b).step s g = (g, .empty) := by
          simp [Remove.step, hver, hval]
        have hempty := hH.remove_empty hp hval hver
        rw [hstep]
        refine ⟨h, q, hH, trivial, le_rfl, rfl, .inr ⟨.remove, rfl, ?_, ?_⟩⟩
        all_goals simp [fifo, hempty, Remove.phase]
      · have hstep : (Remove.scan x b).step s g = (g, .scan (wrap (x + 1)) b) := by
          simp [Remove.step, hver, hval]
        have hnext := hH.remove_next hp (fun _ => hver) (fun hne => absurd hval hne)
        rw [hstep]
        exact ⟨h, q, hH, wrap_succ_le hnext, le_rfl, rfl, .inl ⟨rfl, rfl⟩⟩
    · by_cases hver : nbbListVer s (g.entry s x) = round s x 1
      · have hstep : (Remove.scan x b).step s g = (g, .cas (g.entry s x) x b) := by
          simp [Remove.step, hver, hval]
        rw [hstep]
        exact ⟨h, q, hH, ⟨hp, hval⟩, le_rfl, rfl, .inl ⟨rfl, rfl⟩⟩
      · have hstep : (Remove.scan x b).step s g = (g, .scan (wrap (x + 1)) b) := by
          simp [Remove.step, hver, hval]
        have hnext := hH.remove_next hp (fun heq => absurd heq hval) (fun _ => hver)
        rw [hstep]
        exact ⟨h, q, hH, wrap_succ_le hnext, le_rfl, rfl, .inl ⟨rfl, rfl⟩⟩
  | cas w x b =>
    obtain ⟨hx, hw⟩ := hp
    by_cases hcas : g.entry s x = nbbListMask s (round s x 1) (nbbListVal s w)
    · have hstep : (Remove.cas w x b).step s g =
          (g.setEntry s x (nbbListMask s (round s x 1) 0#64),
            .publish (nbbListVal s (g.entry s x)) x b) := by
        simp [Remove.step, hcas]
      obtain ⟨rfl, v, q', hv, rfl⟩ := hH.remove_cas hx hw hcas
      rw [hstep, hv]
      refine ⟨x + 1, q', hH.dequeue, Nat.lt_succ_self x, Nat.le_succ x, ?_,
        .inr ⟨.remove, rfl, rfl, rfl⟩⟩
      rw [List.length_cons]
      omega
    · have hstep : (Remove.cas w x b).step s g = (g, .start) := by
        simp [Remove.step, hcas]
      rw [hstep]
      exact ⟨h, q, hH, trivial, le_rfl, rfl, .inl ⟨rfl, rfl⟩⟩
  | publish v x b =>
    by_cases hb : b < wrap (x + 1)
    · by_cases hhead : g.head = b
      · have hstep : (Remove.publish v x b).step s g =
            ({ g with head := wrap (x + 1) }, .done v) := by
          simp [Remove.step, hb, hhead]
        rw [hstep]
        exact ⟨h, q, hH.setHead hp, trivial, le_rfl, rfl, .inl ⟨rfl, rfl⟩⟩
      · have hstep : (Remove.publish v x b).step s g = (g, .reload v x) := by
          simp [Remove.step, hb, hhead]
        rw [hstep]
        exact ⟨h, q, hH, hp, le_rfl, rfl, .inl ⟨rfl, rfl⟩⟩
    · have hstep : (Remove.publish v x b).step s g = (g, .done v) := by
        simp [Remove.step, hb]
      rw [hstep]
      exact ⟨h, q, hH, trivial, le_rfl, rfl, .inl ⟨rfl, rfl⟩⟩
  | reload v x => exact ⟨h, q, hH, hp, le_rfl, rfl, .inl ⟨rfl, rfl⟩⟩
  | empty => exact ⟨h, q, hH, trivial, le_rfl, rfl, .inl ⟨rfl, rfl⟩⟩
  | done v => exact ⟨h, q, hH, trivial, le_rfl, rfl, .inl ⟨rfl, rfl⟩⟩

/-! ### The threads of a list -/

variable (s)

instance (v : BitVec 64) : Decidable (ValOk s v) := inferInstanceAs (Decidable (_ ∧ _))

inductive Local where
  | idle
  | insert (p : Insert)
  | remove (p : Remove)

def Insert.result : Insert → Option ListRes
  | .full => some .full
  | .done => some .inserted
  | _ => none

def Remove.result : Remove → Option ListRes
  | .empty => some .empty
  | .done v => some (.removed v)
  | _ => none

/-- Threads that call the two operations on one list. The action is the call an
idle thread makes, or `none` to go on. -/
def listSystem (ι : Type*) : System ι Ring Local (Option ListOp) where
  step _ a g
    | .idle =>
      match a with
      | some (.insert v) => if ValOk s v then some (g, .insert (.start v)) else none
      | some .remove => some (g, .remove .start)
      | none => none
    | .insert p =>
      if a.isSome then none
      else if p.result.isSome then some (g, .idle)
      else some ((p.step s g).1, .insert (p.step s g).2)
    | .remove p =>
      if a.isSome then none
      else if p.result.isSome then some (g, .idle)
      else some ((p.step s g).1, .remove (p.step s g).2)

def listLabel : Option ListOp → Local → Option (ListOp ⊕ ListRes)
  | some o, .idle => some (.inl o)
  | none, .insert p => p.result.map .inr
  | none, .remove p => p.result.map .inr
  | _, _ => none

def Local.VerFits : Local → Prop
  | .insert p => p.VerFits s
  | .idle | .remove _ => True

/-- No version is written that does not fit: the compare-and-swap of an insertion
at index `mytail` is only reached with `mytail / length` below `2 ^ ver_nbits - 1`. -/
def VersionsFit {ι : Type*} (c : Config ι Ring Local) (i : ι) (_ : Option ListOp) : Prop :=
  (c.loc i).VerFits s

instance : DecidablePred (Insert.VerFits s)
  | .cas _ x _ => inferInstanceAs (Decidable (x / s.length < _))
  | .start _ | .scan _ _ _ | .publish _ _ | .reload _ | .full | .done => .isTrue trivial

instance : DecidablePred (Local.VerFits s)
  | .insert p => inferInstanceAs (Decidable (p.VerFits s))
  | .idle | .remove _ => .isTrue trivial

instance {ι : Type*} (c : Config ι Ring Local) (i : ι) (a : Option ListOp) :
    Decidable (VersionsFit s c i a) := inferInstanceAs (Decidable ((c.loc i).VerFits s))

def Local.phase : Local → Phase ListOp ListRes
  | .idle => .idle
  | .insert p => p.phase
  | .remove p => p.phase

def Local.Ok (h t : ℕ) : Local → Prop
  | .idle => True
  | .insert p => p.Ok s t
  | .remove p => p.Ok s h

/-- The list and the atomic queue it stands for. -/
def Simulates {ι : Type*} (c : Config ι Ring Local)
    (c' : Config ι (List (BitVec 64)) (Phase ListOp ListRes)) : Prop :=
  ∃ h, Holds s c.shared h c'.shared ∧
    ∀ i, (c.loc i).Ok s h (h + c'.shared.length) ∧ c'.loc i = (c.loc i).phase

variable {s}

theorem Local.Ok.mono {h t h' t' : ℕ} {x : Local} (hx : x.Ok s h t) (hh : h ≤ h') (ht : t ≤ t') :
    x.Ok s h' t' := by
  cases x with
  | idle => trivial
  | insert p => exact Insert.Ok.mono hx ht
  | remove p => exact Remove.Ok.mono hx hh

theorem Insert.phase_of_result {p : Insert} {r : ListRes} (hp : p.result = some r) :
    p.phase = .done r := by
  cases p <;> simp_all [Insert.result, Insert.phase]

theorem Remove.phase_of_result {p : Remove} {r : ListRes} (hp : p.result = some r) :
    p.phase = .done r := by
  cases p <;> simp_all [Remove.result, Remove.phase]

section

variable {ι : Type*} [DecidableEq ι] {c : Config ι Ring Local} {i : ι}
  {c' : Config ι (List (BitVec 64)) (Phase ListOp ListRes)}

theorem Advance.hist {cap : ℕ} {q' : List (BitVec 64)} {p' : Phase ListOp ListRes}
    (ha : Advance cap c'.shared (c'.loc i) q' p') :
    Hist (atomicObject ι (fifo cap)) (fun _ _ _ => True) atomicLabel c' []
      ⟨q', Function.update c'.loc i p'⟩ := by
  rcases ha with ⟨rfl, rfl⟩ | ⟨o, ho, rfl, rfl⟩
  · rw [Function.update_eq_self]
    exact .refl
  · exact atomic_effect ho

/-- The relation is kept when thread `i` moves and the ends only move forward. -/
theorem Simulates.update {h h' : ℕ} {g : Ring} {x : Local} {q' : List (BitVec 64)}
    (hloc : ∀ j, (c.loc j).Ok s h (h + c'.shared.length) ∧ c'.loc j = (c.loc j).phase)
    (hH : Holds s g h' q') (hh : h ≤ h') (ht : h + c'.shared.length ≤ h' + q'.length)
    (hx : x.Ok s h' (h' + q'.length)) :
    Simulates s ⟨g, Function.update c.loc i x⟩ ⟨q', Function.update c'.loc i x.phase⟩ := by
  refine ⟨h', hH, fun j => ?_⟩
  by_cases hj : j = i
  · subst hj
    simpa using hx
  · simpa [hj] using ⟨(hloc j).1.mono hh ht, (hloc j).2⟩

theorem simulates_step {a : Option ListOp} {d : Config ι Ring Local} (hR : Simulates s c c')
    (hfit : VersionsFit s c i a) (hm : (listSystem s ι).move c i a = some d) :
    ∃ d', Hist (atomicObject ι (fifo s.length)) (fun _ _ _ => True) atomicLabel c'
      (shown i (listLabel a (c.loc i))) d' ∧ Simulates s d d' := by
  obtain ⟨h, hH, hloc⟩ := hR
  obtain ⟨g, x, hs, rfl⟩ := move_eq_some hm
  obtain ⟨hok, hph⟩ := hloc i
  cases hl : c.loc i with
  | idle =>
    rw [hl] at hs hph
    rcases a with _ | v | _
    · cases hs
    · simp only [listSystem, Option.ite_none_right_eq_some, Option.some.injEq,
        Prod.mk.injEq] at hs
      obtain ⟨hv, rfl, rfl⟩ := hs
      exact ⟨_, atomic_call hph _, Simulates.update hloc hH le_rfl le_rfl hv⟩
    · simp only [listSystem, Option.some.injEq, Prod.mk.injEq] at hs
      obtain ⟨rfl, rfl⟩ := hs
      exact ⟨_, atomic_call hph _, Simulates.update hloc hH le_rfl le_rfl trivial⟩
  | insert p =>
    rw [hl] at hs hph hok
    rcases a with _ | o
    · rw [VersionsFit, hl] at hfit
      cases hr : p.result with
      | some r =>
        simp [listSystem, hr] at hs
        obtain ⟨rfl, rfl⟩ := hs
        rw [show (Local.insert p).phase = .done r from Insert.phase_of_result hr] at hph
        simp only [listLabel, hr]
        exact ⟨_, atomic_return hph, Simulates.update hloc hH le_rfl le_rfl trivial⟩
      | none =>
        simp [listSystem, hr] at hs
        obtain ⟨rfl, rfl⟩ := hs
        obtain ⟨q', hH', hok', hle, hadv⟩ := Insert.step_spec hH hok hfit
        simp only [listLabel, hr]
        have hadv' : Advance s.length c'.shared (c'.loc i) q' (p.step s c.shared).2.phase := by
          rw [hph]
          exact hadv
        exact ⟨_, hadv'.hist, Simulates.update hloc hH' le_rfl (by omega) hok'⟩
    · simp [listSystem] at hs
  | remove p =>
    rw [hl] at hs hph hok
    rcases a with _ | o
    · cases hr : p.result with
      | some r =>
        simp [listSystem, hr] at hs
        obtain ⟨rfl, rfl⟩ := hs
        rw [show (Local.remove p).phase = .done r from Remove.phase_of_result hr] at hph
        simp only [listLabel, hr]
        exact ⟨_, atomic_return hph, Simulates.update hloc hH le_rfl le_rfl trivial⟩
      | none =>
        simp [listSystem, hr] at hs
        obtain ⟨rfl, rfl⟩ := hs
        obtain ⟨h', q', hH', hok', hle, heq, hadv⟩ := Remove.step_spec hH hok
        simp only [listLabel, hr]
        have hadv' : Advance s.length c'.shared (c'.loc i) q' (p.step s c.shared).2.phase := by
          rw [hph]
          exact hadv
        exact ⟨_, hadv'.hist, Simulates.update hloc hH' hle (by omega) hok'⟩
    · simp [listSystem] at hs

end

theorem holds_create (s : Shape) : Holds s nbbListCreate 0 [] where
  cells i _ hi := by
    have h0 : round s i 0 = 0#64 := by
      rw [round, Nat.div_eq_of_lt (by omega)]
    have hm : nbbListMask s 0#64 0#64 = 0#64 := by
      simp [nbbListMask]
    rw [Holds.cell_of_le (by simp), h0, hm]
    rfl
  cap := Nat.zero_le _
  vals v hv := by cases hv
  vers := Nat.zero_le _
  fits := Nat.zero_le _
  head_le := le_rfl
  tail_le := le_rfl
  tail_lt := by decide

/-- For every length, every split of the word and any number of threads: as long
as the versions fit, whatever the threads see of the list they could have seen of
an atomic queue of that capacity. -/
theorem nbb_list_linearizable {ι : Type*} [DecidableEq ι] (s : Shape)
    {h : List (ι × (ListOp ⊕ ListRes))} {d : Config ι Ring Local}
    (hh : Hist (listSystem s ι) (VersionsFit s) listLabel ⟨nbbListCreate, fun _ => .idle⟩ h d) :
    Linearizes (fifo s.length) [] h := by
  have hinit : Simulates s (ι := ι) ⟨nbbListCreate, fun _ => .idle⟩ ⟨[], fun _ => .idle⟩ :=
    ⟨0, holds_create s, fun _ => ⟨trivial, rfl⟩⟩
  obtain ⟨d', hd', _⟩ := hh.simulate (fun _ _ _ _ _ hR ho hm => simulates_step hR ho hm) hinit
  exact ⟨d', hd'⟩

theorem half_word_pos : 0 < 32 := by decide

theorem half_word_lt : 32 < 64 := by decide

def twoSlots : Shape := ⟨2, 32, Nat.two_pos, half_word_pos, half_word_lt⟩

/-- One thread inserts while another removes. -/
theorem nbb_list_linearizable_pair :
    Linearizes (ι := Fin 2) (fifo 2) []
      [(0, .inl (.insert 7)), (1, .inl .remove), (1, .inr (.removed 7)), (0, .inr .inserted)] := by
  have hrun : ((listSystem twoSlots (Fin 2)).history (VersionsFit twoSlots) listLabel
      [(0, some (.insert 7)), (0, none), (1, some .remove), (0, none), (0, none), (1, none),
        (1, none), (1, none), (1, none), (1, none), (0, none), (0, none)]
      ⟨nbbListCreate, fun _ => .idle⟩).any (fun r => decide (r.1 =
        [(0, .inl (.insert 7)), (1, .inl .remove), (1, .inr (.removed 7)),
          (0, .inr .inserted)])) = true := by
    decide +kernel
  obtain ⟨⟨h, d⟩, hr, hp⟩ := (Option.any_eq_true _ _).mp hrun
  have hh := hist_of_history _ hr
  rw [show h = _ from of_decide_eq_true hp] at hh
  exact nbb_list_linearizable twoSlots hh

variable (s)

/-! ### The published tail is no bound

The tail an insertion publishes may lag behind the insertions that took effect,
one for each stalled thread, so a bound on it does not keep the versions in
their field. -/

def TailBelow {ι : Type*} (c : Config ι Ring Local) (_ : ι) (_ : Option ListOp) : Prop :=
  c.shared.tail / s.length < 2 ^ s.verNbits - 1

instance {ι : Type*} (c : Config ι Ring Local) (i : ι) (a : Option ListOp) :
    Decidable (TailBelow s c i a) := inferInstanceAs (Decidable (_ < _))

/-- What an operation in progress still adds to or has taken from the queue. -/
def credit : Phase ListOp ListRes → ℕ
  | .called (.insert _) | .done (.removed _) => 1
  | _ => 0

@[simp] theorem credit_idle : credit .idle = 0 := rfl

@[simp] theorem credit_called_insert (v : BitVec 64) : credit (.called (.insert v)) = 1 := rfl

@[simp] theorem credit_called_remove : credit (.called .remove) = 0 := rfl

@[simp] theorem credit_removed (v : BitVec 64) : credit (.done (.removed v)) = 1 := rfl

@[simp] theorem credit_inserted : credit (.done .inserted) = 0 := rfl

@[simp] theorem credit_full : credit (.done .full) = 0 := rfl

@[simp] theorem credit_empty : credit (.done .empty) = 0 := rfl

def isInsertCall {ι : Type*} (e : ι × (ListOp ⊕ ListRes)) : Bool :=
  match e.2 with
  | .inl (.insert _) => true
  | _ => false

def isRemovedReturn {ι : Type*} (e : ι × (ListOp ⊕ ListRes)) : Bool :=
  match e.2 with
  | .inr (.removed _) => true
  | _ => false

/-- A queue never gives back more than was put in. -/
def Balanced {ι : Type*} [Fintype ι] (h : List (ι × (ListOp ⊕ ListRes)))
    (c : Config ι (List (BitVec 64)) (Phase ListOp ListRes)) : Prop :=
  c.shared.length + ∑ i, credit (c.loc i) + h.countP isRemovedReturn ≤ h.countP isInsertCall

theorem balanced_step {ι : Type*} [Fintype ι] [DecidableEq ι] {cap : ℕ}
    {h : List (ι × (ListOp ⊕ ListRes))}
    {c d : Config ι (List (BitVec 64)) (Phase ListOp ListRes)} {i : ι} {a : Option ListOp}
    (hb : Balanced h c) (hm : (atomicObject ι (fifo cap)).move c i a = some d) :
    Balanced (h ++ shown i (atomicLabel a (c.loc i))) d := by
  obtain ⟨q, p, hs, rfl⟩ := move_eq_some hm
  have hsum := sum_update_add Finset.univ credit c.loc (Finset.mem_univ i) p
  unfold Balanced at hb ⊢
  cases hl : c.loc i with
  | idle =>
    rw [hl] at hs hsum
    cases a with
    | none => cases hs
    | some o =>
      cases hs
      cases o <;> simp [atomicLabel, isInsertCall, isRemovedReturn] at hsum ⊢ <;> omega
  | called o =>
    rw [hl] at hs hsum
    cases a with
    | some o' => cases hs
    | none =>
      cases hs
      cases o with
      | insert v =>
        by_cases hlen : c.shared.length < cap
        all_goals simp [atomicLabel, fifo, hlen] at hsum ⊢
        all_goals omega
      | remove =>
        cases hq : c.shared with
        | nil =>
          simp [atomicLabel, fifo, hq] at hsum hb ⊢
          omega
        | cons v q =>
          simp [atomicLabel, fifo, hq] at hsum hb ⊢
          omega
  | done r =>
    rw [hl] at hs hsum
    cases a with
    | some o' => cases hs
    | none =>
      cases hs
      cases r <;> simp [atomicLabel, isInsertCall, isRemovedReturn] at hsum ⊢ <;> omega

def oneBitVersions : Shape := ⟨2, 63, by decide, by decide, by decide⟩

local instance neZero_four : NeZero 4 := ⟨by decide⟩

/-- Three insertions stall before they publish; two of their values are removed
and the third is written over a version that does not fit any more. -/
def stalledSchedule : List (Fin 4 × Option ListOp) :=
  [(0, some (.insert 1)), (0, none), (0, none), (0, none),
   (3, some .remove), (3, none), (3, none), (3, none), (3, none), (3, none),
   (1, some (.insert 2)), (1, none), (1, none), (1, none), (1, none),
   (3, some .remove), (3, none), (3, none), (3, none), (3, none), (3, none),
   (2, some (.insert 3)), (2, none), (2, none), (2, none), (2, none), (2, none),
   (3, some (.insert 4)), (3, none), (3, none), (3, none)]

def stalledHistory : List (Fin 4 × (ListOp ⊕ ListRes)) :=
  [(0, .inl (.insert 1)), (3, .inl .remove), (3, .inr (.removed 1)), (1, .inl (.insert 2)),
   (3, .inl .remove), (3, .inr (.removed 2)), (2, .inl (.insert 3)), (3, .inl (.insert 4))]

/-- A queue of capacity two is not full after these calls and returns. -/
theorem stalled_not_full {h : List (Fin 4 × (ListOp ⊕ ListRes))}
    {d : Config (Fin 4) (List (BitVec 64)) (Phase ListOp ListRes)}
    (hh : Hist (atomicObject (Fin 4) (fifo 2)) (fun _ _ _ => True) atomicLabel
      ⟨[], fun _ => .idle⟩ h d) :
    Balanced h d ∧ (h = stalledHistory → d.loc 3 ≠ .done .full) ∧
      h ≠ stalledHistory ++ [(3, .inr .full)] := by
  induction hh with
  | refl => exact ⟨Nat.le_refl 0, by decide, by decide⟩
  | @tail h c d i a _ _ hm ih =>
    obtain ⟨hb, hfull, hne⟩ := ih
    refine ⟨balanced_step hb hm, ?_⟩
    obtain ⟨q, p, hs, rfl⟩ := move_eq_some hm
    have hlast : stalledHistory = stalledHistory.dropLast ++ [(3, .inl (.insert 4))] := rfl
    cases hl : c.loc i with
    | idle =>
      rw [hl] at hs
      cases a with
      | none => cases hs
      | some o =>
        cases hs
        refine ⟨fun heq => ?_, fun heq => ?_⟩
        · rw [hlast] at heq
          have hi : i = 3 := congrArg Prod.fst (List.append_singleton_inj.mp heq).2
          show Function.update c.loc i (.called o) 3 ≠ _
          rw [hi, Function.update_self]
          nofun
        · exact absurd (List.append_singleton_inj.mp heq).2 nofun
    | called o =>
      rw [hl] at hs
      cases a with
      | some o' => cases hs
      | none =>
        cases hs
        refine ⟨fun heq => ?_, fun heq => hne ?_⟩
        · replace heq : h = stalledHistory := by simpa [atomicLabel] using heq
          show Function.update c.loc i (.done (fifo 2 o c.shared).2) 3 ≠ _
          by_cases hi : 3 = i
          · subst hi
            rw [Function.update_self]
            cases o with
            | remove =>
              cases hq : c.shared <;> simp [fifo]
            | insert v =>
              -- two of at most three values inserted so far have been returned
              have hcredit : 1 ≤ ∑ j, credit (c.loc j) := by
                have hsplit := Finset.add_sum_erase Finset.univ (fun j => credit (c.loc j))
                  (Finset.mem_univ 3)
                rw [hl, credit_called_insert] at hsplit
                omega
              have hcount : c.shared.length + ∑ j, credit (c.loc j) + 2 ≤ 4 := by
                rw [heq] at hb
                exact hb
              have hlen : c.shared.length < 2 := by omega
              simp [fifo, hlen]
          · rw [Function.update_of_ne hi]
            exact hfull heq
        · simpa [atomicLabel] using heq
    | done r =>
      rw [hl] at hs
      cases a with
      | some o' => cases hs
      | none =>
        cases hs
        refine ⟨fun heq => ?_, fun heq => ?_⟩
        · rw [hlast] at heq
          exact absurd (List.append_singleton_inj.mp heq).2 nofun
        · obtain ⟨hh, he⟩ := List.append_singleton_inj.mp heq
          simp only [Prod.mk.injEq, Sum.inr.injEq] at he
          obtain ⟨rfl, rfl⟩ := he
          exact hfull hh hl

/-- With a bound on the published tail only, a list of two entries and one-bit
versions returns full while at most one value is in it. -/
theorem tail_bound_too_weak :
    ¬ ∀ (s : Shape) (h : List (Fin 4 × (ListOp ⊕ ListRes))) (d : Config (Fin 4) Ring Local),
      Hist (listSystem s (Fin 4)) (TailBelow s) listLabel ⟨nbbListCreate, fun _ => .idle⟩ h d →
      d.shared.tail / s.length < 2 ^ s.verNbits - 1 → Linearizes (fifo s.length) [] h := by
  intro hall
  have hrun : ((listSystem oneBitVersions (Fin 4)).history (TailBelow oneBitVersions) listLabel
      stalledSchedule ⟨nbbListCreate, fun _ => .idle⟩).any (fun r =>
        decide (r.1 = stalledHistory ++ [(3, .inr .full)] ∧ r.2.shared.tail = 0)) = true := by
    decide +kernel
  obtain ⟨⟨h, d⟩, hr, hp⟩ := (Option.any_eq_true _ _).mp hrun
  obtain ⟨rfl, htail⟩ := of_decide_eq_true hp
  have hbelow : d.shared.tail / oneBitVersions.length < 2 ^ oneBitVersions.verNbits - 1 := by
    rw [htail]
    decide
  obtain ⟨_, hd⟩ := hall oneBitVersions _ d (hist_of_history _ hr) hbelow
  exact (stalled_not_full hd).2.2 rfl

end TinyStm.Nbb
