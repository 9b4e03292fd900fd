import TinyStm.Spin.Locks
import Mathlib.Tactic.IntervalCases

/-!
# The list of one priority between two threads

At most two threads work on a list, the holders of its two locks. Seen from the
list, an insertion appends a task and a removal takes the first one away; what the
other thread has read stays true because a removal with one lock leaves at least
one of two counted tasks behind.
-/

namespace TinyStm.Spin

variable {ι τ : Type*}

/-! ### Where the holders are -/

/-- The pointer to the tail lags behind the list. -/
def Pc.stale : Pc τ → Bool
  | .insert _ _ (.setTail _) | .remove _ _ (.setTail _ _) => true
  | _ => false

/-- A task is in the list and not counted yet. -/
def Pc.linked : Pc τ → Bool
  | .insert _ _ (.setTail _) | .insert _ _ (.add _) => true
  | _ => false

/-- A task is out of the list and still counted. -/
def Pc.taken : Pc τ → Bool
  | .remove _ _ (.setTail _ _) | .remove _ _ (.clearNext _ _) | .remove _ _ (.sub _ _) => true
  | _ => false

/-- The bit is about to be set. -/
def Pc.marking : Pc τ → Bool
  | .insert _ _ (.loadByte _) | .insert _ _ (.cas _ _) => true
  | _ => false

/-- What the holder of the tail knows of the list. -/
def Pc.tailOk (l : List τ) : Pc τ → Prop
  | .insert _ _ (.setHead _) => l = []
  | .insert _ _ (.loadTail _) => l ≠ []
  | .insert _ _ (.link last _) => l.getLast? = some last
  | .insert task _ (.setTail _) | .insert task _ (.add _) => l.getLast? = some task
  | _ => True

/-- What the holder of the head knows of the list and the counter. With one lock it
goes on only where two tasks are counted. -/
def Pc.headOk (l : List τ) (k : ℤ) : Pc τ → Prop
  | .remove _ _ (.loadHead n) => l ≠ [] ∧ (n ≠ 2 → 2 ≤ l.length ∧ 2 ≤ k)
  | .remove _ _ (.loadNext a n) => l.head? = some a ∧ (n ≠ 2 → 2 ≤ l.length ∧ 2 ≤ k)
  | .remove _ _ (.setHead a next n) =>
    l.head? = some a ∧ l.tail.head? = next ∧ (n ≠ 2 → 2 ≤ l.length ∧ 2 ≤ k)
  | .remove _ _ (.setTail _ n) => n = 2 ∧ l = []
  | .remove _ _ (.clearNext _ n) | .remove _ _ (.sub _ n) => n ≠ 2 → 2 ≤ k
  | .remove _ _ (.loadByte _ n) | .remove _ _ (.cas _ _ n) => n = 2 ∧ k = 0
  | _ => True

/-- A holder of the head only. -/
def Pc.light (p : ℕ) (x : Pc τ) : Prop :=
  (x.grip p).holds .head = true ∧ (x.grip p).holds .tail = false

structure PrioOk (next : τ → Option τ) (l : TaskList ι τ) (bit : Bool) (q : List τ)
    (tv hv : Option (Pc τ)) : Prop where
  chain : Chain next l.head q
  nodup : q.Nodup
  tail : tv.any Pc.stale = false → l.tail = q.getLast?
  count : l.count + (tv.any Pc.linked).toNat = q.length + (hv.any Pc.taken).toNat
  bit : 1 ≤ l.count → bit = true ∨ tv.any Pc.marking = true
  tailOk : ∀ x, tv = some x → x.tailOk q
  headOk : ∀ x, hv = some x → x.headOk q l.count

/-! ### What the other holder knows stays true -/

variable {q : List τ} {k k' : ℤ} {p : ℕ} {x : Pc τ}

theorem Pc.light.nlocks {p' n : ℕ} {r : From} {st : Rem τ} (hst : st.grip = .full .head n)
    (h : Pc.light p (.remove p' r st)) : n ≠ 2 := by
  rintro rfl
  obtain ⟨hh, ht⟩ := h
  by_cases hp : p' = p
  · simp [Pc.grip, hp, hst, Grip.full] at ht
  · simp [Pc.grip, hp, Grip.free] at hh

theorem Pc.headOk.append (h : x.headOk q k) (hx : x.light p) (t : τ) : x.headOk (q ++ [t]) k := by
  have htwo : ∀ q' : List τ, 2 ≤ q'.length → ∃ a b q'', q' = a :: b :: q'' := by
    intro q' hq'
    match q', hq' with
    | a :: b :: q'', _ => exact ⟨a, b, q'', rfl⟩
  cases x with
  | remove p' r st =>
    cases st with
    | loadHead n =>
      obtain ⟨hl, hk⟩ := h.2 (hx.nlocks rfl)
      exact ⟨by simp, fun _ => ⟨by rw [List.length_append]; omega, hk⟩⟩
    | loadNext a n =>
      obtain ⟨hl, hk⟩ := h.2 (hx.nlocks rfl)
      obtain ⟨b, c, q', rfl⟩ := htwo q hl
      exact ⟨h.1, fun _ => ⟨by rw [List.length_append]; omega, hk⟩⟩
    | setHead a next n =>
      obtain ⟨hl, hk⟩ := h.2.2 (hx.nlocks rfl)
      obtain ⟨b, c, q', rfl⟩ := htwo q hl
      exact ⟨h.1, h.2.1, fun _ => ⟨by rw [List.length_append]; omega, hk⟩⟩
    | setTail a n => exact absurd h.1 (hx.nlocks rfl)
    | _ => exact h
  | _ => exact trivial

theorem Pc.headOk.mono (h : x.headOk q k) (hx : x.light p) (hk : k ≤ k') : x.headOk q k' := by
  cases x with
  | remove p' r st =>
    cases st with
    | loadHead n | loadNext a n => exact ⟨h.1, fun hn => ⟨(h.2 hn).1, by have := (h.2 hn).2; omega⟩⟩
    | setHead a next n =>
      exact ⟨h.1, h.2.1, fun hn => ⟨(h.2.2 hn).1, by have := (h.2.2 hn).2; omega⟩⟩
    | clearNext a n | sub a n => exact fun hn => le_trans (h hn) hk
    | loadByte a n | cas a part n => exact absurd h.1 (hx.nlocks rfl)
    | _ => exact h
  | _ => exact trivial

theorem Pc.tailOk.tail (h : x.tailOk q) (hq : 2 ≤ q.length) : x.tailOk q.tail := by
  match q, hq with
  | a :: b :: q, _ =>
    have hlast : (b :: q).getLast? = (a :: b :: q).getLast? := by simp
    cases x with
    | insert task p' st =>
      cases st with
      | setHead n => exact absurd h (by simp [Pc.tailOk])
      | loadTail n => exact List.cons_ne_nil b q
      | link last n | setTail n | add n => exact hlast.trans h
      | _ => exact trivial
    | _ => exact trivial

/-! ### Steps without effect on the list -/

/-- A holder that has read nothing. -/
def Pc.quiet : Pc τ → Bool
  | .insert _ _ (.acq _) | .insert _ _ (.testHead _) | .insert _ _ (.rel _) => true
  | .insert _ _ _ => false
  | .remove _ _ (.acq _) | .remove _ _ (.testHead _) | .remove _ _ (.rel _ _) => true
  | .remove _ _ _ => false
  | _ => true

section

variable (h : x.quiet = true)
include h

theorem Pc.quiet_flags : x.stale = false ∧ x.linked = false ∧ x.taken = false ∧ x.marking = false := by
  cases x with
  | insert task p' st => cases st <;> first | exact ⟨rfl, rfl, rfl, rfl⟩ | cases h
  | remove p' r st => cases st <;> first | exact ⟨rfl, rfl, rfl, rfl⟩ | cases h
  | _ => exact ⟨rfl, rfl, rfl, rfl⟩

theorem Pc.quiet_tailOk : x.tailOk q := by
  cases x with
  | insert task p' st => cases st <;> trivial
  | _ => trivial

theorem Pc.quiet_headOk : x.headOk q k := by
  cases x with
  | remove p' r st => cases st <;> trivial
  | _ => trivial

end

/-- The holder changes, if at all, from a quiet thread to a quiet thread. -/
def Calm (v v' : Option (Pc τ)) : Prop :=
  v' = v ∨ (∀ x, v = some x → x.quiet = true) ∧ ∀ x, v' = some x → x.quiet = true

theorem any_of_quiet {v : Option (Pc τ)} (hv : ∀ x, v = some x → x.quiet = true) :
    v.any Pc.stale = false ∧ v.any Pc.linked = false ∧ v.any Pc.taken = false ∧
      v.any Pc.marking = false := by
  cases v with
  | none => exact ⟨rfl, rfl, rfl, rfl⟩
  | some x => exact Pc.quiet_flags (hv x rfl)

theorem Calm.any {v v' : Option (Pc τ)} (h : Calm v v') :
    v'.any Pc.stale = v.any Pc.stale ∧ v'.any Pc.linked = v.any Pc.linked ∧
      v'.any Pc.taken = v.any Pc.taken ∧ v'.any Pc.marking = v.any Pc.marking := by
  rcases h with rfl | ⟨hv, hv'⟩
  · exact ⟨rfl, rfl, rfl, rfl⟩
  · obtain ⟨h₁, h₂, h₃, h₄⟩ := any_of_quiet hv
    obtain ⟨h₁', h₂', h₃', h₄'⟩ := any_of_quiet hv'
    exact ⟨h₁'.trans h₁.symm, h₂'.trans h₂.symm, h₃'.trans h₃.symm, h₄'.trans h₄.symm⟩

variable {next next' : τ → Option τ} {l l' : TaskList ι τ} {b : Bool} {tv tv' hv hv' : Option (Pc τ)}

theorem PrioOk.calm (h : PrioOk next l b q tv hv)
    (hd : l'.head = l.head ∧ l'.tail = l.tail ∧ l'.count = l.count)
    (ht : Calm tv tv') (hh : Calm hv hv') : PrioOk next l' b q tv' hv' := by
  obtain ⟨h₁, h₂, h₃⟩ := hd
  obtain ⟨hstale, hlinked, -, hmark⟩ := ht.any
  obtain ⟨-, -, htaken, -⟩ := hh.any
  refine ⟨by rw [h₁]; exact h.chain, h.nodup, fun hs => ?_, ?_, fun hc => ?_, fun x hx => ?_,
    fun x hx => ?_⟩
  · rw [h₂]
    exact h.tail (hstale ▸ hs)
  · rw [h₃, hlinked, htaken]
    exact h.count
  · rw [hmark]
    exact h.bit (h₃ ▸ hc)
  · rcases ht with rfl | ⟨-, hq⟩
    · exact h.tailOk x hx
    · exact Pc.quiet_tailOk (hq x hx)
  · rw [h₃]
    rcases hh with rfl | ⟨-, hq⟩
    · exact h.headOk x hx
    · exact Pc.quiet_headOk (hq x hx)

/-! ### Bits -/

def PrioTaskArray.bit (g : PrioTaskArray ι τ) (p : ℕ) : Bool := checkBit (g.bitmap (p / 8)) (p % 8)

theorem checkBit_eq (part : BitVec 8) {bit : ℕ} (h : bit < 8) : checkBit part bit = part.getLsbD bit := by
  revert part
  interval_cases bit <;> decide

theorem getLsbD_shiftLeft_one {bit bit' : ℕ} (h' : bit' < 8) :
    (1#8 <<< bit).getLsbD bit' = decide (bit = bit') := by
  rw [BitVec.getLsbD_shiftLeft, BitVec.getLsbD_one]
  simp only [h', decide_true, Bool.true_and, ← decide_not, ← Bool.decide_and]
  exact decide_eq_decide.mpr (by omega)

theorem checkBit_setBit (part : BitVec 8) (bit : ℕ) {bit' : ℕ} (h' : bit' < 8) :
    checkBit (setBit part bit) bit' = (checkBit part bit' || decide (bit = bit')) := by
  rw [checkBit_eq _ h', checkBit_eq _ h', setBit, BitVec.getLsbD_or, getLsbD_shiftLeft_one h']

theorem checkBit_resetBit (part : BitVec 8) {bit bit' : ℕ} (h' : bit' < 8) (hne : bit ≠ bit') :
    checkBit (resetBit part bit) bit' = checkBit part bit' := by
  rw [checkBit_eq _ h', checkBit_eq _ h', resetBit, BitVec.getLsbD_and, BitVec.getLsbD_not,
    getLsbD_shiftLeft_one h']
  simp [h', hne]

section

variable {g g' : PrioTaskArray ι τ} {part part' : BitVec 8}

theorem PrioTaskArray.casByte_eq (h : g.casByte p part part' = some g') :
    g.bitmap (p / 8) = part ∧ g' = { g with bitmap := Function.update g.bitmap (p / 8) part' } := by
  simp only [PrioTaskArray.casByte] at h
  split at h <;> cases h
  exact ⟨‹_›, rfl⟩

theorem bit_casSet (h : g.casByte p part (setBit part (p % 8)) = some g') (r : ℕ) :
    g'.bit r = (g.bit r || decide (r = p)) := by
  obtain ⟨rfl, rfl⟩ := PrioTaskArray.casByte_eq h
  simp only [PrioTaskArray.bit]
  by_cases hb : r / 8 = p / 8
  · rw [hb, Function.update_self, checkBit_setBit _ _ (Nat.mod_lt r (by omega))]
    congr 1
    exact decide_eq_decide.mpr (by omega)
  · have hne : r ≠ p := fun he => hb (he ▸ rfl)
    simp [Function.update_of_ne hb, hne]

theorem bit_casReset (h : g.casByte p part (resetBit part (p % 8)) = some g') {r : ℕ} (hr : r ≠ p) :
    g'.bit r = g.bit r := by
  obtain ⟨rfl, rfl⟩ := PrioTaskArray.casByte_eq h
  simp only [PrioTaskArray.bit]
  by_cases hb : r / 8 = p / 8
  · rw [hb, Function.update_self, checkBit_resetBit _ (Nat.mod_lt r (by omega)) (by omega)]
  · rw [Function.update_of_ne hb]

end

/-! ### Steps of an insertion -/

/-- The list after a step of the insertion of `task`. -/
def Ins.push (task : τ) (q : List τ) : Ins τ → List τ
  | .setHead _ | .link _ _ => q ++ [task]
  | _ => q

def Ins.working : Ins τ → Bool
  | .acq _ | .rel _ => false
  | _ => true

section

variable [DecidableEq τ] {g g' : PrioTaskArray ι τ} {i : ι} {task : τ} {st st' : Ins τ}

theorem PrioOk.insert (h : PrioOk g.nextQueue (g.list p) (g.bit p) q (some (.insert task p st)) hv)
    (hh : hv = some (.insert task p st) ∧ hv' = some (.insert task p st') ∨
      hv' = hv ∧ ∀ y, hv = some y → y.light p)
    (ht : st.push task q ≠ q → task ∉ q ∧ g.nextQueue task = none)
    (hw : st.working = true) (hs : st.step i task p g = some (g', st')) :
    PrioOk g'.nextQueue (g'.list p) (g'.bit p) (st.push task q) (some (.insert task p st')) hv' := by
  have htaken : hv'.any Pc.taken = hv.any Pc.taken := by
    rcases hh with ⟨rfl, rfl⟩ | ⟨rfl, -⟩ <;> rfl
  have hhead : ∀ {q' : List τ} {k : ℤ}, (∀ y : Pc τ, y.light p → y.headOk q (g.list p).count →
      y.headOk q' k) → ∀ x, hv' = some x → x.headOk q' k := by
    intro q' k hy x hx
    rcases hh with ⟨rfl, rfl⟩ | ⟨rfl, hlight⟩
    · cases hx
      trivial
    · exact hy x (hlight x hx) (h.headOk x hx)
  have hsame : ∀ x, hv' = some x → x.headOk q (g.list p).count := hhead fun _ _ hy => hy
  have hcount := h.count
  cases st with
  | acq a => cases hw
  | rel todo => cases hw
  | testHead n =>
    simp only [Ins.step, Option.some.injEq, Prod.mk.injEq] at hs
    obtain ⟨rfl, rfl⟩ := hs
    have hnil := h.chain.eq_nil_iff
    split
    · next hn =>
      refine ⟨h.chain, h.nodup, h.tail, by rw [htaken]; exact hcount, h.bit, ?_, hsame⟩
      rintro x ⟨⟩
      exact hnil.mp (by simpa using hn)
    · next hn =>
      refine ⟨h.chain, h.nodup, h.tail, by rw [htaken]; exact hcount, h.bit, ?_, hsame⟩
      rintro x ⟨⟩
      exact fun he => hn (by simpa using hnil.mpr he)
  | setHead n =>
    cases hs
    obtain rfl : q = [] := h.tailOk _ rfl
    obtain ⟨hnot, hnull⟩ := ht (by simp [Ins.push])
    simp only [PrioTaskArray.setList_self, PrioTaskArray.setList_nextQueue, Ins.push]
    refine ⟨⟨rfl, hnull⟩, by simp, by simp [Pc.stale], ?_, h.bit, ?_, ?_⟩
    · rw [htaken]
      simp [Pc.linked] at hcount ⊢
      omega
    · rintro x ⟨⟩
      rfl
    · exact hhead fun y hy hyok => hyok.append hy task
  | loadTail n =>
    simp only [Ins.step, Option.map_eq_some_iff, Prod.mk.injEq] at hs
    obtain ⟨last, hlast, rfl, rfl⟩ := hs
    refine ⟨h.chain, h.nodup, h.tail, by rw [htaken]; exact hcount, h.bit, ?_, hsame⟩
    rintro x ⟨⟩
    exact (h.tail rfl).symm.trans hlast
  | link last n =>
    cases hs
    have hlast : q.getLast? = some last := h.tailOk _ rfl
    obtain ⟨hnot, hnull⟩ := ht (by simp [Ins.push])
    refine ⟨h.chain.link h.nodup hlast hnot hnull, ?_, by simp [Pc.stale], ?_, h.bit, ?_, ?_⟩
    · exact List.nodup_append.mpr ⟨h.nodup, by simp, by
        intro a ha b hb
        rw [List.mem_singleton.mp hb]
        exact fun he => hnot (he ▸ ha)⟩
    · rw [htaken, Ins.push, List.length_append]
      simp [Pc.linked] at hcount ⊢
      omega
    · rintro x ⟨⟩
      simp [Pc.tailOk, Ins.push]
    · exact hhead fun y hy hyok => hyok.append hy task
  | setTail n =>
    cases hs
    have hlast : q.getLast? = some task := h.tailOk _ rfl
    simp only [PrioTaskArray.setList_self, PrioTaskArray.setList_nextQueue, Ins.push]
    refine ⟨h.chain, h.nodup, fun _ => hlast.symm, by rw [htaken]; exact hcount, h.bit, ?_, hsame⟩
    rintro x ⟨⟩
    exact hlast
  | add n =>
    simp only [Ins.step, Option.some.injEq, Prod.mk.injEq] at hs
    obtain ⟨rfl, rfl⟩ := hs
    have hlast : q.getLast? = some task := h.tailOk _ rfl
    have hpos : 1 ≤ q.length := by
      cases q with
      | nil => simp at hlast
      | cons a q => simp
    have hmono : ∀ x, hv' = some x → x.headOk q ((g.list p).count + 1) :=
      hhead fun y hy hyok => hyok.mono hy (by omega)
    simp only [PrioTaskArray.setList_self, PrioTaskArray.setList_nextQueue, Ins.push]
    have hc : (g.list p).count + 1 = q.length + (hv'.any Pc.taken).toNat := by
      rw [htaken]
      simpa [Pc.linked] using hcount
    split
    · refine ⟨h.chain, h.nodup, h.tail, by simpa [Pc.linked] using hc, fun _ => .inr rfl, ?_, hmono⟩
      rintro x ⟨⟩
      trivial
    · next hne =>
      refine ⟨h.chain, h.nodup, h.tail, by simpa [Pc.linked] using hc, fun _ => .inl ?_, ?_, hmono⟩
      · rcases h.bit (by omega) with hb | hb
        · exact hb
        · simp [Pc.marking] at hb
      · rintro x ⟨⟩
        trivial
  | loadByte n =>
    cases hs
    refine ⟨h.chain, h.nodup, h.tail, by rw [htaken]; exact hcount, h.bit, ?_, hsame⟩
    rintro x ⟨⟩
    trivial
  | cas part n =>
    simp only [Ins.step] at hs
    split at hs <;> cases hs
    · next hg =>
      have hbit := bit_casSet hg p
      obtain ⟨-, rfl⟩ := PrioTaskArray.casByte_eq hg
      refine ⟨h.chain, h.nodup, h.tail, by rw [htaken]; exact hcount, fun _ => .inl ?_, ?_, hsame⟩
      · rw [hbit]
        simp
      · rintro x ⟨⟩
        trivial
    · refine ⟨h.chain, h.nodup, h.tail, by rw [htaken]; exact hcount, h.bit, ?_, hsame⟩
      rintro x ⟨⟩
      trivial

end

/-! ### Steps of a removal -/

def Rem.pop (q : List τ) : Rem τ → List τ
  | .setHead _ _ _ => q.tail
  | _ => q

/-- The number of locks between the two lock functions. -/
def Rem.nlocks : Rem τ → Option ℕ
  | .acq _ | .rel _ _ => none
  | .testHead n | .loadHead n | .loadNext _ n | .setHead _ _ n | .setTail _ n | .clearNext _ n
  | .sub _ n | .loadByte _ n | .cas _ _ n => some n

section

variable [DecidableEq τ] {g g' : PrioTaskArray ι τ} {i : ι} {r : From} {st st' : Rem τ} {n : ℕ}

theorem PrioOk.remove (h : PrioOk g.nextQueue (g.list p) (g.bit p) q tv (some (.remove p r st)))
    (hn : st.nlocks = some n)
    (ht : n = 2 ∧ tv = some (.remove p r st) ∧ tv' = some (.remove p r st') ∨ n ≠ 2 ∧ tv' = tv)
    (hsettled : ∀ n, st = .testHead n →
      n = 2 ∨ (g.list p).head = none ∨ 2 ≤ (g.list p).count)
    (hhand : ∀ a n, st = .clearNext a n → a ∉ q) (hs : st.step i p g = some (g', st')) :
    PrioOk g'.nextQueue (g'.list p) (g'.bit p) (st.pop q) tv' (some (.remove p r st')) := by
  have hlinked : tv'.any Pc.linked = tv.any Pc.linked := by
    rcases ht with ⟨-, rfl, rfl⟩ | ⟨-, rfl⟩ <;> rfl
  have hmark : tv'.any Pc.marking = tv.any Pc.marking := by
    rcases ht with ⟨-, rfl, rfl⟩ | ⟨-, rfl⟩ <;> rfl
  -- the tail lags behind only between the two writes of a removal with both locks
  have hstale : (Pc.remove p r st).stale = false → tv'.any Pc.stale = false →
      (g.list p).tail = q.getLast? := by
    intro hx hs'
    rcases ht with ⟨-, rfl, rfl⟩ | ⟨-, rfl⟩
    · exact h.tail hx
    · exact h.tail hs'
  have htail : ∀ {q' : List τ}, (n ≠ 2 → ∀ y : Pc τ, y.tailOk q → y.tailOk q') →
      ∀ x, tv' = some x → x.tailOk q' := by
    intro q' hy x hx
    rcases ht with ⟨-, rfl, rfl⟩ | ⟨hn, rfl⟩
    · cases hx
      trivial
    · exact hy hn x (h.tailOk x hx)
  have hsame : ∀ x, tv' = some x → x.tailOk q := htail fun _ _ hy => hy
  have hcount := h.count
  have hknow := h.headOk _ rfl
  have hbit : 1 ≤ (g.list p).count → g.bit p = true ∨ tv'.any Pc.marking = true := by
    rw [hmark]
    exact h.bit
  cases st with
  | acq a => cases hn
  | rel task todo => cases hn
  | testHead m =>
    obtain rfl : m = n := Option.some.inj hn
    simp only [Rem.step, Option.some.injEq, Prod.mk.injEq] at hs
    obtain ⟨rfl, rfl⟩ := hs
    have hnil := h.chain.eq_nil_iff
    split
    · refine ⟨h.chain, h.nodup, hstale rfl, by rw [hlinked]; exact hcount, hbit, hsame, ?_⟩
      rintro x ⟨⟩
      trivial
    · next hne =>
      refine ⟨h.chain, h.nodup, hstale rfl, by rw [hlinked]; exact hcount, hbit, hsame, ?_⟩
      rintro x ⟨⟩
      have hq : q ≠ [] := fun he => hne (by simpa using hnil.mpr he)
      refine ⟨hq, fun hm => ?_⟩
      rcases hsettled m rfl with h2 | hnone | hk
      · exact absurd h2 hm
      · exact absurd (hnil.mp hnone) hq
      · refine ⟨?_, hk⟩
        show 2 ≤ q.length
        simp [Pc.taken] at hcount
        omega
  | loadHead m =>
    simp only [Rem.step, Option.map_eq_some_iff, Prod.mk.injEq] at hs
    obtain ⟨a, ha, rfl, rfl⟩ := hs
    refine ⟨h.chain, h.nodup, hstale rfl, by rw [hlinked]; exact hcount, hbit, hsame, ?_⟩
    rintro x ⟨⟩
    exact ⟨h.chain.head_eq.symm.trans ha, hknow.2⟩
  | loadNext a m =>
    cases hs
    refine ⟨h.chain, h.nodup, hstale rfl, by rw [hlinked]; exact hcount, hbit, hsame, ?_⟩
    rintro x ⟨⟩
    obtain ⟨ha, hlen⟩ := hknow
    refine ⟨ha, ?_, hlen⟩
    have hchain := h.chain
    cases q with
    | nil => cases ha
    | cons b q =>
      cases ha
      exact hchain.2.head_eq.symm
  | setHead a y m =>
    obtain rfl : m = n := Option.some.inj hn
    simp only [Rem.step, Option.some.injEq, Prod.mk.injEq] at hs
    obtain ⟨rfl, rfl⟩ := hs
    obtain ⟨ha, hy, hlen⟩ := hknow
    obtain ⟨q, rfl⟩ : ∃ q', q = a :: q' := by
      cases q with
      | nil => cases ha
      | cons b q => exact ⟨q, by rw [Option.some.inj ha]⟩
    have hchain : Chain g.nextQueue y q := by
      have hc := h.chain.2
      have hy' : q.head? = y := hy
      rwa [hc.head_eq, hy'] at hc
    have hc : (g.list p).count + (tv'.any Pc.linked).toNat = q.length + 1 := by
      rw [hlinked]
      simpa [Pc.taken] using hcount
    have hto : ∀ x, tv' = some x → x.tailOk q :=
      htail fun hm x hx => hx.tail (hlen hm).1
    simp only [PrioTaskArray.setList_self, PrioTaskArray.setList_nextQueue, Rem.pop, List.tail_cons]
    split
    · next hnone =>
      obtain rfl : q = [] := hchain.eq_nil_iff.mp (by simpa using hnone)
      have hm : m = 2 := by
        by_contra hm
        simpa using (hlen hm).1
      rcases ht with ⟨-, -, rfl⟩ | ⟨hm', -⟩
      · refine ⟨hchain, by simp, ?_, by simpa [Pc.taken] using hc, hbit, hto, ?_⟩
        · simp [hnone, Pc.stale]
        · rintro x ⟨⟩
          exact ⟨hm, rfl⟩
      · exact absurd hm hm'
    · next hsome =>
      have hq : q ≠ [] := fun he => hsome (by simpa using hchain.eq_nil_iff.mpr he)
      refine ⟨hchain, (List.nodup_cons.mp h.nodup).2, fun hs' => ?_, by simpa [Pc.taken] using hc,
        hbit, hto, ?_⟩
      · rw [hstale rfl hs', List.getLast?_cons_of_ne_nil hq]
      · rintro x ⟨⟩
        exact fun hm => (hlen hm).2
  | setTail a m =>
    obtain rfl : m = n := Option.some.inj hn
    cases hs
    obtain ⟨hm, rfl⟩ := hknow
    simp only [PrioTaskArray.setList_self, PrioTaskArray.setList_nextQueue, Rem.pop]
    refine ⟨h.chain, h.nodup, fun _ => rfl, by rw [hlinked]; exact hcount, hbit, hsame, ?_⟩
    rintro x ⟨⟩
    exact fun hm' => absurd hm hm'
  | clearNext a m =>
    cases hs
    refine ⟨h.chain.update (hhand a m rfl) none, h.nodup, hstale rfl, by rw [hlinked]; exact hcount,
      hbit, hsame, ?_⟩
    rintro x ⟨⟩
    exact hknow
  | sub a m =>
    obtain rfl : m = n := Option.some.inj hn
    simp only [Rem.step, Option.some.injEq, Prod.mk.injEq] at hs
    obtain ⟨rfl, rfl⟩ := hs
    have hk : m ≠ 2 → 2 ≤ (g.list p).count := hknow
    have hc : (g.list p).count - 1 + (tv'.any Pc.linked).toNat = q.length := by
      rw [hlinked]
      simp [Pc.taken] at hcount
      omega
    simp only [PrioTaskArray.setList_self, PrioTaskArray.setList_nextQueue, Rem.pop]
    split
    · next hone =>
      have hm : m = 2 := by
        by_contra hm
        have := hk hm
        omega
      refine ⟨h.chain, h.nodup, hstale rfl, by simpa [Pc.taken] using hc, fun hle => ?_, hsame, ?_⟩
      · simp only at hle
        omega
      · rintro x ⟨⟩
        exact ⟨hm, by simp only; omega⟩
    · refine ⟨h.chain, h.nodup, hstale rfl, by simpa [Pc.taken] using hc, fun hle => hbit ?_, hsame, ?_⟩
      · simp only at hle
        omega
      · rintro x ⟨⟩
        trivial
  | loadByte a m =>
    cases hs
    refine ⟨h.chain, h.nodup, hstale rfl, by rw [hlinked]; exact hcount, hbit, hsame, ?_⟩
    rintro x ⟨⟩
    exact hknow
  | cas a part m =>
    simp only [Rem.step] at hs
    split at hs <;> cases hs
    · next hg =>
      obtain ⟨-, hzero⟩ := hknow
      obtain ⟨-, rfl⟩ := PrioTaskArray.casByte_eq hg
      refine ⟨h.chain, h.nodup, hstale rfl, by rw [hlinked]; exact hcount, fun hle => ?_, hsame, ?_⟩
      · simp only at hle
        omega
      · rintro x ⟨⟩
        trivial
    · refine ⟨h.chain, h.nodup, hstale rfl, by rw [hlinked]; exact hcount, hbit, hsame, ?_⟩
      rintro x ⟨⟩
      exact hknow

end

end TinyStm.Spin
