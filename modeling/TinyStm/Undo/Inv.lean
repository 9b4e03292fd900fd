import TinyStm.Undo.Model

/-!
# Invariants of the undo log

What a thread holds, what its write set says about it, and what one step does to locks, memory and log.
The entry that acquired a lock is the first one on its stripe, and the only one that drops it.
-/

namespace TinyStm.Undo

open UndoLog

variable {w : ℕ} {getLock : ℕ → ℕ} {noDup : Bool} {tid u k a : ℕ} {g g' : Mem w} {x x' : Thread w}

/-! ### What is left of a write set -/

/-- The entries whose locks are still to be released. -/
def Thread.left (x : Thread w) : ℕ :=
  match x.pc with
  | .release _ i => i
  | .undo i _ => i
  | .drop i _ => i
  | _ => x.wset.length

/-- The entries whose stores are still to be undone. -/
def Thread.logLeft (x : Thread w) : ℕ :=
  match x.pc with
  | .undo i _ => i
  | .drop i _ => i - 1
  | _ => x.wset.length

def saved (e : WEntry w) : Saved ℕ (BitVec w) := ⟨e.addr, if e.mask = 0 then none else some e.value⟩

/-- The memory after the undo of what is left. -/
def Thread.undone (x : Thread w) (m : ℕ → BitVec w) : ℕ → BitVec w :=
  restore ((x.wset.take x.logLeft).map saved) m

/-! ### Locks -/

/-- A later value of a lock word. -/
def Newer (l l' : Ver) : Prop := l.ts < l'.ts ∨ (l.ts = l'.ts ∧ l.inc < l'.inc)

theorem Newer.trans {l l' l'' : Ver} (h : Newer l l') (h' : Newer l' l'') : Newer l l'' := by
  unfold Newer at *
  omega

theorem Newer.irrefl (l : Ver) : ¬ Newer l l := by
  unfold Newer
  omega

/-- The thread owns the lock word, by a transaction or by a unit store. -/
def Holds (tid : ℕ) (l : LockWord) : Prop := l.own = some (.entry tid 0) ∨ l.own = some (.unit tid)

theorem Holds.unique {l : LockWord} (h : Holds tid l) (h' : Holds u l) : tid = u := by
  unfold Holds at h h'
  rcases h with h | h <;> rcases h' with h' | h' <;> rw [h] at h' <;> cases h' <;> rfl

theorem Holds.not_free {l : LockWord} (h : Holds tid l) : l.own ≠ none := by
  rcases h with h | h <;> rw [h] <;> exact Option.some_ne_none _

/-- The lock of a unit store in progress. -/
def UnitHolds (getLock : ℕ → ℕ) (k : ℕ) : Pc w → Prop
  | .unitStore a _ => getLock a = k
  | .unitInc a => getLock a = k
  | .unitRel a _ => getLock a = k
  | _ => False

/-- The timestamp that locks are going to be released with. -/
def Pc.stamp : Pc w → Option ℕ
  | .validate t => some t
  | .release t _ => some t
  | .undo _ t => if t = 0 then none else some t
  | .drop _ t => if t = 0 then none else some t
  | .unitRel _ t => some t
  | _ => none

/-! ### One thread -/

/-- The place has an entry that has saved its word. -/
def Thread.Saves (x : Thread w) (a : ℕ) : Prop :=
  ∃ (j : ℕ) (e : WEntry w), x.wset[j]? = some e ∧ e.addr = a ∧ e.mask ≠ 0

def PcOk (x : Thread w) : Pc w → Prop
  | .run => True
  | .writeLock _ _ _ => True
  | .writeCas _ _ _ _ => True
  | .commitInc => True
  | .validate _ => True
  | .remember i _ m _ => m ≠ 0 ∧ ∃ e, x.wset[i]? = some e ∧ e.mask = 0 ∧
    ∀ (j : ℕ) (f : WEntry w), i < j → x.wset[j]? = some f → f.addr ≠ e.addr
  | .merge a _ _ => x.Saves a
  | .writeMem a _ => x.Saves a
  | .release _ i => i ≤ x.wset.length
  | .undo i _ => i ≤ x.wset.length
  | .drop i _ => 0 < i ∧ i ≤ x.wset.length
  | _ => x.wset = []

structure ThreadOk (getLock : ℕ → ℕ) (noDup : Bool) (tid : ℕ) (g : Mem w) (x : Thread w) : Prop where
  held {j : ℕ} {e : WEntry w} : x.wset[j]? = some e → j < x.left →
    (g.lock (getLock e.addr)).own = some (.entry tid 0)
  own {k : ℕ} : (g.lock k).own = some (.entry tid 0) →
    ∃ (j : ℕ) (e : WEntry w), x.wset[j]? = some e ∧ j < x.left ∧ getLock e.addr = k
  unit (k : ℕ) : (g.lock k).own = some (.unit tid) ↔ UnitHolds getLock k x.pc
  first {j : ℕ} {e : WEntry w} : x.wset[j]? = some e → (e.noDrop = true ↔
    ∃ (i : ℕ) (f : WEntry w), i < j ∧ x.wset[i]? = some f ∧ getLock f.addr = getLock e.addr)
  version {j : ℕ} {e : WEntry w} : x.wset[j]? = some e → j < x.left → e.noDrop = false →
    e.version = (g.lock (getLock e.addr)).ver
  inj : noDup = true → ∀ {i j : ℕ} {e f : WEntry w}, x.wset[i]? = some e → x.wset[j]? = some f →
    e.addr = f.addr → i = j
  stamp {t : ℕ} : x.pc.stamp = some t → t ≤ g.clock ∧
    ∀ k, Holds tid (g.lock k) → (g.lock k).ver.ts < t
  pc : PcOk x x.pc

/-- The version of every lock is a time that was, and owned words point to descriptors. -/
structure SharedOk (g : Mem w) : Prop where
  ver_le (k : ℕ) : (g.lock k).ver.ts ≤ g.clock
  index {k t n : ℕ} : (g.lock k).own = some (.entry t n) → n = 0

/-! ### One step -/

/-- What a step of the thread `tid` does to a lock word. -/
inductive LockStep (tid : ℕ) (l : LockWord) : LockWord → Prop
  | keep : LockStep tid l l
  | take {l' : LockWord} : l.own = none → Holds tid l' → l'.ver = l.ver → LockStep tid l l'
  | free {l' : LockWord} : Holds tid l → l'.own = none → Newer l.ver l'.ver → LockStep tid l l'

/-- What a step of the thread `tid` does. -/
structure Effect (getLock : ℕ → ℕ) (tid : ℕ) (g g' : Mem w) (x x' : Thread w) : Prop where
  clock : g.clock ≤ g'.clock
  lock (k : ℕ) : LockStep tid (g.lock k) (g'.lock k)
  mem (a : ℕ) : g'.mem a = g.mem a ∨
    (Holds tid (g.lock (getLock a)) ∧ g'.lock (getLock a) = g.lock (getLock a))
  log (a : ℕ) : (g.lock (getLock a)).own = some (.entry tid 0) →
    g'.lock (getLock a) = g.lock (getLock a) → x'.undone g'.mem a = x.undone g.mem a
  took (a : ℕ) : (g.lock (getLock a)).own = none →
    (g'.lock (getLock a)).own = some (.entry tid 0) → x'.undone g'.mem a = g.mem a

/-- The locks of another thread stay as they are, and none is added. -/
theorem LockStep.eq_of_holds {l l' : LockWord} (h : LockStep tid l l') (hu : u ≠ tid)
    (hk : Holds u l ∨ Holds u l') : l' = l := by
  cases h with
  | keep => rfl
  | take hfree hl' hver =>
    obtain hk | hk := hk
    · exact absurd hfree hk.not_free
    · exact absurd (hk.unique hl') hu
  | free hl hfree hver =>
    obtain hk | hk := hk
    · exact absurd (hk.unique hl) hu
    · exact absurd hfree hk.not_free

/-- What holds of a thread goes on to hold when another one moves. -/
theorem ThreadOk.stable (h : ThreadOk getLock noDup u g x) {y y' : Thread w}
    (he : Effect getLock tid g g' y y') (hu : u ≠ tid) : ThreadOk getLock noDup u g' x := by
  have hown (k : ℕ) (o : Owner) (ho : o = .entry u 0 ∨ o = .unit u)
      (hk : (g.lock k).own = some o ∨ (g'.lock k).own = some o) : g'.lock k = g.lock k := by
    refine (he.lock k).eq_of_holds hu ?_
    obtain rfl | rfl := ho
    · exact hk.imp .inl .inl
    · exact hk.imp .inr .inr
  exact
    { held := fun hj hlt => by
        have hheld := h.held hj hlt
        rw [hown _ _ (.inl rfl) (.inl hheld)]
        exact hheld
      own := fun {k} hk => by
        rw [hown k _ (.inl rfl) (.inr hk)] at hk
        exact h.own hk
      unit := fun k => by
        rw [← h.unit k]
        constructor
        · intro hk
          rwa [← hown _ _ (.inr rfl) (.inr hk)]
        · intro hk
          rwa [hown _ _ (.inr rfl) (.inl hk)]
      first := h.first
      version := fun hj hlt hd => by
        rw [hown _ _ (.inl rfl) (.inl (h.held hj hlt))]
        exact h.version hj hlt hd
      inj := h.inj
      stamp := fun ht => by
        obtain ⟨hle, hlt⟩ := h.stamp ht
        refine ⟨hle.trans he.clock, fun k hk => ?_⟩
        have heq := (he.lock k).eq_of_holds hu (.inr hk)
        rw [heq] at hk ⊢
        exact hlt k hk
      pc := h.pc }

end TinyStm.Undo
