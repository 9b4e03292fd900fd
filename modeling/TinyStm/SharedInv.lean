import TinyStm.Machine

/-!
# Invariant of the shared state

`SInv` ties lock words, clock, memory and log together: the version of a lock is
the timestamp of the last update that touched it, an update above the version
belongs to the thread that holds the lock, and the memory of a stripe that is
not dirty is the memory of its version. `Interf u` is what the steps of the
other threads may do as seen by thread `u`. The second half shows, for each
atomic update the machine makes (acquire, fetch-and-increment, decide, withdraw,
store, release, record), that it keeps the invariant and what it interferes with.
-/

namespace TinyStm

open Timeline

/-- What is asked of the runs: that all attempts have consistent loads, not only
the committed ones, and that `stm_set_extension` is not called. -/
structure Mode where
  oneTime : Prop
  noExt : Prop

variable {w : ℕ} {b : Build} {P : Mode} {g g' : Shared w} {tid u k n a : ℕ}

/-! ### Versions -/

/-- The timestamp of lock `k`: of its word if free, else of the word it replaced. -/
def Shared.ver (b : Build) (g : Shared w) (k : ℕ) : ℕ := b.stamp (g.lock k).ver.ts

/-- The order in which a lock goes through its versions. -/
def VerLe (b : Build) (l l' : Ver) : Prop :=
  b.stamp l.ts < b.stamp l'.ts ∨ (l.ts = l'.ts ∧ l.inc ≤ l'.inc)

def VerLt (b : Build) (l l' : Ver) : Prop :=
  b.stamp l.ts < b.stamp l'.ts ∨ (l.ts = l'.ts ∧ l.inc < l'.inc)

theorem VerLe.refl (l : Ver) : VerLe b l l := .inr ⟨rfl, le_rfl⟩

theorem VerLe.stamp_le {l l' : Ver} (h : VerLe b l l') : b.stamp l.ts ≤ b.stamp l'.ts := by
  rcases h with h | ⟨h, -⟩
  · exact h.le
  · exact le_of_eq (by rw [h])

theorem VerLe.trans {l l' l'' : Ver} (h : VerLe b l l') (h' : VerLe b l' l'') :
    VerLe b l l'' := by
  rcases h with h | ⟨h₁, h₂⟩
  · exact .inl (lt_of_lt_of_le h h'.stamp_le)
  · rcases h' with h' | ⟨h₁', h₂'⟩
    · exact .inl (by rw [h₁]; exact h')
    · exact .inr ⟨h₁.trans h₁', h₂.trans h₂'⟩

theorem VerLt.trans_le {l l' l'' : Ver} (h : VerLt b l l') (h' : VerLe b l' l'') :
    VerLt b l l'' := by
  rcases h with h | ⟨h₁, h₂⟩
  · exact .inl (lt_of_lt_of_le h h'.stamp_le)
  · rcases h' with h' | ⟨h₁', h₂'⟩
    · exact .inl (by rw [h₁]; exact h')
    · exact .inr ⟨h₁.trans h₁', lt_of_lt_of_le h₂ h₂'⟩

theorem VerLe.antisymm {l l' : Ver} (h : VerLe b l l') (h' : VerLe b l' l) : l = l' := by
  have hge := h'.stamp_le
  rcases h with h | ⟨h₁, h₂⟩
  · omega
  · rcases h' with h' | ⟨-, h₂'⟩
    · rw [h₁] at h'
      exact absurd h' (lt_irrefl _)
    · have hinc : l.inc = l'.inc := Nat.le_antisymm h₂ h₂'
      cases l
      cases l'
      simp_all

theorem VerLe.lt_of_ne {l l' : Ver} (h : VerLe b l l') (hne : l ≠ l') : VerLt b l l' := by
  rcases h with h | ⟨h₁, h₂⟩
  · exact .inl h
  · rcases Nat.eq_or_lt_of_le h₂ with he | hlt
    · exact absurd (by cases l; cases l'; simp_all) hne
    · exact .inr ⟨h₁, hlt⟩

theorem VerLt.irrefl {l : Ver} (h : VerLt b l l) : False := by
  rcases h with h | ⟨-, h⟩
  · exact lt_irrefl _ h
  · exact lt_irrefl _ h

/-! ### Ownership -/

def LockWord.HeldBy (l : LockWord) (tid : ℕ) : Prop :=
  (∃ i, l.own = some (.entry tid i)) ∨ l.own = some (.unit tid)

@[simp] theorem not_heldBy_free (v : Ver) (tid : ℕ) : ¬ (⟨v, none⟩ : LockWord).HeldBy tid := by
  simp [LockWord.HeldBy]

@[simp] theorem heldBy_entry (v : Ver) (t i tid : ℕ) :
    (⟨v, some (.entry t i)⟩ : LockWord).HeldBy tid ↔ t = tid := by
  simp [LockWord.HeldBy]

@[simp] theorem heldBy_unit (v : Ver) (t tid : ℕ) :
    (⟨v, some (.unit t)⟩ : LockWord).HeldBy tid ↔ t = tid := by
  simp [LockWord.HeldBy]

def LockWord.isHeldBy (l : LockWord) (tid : ℕ) : Bool :=
  match l.own with
  | none => false
  | some (.entry t _) => t == tid
  | some (.unit t) => t == tid

instance (l : LockWord) (tid : ℕ) : Decidable (l.HeldBy tid) :=
  decidable_of_iff (l.isHeldBy tid = true) (by
    obtain ⟨v, own⟩ := l
    rcases own with - | ⟨t, i⟩ | t <;> simp [LockWord.isHeldBy])

theorem LockWord.HeldBy.unique {l : LockWord} (h : l.HeldBy tid) (h' : l.HeldBy u) : tid = u := by
  rcases h with ⟨i, h⟩ | h <;> rcases h' with ⟨j, h'⟩ | h' <;> rw [h] at h' <;> simp_all

/-- Memory of the stripe may differ from the memory at its version: a write-through
owner, a unit store, or a decided update that is being written back. -/
def Dirty (b : Build) (g : Shared w) (k : ℕ) : Prop :=
  match (g.lock k).own with
  | none => False
  | some (.unit _) => True
  | some (.entry _ _) => b.design = .writeThrough ∨
      ∃ n s, g.ver b k < n ∧ g.log n = some s ∧ s.decided = true ∧ (b.sem w).touch s.body k

/-- No lock load can return version `l` free again. -/
def Passed (b : Build) (g : Shared w) (k : ℕ) (l : Ver) : Prop :=
  VerLt b l (g.lock k).ver ∨ (l = (g.lock k).ver ∧ Dirty b g k)

theorem not_passed_free {l : Ver} (h : g.lock k = ⟨l, none⟩) : ¬ Passed b g k l := by
  rintro (hlt | ⟨-, hd⟩)
  · rw [h] at hlt
    exact hlt.irrefl
  · simp [Dirty, h] at hd

/-! ### Consistent reads and finished attempts -/

/-- The read returned own bits only, or the word of its address at time `e`. -/
def ReadAt (b : Build) (g : Shared w) (e : ℕ) (r : Read w) : Prop :=
  (∀ y, r.val = overlay r.pre r.addr y) ∨
  ∃ v, r.val = overlay r.pre r.addr (g.at b v r.addr) ∧ v ≤ g.ver b (b.getLock w r.addr) ∧
    v ≤ e ∧ Quiet (b.sem w) g.log (b.getLock w r.addr) v e

/-- The timestamp of an attempt that wrote. -/
def Attempt.wrote (A : Attempt w) : Option ℕ :=
  match A.outcome with
  | .committed t => some t
  | .unit t => some t
  | _ => none

/-- The place of a transaction in the serial order, if it has one. -/
def Attempt.pos (A : Attempt w) : Option ℕ :=
  match A.outcome with
  | .committed t => some t
  | .readOnly => some A.snap
  | _ => none

/-- What is known of a finished attempt. -/
structure HistOk (b : Build) (P : Mode) (g : Shared w) (A : Attempt w) : Prop where
  times : A.began < A.finished ∧ A.finished ≤ g.time
  snap_le : A.snap ≤ g.clock
  endEq : P.noExt → b.stamp A.endT = A.snap
  consistent : P.oneTime → ∃ e, e ≤ g.clock ∧ (b.design = .writeBackCtl → e = A.snap) ∧
    ∀ r ∈ A.reads, ReadAt b g e r
  pre : ∀ r ∈ A.reads, r.pre <+: A.stores
  commit : ∀ t, A.wrote = some t → 0 < t ∧ t ≤ g.clock ∧
    g.log t = some ⟨A.tid, A.stores, true⟩ ∧ ∀ r ∈ A.reads, ReadAt b g (t - 1) r
  readOnly : A.outcome = .readOnly → A.stores = [] ∧ ∀ r ∈ A.reads, ReadAt b g A.snap r

/-- `A` ended before `B` began, so it comes first in the serial order. -/
def Ordered (A B : Attempt w) : Prop :=
  A.finished ≤ B.began → ∀ p q, A.pos = some p → B.pos = some q →
    p ≤ q ∧ ∀ t, B.wrote = some t → p < t

/-- The invariant of the shared state. -/
structure SInv (b : Build) (P : Mode) (g : Shared w) : Prop where
  slot : ∀ {n s}, g.log n = some s → 0 < n ∧ n ≤ g.clock
  live : ∀ {n s k}, g.log n = some s → (b.sem w).touch s.body k → g.ver b k < n →
    (g.lock k).HeldBy s.owner
  pend : ∀ {n s k}, g.log n = some s → s.decided = false → (b.sem w).touch s.body k →
    g.ver b k < n
  wrote : ∀ k, g.ver b k = 0 ∨ Touches (b.sem w) g.log (g.ver b k) k
  clean : ∀ a, ¬ Dirty b g (b.getLock w a) → g.mem a = g.at b (g.ver b (b.getLock w a)) a
  hist : ∀ A ∈ g.hist, HistOk b P g A
  uniq : g.hist.Pairwise fun A B => ∀ t, A.wrote = some t → B.wrote ≠ some t
  order : ∀ A ∈ g.hist, ∀ B ∈ g.hist, Ordered A B

theorem SInv.ver_le (h : SInv b P g) (k : ℕ) : g.ver b k ≤ g.clock := by
  rcases h.wrote k with h0 | ⟨s, hs, -⟩
  · omega
  · exact (h.slot hs).2

theorem SInv.decided (h : SInv b P g) {s : Slot (List (Store w))} (hn : n ≤ g.ver b k)
    (hs : g.log n = some s) (ht : (b.sem w).touch s.body k) : s.decided = true := by
  by_contra hd
  have := h.pend hs (by simpa using hd) ht
  omega

/-- Nothing above the version of a free lock. -/
theorem SInv.quiet_free (h : SInv b P g) {v : Ver} (hk : g.lock k = ⟨v, none⟩) (e : ℕ) :
    Quiet (b.sem w) g.log k (b.stamp v.ts) e := by
  rintro n hn - ⟨s, hs, ht⟩
  have hv : g.ver b k = b.stamp v.ts := by simp [Shared.ver, hk]
  have := h.live hs ht (by omega)
  rw [hk] at this
  exact not_heldBy_free _ _ this

theorem SInv.mem_free (h : SInv b P g) {v : Ver} (hk : g.lock (b.getLock w a) = ⟨v, none⟩) :
    g.mem a = g.at b (b.stamp v.ts) a := by
  have hd : ¬ Dirty b g (b.getLock w a) := by simp [Dirty, hk]
  have := h.clean a hd
  simpa [Shared.ver, hk] using this

/-! ### Evolution and interference -/

/-- What no step undoes. -/
structure Evol (b : Build) (g g' : Shared w) : Prop where
  clock : g.clock ≤ g'.clock
  mem0 : g'.mem0 = g.mem0
  log : Later g.clock g.log g'.log
  ver : ∀ k, VerLe b (g.lock k).ver (g'.lock k).ver
  dirty : ∀ k, (g'.lock k).ver = (g.lock k).ver → Dirty b g k → Dirty b g' k
  time : g.time ≤ g'.time
  hist : ∀ A ∈ g'.hist, A ∈ g.hist ∨ g.time ≤ A.finished
  histKeep : ∀ A ∈ g.hist, A ∈ g'.hist

/-- The locks that `u` holds, and the memory below them, stay as they are. -/
structure Frame (b : Build) (u : ℕ) (g g' : Shared w) : Prop extends Evol b g g' where
  lock : ∀ k, (g.lock k).HeldBy u ∨ (g'.lock k).HeldBy u → g'.lock k = g.lock k
  mem : ∀ a, (g.lock (b.getLock w a)).HeldBy u → g'.mem a = g.mem a

/-- What a step of another thread may do to the shared state, as seen by `u`. -/
structure Interf (b : Build) (u : ℕ) (g g' : Shared w) : Prop extends Frame b u g g' where
  own : ∀ n s, s.owner = u → (g'.log n = some s ↔ g.log n = some s)
  histNew : ∀ A ∈ g'.hist, A ∈ g.hist ∨ A.tid ≠ u

theorem Evol.refl (g : Shared w) : Evol b g g :=
  ⟨le_rfl, rfl, .refl _ _, fun _ => .refl _, fun _ _ h => h, le_rfl, fun _ h => .inl h, fun _ h => h⟩

theorem Interf.refl (u : ℕ) (g : Shared w) : Interf b u g g :=
  ⟨⟨.refl g, fun _ _ => rfl, fun _ _ => rfl⟩, fun _ _ _ => Iff.rfl, fun _ h => .inl h⟩

theorem Evol.trans {g'' : Shared w} (h : Evol b g g') (h' : Evol b g' g'') : Evol b g g'' where
  clock := h.clock.trans h'.clock
  mem0 := h'.mem0.trans h.mem0
  log := h.log.trans h.clock h'.log
  ver k := (h.ver k).trans (h'.ver k)
  dirty k hv hd := by
    have hmid : (g'.lock k).ver = (g.lock k).ver := VerLe.antisymm (hv ▸ h'.ver k) (h.ver k)
    exact h'.dirty k (hv.trans hmid.symm) (h.dirty k hmid hd)
  time := h.time.trans h'.time
  hist A hA := by
    rcases h'.hist A hA with hA' | hA'
    · exact h.hist A hA'
    · exact .inr (h.time.trans hA')
  histKeep A hA := h'.histKeep A (h.histKeep A hA)

theorem Interf.trans {g'' : Shared w} (h : Interf b u g g') (h' : Interf b u g' g'') :
    Interf b u g g'' where
  toEvol := h.toEvol.trans h'.toEvol
  own n s hs := (h'.own n s hs).trans (h.own n s hs)
  lock k hk := by
    rcases hk with hk | hk
    · have h₁ := h.lock k (.inl hk)
      exact (h'.lock k (.inl (h₁ ▸ hk))).trans h₁
    · have h₂ := h'.lock k (.inr hk)
      exact h₂.trans (h.lock k (.inr (h₂ ▸ hk)))
  mem a ha := by
    have h₁ := h.lock _ (.inl ha)
    exact (h'.mem a (h₁ ▸ ha)).trans (h.mem a ha)
  histNew A hA := by
    rcases h'.histNew A hA with hA' | hA'
    · exact h.histNew A hA'
    · exact .inr hA'

section Stable

variable (h : SInv b P g) (hE : Evol b g g')
include hE

theorem Evol.ver_le (k : ℕ) : g.ver b k ≤ g'.ver b k := (hE.ver k).stamp_le

include h

theorem Evol.at_eq {v : ℕ} (hv : v ≤ g.ver b (b.getLock w a)) : g'.at b v a = g.at b v a := by
  unfold Shared.at
  rw [hE.mem0]
  exact hE.log.memAt_eq (hv.trans (h.ver_le _)) fun n s hn hs ht =>
    h.decided (hn.trans hv) hs ht

omit h in
theorem Evol.quiet {v e : ℕ} (he : e ≤ g.clock) (hq : Quiet (b.sem w) g.log k v e) :
    Quiet (b.sem w) g'.log k v e := hE.log.quiet he hq

omit h in
theorem Evol.passed {l : Ver} (hp : Passed b g k l) : Passed b g' k l := by
  rcases hp with hlt | ⟨heq, hd⟩
  · exact .inl (hlt.trans_le (hE.ver k))
  · by_cases hv : (g'.lock k).ver = (g.lock k).ver
    · exact .inr ⟨heq.trans hv.symm, hE.dirty k hv hd⟩
    · exact .inl (heq ▸ (hE.ver k).lt_of_ne fun he => hv he.symm)

theorem Evol.readAt {e : ℕ} {r : Read w} (he : e ≤ g.clock) (hr : ReadAt b g e r) :
    ReadAt b g' e r := by
  rcases hr with hb | ⟨v, hval, hv, hve, hq⟩
  · exact .inl hb
  · refine .inr ⟨v, ?_, hv.trans (hE.ver_le _), hve, hE.quiet he hq⟩
    rw [hE.at_eq h hv]
    exact hval

theorem Evol.histOk {A : Attempt w} (hA : HistOk b P g A) : HistOk b P g' A where
  times := ⟨hA.times.1, hA.times.2.trans hE.time⟩
  snap_le := hA.snap_le.trans hE.clock
  endEq := hA.endEq
  consistent ho := by
    obtain ⟨e, he, hd, hr⟩ := hA.consistent ho
    exact ⟨e, he.trans hE.clock, hd, fun r hm => hE.readAt h he (hr r hm)⟩
  pre := hA.pre
  commit t ht := by
    obtain ⟨h0, hle, hlog, hr⟩ := hA.commit t ht
    exact ⟨h0, hle.trans hE.clock, hE.log.keep t _ hlog rfl,
      fun r hm => hE.readAt h (by omega) (hr r hm)⟩
  readOnly ho := ⟨(hA.readOnly ho).1, fun r hr => hE.readAt h hA.snap_le ((hA.readOnly ho).2 r hr)⟩

end Stable

section Rely

variable (hI : Frame b u g g')
include hI

theorem Frame.heldBy_iff (k : ℕ) : (g'.lock k).HeldBy u ↔ (g.lock k).HeldBy u :=
  ⟨fun h => hI.lock k (.inr h) ▸ h, fun h => (hI.lock k (.inl h)).symm ▸ h⟩

theorem Frame.entry_iff (k i : ℕ) :
    (g'.lock k).own = some (.entry u i) ↔ (g.lock k).own = some (.entry u i) :=
  ⟨fun h => hI.lock k (.inr (.inl ⟨i, h⟩)) ▸ h,
    fun h => (hI.lock k (.inl (.inl ⟨i, h⟩))).symm ▸ h⟩

theorem Frame.unit_iff (k : ℕ) :
    (g'.lock k).own = some (.unit u) ↔ (g.lock k).own = some (.unit u) :=
  ⟨fun h => hI.lock k (.inr (.inr h)) ▸ h, fun h => (hI.lock k (.inl (.inr h))).symm ▸ h⟩

theorem Frame.ver_held {k : ℕ} (h : (g.lock k).HeldBy u) : g'.ver b k = g.ver b k := by
  simp only [Shared.ver, hI.lock k (.inl h)]

theorem Frame.at_held (hS : SInv b P g) (h : (g.lock (b.getLock w a)).HeldBy u) :
    g'.at b (g'.ver b (b.getLock w a)) a = g.at b (g.ver b (b.getLock w a)) a := by
  rw [hI.ver_held h, hI.toEvol.at_eq hS le_rfl]

end Rely

/-! ### Passing of time -/

theorem interf_tick (u : ℕ) (g : Shared w) : Interf b u g g.tick :=
  ⟨⟨⟨le_rfl, rfl, .refl _ _, fun _ => .refl _, fun _ _ h => h, Nat.le_succ _, fun _ h => .inl h,
    fun _ h => h⟩, fun _ _ => rfl, fun _ _ => rfl⟩, fun _ _ _ => Iff.rfl, fun _ h => .inl h⟩

theorem SInv.tick (h : SInv b P g) : SInv b P g.tick where
  slot := h.slot
  live := h.live
  pend := h.pend
  wrote := h.wrote
  clean := h.clean
  hist A hA := (interf_tick 0 g).toEvol.histOk h (h.hist A hA)
  uniq := h.uniq
  order := h.order

/-! ### Atomic updates -/

@[simp] theorem setLock_self (g : Shared w) (k : ℕ) (l : LockWord) :
    (g.setLock k l).lock k = l := by simp [Shared.setLock]

theorem setLock_of_ne (g : Shared w) {k k' : ℕ} (l : LockWord) (h : k' ≠ k) :
    (g.setLock k l).lock k' = g.lock k' := by simp [Shared.setLock, h]

theorem setLock_at (g : Shared w) (l : LockWord) (v : ℕ) :
    (g.setLock k l).at b v a = g.at b v a := rfl

theorem dirty_congr (hl : g'.lock k = g.lock k)
    (hlog : ∀ n s, g.ver b k < n → s.decided = true → (b.sem w).touch s.body k →
      (g'.log n = some s ↔ g.log n = some s)) :
    Dirty b g' k ↔ Dirty b g k := by
  have hv : g'.ver b k = g.ver b k := by simp [Shared.ver, hl]
  unfold Dirty
  rw [hl, hv]
  split
  · exact Iff.rfl
  · exact Iff.rfl
  · refine or_congr_right ?_
    constructor
    · rintro ⟨n, s, hn, hs, hd, ht⟩
      exact ⟨n, s, hn, (hlog n s hn hd ht).mp hs, hd, ht⟩
    · rintro ⟨n, s, hn, hs, hd, ht⟩
      exact ⟨n, s, hn, (hlog n s hn hd ht).mpr hs, hd, ht⟩

section SetLock

variable {l : LockWord} (h : SInv b P g)
  (hver : VerLe b (g.lock k).ver l.ver)
  (hdirty : l.ver = (g.lock k).ver → Dirty b g k → Dirty b (g.setLock k l) k)

omit h in
include hver hdirty in
theorem evol_setLock : Evol b g (g.setLock k l) where
  clock := le_rfl
  mem0 := rfl
  log := .refl _ _
  ver k' := by
    by_cases hk : k' = k
    · subst hk
      simpa using hver
    · rw [setLock_of_ne g l hk]
      exact .refl _
  dirty k' hv hd := by
    by_cases hk : k' = k
    · subst hk
      exact hdirty (by simpa using hv) hd
    · exact (dirty_congr (setLock_of_ne g l hk) fun _ _ _ _ _ => Iff.rfl).mpr hd
  time := le_rfl
  hist _ hA := .inl hA
  histKeep _ hA := hA

omit h in
include hver hdirty in
theorem interf_setLock (ho : ¬ (g.lock k).HeldBy u) (hn : ¬ l.HeldBy u) :
    Interf b u g (g.setLock k l) where
  toEvol := evol_setLock hver hdirty
  own _ _ _ := Iff.rfl
  lock k' hk' := by
    by_cases hk : k' = k
    · subst hk
      rw [setLock_self] at hk'
      exact absurd hk' (by simp [ho, hn])
    · exact setLock_of_ne g l hk
  mem _ _ := rfl
  histNew _ hA := .inl hA

include h hver hdirty in
theorem SInv.setLock
    (hlive : ∀ n s, g.log n = some s → (b.sem w).touch s.body k → b.stamp l.ver.ts < n →
      l.HeldBy s.owner)
    (hpend : ∀ n s, g.log n = some s → s.decided = false → (b.sem w).touch s.body k →
      b.stamp l.ver.ts < n)
    (hwrote : b.stamp l.ver.ts = 0 ∨ Touches (b.sem w) g.log (b.stamp l.ver.ts) k)
    (hclean : ¬ Dirty b (g.setLock k l) k → ∀ a, b.getLock w a = k →
      g.mem a = g.at b (b.stamp l.ver.ts) a) :
    SInv b P (g.setLock k l) := by
  have hself : (g.setLock k l).ver b k = b.stamp l.ver.ts := by simp [Shared.ver]
  have hother : ∀ k', k' ≠ k → (g.setLock k l).ver b k' = g.ver b k' := by
    intro k' hk
    simp only [Shared.ver, setLock_of_ne g l hk]
  constructor
  case slot => exact fun hs => h.slot hs
  case live =>
    intro n s k' hs ht hn
    by_cases hk : k' = k
    · subst hk
      rw [setLock_self]
      exact hlive n s hs ht (hself ▸ hn)
    · rw [setLock_of_ne g l hk]
      exact h.live hs ht (hother k' hk ▸ hn)
  case pend =>
    intro n s k' hs hd ht
    by_cases hk : k' = k
    · subst hk
      rw [hself]
      exact hpend n s hs hd ht
    · rw [hother k' hk]
      exact h.pend hs hd ht
  case wrote =>
    intro k'
    by_cases hk : k' = k
    · subst hk
      rw [hself]
      exact hwrote
    · rw [hother k' hk]
      exact h.wrote k'
  case clean =>
    intro a hd
    by_cases hk : b.getLock w a = k
    · subst hk
      rw [hself]
      exact hclean hd a rfl
    · rw [hother _ hk]
      exact h.clean a fun hd' => hd
        ((dirty_congr (setLock_of_ne g l hk) fun _ _ _ _ _ => Iff.rfl).mpr hd')
  case hist => exact fun A hA => (evol_setLock hver hdirty).histOk h (h.hist A hA)
  case uniq => exact h.uniq
  case order => exact h.order

end SetLock

/-- Compare-and-swap of a free lock. -/
theorem SInv.acquire (h : SInv b P g) {v : Ver} (hk : g.lock k = ⟨v, none⟩) (o : Owner) :
    SInv b P (g.setLock k ⟨v, some o⟩) := by
  have hq := h.quiet_free hk g.clock
  have hv : g.ver b k = b.stamp v.ts := by simp [Shared.ver, hk]
  refine h.setLock (by rw [hk]; exact .refl _) (fun _ hd => by simp [Dirty, hk] at hd) ?_ ?_ ?_ ?_
  · intro n s hs ht hn
    exact absurd ⟨s, hs, ht⟩ (hq n hn (h.slot hs).2)
  · intro n s hs hd ht
    exact hv ▸ h.pend hs hd ht
  · exact hv ▸ h.wrote k
  · rintro - a rfl
    exact h.mem_free hk

theorem interf_acquire {v : Ver} {o : Owner} (hk : g.lock k = ⟨v, none⟩)
    (hu : ¬ (⟨v, some o⟩ : LockWord).HeldBy u) : Interf b u g (g.setLock k ⟨v, some o⟩) :=
  interf_setLock (by rw [hk]; exact .refl _) (fun _ hd => by simp [Dirty, hk] at hd)
    (by rw [hk]; exact not_heldBy_free _ _) hu

/-- Release of a lock with version `v`: every update of the stripe is decided and
not newer than `v`, and the memory is the memory at `v`. -/
theorem SInv.release (h : SInv b P g) {v : Ver} (hver : VerLe b (g.lock k).ver v)
    (hdirty : v = (g.lock k).ver → ¬ Dirty b g k)
    (hmax : ∀ n s, g.log n = some s → (b.sem w).touch s.body k →
      n ≤ b.stamp v.ts ∧ s.decided = true)
    (hwrote : b.stamp v.ts = 0 ∨ Touches (b.sem w) g.log (b.stamp v.ts) k)
    (hmem : ∀ a, b.getLock w a = k → g.mem a = g.at b (b.stamp v.ts) a) :
    SInv b P (g.setLock k ⟨v, none⟩) := by
  refine h.setLock hver (fun he hd => absurd hd (hdirty he)) ?_ ?_ hwrote fun _ => hmem
  · intro n s hs ht hn
    have := (hmax n s hs ht).1
    exact absurd hn (by simpa using this)
  · intro n s hs hd ht
    have := (hmax n s hs ht).2
    simp [hd] at this

theorem interf_release {v : Ver} (hver : VerLe b (g.lock k).ver v)
    (hdirty : v = (g.lock k).ver → ¬ Dirty b g k) (hu : ¬ (g.lock k).HeldBy u) :
    Interf b u g (g.setLock k ⟨v, none⟩) :=
  interf_setLock hver (fun he hd => absurd hd (hdirty he)) hu (not_heldBy_free _ _)

/-! ### Changes of the log -/

theorem log_eq_of_le (s : Slot (List (Store w))) (hn : n ≤ g.clock) (d : Bool)
    (ss : List (Store w)) :
    (g.fetchInc tid ss d).log n = some s ↔ g.log n = some s := by
  have : n ≠ g.clock + 1 := by omega
  simp [Shared.fetchInc, this]

theorem SInv.log_next (h : SInv b P g) : g.log (g.clock + 1) = none := by
  cases hs : g.log (g.clock + 1) with
  | none => rfl
  | some s =>
    have := (h.slot hs).2
    omega

theorem later_fetchInc (h : SInv b P g) (ss : List (Store w)) (d : Bool) :
    Later g.clock g.log (g.fetchInc tid ss d).log where
  keep _ s hs _ := (log_eq_of_le s (h.slot hs).2 d ss).mpr hs
  old _ s' hn hs' := ⟨s', (log_eq_of_le s' hn d ss).mp hs', rfl, rfl⟩

theorem evol_fetchInc (h : SInv b P g) (ss : List (Store w)) (d : Bool) :
    Evol b g (g.fetchInc tid ss d) where
  clock := Nat.le_succ _
  mem0 := rfl
  log := later_fetchInc h ss d
  ver _ := .refl _
  dirty k _ hd := by
    unfold Dirty at hd ⊢
    have hl : (g.fetchInc tid ss d).lock k = g.lock k := rfl
    rw [hl]
    split at hd
    · exact hd
    · trivial
    · rcases hd with hd | ⟨n, s, hn, hs, hd, ht⟩
      · exact .inl hd
      · exact .inr ⟨n, s, hn, (log_eq_of_le s (h.slot hs).2 d ss).mpr hs, hd, ht⟩
  time := le_rfl
  hist _ hA := .inl hA
  histKeep _ hA := hA

theorem interf_fetchInc (h : SInv b P g) (hu : u ≠ tid) (ss : List (Store w)) (d : Bool) :
    Interf b u g (g.fetchInc tid ss d) where
  toEvol := evol_fetchInc h ss d
  own n s ho := by
    by_cases hn : n = g.clock + 1
    · subst hn
      constructor
      · intro hs
        simp only [Shared.fetchInc, Function.update_self, Option.some.injEq] at hs
        subst hs
        exact absurd ho hu.symm
      · intro hs
        rw [h.log_next] at hs
        cases hs
    · simp [Shared.fetchInc, hn]
  lock _ _ := rfl
  mem _ _ := rfl
  histNew _ hA := .inl hA

/-- `FETCH_INC_CLOCK` for an update whose locks are all held. -/
theorem SInv.fetchInc (h : SInv b P g) (ss : List (Store w)) (d : Bool)
    (hheld : ∀ k, (b.sem w).touch ss k → (g.lock k).HeldBy tid) :
    SInv b P (g.fetchInc tid ss d) := by
  have hE : Evol b g (g.fetchInc tid ss d) := evol_fetchInc h ss d
  have hv : ∀ k, (g.fetchInc tid ss d).ver b k = g.ver b k := fun _ => rfl
  have hcases : ∀ {n s}, (g.fetchInc tid ss d).log n = some s →
      (n = g.clock + 1 ∧ s = ⟨tid, ss, d⟩) ∨ g.log n = some s := by
    intro n s hs
    by_cases hn : n = g.clock + 1
    · subst hn
      simp only [Shared.fetchInc, Function.update_self, Option.some.injEq] at hs
      exact .inl ⟨rfl, hs.symm⟩
    · simp only [Shared.fetchInc, Function.update_of_ne hn] at hs
      exact .inr hs
  constructor
  case slot =>
    intro n s hs
    rcases hcases hs with ⟨rfl, -⟩ | hs
    · exact ⟨Nat.succ_pos _, le_rfl⟩
    · exact ⟨(h.slot hs).1, (h.slot hs).2.trans (Nat.le_succ _)⟩
  case live =>
    intro n s k hs ht hn
    rcases hcases hs with ⟨rfl, rfl⟩ | hs
    · exact hheld k ht
    · exact h.live hs ht hn
  case pend =>
    intro n s k hs hd ht
    rcases hcases hs with ⟨rfl, rfl⟩ | hs
    · exact Nat.lt_succ_of_le (h.ver_le k)
    · exact h.pend hs hd ht
  case wrote =>
    intro k
    rcases h.wrote k with h0 | ⟨s, hs, ht⟩
    · exact .inl h0
    · exact .inr ⟨s, (log_eq_of_le s (h.slot hs).2 d ss).mpr hs, ht⟩
  case clean =>
    intro a hd
    rw [hv, hE.at_eq h le_rfl]
    exact h.clean a fun hd' => hd (hE.dirty _ rfl hd')
  case hist => exact fun A hA => hE.histOk h (h.hist A hA)
  case uniq => exact h.uniq
  case order => exact h.order

/-- The update `t` of thread `tid` is settled one way or the other: decided, or
withdrawn. -/
structure Settles (tid t : ℕ) (g g' : Shared w) : Prop where
  pending : ∃ s, g.log t = some s ∧ s.owner = tid ∧ s.decided = false ∧
    (g'.log t = none ∨ g'.log t = some { s with decided := true })
  other : ∀ n, n ≠ t → g'.log n = g.log n
  clock : g'.clock = g.clock
  lock : g'.lock = g.lock
  mem : g'.mem = g.mem
  mem0 : g'.mem0 = g.mem0
  time : g'.time = g.time
  hist : g'.hist = g.hist

section Settle

variable {t : ℕ} (hS : Settles tid t g g')
include hS

theorem Settles.log_old {s' : Slot (List (Store w))} (hs' : g'.log n = some s') :
    ∃ s, g.log n = some s ∧ s.owner = s'.owner ∧ s.body = s'.body ∧
      (s'.decided = false → s = s') := by
  by_cases hn : n = t
  · subst hn
    obtain ⟨s, hs, -, hd, hnone | hsome⟩ := hS.pending
    · rw [hnone] at hs'
      cases hs'
    · rw [hsome] at hs'
      cases hs'
      exact ⟨s, hs, rfl, rfl, fun hc => by simp at hc⟩
  · rw [hS.other n hn] at hs'
    exact ⟨s', hs', rfl, rfl, fun _ => rfl⟩

theorem Settles.keep {s : Slot (List (Store w))} (hs : g.log n = some s)
    (hd : s.decided = true) : g'.log n = some s := by
  by_cases hn : n = t
  · subst hn
    obtain ⟨s', hs', -, hd', -⟩ := hS.pending
    rw [hs] at hs'
    cases hs'
    simp [hd] at hd'
  · rw [hS.other n hn]
    exact hs

theorem evol_settles : Evol b g g' where
  clock := hS.clock.ge
  mem0 := hS.mem0
  log := ⟨fun _ _ hs hd => hS.keep hs hd, fun n s' _ hs' => by
    obtain ⟨s, hs, ho, hb, -⟩ := hS.log_old hs'
    exact ⟨s, hs, ho, hb⟩⟩
  ver k := by rw [hS.lock]; exact .refl _
  dirty k _ hd := by
    unfold Dirty Shared.ver at hd ⊢
    rw [hS.lock]
    split at hd
    · exact hd
    · trivial
    · rcases hd with hd | ⟨n, s, hn, hs, hd, ht⟩
      · exact .inl hd
      · exact .inr ⟨n, s, hn, hS.keep hs hd, hd, ht⟩
  time := hS.time.ge
  hist A hA := .inl (hS.hist ▸ hA)
  histKeep A hA := hS.hist ▸ hA

theorem interf_settles (hu : u ≠ tid) : Interf b u g g' where
  toEvol := evol_settles hS
  own n s ho := by
    by_cases hn : n = t
    · subst hn
      obtain ⟨s', hs', ho', hd', hc⟩ := hS.pending
      constructor
      · intro hs
        rcases hc with hc | hc
        · rw [hc] at hs
          cases hs
        · rw [hc] at hs
          cases hs
          exact absurd (ho.symm.trans ho') hu
      · intro hs
        rw [hs'] at hs
        cases hs
        exact absurd (ho.symm.trans ho') hu
    · rw [hS.other n hn]
  lock _ _ := by rw [hS.lock]
  mem _ _ := by rw [hS.mem]
  histNew A hA := .inl (hS.hist ▸ hA)

theorem SInv.settles (h : SInv b P g) : SInv b P g' := by
  have hE : Evol b g g' := evol_settles hS
  have hv : ∀ k, g'.ver b k = g.ver b k := fun k => by simp only [Shared.ver, hS.lock]
  constructor
  case slot =>
    intro n s hs
    obtain ⟨s', hs', -⟩ := hS.log_old hs
    rw [hS.clock]
    exact h.slot hs'
  case live =>
    intro n s k hs ht hn
    obtain ⟨s', hs', ho, hb, -⟩ := hS.log_old hs
    rw [hS.lock, ← ho]
    exact h.live hs' (hb ▸ ht) (hv k ▸ hn)
  case pend =>
    intro n s k hs hd ht
    obtain ⟨s', hs', -, -, he⟩ := hS.log_old hs
    rw [hv]
    exact h.pend (he hd ▸ hs') hd ht
  case wrote =>
    intro k
    rw [hv]
    refine (h.wrote k).imp_right fun ht => hE.log.touches_decided (fun s hs ht => ?_) ht
    exact h.decided le_rfl hs ht
  case clean =>
    intro a hd
    rw [hS.mem, hv, hE.at_eq h le_rfl]
    exact h.clean a fun hd' => hd (hE.dirty _ (by rw [hS.lock]) hd')
  case hist =>
    intro A hA
    exact hE.histOk h (h.hist A (hS.hist ▸ hA))
  case uniq => exact hS.hist ▸ h.uniq
  case order => exact hS.hist ▸ h.order

end Settle

theorem settles_withdraw {t : ℕ} {ss : List (Store w)} (hs : g.log t = some ⟨tid, ss, false⟩) :
    Settles tid t g (g.setLog t none) where
  pending := ⟨_, hs, rfl, rfl, .inl (by simp [Shared.setLog])⟩
  other n hn := by simp [Shared.setLog, hn]
  clock := rfl
  lock := rfl
  mem := rfl
  mem0 := rfl
  time := rfl
  hist := rfl

theorem settles_decide {t : ℕ} {ss : List (Store w)} (hs : g.log t = some ⟨tid, ss, false⟩) :
    Settles tid t g (g.setLog t (some ⟨tid, ss, true⟩)) where
  pending := ⟨_, hs, rfl, rfl, .inr (by simp [Shared.setLog])⟩
  other n hn := by simp [Shared.setLog, hn]
  clock := rfl
  lock := rfl
  mem := rfl
  mem0 := rfl
  time := rfl
  hist := rfl

/-! ### Memory and history -/

theorem evol_setMem (g : Shared w) (a : ℕ) (v : BitVec w) : Evol b g (g.setMem a v) :=
  ⟨le_rfl, rfl, .refl _ _, fun _ => .refl _, fun _ _ h => h, le_rfl, fun _ h => .inl h, fun _ h => h⟩

theorem interf_setMem {v : BitVec w} (ht : (g.lock (b.getLock w a)).HeldBy tid) (hu : u ≠ tid) :
    Interf b u g (g.setMem a v) where
  toEvol := evol_setMem g a v
  own _ _ _ := Iff.rfl
  lock _ _ := rfl
  mem a' ha' := by
    by_cases h : a' = a
    · subst h
      exact absurd (ha'.unique ht) hu
    · simp [Shared.setMem, h]
  histNew _ hA := .inl hA

/-- A store to a dirty stripe. -/
theorem SInv.setMem (h : SInv b P g) (v : BitVec w) (hd : Dirty b g (b.getLock w a)) :
    SInv b P (g.setMem a v) where
  slot := h.slot
  live := h.live
  pend := h.pend
  wrote := h.wrote
  clean a' hd' := by
    have hne : a' ≠ a := fun he => hd' (he ▸ hd)
    show Function.update g.mem a v a' = g.at b (g.ver b (b.getLock w a')) a'
    rw [Function.update_of_ne hne]
    exact h.clean a' hd'
  hist A hA := (evol_setMem g a v).histOk h (h.hist A hA)
  uniq := h.uniq
  order := h.order

theorem evol_record {A : Attempt w} (hf : A.finished = g.time) : Evol b g (g.record A) where
  clock := le_rfl
  mem0 := rfl
  log := .refl _ _
  ver _ := .refl _
  dirty _ _ h := h
  time := le_rfl
  hist A' hA' := by
    rcases List.mem_append.mp hA' with hm | hm
    · exact .inl hm
    · rw [List.mem_singleton.mp hm]
      exact .inr hf.ge
  histKeep _ hA := List.mem_append_left _ hA

theorem interf_record {A : Attempt w} (hf : A.finished = g.time) (hu : A.tid ≠ u) :
    Interf b u g (g.record A) where
  toEvol := evol_record hf
  own _ _ _ := Iff.rfl
  lock _ _ := rfl
  mem _ _ := rfl
  histNew A' hA' := by
    rcases List.mem_append.mp hA' with hm | hm
    · exact .inl hm
    · rw [List.mem_singleton.mp hm]
      exact .inr hu

/-- A finished attempt is added to the history: its timestamp is new and the
attempts that ended before it began come before it. -/
theorem SInv.record (h : SInv b P g) {A : Attempt w} (hA : HistOk b P g A)
    (hf : A.finished = g.time)
    (huniq : ∀ A' ∈ g.hist, ∀ t, A.wrote = some t → A'.wrote ≠ some t)
    (horder : ∀ A' ∈ g.hist, Ordered A' A) : SInv b P (g.record A) where
  slot := h.slot
  live := h.live
  pend := h.pend
  wrote := h.wrote
  clean := h.clean
  hist A' hA' := by
    rcases List.mem_append.mp hA' with hm | hm
    · exact (evol_record hf).histOk h (h.hist A' hm)
    · rw [List.mem_singleton.mp hm]
      exact (evol_record hf).histOk h hA
  uniq := by
    refine List.pairwise_append.mpr ⟨h.uniq, List.pairwise_singleton _ _, ?_⟩
    intro A' hA' B hB t ht hB'
    rw [List.mem_singleton.mp hB] at hB'
    exact huniq A' hA' t hB' ht
  order := by
    intro A₁ h₁ A₂ h₂
    rcases List.mem_append.mp h₂ with hm₂ | hm₂
    · rcases List.mem_append.mp h₁ with hm₁ | hm₁
      · exact h.order A₁ hm₁ A₂ hm₂
      · -- the new attempt ends now, after everything on record began
        intro hle
        have := (h.hist A₂ hm₂).times
        rw [List.mem_singleton.mp hm₁, hf] at hle
        omega
    · rw [List.mem_singleton.mp hm₂]
      rcases List.mem_append.mp h₁ with hm₁ | hm₁
      · exact horder A₁ hm₁
      · intro hle
        have := hA.times
        rw [List.mem_singleton.mp hm₁] at hle
        omega

end TinyStm
