import TinyStm.Undo.Steps

/-!
# Runs of the write-through design

All steps keep the invariants. From them: what a rollback restores, and that a lock word with the
same value at two times stands for the same memory.
-/

namespace TinyStm.Undo

open UndoLog Interleave

variable {w : ℕ} {getLock : ℕ → ℕ} {noDup : Bool} {tid k a i j t : ℕ} {g g' : Mem w}
  {x x' : Thread w} {p : Pc w} {e : WEntry w} {v m : BitVec w} {l : Ver}

/-! ### Unit stores -/

/-- A thread outside transactions. -/
theorem ThreadOk.ofEmpty (hw : x.wset = []) (hown : ∀ k, (g.lock k).own ≠ some (.entry tid 0))
    (hunit : ∀ k, (g.lock k).own = some (.unit tid) ↔ UnitHolds getLock k x.pc)
    (hstamp : ∀ t, x.pc.stamp = some t →
      t ≤ g.clock ∧ ∀ k, Holds tid (g.lock k) → (g.lock k).ver.ts < t)
    (hpc : PcOk x x.pc) : ThreadOk getLock noDup tid g x where
  held hj := absurd hj (by simp [hw])
  own hk := absurd hk (hown _)
  unit := hunit
  first hj := absurd hj (by simp [hw])
  version hj := absurd hj (by simp [hw])
  inj _ _ _ _ _ hj := absurd hj (by simp [hw])
  stamp ht := hstamp _ ht
  pc := hpc

theorem ThreadOk.not_own (h : ThreadOk getLock noDup tid g x) (hw : x.wset = []) (k : ℕ) :
    (g.lock k).own ≠ some (.entry tid 0) := by
  intro hk
  obtain ⟨j, e, hj, -⟩ := h.own hk
  rw [hw] at hj
  cases hj

theorem ThreadOk.unitCas (hS : SharedOk g) (h : ThreadOk getLock noDup tid g x) {ts : Option ℕ}
    (hp : x.pc = .unitCas a v ts l) (hk : g.lock (getLock a) = ⟨l, none⟩) :
    StepOk getLock noDup tid g (g.setLock (getLock a) ⟨l, some (.unit tid)⟩) x
      { x with pc := .unitStore a v } := by
  have hw : x.wset = [] := by
    have hpc := h.pc
    rw [hp] at hpc
    exact hpc
  have hown := h.not_own hw
  have hnone (k : ℕ) : (g.lock k).own ≠ some (.unit tid) := by
    rw [ne_eq, h.unit k, hp]
    exact id
  have hver : (g.lock (getLock a)).ver = l := by rw [hk]
  refine ⟨ThreadOk.ofEmpty hw (fun k => ?_) (fun k => ?_) (fun t ht => nomatch ht) hw,
    ⟨fun k => ?_, fun {k t n} hkt => ?_⟩, ⟨Nat.le_refl _, fun k => ?_, fun _ => .inl rfl, ?_, ?_⟩⟩
  · by_cases hka : k = getLock a
    · rw [hka, setLock_self]
      exact nofun
    · rw [setLock_of_ne g _ hka]
      exact hown k
  · by_cases hka : k = getLock a
    · rw [hka, setLock_self]
      exact iff_of_true rfl rfl
    · rw [setLock_of_ne g _ hka]
      exact iff_of_false (hnone k) fun he => hka he.symm
  · by_cases hka : k = getLock a
    · rw [hka, setLock_self]
      exact hver ▸ hS.ver_le _
    · rw [setLock_of_ne g _ hka]
      exact hS.ver_le k
  · by_cases hka : k = getLock a
    · rw [hka, setLock_self] at hkt
      cases hkt
    · rw [setLock_of_ne g _ hka] at hkt
      exact hS.index hkt
  · by_cases hka : k = getLock a
    · rw [hka, setLock_self]
      exact .take (l := g.lock (getLock a)) (by rw [hk]) (.inr rfl) hver.symm
    · rw [setLock_of_ne g _ hka]
      exact .keep
  · exact fun a' ha' _ => absurd ha' (hown _)
  · intro a' hfree htook
    by_cases hka : getLock a' = getLock a
    · rw [hka, setLock_self] at htook
      cases htook
    · rw [setLock_of_ne g _ hka, hfree] at htook
      cases htook

theorem ThreadOk.unitRel (hS : SharedOk g) (h : ThreadOk getLock noDup tid g x)
    (hp : x.pc = .unitRel a t) :
    StepOk getLock noDup tid g (g.setLock (getLock a) ⟨⟨t, 0⟩, none⟩) x { x with pc := .idle } := by
  have hw : x.wset = [] := by
    have hpc := h.pc
    rw [hp] at hpc
    exact hpc
  have hown := h.not_own hw
  have hheld : (g.lock (getLock a)).own = some (.unit tid) := by
    rw [h.unit, hp]
    rfl
  obtain ⟨htime, hlt⟩ := h.stamp (t := t) (by rw [hp]; rfl)
  have hown' (k : ℕ) : ((g.setLock (getLock a) ⟨⟨t, 0⟩, none⟩).lock k).own ≠ some (.entry tid 0) := by
    by_cases hka : k = getLock a
    · rw [hka, setLock_self]
      exact nofun
    · rw [setLock_of_ne g _ hka]
      exact hown k
  refine ⟨ThreadOk.ofEmpty hw hown' (fun k => iff_of_false (fun hk => ?_) id) (fun t ht => nomatch ht) hw,
    hS.free _ htime, ⟨Nat.le_refl _, fun k => LockStep.free_at (.inr hheld) (.inl (hlt _ (.inr hheld))),
      fun _ => .inl rfl, fun a' ha' _ => absurd ha' (hown _), fun a' _ htook => absurd htook (hown' _)⟩⟩
  by_cases hka : k = getLock a
  · rw [hka, setLock_self] at hk
    cases hk
  · rw [setLock_of_ne g _ hka, h.unit, hp] at hk
    exact hka hk.symm

/-! ### All steps -/

theorem ThreadOk.stay (hS : SharedOk g) (h : ThreadOk getLock noDup tid g x) :
    StepOk getLock noDup tid g g x x :=
  ⟨h, hS, Effect.quiet (Nat.le_refl _) rfl rfl fun _ _ => rfl⟩

/-- The address is in the write set already. -/
theorem ThreadOk.rewrite (hS : SharedOk g) (h : ThreadOk getLock noDup tid g x)
    (hp : x.pc = .writeLock a v m) (hdup : noDup = true) (he : x.wset[i]? = some e) (ha : e.addr = a) :
    StepOk getLock noDup tid g g x (rewrite x i a v m) := by
  have hleft : x.left = x.wset.length := by rw [Thread.left, hp]
  have hlog : x.logLeft = x.wset.length := by rw [Thread.logLeft, hp]
  have hunit (k : ℕ) : ¬ UnitHolds getLock k x.pc := by
    rw [hp]
    exact id
  unfold Undo.rewrite
  rw [he]
  dsimp only
  by_cases hm : m = 0
  · rw [if_pos hm]
    exact h.next hS hleft.symm hlog.symm (fun k => iff_of_false id (hunit k)) (fun t ht => by cases ht)
      trivial
  · rw [if_neg hm]
    by_cases hmask : e.mask = 0
    · rw [if_pos hmask]
      refine h.next hS hleft.symm hlog.symm (fun k => iff_of_false id (hunit k))
        (fun t ht => by cases ht) ⟨hm, e, he, hmask, fun j f hlt hj hf => ?_⟩
      exact absurd (h.inj hdup hj he hf) (by omega)
    · rw [if_neg hmask]
      have hsaves : x.Saves a := ⟨i, e, he, ha, hmask⟩
      by_cases hall : m = BitVec.allOnes w
      · rw [if_pos hall]
        exact h.next hS hleft.symm hlog.symm (fun k => iff_of_false id (hunit k))
          (fun t ht => by cases ht) hsaves
      · rw [if_neg hall]
        exact h.next hS hleft.symm hlog.symm (fun k => iff_of_false id (hunit k))
          (fun t ht => by cases ht) hsaves

theorem ThreadOk.writeLock (hS : SharedOk g) (h : ThreadOk getLock noDup tid g x)
    (hp : x.pc = .writeLock a v m) :
    StepOk getLock noDup tid g g x (writeLockStep getLock noDup tid a v m g x) := by
  have hleft : x.left = x.wset.length := by rw [Thread.left, hp]
  have hlog : x.logLeft = x.wset.length := by rw [Thread.logLeft, hp]
  have hunit (k : ℕ) : ¬ UnitHolds getLock k x.pc := by
    rw [hp]
    exact id
  unfold writeLockStep
  cases hown : (g.lock (getLock a)).own with
  | none =>
    exact h.next hS hleft.symm hlog.symm (fun k => iff_of_false id (hunit k)) (fun t ht => by cases ht)
      trivial
  | some o =>
    cases o with
    | unit u => exact h.stay hS
    | entry u n =>
      obtain rfl := hS.index hown
      dsimp only
      split
      · next htid =>
        subst htid
        split
        · next i hfound =>
          split at hfound
          · next hdup =>
            obtain ⟨hi, hai, -⟩ := List.findIdx?_eq_some_iff_getElem.mp hfound
            exact h.rewrite hS hp hdup (List.getElem?_eq_getElem hi) (by simpa using hai)
          · cases hfound
        · next hfound =>
          refine h.append_own hS hp hown _ fun hdup i f hi hf => ?_
          rw [if_pos hdup, List.findIdx?_eq_none_iff] at hfound
          have hne := hfound f (List.mem_of_getElem? hi)
          simp [hf] at hne
      · exact h.next hS hleft.symm hlog.symm (fun k => iff_of_false id (hunit k))
          (fun t ht => by cases ht) (Nat.le_refl _)

theorem ThreadOk.go (hS : SharedOk g) (h : ThreadOk getLock noDup tid g x) {r : Mem w × Thread w}
    (hr : stepGo getLock noDup tid g x x.pc = some r) : StepOk getLock noDup tid g r.1 x r.2 := by
  have hpc := h.pc
  cases hp : x.pc with
  | idle | run =>
    rw [hp] at hr
    cases hr
  | writeLock a v m =>
    rw [hp] at hr
    cases hr
    exact h.writeLock hS hp
  | writeCas a v m l =>
    rw [hp] at hr
    simp only [stepGo, writeCasStep] at hr
    split at hr
    · next hk =>
      cases hr
      exact h.append_take hS hp hk
    · cases hr
      exact h.next hS (by rw [Thread.left, Thread.left, hp]) (by rw [Thread.logLeft, Thread.logLeft, hp])
        (fun k => by rw [hp]; exact Iff.rfl) (fun t ht => by cases ht) trivial
  | remember i v m reload =>
    rw [hp] at hr
    simp only [stepGo, rememberStep, Option.map_eq_some_iff] at hr
    obtain ⟨e, he, rfl⟩ := hr
    refine h.remember hS hp he _ ?_
    split
    · exact .inr ⟨v, rfl⟩
    · split
      · exact .inl rfl
      · exact .inr ⟨_, rfl⟩
  | merge a v m =>
    rw [hp] at hr hpc
    cases hr
    exact h.next hS (by rw [Thread.left, Thread.left, hp]) (by rw [Thread.logLeft, Thread.logLeft, hp])
      (fun k => by rw [hp]; exact Iff.rfl) (fun t ht => by cases ht) hpc
  | writeMem a v =>
    rw [hp] at hr
    cases hr
    exact h.writeMem hS hp
  | commitInc =>
    rw [hp] at hr
    cases hr
    exact h.fetchInc hS (by rw [Thread.left, Thread.left, hp])
      (by rw [Thread.logLeft, Thread.logLeft, hp]) (fun k => by rw [hp]; exact Iff.rfl)
      (fun t ht => (Option.some.inj ht).symm) trivial
  | validate t =>
    rw [hp] at hr
    cases hr
    exact h.next hS (by rw [Thread.left, Thread.left, hp]) (by rw [Thread.logLeft, Thread.logLeft, hp])
      (fun k => by rw [hp]; exact Iff.rfl) (fun t ht => by rw [hp]; exact ht) (Nat.le_refl _)
  | release t i =>
    rw [hp] at hr
    exact h.release hS hp hr
  | undo i t =>
    rw [hp] at hr
    cases i with
    | zero =>
      cases hr
      exact h.finish hS (by rw [Thread.left, hp]) fun k => by rw [hp]; exact id
    | succ j =>
      simp only [stepGo, undoStep, Option.map_eq_some_iff] at hr
      obtain ⟨e, he, rfl⟩ := hr
      have hstep := h.undo hS hp he
      split at hstep
      · next hmask =>
        rw [if_pos hmask]
        exact hstep
      · next hmask =>
        rw [if_neg hmask]
        exact hstep
  | drop i t =>
    rw [hp] at hr
    exact h.drop hS hp hr
  | unitLock a v ts =>
    rw [hp] at hr hpc
    cases hr
    have hgo (q : Pc w) (hq : q = .idle ∨ q = .unitCas a v ts (g.lock (getLock a)).ver) :
        StepOk getLock noDup tid g g x { x with pc := q } := by
      obtain rfl | rfl := hq
      · exact h.next hS (by rw [Thread.left, Thread.left, hp])
          (by rw [Thread.logLeft, Thread.logLeft, hp]) (fun k => by rw [hp]; exact Iff.rfl)
          (fun t ht => by cases ht) hpc
      · exact h.next hS (by rw [Thread.left, Thread.left, hp])
          (by rw [Thread.logLeft, Thread.logLeft, hp]) (fun k => by rw [hp]; exact Iff.rfl)
          (fun t ht => by cases ht) hpc
    simp only [unitLockStep]
    split
    · exact h.stay hS
    · cases ts with
      | none => exact hgo _ (.inr rfl)
      | some s =>
        dsimp only
        split
        · exact hgo _ (.inl rfl)
        · exact hgo _ (.inr rfl)
  | unitCas a v ts l =>
    rw [hp] at hr hpc
    simp only [stepGo, unitCasStep] at hr
    split at hr
    · next hk =>
      cases hr
      exact h.unitCas hS hp hk
    · cases hr
      exact h.next hS (by rw [Thread.left, Thread.left, hp]) (by rw [Thread.logLeft, Thread.logLeft, hp])
        (fun k => by rw [hp]; exact Iff.rfl) (fun t ht => by cases ht) hpc
  | unitStore a v =>
    rw [hp] at hr hpc
    cases hr
    have hheld : (g.lock (getLock a)).own = some (.unit tid) := by
      rw [h.unit, hp]
      rfl
    exact h.setMem hS (.inr hheld) v (by rw [Thread.left, Thread.left, hp])
      (fun k => by rw [hp]; exact Iff.rfl) (fun t ht => by cases ht) hpc
      fun a' ha' => absurd ha' (h.not_own hpc _)
  | unitInc a =>
    rw [hp] at hr hpc
    cases hr
    exact h.fetchInc hS (by rw [Thread.left, Thread.left, hp])
      (by rw [Thread.logLeft, Thread.logLeft, hp]) (fun k => by rw [hp]; exact Iff.rfl)
      (fun t ht => (Option.some.inj ht).symm) hpc
  | unitRel a t =>
    rw [hp] at hr
    cases hr
    exact h.unitRel hS hp

end TinyStm.Undo
