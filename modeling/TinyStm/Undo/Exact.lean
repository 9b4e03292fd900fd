import TinyStm.Undo.Runs

/-!
# What rollbacks restore and what lock words tell

From a state in which a lock is free with some version on, the lock is still free and its memory the
same, or its owner can restore that memory, or the version is gone for good.
-/

namespace TinyStm.Undo

open UndoLog Interleave

variable {w : ℕ} {getLock : ℕ → ℕ} {noDup : Bool} {tid k a : ℕ} {g g' : Mem w} {x x' : Thread w}
  {m : ℕ → BitVec w} {v : Ver} {c d e : State w}

/-! ### The invariants along a run -/

theorem ThreadOk.step (hS : SharedOk g) (h : ThreadOk getLock noDup tid g x) {act : Act w}
    {r : Mem w × Thread w} (hr : step getLock noDup tid act g x = some r) :
    StepOk getLock noDup tid g r.1 x r.2 := by
  cases act with
  | go => exact h.go hS hr
  | start =>
    obtain ⟨hp, hr⟩ := Option.ite_none_right_eq_some.mp hr
    cases hr
    have hw : x.wset = [] := by
      have hpc := h.pc
      rw [hp] at hpc
      exact hpc
    have hx : (⟨[], .run⟩ : Thread w) = { x with pc := .run } := by rw [hw]
    rw [hx]
    exact h.next hS (by rw [Thread.left, Thread.left, hp]) (by rw [Thread.logLeft, Thread.logLeft, hp])
      (fun k => by rw [hp]; exact Iff.rfl) (fun t ht => by cases ht) trivial
  | store a v m =>
    obtain ⟨hp, hr⟩ := Option.ite_none_right_eq_some.mp hr
    cases hr
    exact h.next hS (by rw [Thread.left, Thread.left, hp]) (by rw [Thread.logLeft, Thread.logLeft, hp])
      (fun k => by rw [hp]; exact Iff.rfl) (fun t ht => by cases ht) trivial
  | rollback =>
    obtain ⟨hmay, hr⟩ := Option.ite_none_right_eq_some.mp hr
    cases hr
    have hfacts : x.left = x.wset.length ∧ x.logLeft = x.wset.length ∧
        ∀ k, ¬ UnitHolds getLock k x.pc := by
      cases hp : x.pc with
      | run | writeLock | validate =>
        exact ⟨by rw [Thread.left, hp], by rw [Thread.logLeft, hp], fun _ => id⟩
      | _ =>
        rw [hp] at hmay
        cases hmay
    exact h.next hS hfacts.1.symm hfacts.2.1.symm (fun k => iff_of_false id (hfacts.2.2 k))
      (fun t ht => by cases ht) (Nat.le_refl _)
  | commit =>
    obtain ⟨hp, hr⟩ := Option.ite_none_right_eq_some.mp hr
    cases hr
    split
    · next hw =>
      exact h.next hS (by rw [Thread.left, Thread.left, hp])
        (by rw [Thread.logLeft, Thread.logLeft, hp]) (fun k => by rw [hp]; exact Iff.rfl)
        (fun t ht => by cases ht) hw
    · exact h.next hS (by rw [Thread.left, Thread.left, hp])
        (by rw [Thread.logLeft, Thread.logLeft, hp]) (fun k => by rw [hp]; exact Iff.rfl)
        (fun t ht => by cases ht) trivial
  | unitStore a v ts =>
    obtain ⟨hp, hr⟩ := Option.ite_none_right_eq_some.mp hr
    cases hr
    have hpc := h.pc
    rw [hp] at hpc
    exact h.next hS (by rw [Thread.left, Thread.left, hp]) (by rw [Thread.logLeft, Thread.logLeft, hp])
      (fun k => by rw [hp]; exact Iff.rfl) (fun t ht => by cases ht) hpc

/-- The invariants of a state. -/
structure StateOk (getLock : ℕ → ℕ) (noDup : Bool) (c : State w) : Prop where
  shared : SharedOk c.shared
  thread (i : ℕ) : ThreadOk getLock noDup i c.shared (c.loc i)

theorem StateOk.initial (m : ℕ → BitVec w) : StateOk getLock noDup (initial m) :=
  ⟨⟨fun _ => Nat.le_refl _, fun hk => nomatch hk⟩, fun _ =>
    ThreadOk.ofEmpty rfl (fun _ hk => nomatch hk) (fun _ => iff_of_false (fun hk => nomatch hk) id)
      (fun _ ht => nomatch ht) rfl⟩

theorem StateOk.move (h : StateOk getLock noDup c) {act : Act w}
    (hm : (system getLock noDup w).move c tid act = some d) : StateOk getLock noDup d ∧
      ∃ g' x', d = ⟨g', Function.update c.loc tid x'⟩ ∧
        Effect getLock tid c.shared g' (c.loc tid) x' := by
  obtain ⟨g', x', hs, rfl⟩ := move_eq_some hm
  have hstep := (h.thread tid).step h.shared hs
  refine ⟨⟨hstep.shared, fun i => ?_⟩, g', x', rfl, hstep.effect⟩
  by_cases hi : i = tid
  · subst hi
    dsimp only
    rw [Function.update_self]
    exact hstep.thread
  · dsimp only
    rw [Function.update_of_ne hi]
    exact (h.thread i).stable hstep.effect hi

/-- Every interleaving. -/
abbrev Runs (getLock : ℕ → ℕ) (noDup : Bool) (c d : State w) : Prop :=
  Run (system getLock noDup w) (fun _ _ _ => True) c d

theorem StateOk.run (hrun : Runs getLock noDup c d) (h : StateOk getLock noDup c) :
    StateOk getLock noDup d :=
  hrun.invariant (fun _ _ _ _ hc _ hm => (hc.move hm).1) h

/-! ### Since a lock was free -/

/-- What has become of the lock `k` that was free with version `v` over the memory `m`. -/
inductive Since (getLock : ℕ → ℕ) (m : ℕ → BitVec w) (k : ℕ) (v : Ver) (d : State w) : Prop
  | same : d.shared.lock k = ⟨v, none⟩ → (∀ a, getLock a = k → d.shared.mem a = m a) →
      Since getLock m k v d
  | taken (i : ℕ) : d.shared.lock k = ⟨v, some (.entry i 0)⟩ →
      (∀ a, getLock a = k → (d.loc i).undone d.shared.mem a = m a) → Since getLock m k v d
  | unit (i : ℕ) : d.shared.lock k = ⟨v, some (.unit i)⟩ → Since getLock m k v d
  | past : Newer v (d.shared.lock k).ver → Since getLock m k v d

theorem lockWord_eq {l : LockWord} {o : Option Owner} (hv : l.ver = v) (ho : l.own = o) : l = ⟨v, o⟩ := by
  cases l
  cases hv
  cases ho
  rfl

theorem Since.step (h : Since getLock m k v d)
    (he : Effect getLock tid d.shared g' (d.loc tid) x') :
    Since getLock m k v ⟨g', Function.update d.loc tid x'⟩ := by
  cases h with
  | same hk hmem =>
    have hown : (d.shared.lock k).own = none := by rw [hk]
    have hver : (d.shared.lock k).ver = v := by rw [hk]
    have hmem' : ∀ a, getLock a = k → g'.mem a = m a := by
      intro a ha
      obtain hsame | ⟨hheld, -⟩ := he.mem a
      · rw [hsame, hmem a ha]
      · rw [ha] at hheld
        exact absurd hown hheld.not_free
    generalize hl : g'.lock k = l'
    have hstep := he.lock k
    rw [hl] at hstep
    cases hstep with
    | keep => exact .same (hl.trans hk) hmem'
    | take _ hl' hver' =>
      obtain ho | ho := hl'
      · refine .taken tid (hl.trans (lockWord_eq (hver'.trans hver) ho)) fun a ha => ?_
        have htook := he.took a (by rw [ha, hown]) (by rw [ha, hl, ho])
        dsimp only
        rw [Function.update_self, htook, hmem a ha]
      · exact .unit tid (hl.trans (lockWord_eq (hver'.trans hver) ho))
    | free hheld => exact absurd hown hheld.not_free
  | taken i hk hlog =>
    have hown : (d.shared.lock k).own = some (.entry i 0) := by rw [hk]
    have hver : (d.shared.lock k).ver = v := by rw [hk]
    generalize hl : g'.lock k = l'
    have hstep := he.lock k
    rw [hl] at hstep
    cases hstep with
    | keep =>
      refine .taken i (hl.trans hk) fun a ha => ?_
      dsimp only
      by_cases hi : i = tid
      · subst hi
        rw [Function.update_self, he.log a (by rw [ha, hown]) (by rw [ha, hl]), hlog a ha]
      · rw [Function.update_of_ne hi]
        obtain hsame | ⟨hheld, -⟩ := he.mem a
        · exact (restore_congr _ hsame).trans (hlog a ha)
        · rw [ha] at hheld
          exact absurd ((show Holds i _ from .inl hown).unique hheld) hi
    | take hfree =>
      rw [hown] at hfree
      cases hfree
    | free _ _ hnew =>
      refine .past ?_
      dsimp only
      rw [hl]
      exact hver ▸ hnew
  | unit i hk =>
    generalize hl : g'.lock k = l'
    have hstep := he.lock k
    rw [hl] at hstep
    cases hstep with
    | keep => exact .unit i (hl.trans hk)
    | take hfree =>
      rw [hk] at hfree
      cases hfree
    | free _ _ hnew =>
      refine .past ?_
      dsimp only
      rw [hl]
      rwa [hk] at hnew
  | past hnew =>
    refine .past ?_
    dsimp only
    generalize hl : g'.lock k = l'
    have hstep := he.lock k
    rw [hl] at hstep
    cases hstep with
    | keep => exact hnew
    | take _ _ hver => rwa [hver]
    | free _ _ hnew' => exact hnew.trans hnew'

theorem Since.run (hc : StateOk getLock noDup c) (hrun : Runs getLock noDup c d)
    (hk : c.shared.lock k = ⟨v, none⟩) : Since getLock c.shared.mem k v d := by
  refine (hrun.invariant (P := fun d => StateOk getLock noDup d ∧ Since getLock c.shared.mem k v d)
    ?_ ⟨hc, .same hk fun _ _ => rfl⟩).2
  rintro d i act e ⟨hd, hsince⟩ - hm
  obtain ⟨he, g', x', rfl, heff⟩ := hd.move hm
  exact ⟨he, hsince.step heff⟩

/-- A version that is there again was there all the time. -/
theorem Since.again (h : Since getLock m k v d) (hk : d.shared.lock k = ⟨v, none⟩) :
    ∀ a, getLock a = k → d.shared.mem a = m a := by
  cases h with
  | same _ hmem => exact hmem
  | taken i hk' =>
    rw [hk] at hk'
    cases hk'
  | unit i hk' =>
    rw [hk] at hk'
    cases hk'
  | past hnew =>
    rw [hk] at hnew
    exact absurd hnew (Newer.irrefl v)

/-- The version is gone: the lock is not free with it and will not be. -/
def Gone (k : ℕ) (v : Ver) (d : State w) : Prop :=
  ((d.shared.lock k).ver = v ∧ (d.shared.lock k).own ≠ none) ∨ Newer v (d.shared.lock k).ver

theorem Gone.step (h : Gone k v d) (he : Effect getLock tid d.shared g' (d.loc tid) x') :
    Gone k v (⟨g', Function.update d.loc tid x'⟩ : State w) := by
  unfold Gone at *
  dsimp only
  generalize hl : g'.lock k = l'
  have hstep := he.lock k
  rw [hl] at hstep
  cases hstep with
  | keep => exact h
  | take hfree _ hver =>
    obtain ⟨-, hown⟩ | hnew := h
    · exact absurd hfree hown
    · exact .inr (hver ▸ hnew)
  | free _ _ hnew' =>
    obtain ⟨hver, -⟩ | hnew := h
    · exact .inr (hver ▸ hnew')
    · exact .inr (hnew.trans hnew')

theorem Gone.run (hd : StateOk getLock noDup d) (h : Gone k v d) (hrun : Runs getLock noDup d e) :
    Gone k v e := by
  refine (hrun.invariant (P := fun d => StateOk getLock noDup d ∧ Gone k v d) ?_ ⟨hd, h⟩).2
  rintro d i act e ⟨hd, hgone⟩ - hm
  obtain ⟨he, g', x', rfl, heff⟩ := hd.move hm
  exact ⟨he, hgone.step heff⟩

/-- Between two times with one free value the lock had this value. -/
theorem Since.between (h : Since getLock m k v e) (he : StateOk getLock noDup e)
    (hrun : Runs getLock noDup e d) (hk : d.shared.lock k = ⟨v, none⟩) :
    e.shared.lock k = ⟨v, none⟩ := by
  by_contra hne
  have hgone : Gone k v e := by
    cases h with
    | same hk' => exact absurd hk' hne
    | taken i hk' => exact .inl (by rw [hk']; exact ⟨rfl, nofun⟩)
    | unit i hk' => exact .inl (by rw [hk']; exact ⟨rfl, nofun⟩)
    | past hnew => exact .inr hnew
  obtain ⟨-, hown⟩ | hnew := hgone.run he hrun
  · exact hown (by rw [hk])
  · rw [hk] at hnew
    exact Newer.irrefl v hnew

/-! ### The drop of a lock -/

/-- When the rollback drops a lock, nothing is left to be undone on its stripe. -/
theorem ThreadOk.drop_restores (hS : SharedOk g) (h : ThreadOk getLock noDup tid g x) {n t : ℕ}
    (hp : x.pc = .drop n t) {r : Mem w × Thread w} (hr : dropStep getLock n t g x = some r)
    (hk : (g.lock k).own ≠ none) (hfree : (r.1.lock k).own = none) (ha : getLock a = k) :
    (g.lock k).own = some (.entry tid 0) ∧ r.1.mem a = x.undone g.mem a := by
  have hstep := h.drop hS hp hr
  cases n with
  | zero => cases hr
  | succ j =>
    simp only [dropStep, Option.map_eq_some_iff] at hr
    obtain ⟨e, he, rfl⟩ := hr
    have hfreed {l : Ver} (hthread : ThreadOk getLock noDup tid (g.setLock (getLock e.addr) ⟨l, none⟩)
        { x with pc := .undo j t })
        (hfree : ((g.setLock (getLock e.addr) ⟨l, none⟩).lock k).own = none) :
        (g.lock k).own = some (.entry tid 0) ∧ g.mem a = x.undone g.mem a := by
      have hke : k = getLock e.addr := by
        by_contra hne
        rw [setLock_of_ne g _ hne] at hfree
        exact hk hfree
      have hlog : Thread.logLeft { x with pc := .undo j t } = x.logLeft := by
        rw [Thread.logLeft, Thread.logLeft, hp]
        rfl
      constructor
      · rw [hke]
        exact h.held he (by rw [Thread.left, hp]; exact Nat.lt_succ_self j)
      · have hmem := hthread.undone_eq (a := a) (Nat.le_refl _) (by rw [ha, hfree]; simp) g.mem
        rw [undone_congr hlog] at hmem
        exact hmem.symm
    by_cases hd : e.noDrop = true
    · rw [if_pos hd] at hfree
      exact absurd hfree hk
    · rw [if_neg hd] at hstep hfree ⊢
      by_cases hinc : Build.incarnationMax < e.version.inc + 1
      · rw [if_pos hinc] at hstep hfree ⊢
        by_cases ht : t = 0
        · rw [if_pos ht] at hfree
          exact absurd hfree hk
        · rw [if_neg ht] at hstep hfree ⊢
          exact hfreed hstep.thread hfree
      · rw [if_neg hinc] at hstep hfree ⊢
        exact hfreed hstep.thread hfree

/-- The address that the thread stores to next. -/
def Thread.storesTo (x : Thread w) : Option ℕ :=
  match x.pc with
  | .writeMem a _ => some a
  | .unitStore a _ => some a
  | .undo (j + 1) _ => x.wset[j]?.bind fun e => if e.mask ≠ 0 then some e.addr else none
  | _ => none

theorem ThreadOk.storesTo (h : ThreadOk getLock noDup tid g x) (ha : x.storesTo = some a) :
    Holds tid (g.lock (getLock a)) := by
  have hpc := h.pc
  unfold Thread.storesTo at ha
  split at ha
  · next hp =>
    cases ha
    rw [hp] at hpc
    obtain ⟨j, e, hj, he, -⟩ := hpc
    exact .inl (he ▸ h.held hj (by rw [Thread.left, hp]; exact getElem?_lt hj))
  · next hp =>
    cases ha
    refine .inr ?_
    rw [h.unit, hp]
    rfl
  · next hp =>
    obtain ⟨e, he, hmask⟩ := Option.bind_eq_some_iff.mp ha
    split at hmask
    · cases hmask
      exact .inl (h.held he (by rw [Thread.left, hp]; exact Nat.lt_succ_self _))
    · cases hmask
  · cases ha

theorem ThreadOk.idle (h : ThreadOk getLock noDup tid g x) (hp : x.pc = .idle) (k : ℕ) :
    ¬ Holds tid (g.lock k) := by
  have hw : x.wset = [] := by
    have hpc := h.pc
    rw [hp] at hpc
    exact hpc
  rintro (hk | hk)
  · exact h.not_own hw k hk
  · rw [h.unit, hp] at hk
    exact hk

/-- In every run, `c` being an earlier state than `d`: a rollback that drops a lock leaves its memory as it
was in `c` when the lock was free with the version that the attempt replaced; until then all words to be
undone are under locks of the thread, and in the end it has none. A lock that is free with one and the same
version in `c` and `d` covers the same memory, and between these times it was free with this version
and no store to its memory was about to come. -/
theorem undo_exact (hc : Runs getLock noDup (initial m) c) (hd : Runs getLock noDup c d) :
    (∀ i n t e, (d.loc i).pc = .drop n t → (system getLock noDup w).move d i .go = some e →
      ∀ k, (d.shared.lock k).own ≠ none → (e.shared.lock k).own = none →
        c.shared.lock k = ⟨(d.shared.lock k).ver, none⟩ →
          ∀ a, getLock a = k → e.shared.mem a = c.shared.mem a) ∧
    (∀ i n t j e, (d.loc i).pc = .undo n t → (d.loc i).wset[j]? = some e → j < n →
      (d.shared.lock (getLock e.addr)).own = some (.entry i 0)) ∧
    (∀ i, (d.loc i).pc = .idle → ∀ k, ¬ Holds i (d.shared.lock k)) ∧
    ∀ k v, c.shared.lock k = ⟨v, none⟩ → d.shared.lock k = ⟨v, none⟩ →
      (∀ a, getLock a = k → d.shared.mem a = c.shared.mem a) ∧
      ∀ e, Runs getLock noDup c e → Runs getLock noDup e d → e.shared.lock k = ⟨v, none⟩ ∧
        ∀ i a, (e.loc i).storesTo = some a → getLock a ≠ k := by
  have hcok := (StateOk.initial m).run hc
  have hdok := hcok.run hd
  refine ⟨?_, ?_, fun i hp => (hdok.thread i).idle hp, ?_⟩
  · intro i n t e hp hm k hk hfree hck a ha
    obtain ⟨g', x', hs, rfl⟩ := move_eq_some hm
    have hdrop : dropStep getLock n t d.shared (d.loc i) = some (g', x') := by
      change stepGo getLock noDup i d.shared (d.loc i) (d.loc i).pc = some (g', x') at hs
      rw [hp] at hs
      exact hs
    obtain ⟨hown, hmem⟩ := (hdok.thread i).drop_restores hdok.shared hp hdrop hk hfree ha
    refine hmem.trans ?_
    cases Since.run hcok hd hck with
    | same hk' => exact absurd (congrArg LockWord.own hk') hk
    | taken i' hk' hlog =>
      rw [hk'] at hown
      cases hown
      exact hlog a ha
    | unit i' hk' =>
      rw [hk'] at hown
      cases hown
    | past hnew => exact absurd hnew (Newer.irrefl _)
  · intro i n t j e hp he hlt
    exact (hdok.thread i).held he (by rw [Thread.left, hp]; exact hlt)
  · intro k v hck hdk
    refine ⟨(Since.run hcok hd hck).again hdk, fun e hce hed => ?_⟩
    have heok := hcok.run hce
    have hek := (Since.run hcok hce hck).between heok hed hdk
    refine ⟨hek, fun i a ha hak => ?_⟩
    have hheld := (heok.thread i).storesTo ha
    rw [hak, hek] at hheld
    exact hheld.not_free rfl

/-- A word stored to twice, once with a partial mask, is undone in two steps; the lock gets the next
incarnation. -/
theorem undo_exact_twice : ∃ d e : State 8, Runs id false (initial fun _ => 7) d ∧
    (system id false 8).move d 0 .go = some e ∧ d.shared.mem 3 = 7 ∧
      e.shared.lock 3 = ⟨⟨0, 1⟩, none⟩ ∧ e.shared.mem 3 = 7 := by
  obtain ⟨d, hrun, hp, hmem, hlock, hown, hnext⟩ := exists_run_of_exec (system id false 8)
    (fun _ _ _ => True) (initial fun _ => 7)
    ([(0, .start), (0, .store 3 5 255), (0, .go), (0, .go), (0, .go), (0, .go), (0, .store 3 9 15),
      (0, .go), (0, .go), (0, .go), (0, .rollback), (0, .go), (0, .go), (0, .go)])
    (fun d => (d.loc 0).pc = .drop 1 0 ∧ d.shared.mem 3 = 7 ∧ (d.shared.lock 3).ver = ⟨0, 0⟩ ∧
      (d.shared.lock 3).own ≠ none ∧
      ((system id false 8).move d 0 .go).any fun e => e.shared.lock 3 = ⟨⟨0, 1⟩, none⟩) (by decide +kernel)
  obtain ⟨e, hm, he⟩ := (Option.any_eq_true _ _).mp hnext
  have hfree := of_decide_eq_true he
  have h := (undo_exact (m := fun _ => 7) .refl hrun).1 0 1 0 e hp hm 3 hown (by rw [hfree])
    (by rw [hlock]; rfl) 3 rfl
  exact ⟨d, e, hrun, hm, hmem, hfree, h⟩

end TinyStm.Undo
