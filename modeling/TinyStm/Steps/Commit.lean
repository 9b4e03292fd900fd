import TinyStm.Steps.Encounter

/-!
# Steps of one thread: commit

The acquisition loop of the commit-time design, the timestamp and the decision
(fast path or validation), and the loop that writes back the values and drops
the locks.
-/

namespace TinyStm

open Timeline

variable {w : ℕ} {b : Build} {P : Mode} {tid : ℕ} {g g' : Shared w} {x : Tx w} {a : ℕ}

/-! ### Entering the commit -/

/-- The acquisition loop only counts in the commit-time design. -/
theorem Core.recount {n : ℕ} (h : Core b P tid g n x) (hd : b.design ≠ .writeBackCtl) (n' : ℕ) :
    Core b P tid g n' x :=
  ⟨h.own, h.unit, h.settled, h.fate, h.began, h.att, h.live.rset, h.live.rsetOwn, h.live.cover,
    h.live.ro, fun hd' => absurd hd' hd, h.live.wtMem⟩

/-- Without entries there are no stores. -/
theorem Core.stores_nil {n : ℕ} (h : Core b P tid g n x) (hw : x.wset = []) : x.stores = [] := by
  refine List.eq_nil_iff_forall_not_mem.mpr fun s hs => ?_
  cases hd : b.design with
  | writeBackCtl =>
    obtain ⟨e, he, -⟩ := (h.att.ws.ctl hd).mem s hs
    rw [hw] at he
    cases he
  | writeBackEtl =>
    obtain ⟨e, he, -⟩ := (h.att.ws.etl hd).lock s hs
    rw [hw] at he
    cases he
  | writeThrough =>
    have hlen := (h.att.ws.wt hd).len
    have hnil : x.stores = [] := List.eq_nil_of_length_eq_zero (by simpa [hw] using hlen)
    rw [hnil] at hs
    cases hs

/-- The loads are valid at the snapshot, as far as no lock is newer. -/
theorem TInv.reads_at_snap (hS : SInv b P g) (h : TInv b P tid g x) (hc : Inside x)
    (hheld : ∀ k, (g.lock k).HeldBy tid → g.ver b k ≤ x.snap) :
    ∀ r ∈ x.reads, ReadAt b g x.snap r := by
  intro r hr
  have hcore := h.core hc
  refine (hcore.live.cover r hr).readAt (fun _ => rfl)
    (fun p hp => ⟨(hcore.live.rset p hp).1, (hcore.live.rset p hp).2.2⟩) fun k hk => ?_
  exact ⟨hheld k hk, h.quiet_held hS hk fun n hn => by rw [hc.cur] at hn; cases hn⟩

/-- The attempt as it is recorded, apart from its outcome. -/
theorem Att.histOk {ph : Phase} {o : Outcome} (h : Att b P tid g ph x) (hb : x.began < g.time)
    (hcommit : ∀ t, (attempt tid g x o).wrote = some t → 0 < t ∧ t ≤ g.clock ∧
      g.log t = some ⟨tid, x.stores, true⟩ ∧ ∀ r ∈ x.reads, ReadAt b g (t - 1) r)
    (hread : o = .readOnly → x.stores = [] ∧ ∀ r ∈ x.reads, ReadAt b g x.snap r) :
    HistOk b P g (attempt tid g x o) where
  times := ⟨hb, le_rfl⟩
  snap_le := h.snap_le
  endEq := h.endEq
  consistent ho := by
    obtain ⟨e, -, he, hd, hr⟩ := h.consistent ho
    exact ⟨e, he, hd, hr⟩
  pre := h.pre
  commit := hcommit
  readOnly := hread

/-- What ended before the attempt began comes before its place in the serial order. -/
theorem Att.ordered {ph : Phase} {o : Outcome} (h : Att b P tid g ph x)
    (ht : ∀ t, (attempt tid g x o).wrote = some t → x.snap < t) :
    ∀ A ∈ g.hist, Ordered A (attempt tid g x o) := by
  intro A hA hf p q hp hq
  have hp' : p ≤ x.snap := (h.order A hA hf p hp).trans h.start_le
  refine ⟨?_, fun t ht' => lt_of_le_of_lt hp' (ht t ht')⟩
  cases o with
  | committed t =>
    have := ht t rfl
    simp only [attempt, Attempt.pos, Option.some.injEq] at hq
    omega
  | readOnly =>
    simp only [attempt, Attempt.pos, Option.some.injEq] at hq
    omega
  | aborted r => simp [attempt, Attempt.pos] at hq
  | unit t => simp [attempt, Attempt.pos] at hq

theorem TInv.commitStart (hS : SInv b P g) (h : TInv b P tid g x) (hb : x.began < g.time)
    (hp : x.pc = .run) {r : Shared w × Tx w} (hr : commitStart b tid g x = some r) :
    StepOk b P tid g r := by
  have hc : Ready x := .of hp rfl rfl rfl fun _ => rfl
  have hcore := h.core hc.toInside
  rw [hc.acq] at hcore
  have hw := h.whole hc.ne_out hc.storing
  unfold TinyStm.commitStart at hr
  split at hr
  · next hnil =>
    simp only [Option.some.injEq] at hr
    subst hr
    have hnone : ∀ k, ¬ (g.lock k).HeldBy tid := by
      intro k hk
      obtain ⟨j, e, he, -⟩ := (hcore.heldBy_iff k).mp hk
      simp [hnil] at he
    have hA : HistOk b P g (attempt tid g x .readOnly) := hcore.att.histOk hb
      (fun t ht => by simp [attempt, Attempt.wrote] at ht)
      fun _ => ⟨hcore.stores_nil hnil, h.reads_at_snap hS hc.toInside fun k hk =>
        absurd hk (hnone k)⟩
    refine ⟨hS.record hA rfl (fun _ _ t ht => by simp [attempt, Attempt.wrote] at ht)
      (hcore.att.ordered fun t ht => by simp [attempt, Attempt.wrote] at ht), ?_,
      fun u hu => interf_record rfl (Ne.symm hu)⟩
    exact TInv.outside hnone hcore.settled
      (fun hs => (hcore.fate hs).mono fun _ hA' => List.mem_append_left _ hA') hcore.began rfl
      (by simp [UnitHeld]) trivial
  · next hne =>
    have hro : x.ro = false := by
      cases hx : x.ro with
      | false => rfl
      | true => exact absurd (hcore.live.ro hx).1 hne
    have hpos : 0 < x.wset.length := List.length_pos_iff.mpr hne
    split at hr
    · next hd =>
      simp only [Option.some.injEq] at hr
      subst hr
      refine .stay hS (h.goto hc.toCalm (.commitLock (x.wset.length - 1)) x.standing x.canExtend
        ⟨rfl, rfl⟩ ?_ ⟨hd, Nat.sub_lt hpos Nat.one_pos, hro⟩)
      rw [hc.acq]
      show x.wset.length - 1 + 1 = x.wset.length
      omega
    · next hd =>
      simp only [Option.some.injEq] at hr
      subst hr
      exact .stay hS (((hcore.recount hd 0).set .commitInc x.standing x.canExtend).tinv
        ⟨rfl, rfl⟩ rfl (fun _ => ⟨hw.touched, hw.len⟩) hro)

/-! ### The acquisition loop of the commit-time design -/

theorem commitNext_eq (x : Tx w) (i : ℕ) :
    ∃ p : Pc w, commitNext x i = { x with pc := p } ∧ p.phase = .live ∧ p.cur = none ∧
      p.acqFrom x.wset.length = i ∧ (p = .commitInc ∨ ∃ j, i = j + 1 ∧ p = .commitLock j) := by
  cases i with
  | zero => exact ⟨.commitInc, rfl, rfl, rfl, rfl, .inl rfl⟩
  | succ j => exact ⟨.commitLock j, rfl, rfl, rfl, rfl, .inr ⟨j, rfl, rfl⟩⟩

/-- Entry `i` is dealt with. -/
theorem Core.commitNext {i : ℕ} (h : Core b P tid g i x) (hw : Whole b x)
    (hd : b.design = .writeBackCtl) (hro : x.ro = false) (hi : i < x.wset.length) :
    TInv b P tid g (commitNext x i) := by
  obtain ⟨p, heq, hph, hcur, hacq, hp⟩ := commitNext_eq x i
  rw [heq]
  refine (h.set p x.standing x.canExtend).tinv ⟨hph, hcur⟩ hacq (fun _ => ⟨hw.touched, hw.len⟩) ?_
  rcases hp with rfl | ⟨j, rfl, rfl⟩
  · exact hro
  · exact ⟨hd, Nat.lt_of_succ_lt hi, hro⟩

theorem TInv.commitLockStep (hS : SInv b P g) (h : TInv b P tid g x) {i : ℕ}
    (hp : x.pc = .commitLock i) {r : Shared w × Tx w} (hr : commitLockStep b tid i g x = some r) :
    StepOk b P tid g r := by
  have hc : Calm x := .of hp rfl rfl rfl
  have hcore := h.core hc.toInside
  rw [hp] at hcore
  have hpc : PcOk b tid g x (.commitLock i) := hp ▸ h.pc
  obtain ⟨hd, hi, hro⟩ := hpc
  have hw := h.whole hc.ne_out hc.storing
  simp only [TinyStm.commitLockStep, Option.map_eq_some_iff] at hr
  obtain ⟨e, he, rfl⟩ := hr
  split
  · next t n hown =>
    split
    · next ht =>
      subst ht
      refine .stay hS (Core.commitNext (i := i) ?_ hw hd hro hi)
      have hacq := hcore.live.acq hd
      refine ⟨hcore.own, hcore.unit, hcore.settled, hcore.fate, hcore.began, hcore.att,
        hcore.live.rset, hcore.live.rsetOwn, hcore.live.cover, hcore.live.ro, fun _ =>
        ⟨fun hj hlt => hacq.todo hj (Nat.lt_succ_of_lt hlt), fun {j f} hj hle => ?_, hacq.count,
          hacq.idx⟩, hcore.live.wtMem⟩
      rcases Nat.eq_or_lt_of_le hle with rfl | hlt
      · rw [he] at hj
        cases hj
        exact (hcore.own _).mp ⟨n, hown⟩
      · exact hacq.got hj hlt
    · exact .stay hS (h.rollback_calm hc _)
  · exact .stay hS (h.rollback_calm hc _)
  · exact .stay hS (h.goto hc (.commitCas i _) x.standing x.canExtend ⟨rfl, rfl⟩ (by rw [hp]; rfl)
      ⟨hd, hi, hro⟩)

theorem countP_modify {ws : List (WEntry w)} {p : WEntry w → Bool} {f : WEntry w → WEntry w}
    {i : ℕ} {e : WEntry w} (he : ws[i]? = some e) (h₁ : p e = false) (h₂ : p (f e) = true) :
    (ws.modify i f).countP p = ws.countP p + 1 := by
  induction ws generalizing i with
  | nil => simp at he
  | cons c ws ih =>
    cases i with
    | zero =>
      simp only [List.getElem?_cons_zero, Option.some.injEq] at he
      subst he
      simp [h₁, h₂]
    | succ i =>
      rw [List.getElem?_cons_succ] at he
      rw [List.modify_succ_cons, List.countP_cons, List.countP_cons, ih he]
      omega

/-- The lock of entry `i` is taken; entry `i` releases it. -/
theorem Core.commitAcquire (hS : SInv b P g) {i : ℕ} (h : Core b P tid g (i + 1) x)
    (hd : b.design = .writeBackCtl) {e : WEntry w} {l : Ver} (he : x.wset[i]? = some e)
    (hro : x.ro = false) (hfree : g.lock (b.getLock w e.addr) = ⟨l, none⟩) :
    Core b P tid (g.setLock (b.getLock w e.addr) ⟨l, some (.entry tid i)⟩) i
      { x with wset := x.wset.modify i (fun e => { e with noDrop := false, version := l })
               nbAcquired := x.nbAcquired + 1 } := by
  set k := b.getLock w e.addr with hkdef
  set g' := g.setLock k ⟨l, some (.entry tid i)⟩ with hg'
  set f : WEntry w → WEntry w := fun e => { e with noDrop := false, version := l } with hf
  have hE : Evol b g g' := evol_setLock (by rw [hfree]; exact .refl _)
    fun _ hdi => by simp [Dirty, hfree] at hdi
  have hlk : ∀ k', k' ≠ k → g'.lock k' = g.lock k' := fun k' hk' => setLock_of_ne g _ hk'
  have hself : g'.lock k = ⟨l, some (.entry tid i)⟩ := setLock_self g k _
  have hv : ∀ k', g'.ver b k' = g.ver b k' := by
    intro k'
    by_cases hk' : k' = k
    · subst hk'
      simp only [Shared.ver, hself, hfree]
    · simp only [Shared.ver, hlk k' hk']
  have hacq := h.live.acq hd
  have hws := h.att.ws.ctl hd
  have hdrop : ∀ c : WEntry w, b.drops c = !c.noDrop := fun c => by simp [Build.drops, hd]
  have hnd : b.drops e = false := by simp [hdrop, hacq.todo he (Nat.lt_succ_self i)]
  have hfd : b.drops (f e) = true := by simp [hdrop, hf]
  have hi' : (x.wset.modify i f)[i]? = some (f e) := by rw [List.getElem?_modify_eq, he]; rfl
  have hj' : ∀ {j : ℕ}, j ≠ i → (x.wset.modify i f)[j]? = x.wset[j]? := fun hj =>
    List.getElem?_modify_ne _ _ (Ne.symm hj)
  have haddr : ∀ {j : ℕ} {c : WEntry w}, (x.wset.modify i f)[j]? = some c →
      ∃ c', x.wset[j]? = some c' ∧ c.addr = c'.addr ∧ c.value = c'.value ∧ c.mask = c'.mask := by
    intro j c hc
    by_cases hj : j = i
    · subst hj
      rw [hi'] at hc
      cases hc
      exact ⟨e, he, rfl, rfl, rfl⟩
    · rw [hj' hj] at hc
      exact ⟨c, hc, rfl, rfl, rfl⟩
  -- the lock was free, so no later entry has it
  have hnk : ¬ Held b .live x.wset k := by
    intro hk
    obtain ⟨j, hj⟩ := (h.own k).mpr hk
    rw [hfree] at hj
    cases hj
  have hlater : ∀ {j : ℕ} {c : WEntry w}, x.wset[j]? = some c → b.getLock w c.addr = k → j ≤ i := by
    intro j c hc hck
    by_contra hlt
    exact hnk (hck ▸ hacq.got hc (by omega))
  have hnodrop : ∀ {j : ℕ} {c : WEntry w}, x.wset[j]? = some c → b.drops c = true →
      b.getLock w c.addr ≠ k := fun hc hdc hck => hnk ⟨_, _, hc, hdc, trivial, hck⟩
  have hheld : ∀ k', Held b .live (x.wset.modify i f) k' ↔ Held b .live x.wset k' ∨ k' = k := by
    intro k'
    constructor
    · rintro ⟨j, c, hc, hdc, -, hl⟩
      by_cases hj : j = i
      · subst hj
        rw [hi'] at hc
        cases hc
        exact .inr hl.symm
      · rw [hj' hj] at hc
        exact .inl ⟨j, c, hc, hdc, trivial, hl⟩
    · rintro (⟨j, c, hc, hdc, -, hl⟩ | rfl)
      · have hj : j ≠ i := by
          rintro rfl
          rw [he] at hc
          cases hc
          rw [hnd] at hdc
          cases hdc
        exact ⟨j, c, by rw [hj' hj]; exact hc, hdc, trivial, hl⟩
      · exact ⟨i, f e, hi', hfd, trivial, rfl⟩
  exact {
    own := fun k' => by
      rw [hheld]
      by_cases hk' : k' = k
      · subst hk'
        simp [hself]
      · rw [hlk k' hk', h.own]
        simp [hk']
    unit := fun k' => by
      by_cases hk' : k' = k
      · subst hk'
        simp [hself]
      · rw [hlk k' hk']
        exact h.unit k'
    settled := fun hs ho ht => by
      rw [hv]
      exact h.settled hs ho ht
    fate := h.fate
    began := h.began
    att := {
      start_le := h.att.start_le
      end_le := h.att.end_le
      endEq := h.att.endEq
      snap_le := h.att.snap_le
      consistent := fun ho => by
        obtain ⟨n, h₁, h₂, h₃, h₄⟩ := h.att.consistent ho
        exact ⟨n, h₁, h₂, h₃, fun r hr => hE.readAt hS h₂ (h₄ r hr)⟩
      pre := h.att.pre
      order := h.att.order
      dropVer := fun {j c} hc hdc _ => by
        by_cases hj : j = i
        · subst hj
          rw [hi'] at hc
          cases hc
          exact congrArg LockWord.ver hself
        · rw [hj' hj] at hc
          rw [hlk _ (hnodrop hc hdc)]
          exact h.att.dropVer hc hdc trivial
      dropOrder := fun {j j₂ c c₂} hc hdc hc₂ hl => by
        obtain ⟨c₂', hc₂', ha₂, -⟩ := haddr hc₂
        by_cases hj : j = i
        · subst hj
          rw [hi'] at hc
          cases hc
          rw [if_neg (by simp [hd])]
          exact hlater hc₂' (by rw [← ha₂, hl])
        · rw [hj' hj] at hc
          exact h.att.dropOrder hc hdc hc₂' (by rw [← ha₂, hl])
      taken := fun ht => absurd hd ht
      ws := .ofCtl hd {
        inj := fun hc hc₂ hcc => by
          obtain ⟨c', hc', ha, -⟩ := haddr hc
          obtain ⟨c₂', hc₂', ha₂, -⟩ := haddr hc₂
          exact hws.inj hc' hc₂' (by rw [← ha, ← ha₂, hcc])
        mem := fun s hs => by
          obtain ⟨c, hc, hca⟩ := hws.mem s hs
          obtain ⟨j, hj⟩ := List.mem_iff_getElem?.mp hc
          by_cases hji : j = i
          · subst hji
            rw [he] at hj
            cases hj
            exact ⟨f e, List.mem_of_getElem? hi', hca⟩
          · exact ⟨c, List.mem_of_getElem? ((hj' hji).trans hj), hca⟩
        val := fun c hc y => by
          obtain ⟨j, hj⟩ := List.mem_iff_getElem?.mp hc
          obtain ⟨c', hc', ha, hvl, hm⟩ := haddr hj
          rw [ha, hvl, hm]
          exact hws.val c' (List.mem_of_getElem? hc') y } }
    live := {
      rset := fun r hr => by
        rw [hv]
        exact h.live.rset r hr
      rsetOwn := fun hd' => absurd hd hd'
      cover := fun r hr => by
        rcases h.live.cover r hr with hb | ⟨v, h₁, h₂, h₃⟩
        · exact .inl hb
        · refine .inr ⟨v, h₁, by rw [hv]; exact h₂, ?_⟩
          rcases h₃ with h₃ | h₃ | ⟨hh, heq⟩
          · exact .inl h₃
          · exact .inr (.inl h₃)
          · have hne : b.getLock w r.addr ≠ k := by
              intro hk
              rw [hk, hfree] at hh
              exact not_heldBy_free _ _ hh
            exact .inr (.inr ⟨by rw [hlk _ hne]; exact hh, by rw [hv]; exact heq⟩)
      ro := fun hr => by
        rw [hro] at hr
        cases hr
      acq := fun _ => {
        todo := fun {j c} hc hlt => by
          rw [hj' (by omega)] at hc
          exact hacq.todo hc (Nat.lt_succ_of_lt hlt)
        got := fun {j c} hc hle => by
          rw [hheld]
          rcases Nat.eq_or_lt_of_le hle with rfl | hlt
          · rw [hi'] at hc
            cases hc
            exact .inr rfl
          · rw [hj' (by omega)] at hc
            exact .inl (hacq.got hc hlt)
        count := by
          rw [countP_modify he hnd hfd]
          exact congrArg (· + 1) hacq.count
        idx := fun {k' j} hk' => by
          by_cases hkk : k' = k
          · subst hkk
            rw [hself] at hk'
            simp only [Option.some.injEq, Owner.entry.injEq, true_and] at hk'
            subst hk'
            exact ⟨f e, hi', hfd, rfl⟩
          · rw [hlk k' hkk] at hk'
            obtain ⟨c, hc, hdc, hl⟩ := hacq.idx hk'
            have hj : j ≠ i := by
              rintro rfl
              rw [he] at hc
              cases hc
              rw [hnd] at hdc
              cases hdc
            exact ⟨c, (hj' hj).trans hc, hdc, hl⟩ }
      wtMem := fun hd' => by
        rw [hd] at hd'
        cases hd' } }

theorem TInv.commitCasStep (hS : SInv b P g) (h : TInv b P tid g x) {i : ℕ} {l : Ver}
    (hp : x.pc = .commitCas i l) {r : Shared w × Tx w} (hr : commitCasStep b tid i l g x = some r) :
    StepOk b P tid g r := by
  have hc : Calm x := .of hp rfl rfl rfl
  have hcore := h.core hc.toInside
  rw [hp] at hcore
  have hpc : PcOk b tid g x (.commitCas i l) := hp ▸ h.pc
  obtain ⟨hd, hi, hro⟩ := hpc
  have hw := h.whole hc.ne_out hc.storing
  simp only [TinyStm.commitCasStep, Option.map_eq_some_iff] at hr
  obtain ⟨e, he, rfl⟩ := hr
  split
  · next hfree =>
    refine ⟨hS.acquire hfree _, Core.commitNext (hcore.commitAcquire hS hd he hro hfree) ⟨?_, ?_⟩
      hd hro (by rw [List.length_modify]; exact hi),
      fun u hu => interf_acquire hfree (by simpa using Ne.symm hu)⟩
    · intro c hc'
      obtain ⟨j, hj⟩ := List.mem_iff_getElem?.mp hc'
      simp only [List.getElem?_modify, Option.map_eq_map, Option.map_eq_some_iff] at hj
      obtain ⟨c', hc'', rfl⟩ := hj
      obtain ⟨s, hs, hsa⟩ := hw.touched c' (List.mem_of_getElem? hc'')
      refine ⟨s, hs, hsa.trans ?_⟩
      split <;> rfl
    · intro hd'
      rw [hd] at hd'
      cases hd'
  · exact .stay hS (h.goto hc (.commitLock i) x.standing x.canExtend ⟨rfl, rfl⟩ (by rw [hp]; rfl)
      ⟨hd, hi, hro⟩)

end TinyStm
