import TinyStm.Steps.Undo

/-!
# Steps of one thread: start of an attempt and unit transactions
-/

namespace TinyStm

open Timeline

variable {w : ℕ} {b : Build} {P : Mode} {tid : ℕ} {g g' : Shared w} {x : Tx w} {a : ℕ}

/-! ### Outside transactions -/

theorem TInv.not_heldBy (h : TInv b P tid g x) (hp : x.pc.phase = .out)
    (hu : ∀ k, ¬ UnitHeld b k x.pc) (k : ℕ) : ¬ (g.lock k).HeldBy tid := by
  intro hk
  obtain ⟨j, e, -, -, hr, -⟩ := h.held_of_heldBy hu hk
  rw [hp] at hr
  exact hr

theorem TInv.settled_free (h : TInv b P tid g x) (hc : x.pc.cur = none) {n k : ℕ}
    {s : Slot (List (Store w))} (hs : g.log n = some s) (ho : s.owner = tid)
    (ht : (b.sem w).touch s.body k) : n ≤ g.ver b k :=
  h.settled hs ho (by rw [hc]; simp) ht

theorem TInv.fate_free (h : TInv b P tid g x) (hc : x.pc.cur = none) {n : ℕ}
    {ss : List (Store w)} (hs : g.log n = some ⟨tid, ss, true⟩) : Over b tid g n ss := by
  rcases h.fate hs with hover | hc'
  · exact hover
  · rw [hc] at hc'
    cases hc'

/-- A move between points outside transactions that hold no lock. -/
theorem TInv.outMove {x' : Tx w} (h : TInv b P tid g x) (hp : x.pc.phase = .out)
    (hu : ∀ k, ¬ UnitHeld b k x.pc) (hc : x.pc.cur = none) (hb : x'.began ≤ g.time)
    (hp' : x'.pc.phase = .out) (hu' : ∀ k, ¬ UnitHeld b k x'.pc) (hpc : PcOk b tid g x' x'.pc) :
    TInv b P tid g x' :=
  .outside (h.not_heldBy hp hu) (h.settled_free hc) (h.fate_free hc) hb hp' hu' hpc

theorem TInv.stepIdle (hS : SInv b P g) (h : TInv b P tid g x) (hp : x.pc = .idle) {act : Act w}
    {r : Shared w × Tx w} (hr : stepIdle g x act = some r) : StepOk b P tid g r := by
  have hmove : ∀ x' : Tx w, x'.began ≤ g.time → x'.pc.phase = .out →
      (∀ k, ¬ UnitHeld b k x'.pc) → PcOk b tid g x' x'.pc → StepOk b P tid g (g, x') :=
    fun x' hb hp' hu' hpc => .stay hS
      (h.outMove (by rw [hp]; rfl) (by simp [hp, UnitHeld]) (by rw [hp]; rfl) hb hp' hu' hpc)
  cases act with
  | start ro =>
    cases hr
    exact hmove _ le_rfl rfl (by simp [UnitHeld]) trivial
  | unitStore c v m ts =>
    cases hr
    exact hmove _ le_rfl rfl (by simp [UnitHeld]) trivial
  | unitLoad c =>
    cases hr
    exact hmove _ h.began rfl (by simp [UnitHeld]) trivial
  | _ => cases hr

/-! ### `stm_prepare` -/

theorem SInv.pos_le (hS : SInv b P g) {A : Attempt w} (hA : A ∈ g.hist) {p : ℕ}
    (hp : A.pos = some p) : p ≤ g.clock := by
  have hok := hS.hist A hA
  unfold Attempt.pos at hp
  split at hp
  · next t ho =>
    cases hp
    exact (hok.commit _ (by simp [Attempt.wrote, ho])).2.1
  · cases hp
    exact hok.snap_le
  · cases hp

theorem TInv.stmPrepare (hS : SInv b P g) (h : TInv b P tid g x) (hp : x.pc = .prepare)
    (hfits : b.Fits w (g.clock + 1)) (hstart : b.startOf w x.start g.clock = b.startV w g.clock)
    (hend : b.endOf w x.endT g.clock = b.endV w g.clock) {r : Shared w × Tx w}
    (hr : stmPrepare b g x = some r) : StepOk b P tid g r := by
  have hpo : x.pc.phase = .out := by rw [hp]; rfl
  have hu : ∀ k, ¬ UnitHeld b k x.pc := by simp [hp, UnitHeld]
  have hc : x.pc.cur = none := by rw [hp]; rfl
  have hfits' : b.Fits w g.clock := fun hmb => (Nat.le_succ _).trans (hfits hmb)
  have hfree := h.not_heldBy hpo hu
  simp only [TinyStm.stmPrepare, hstart, hend] at hr
  split at hr
  · cases hr
    exact .stay hS (h.outMove hpo hu hc h.began rfl (by simp [UnitHeld]) trivial)
  · cases hr
    have hnil : ∀ k, ¬ Held b .live ([] : List (WEntry w)) k := by
      rintro k ⟨j, e, he, -⟩
      simp at he
    refine .stay hS (Core.tinv (n := 0) ?_ ⟨rfl, rfl⟩ rfl (fun _ => ⟨by simp, fun _ => rfl⟩) trivial)
    exact {
      own := fun k => iff_of_false (fun hk => hfree k (.inl hk)) (hnil k)
      unit := fun k hk => hfree k (.inr hk)
      settled := h.settled_free hc
      fate := h.fate_free hc
      began := h.began
      att := {
        start_le := (Build.stamp_startV hfits').le
        end_le := (Build.stamp_endV hfits').le
        endEq := fun _ => Build.stamp_endV hfits'
        snap_le := le_rfl
        consistent := fun _ => ⟨g.clock, le_rfl, le_rfl, fun _ => rfl, by simp⟩
        pre := by simp
        order := fun A hA _ p hp' => (hS.pos_le hA hp').trans (Build.stamp_startV hfits').ge
        dropVer := fun he => by simp at he
        dropOrder := fun he => by simp at he
        taken := fun _ _ _ he => by simp at he
        ws := {
          ctl := fun _ => ⟨fun he => by simp at he, by simp, by simp⟩
          etl := fun _ => {
            inj := fun he => by simp at he
            mem := by simp
            lock := by simp
            val := by simp
            chain := ⟨fun he => by simp at he, fun he => by simp at he⟩
            head := fun hk => absurd (.inl ⟨_, hk⟩) (hfree _) }
          wt := fun _ => ⟨le_rfl, fun hs => by simp at hs⟩ } }
      live := {
        rset := by simp
        rsetOwn := by simp
        cover := by simp
        ro := fun _ => ⟨rfl, rfl⟩
        acq := fun _ => ⟨fun he => by simp at he, fun he => by simp at he, rfl,
          fun hk => absurd (.inl ⟨_, hk⟩) (hfree _)⟩
        wtMem := fun _ a hk => absurd hk (hnil _) } }

/-! ### `stm_set_extension` and standing ticks -/

theorem TInv.setExtension (h : TInv b P tid g x) (hp : x.pc = .run) (hext : ¬ P.noExt)
    (en : Bool) (ts : Option ℕ) : TInv b P tid g (setExtension b x en ts) := by
  have hc : Ready x := .of hp rfl rfl rfl fun _ => rfl
  unfold TinyStm.setExtension
  split
  · have := h.goto hc.toCalm x.pc x.standing en ⟨hc.live, hc.cur⟩ rfl (by rw [hp]; trivial)
    exact this
  · next s =>
    have hcore := h.core hc.toInside
    have hatt := hcore.att
    have hw := h.whole hc.ne_out hc.storing
    have hle : (if b.endV w s < x.endT then b.endV w s else x.endT) ≤ x.endT := by
      split
      · next hlt => exact hlt.le
      · exact le_rfl
    refine Core.tinv (n := x.pc.acqFrom x.wset.length) ?_ ⟨hc.live, hc.cur⟩ rfl
      (fun _ => ⟨hw.touched, hw.len⟩) (by rw [hp]; trivial)
    refine ⟨hcore.own, hcore.unit, hcore.settled, hcore.fate, hcore.began, ?_, ?_⟩
    · exact ⟨hatt.start_le, (Build.stamp_mono hle).trans hatt.end_le, fun hn => absurd hn hext,
        hatt.snap_le, hatt.consistent, hatt.pre, hatt.order, hatt.dropVer, hatt.dropOrder,
        hatt.taken, hatt.ws.congr rfl rfl⟩
    · exact ⟨hcore.live.rset, hcore.live.rsetOwn, hcore.live.cover, hcore.live.ro,
        fun hd => (hcore.live.acq hd).congr rfl rfl, hcore.live.wtMem⟩

theorem PcOk.set {p : Pc w} (h : PcOk b tid g x p) (s : Bool) :
    PcOk b tid g { x with standing := s } p := by
  cases p with
  | extClock c => exact h
  | validate now i c =>
    obtain ⟨h₁, h₂, h₃, h₄, h₅, h₆⟩ := h
    exact ⟨h₁, h₂, h₃, h₄, h₅, by cases c <;> exact h₆⟩
  | pub t i => exact PubOk.set h x.pc s x.canExtend
  | pubStore t i v => exact ⟨h.1, PubOk.set h.2.1 x.pc s x.canExtend, h.2.2⟩
  | pubRel t i => exact PubOk.set h x.pc s x.canExtend
  | rb r i t => exact UndoOk.set h x.pc s x.canExtend
  | rbDrop r i t => exact ⟨h.1, UndoOk.set h.2 x.pc s x.canExtend⟩
  | _ => exact h

theorem TInv.setStanding (h : TInv b P tid g x) (s : Bool) :
    TInv b P tid g { x with standing := s } where
  own := h.own
  unit := h.unit
  settled := h.settled
  fate := h.fate
  began := h.began
  att hp := (h.att hp).set x.pc s x.canExtend
  live hp := (h.live hp).set x.pc s x.canExtend
  whole hp hs := ⟨(h.whole hp hs).touched, (h.whole hp hs).len⟩
  pc := h.pc.set s

/-! ### Unit loads -/

theorem TInv.unitLdDispatch (h : TInv b P tid g x) (hp : x.pc.phase = .out)
    (hu : ∀ k, ¬ UnitHeld b k x.pc) (hc : x.pc.cur = none) :
    TInv b P tid g (unitLdDispatch x a (g.lock (b.getLock w a))) := by
  unfold TinyStm.unitLdDispatch
  split
  · exact h.outMove hp hu hc h.began rfl (by simp [UnitHeld]) (VerLe.refl _)
  · exact h.outMove hp hu hc h.began rfl (by simp [UnitHeld]) trivial

theorem TInv.unitLdLock2Step (h : TInv b P tid g x) {l : Ver} {v : BitVec w}
    (hp : x.pc = .unitLdLock2 a l v) : TInv b P tid g (unitLdLock2Step b a l v g x) := by
  have hpo : x.pc.phase = .out := by rw [hp]; rfl
  have hu : ∀ k, ¬ UnitHeld b k x.pc := by simp [hp, UnitHeld]
  have hc : x.pc.cur = none := by rw [hp]; rfl
  unfold TinyStm.unitLdLock2Step
  simp only
  split
  · exact h.unitLdDispatch hpo hu hc
  · exact h.outMove hpo hu hc h.began rfl (by simp [UnitHeld]) trivial

/-! ### Unit stores -/

theorem TInv.unitLockStep (h : TInv b P tid g x) {v : BitVec w} {ts : Option ℕ}
    (hp : x.pc = .unitLock a v ts) : TInv b P tid g (unitLockStep b a v ts g x) := by
  have hmove : ∀ x' : Tx w, x'.began = x.began → x'.pc.phase = .out →
      (∀ k, ¬ UnitHeld b k x'.pc) → PcOk b tid g x' x'.pc → TInv b P tid g x' :=
    fun x' hb hp' hu' hpc => h.outMove (by rw [hp]; rfl) (by simp [hp, UnitHeld]) (by rw [hp]; rfl)
      (hb ▸ h.began) hp' hu' hpc
  unfold TinyStm.unitLockStep
  simp only
  split
  · exact h
  · split
    · split
      · exact hmove _ rfl rfl (by simp [UnitHeld]) trivial
      · exact hmove _ rfl rfl (by simp [UnitHeld]) trivial
    · exact hmove _ rfl rfl (by simp [UnitHeld]) trivial

theorem TInv.unitCasStep (hS : SInv b P g) (h : TInv b P tid g x) {v : BitVec w} {ts : Option ℕ}
    {l : Ver} (hp : x.pc = .unitCas a v ts l) :
    StepOk b P tid g (unitCasStep b tid a v ts l g x) := by
  have hpo : x.pc.phase = .out := by rw [hp]; rfl
  have hu : ∀ k, ¬ UnitHeld b k x.pc := by simp [hp, UnitHeld]
  have hc : x.pc.cur = none := by rw [hp]; rfl
  have hfree := h.not_heldBy hpo hu
  unfold TinyStm.unitCasStep
  split
  · next hk =>
    set k := b.getLock w a with hkdef
    have hlk : ∀ k', k' ≠ k → (g.setLock k ⟨l, some (.unit tid)⟩).lock k' = g.lock k' :=
      fun k' hk' => setLock_of_ne g _ hk'
    have hself : (g.setLock k ⟨l, some (.unit tid)⟩).lock k = ⟨l, some (.unit tid)⟩ :=
      setLock_self g k _
    have hv : ∀ k', (g.setLock k ⟨l, some (.unit tid)⟩).ver b k' = g.ver b k' := by
      intro k'
      by_cases hk' : k' = k
      · subst hk'
        simp only [Shared.ver, hself, hk]
      · simp only [Shared.ver, hlk k' hk']
    refine ⟨hS.acquire hk _, ?_, fun u hu' => interf_acquire hk (by simpa using Ne.symm hu')⟩
    exact {
      own := fun k' => by
        refine iff_of_false ?_ ?_
        · rintro ⟨i, hi⟩
          by_cases hk' : k' = k
          · subst hk'
            rw [hself] at hi
            cases hi
          · rw [hlk k' hk'] at hi
            exact hfree k' (.inl ⟨i, hi⟩)
        · rintro ⟨j, e, -, -, hr, -⟩
          exact hr
      unit := fun k' => by
        show _ ↔ k = k'
        by_cases hk' : k' = k
        · subst hk'
          exact iff_of_true (by rw [hself]) rfl
        · rw [hlk k' hk']
          exact iff_of_false (fun hk'' => hfree k' (.inr hk'')) (Ne.symm hk')
      settled := fun hs ho _ ht => by
        rw [hv]
        exact h.settled_free hc hs ho ht
      fate := fun hs => .inl (h.fate_free hc hs)
      began := h.began
      att := fun hne => absurd rfl hne
      live := fun hl => by simp [Pc.phase] at hl
      whole := fun hne => absurd rfl hne
      pc := by
        intro a' ha'
        show g.mem a' = (g.setLock k ⟨l, some (.unit tid)⟩).at b
          ((g.setLock k ⟨l, some (.unit tid)⟩).ver b (b.getLock w a')) a'
        rw [hv, setLock_at]
        have hka : g.lock (b.getLock w a') = ⟨l, none⟩ := by rw [ha']; exact hk
        rw [hS.mem_free hka]
        simp only [Shared.ver, hka] }
  · exact .stay hS (h.outMove hpo hu hc h.began rfl (by simp [UnitHeld]) trivial)

theorem TInv.unitStoreStep (hS : SInv b P g) (h : TInv b P tid g x) {v : BitVec w}
    (hp : x.pc = .unitStore a v) : StepOk b P tid g (g.setMem a v, { x with pc := .unitInc a v }) := by
  have hpc : UnitMem b g a none := by
    have := h.pc
    rw [hp] at this
    exact this
  have hown : (g.lock (b.getLock w a)).own = some (.unit tid) := (h.unit _).mpr (by rw [hp]; rfl)
  have hdirty : Dirty b g (b.getLock w a) := by simp [Dirty, hown]
  refine ⟨hS.setMem v hdirty, ?_, fun u hu => interf_setMem (.inr hown) hu⟩
  exact {
    own := fun k => by
      have := h.own k
      rw [hp] at this
      exact this
    unit := fun k => by
      have := h.unit k
      rw [hp] at this
      exact this
    settled := fun hs ho hc ht => h.settled hs ho (by rw [hp]; exact hc) ht
    fate := fun hs => by
      rcases h.fate hs with hover | hc
      · exact .inl hover
      · rw [hp] at hc
        cases hc
    began := h.began
    att := fun hne => absurd rfl hne
    live := fun hl => by simp [Pc.phase] at hl
    whole := fun hne => absurd rfl hne
    pc := by
      intro a' ha'
      show Function.update g.mem a v a' =
        if a' = a then v else g.at b (g.ver b (b.getLock w a')) a'
      by_cases haa : a' = a
      · subst haa
        rw [Function.update_self, if_pos rfl]
      · rw [Function.update_of_ne haa, if_neg haa]
        exact hpc a' ha' }

theorem TInv.unitIncStep (hS : SInv b P g) (h : TInv b P tid g x) {v : BitVec w}
    (hp : x.pc = .unitInc a v) (hstamp : b.stamp (g.clock + 1) = g.clock + 1) :
    StepOk b P tid g (unitIncStep tid a v g x) := by
  have hpc : UnitMem b g a (some v) := by
    have := h.pc
    rw [hp] at this
    exact this
  have hown : (g.lock (b.getLock w a)).own = some (.unit tid) := (h.unit _).mpr (by rw [hp]; rfl)
  have hc : x.pc.cur = none := by rw [hp]; rfl
  have htouch : ∀ k, (b.sem w).touch [⟨a, v, BitVec.allOnes w⟩] k → (g.lock k).HeldBy tid := by
    rintro k ⟨s, hs, rfl⟩
    rw [List.mem_singleton.mp hs]
    exact .inr hown
  have hE : Evol b g (g.fetchInc tid [⟨a, v, BitVec.allOnes w⟩] true) := evol_fetchInc hS _ _
  show StepOk b P tid g (g.fetchInc tid [⟨a, v, BitVec.allOnes w⟩] true,
    { x with pc := .unitRel a v (g.clock + 1) })
  refine ⟨hS.fetchInc _ true htouch, ?_, fun u hu => interf_fetchInc hS hu _ true⟩
  exact {
    own := fun k => by
      have := h.own k
      rw [hp] at this
      exact this
    unit := fun k => by
      have := h.unit k
      rw [hp] at this
      exact this
    settled := fun {n s k} hs ho hn ht => by
      have hn' : n ≠ g.clock + 1 := fun heq => hn (by rw [heq]; rfl)
      rw [log_fetchInc_of_ne hn'] at hs
      exact h.settled_free hc hs ho ht
    fate := fun {n ss} hs => by
      by_cases hn : n = g.clock + 1
      · exact .inr (by rw [hn]; rfl)
      · rw [log_fetchInc_of_ne hn] at hs
        exact .inl (h.fate_free hc hs)
    began := h.began
    att := fun hne => absurd rfl hne
    live := fun hl => by simp [Pc.phase] at hl
    whole := fun hne => absurd rfl hne
    pc := by
      refine ⟨fun a' ha' => ?_, fetchInc_self g _ _, hstamp, Nat.lt_succ_of_le (hS.ver_le _),
        fun A hA ht => ?_⟩
      · have hat := hE.at_eq (a := a') hS (le_refl (g.ver b (b.getLock w a')))
        have hm := hpc a' ha'
        show g.mem a' = if a' = a then v
          else (g.fetchInc tid [⟨a, v, BitVec.allOnes w⟩] true).at b (g.ver b (b.getLock w a')) a'
        rw [hat]
        exact hm
      · have := ((hS.hist A hA).commit _ ht).2.1
        omega }

theorem TInv.unitRelStep (hS : SInv b P g) (h : TInv b P tid g x) (hb : x.began < g.time)
    {v : BitVec w} {t : ℕ} (hp : x.pc = .unitRel a v t) :
    StepOk b P tid g (unitRelStep b tid a v t g x) := by
  have hpc : PcOk b tid g x (.unitRel a v t) := hp ▸ h.pc
  obtain ⟨hmem, hlog, hstamp, hlt, hfresh⟩ := hpc
  have hpo : x.pc.phase = .out := by rw [hp]; rfl
  have hcur : x.pc.cur = some t := by rw [hp]; rfl
  set k := b.getLock w a with hk
  have hown : (g.lock k).own = some (.unit tid) := (h.unit _).mpr (by rw [hp]; rfl)
  have hby : (g.lock k).HeldBy tid := .inr hown
  have hver : VerLe b (g.lock k).ver ⟨t, 0⟩ := .inl (by rw [hstamp]; exact hlt)
  have hnd : (⟨t, 0⟩ : Ver) = (g.lock k).ver → ¬ Dirty b g k := by
    intro heq
    have : g.ver b k = t := by rw [Shared.ver, ← heq]; exact hstamp
    omega
  have hS' : SInv b P (g.setLock k ⟨⟨t, 0⟩, none⟩) := by
    refine hS.release hver hnd (fun n s hs ht => ?_) ?_ fun a' ha' => ?_
    · rw [hstamp]
      by_cases hn : n = t
      · subst hn
        rw [hlog] at hs
        cases hs
        exact ⟨le_rfl, rfl⟩
      · obtain ⟨hle, hdec⟩ := h.settled_held hS hby hs ht (by rw [hcur]; simpa using Ne.symm hn)
        exact ⟨hle.trans hlt.le, hdec⟩
    · rw [hstamp]
      exact .inr ⟨_, hlog, ⟨a, v, BitVec.allOnes w⟩, List.mem_singleton_self _, rfl⟩
    · rw [hstamp, h.at_cur hS (ha' ▸ hby) hcur hlog (ha' ▸ hlt)]
      have hm : g.mem a' = if a' = a then v else g.at b (g.ver b (b.getLock w a')) a' :=
        hmem a' ha'
      rw [hm]
      by_cases haa : a' = a
      · simp [overlay, haa]
      · simp [overlay, haa, Ne.symm haa]
  have hA : HistOk b P (g.setLock k ⟨⟨t, 0⟩, none⟩) (unitAttempt tid g x a v t) := by
    refine ⟨⟨hb, le_rfl⟩, Nat.zero_le _, fun _ => Build.stamp_zero b,
      fun _ => ⟨0, Nat.zero_le _, fun _ => rfl, by simp [unitAttempt]⟩, by simp [unitAttempt],
      fun t' ht' => ?_, fun ho => by simp [unitAttempt] at ho⟩
    have ht : t = t' := by simpa [unitAttempt, Attempt.wrote] using ht'
    subst ht
    exact ⟨(hS.slot hlog).1, (hS.slot hlog).2, hlog, by simp [unitAttempt]⟩
  have hfree : ∀ k', ¬ ((g.setLock k ⟨⟨t, 0⟩, none⟩).lock k').HeldBy tid := by
    intro k' hk'
    by_cases hkk : k' = k
    · subst hkk
      rw [setLock_self] at hk'
      exact not_heldBy_free _ _ hk'
    · rw [setLock_of_ne g _ hkk] at hk'
      rcases hk' with hk' | hk'
      · obtain ⟨j, e, -, -, hr, -⟩ := (h.own k').mp hk'
        rw [hpo] at hr
        exact hr
      · have hu := (h.unit k').mp hk'
        rw [hp] at hu
        exact hkk (Eq.symm hu)
  -- both ways out are outside transactions
  have hout : ∃ p : Pc w, (if b.versionMax w ≤ t then .barrier else .idle : Pc w) = p ∧
      p.phase = .out ∧ (∀ k, ¬ UnitHeld b k p) ∧ ∀ g' x', PcOk b tid g' x' p := by
    split
    · exact ⟨.barrier, rfl, rfl, by simp [UnitHeld], fun _ _ => trivial⟩
    · exact ⟨.idle, rfl, rfl, by simp [UnitHeld], fun _ _ => trivial⟩
  obtain ⟨p, hp', hphase, hunit, hpcp⟩ := hout
  simp only [TinyStm.unitRelStep, hp']
  refine ⟨hS'.record hA rfl (fun A hA' t' ht' => ?_) (fun A hA' hf p q hp' hq => ?_), ?_,
    fun u hu => (interf_release hver hnd fun hu' => hu (hu'.unique hby)).trans
      (interf_record rfl (Ne.symm hu))⟩
  · have ht : t = t' := by simpa [unitAttempt, Attempt.wrote] using ht'
    subst ht
    exact hfresh A hA'
  · simp [unitAttempt, Attempt.pos] at hq
  · refine TInv.outside hfree (fun {n s k'} hs ho ht => ?_) (fun {n ss} hs => ?_) h.began hphase
      hunit (hpcp _ _)
    · by_cases hn : n = t
      · subst hn
        have hs' : g.log n = some s := hs
        rw [hlog] at hs'
        cases hs'
        obtain ⟨s', hs', rfl⟩ := ht
        rw [List.mem_singleton.mp hs']
        show n ≤ (g.setLock k ⟨⟨n, 0⟩, none⟩).ver b k
        rw [Shared.ver, setLock_self]
        exact hstamp.ge
      · have hle := h.settled hs ho (by rw [hcur]; simpa using Ne.symm hn) ht
        have hE : Evol b g (g.setLock k ⟨⟨t, 0⟩, none⟩) :=
          evol_setLock hver fun heq hd => absurd hd (hnd heq)
        exact hle.trans (hE.ver_le k')
    · rcases h.fate hs with hover | hc
      · exact hover.mono fun _ hA' => List.mem_append_left _ hA'
      · rw [hcur] at hc
        cases hc
        have hs' : g.log t = some ⟨tid, ss, true⟩ := hs
        rw [hlog] at hs'
        cases hs'
        exact .inl ⟨_, List.mem_append_right _ (List.mem_singleton_self _), rfl, rfl, rfl⟩

end TinyStm
