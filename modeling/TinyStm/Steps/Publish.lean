import TinyStm.Steps.Commit

/-!
# Steps of one thread: timestamp, decision and publication

`FETCH_INC_CLOCK` gives the update its place in the timeline. The fast path
decides it in the same step; otherwise the validation of the read set decides or
withdraws it. A decided update is then written back lock by lock.
-/

namespace TinyStm

open Timeline

variable {w : ℕ} {b : Build} {P : Mode} {tid : ℕ} {g g' : Shared w} {x : Tx w} {a : ℕ}

/-! ### The decision -/

theorem remains_pub_zero (t n j : ℕ) (hj : j < n) :
    Remains b n j .live ↔ Remains b n j (.pub t 0) := by
  simp only [Remains, true_iff]
  split <;> omega

/-- All locks of the write set are held: after the acquisition loop in the
commit-time design, always in the other ones. -/
theorem Live.all_held (hl : Live b tid g 0 x) (hatt : Att b P tid g .live x) {j : ℕ}
    {e : WEntry w} (he : x.wset[j]? = some e) : Held b .live x.wset (b.getLock w e.addr) := by
  by_cases hd : b.design = .writeBackCtl
  · exact (hl.acq hd).got he (Nat.zero_le j)
  · exact hatt.taken hd he trivial

theorem Live.stores_held (hl : Live b tid g 0 x) (hatt : Att b P tid g .live x) {s : Store w}
    (hs : s ∈ x.stores) : Held b .live x.wset (b.getLock w s.addr) := by
  have hentry : ∃ (j : ℕ) (e : WEntry w), x.wset[j]? = some e ∧
      b.getLock w e.addr = b.getLock w s.addr := by
    cases hd : b.design with
    | writeBackCtl =>
      obtain ⟨e, he, ha⟩ := (hatt.ws.ctl hd).mem s hs
      obtain ⟨j, hj⟩ := List.mem_iff_getElem?.mp he
      exact ⟨j, e, hj, by rw [ha]⟩
    | writeBackEtl =>
      obtain ⟨e, he, hk⟩ := (hatt.ws.etl hd).lock s hs
      obtain ⟨j, hj⟩ := List.mem_iff_getElem?.mp he
      exact ⟨j, e, hj, hk⟩
    | writeThrough =>
      obtain ⟨j, hj⟩ := List.mem_iff_getElem?.mp hs
      obtain ⟨e, he, ha, -⟩ := (hatt.ws.wt hd).ent hj
      exact ⟨j, e, he, by rw [ha]⟩
  obtain ⟨j, e, he, hk⟩ := hentry
  rw [← hk]
  exact hl.all_held hatt he

/-- A word that is stored to with a mask has an entry in a write-back write set. -/
theorem Att.overlay_or_entry {ph : Phase} (h : Att b P tid g ph x) (hd : b.design ≠ .writeThrough)
    (a : ℕ) : (∀ y, overlay x.stores a y = y) ∨
      ∃ (j : ℕ) (e : WEntry w), x.wset[j]? = some e ∧ e.addr = a := by
  by_cases hex : ∃ (j : ℕ) (e : WEntry w), x.wset[j]? = some e ∧ e.addr = a
  · exact .inr hex
  · refine .inl (overlay_eq_self fun s hs ha => ?_)
    by_contra hm
    have : ∃ e ∈ x.wset, e.addr = s.addr := by
      cases hdes : b.design with
      | writeBackCtl => exact (h.ws.ctl hdes).mem s hs
      | writeBackEtl => exact (h.ws.etl hdes).mem s hs hm
      | writeThrough => exact absurd hdes hd
    obtain ⟨e, he, hea⟩ := this
    obtain ⟨j, hj⟩ := List.mem_iff_getElem?.mp he
    exact hex ⟨j, e, hj, hea.trans ha⟩

/-- The update `t` has just been decided: the publication starts. -/
theorem publish {t : ℕ} (hown : ∀ k, (∃ i, (g.lock k).own = some (.entry tid i)) ↔
      Held b .live x.wset k) (hunit : ∀ k, (g.lock k).own ≠ some (.unit tid))
    (hset : ∀ {n s k}, g.log n = some s → s.owner = tid → n ≠ t → (b.sem w).touch s.body k →
      n ≤ g.ver b k)
    (hfate : ∀ {n ss}, g.log n = some ⟨tid, ss, true⟩ → n ≠ t →
      Over b tid g n ss)
    (hb : x.began ≤ g.time) (hatt : Att b P tid g .live x) (hlive : Live b tid g 0 x)
    (hw : Whole b x) (hpos : 0 < t ∧ t ≤ g.clock ∧ x.snap < t) (hfits : b.Fits w t)
    (hlog : g.log t = some ⟨tid, x.stores, true⟩) (hfresh : ∀ A ∈ g.hist, A.wrote ≠ some t)
    (hreads : ∀ r ∈ x.reads, ReadAt b g (t - 1) r)
    (hbelow : ∀ k, (g.lock k).HeldBy tid → g.ver b k < t)
    (hmem : b.design ≠ .writeThrough → ∀ a, (g.lock (b.getLock w a)).HeldBy tid →
      g.mem a = g.at b (g.ver b (b.getLock w a)) a) :
    TInv b P tid g { x with pc := .pub t 0 } := by
  have hheld := held_congr (b := b) (remains_pub_zero (b := b) t x.wset.length)
  have hby : ∀ {k}, Held b (.pub t 0) x.wset k → (g.lock k).HeldBy tid := fun hk =>
    .inl ((hown _).mpr ((hheld _).mpr hk))
  exact {
    own := fun k => (hown k).trans (hheld k)
    unit := fun k => iff_of_false (hunit k) (by simp [UnitHeld])
    settled := fun hs ho hc ht => hset hs ho (fun hn => hc (by rw [hn]; rfl)) ht
    fate := fun {n ss} hs => by
      by_cases hn : n = t
      · exact .inr (by rw [hn]; rfl)
      · exact .inl (hfate hs hn)
    began := hb
    att := fun _ => (hatt.set _ x.standing x.canExtend).rephase
      (fun j hj => (remains_pub_zero t _ j hj).mpr)
      fun _ _ _ he _ => (hheld _).mp (hlive.all_held hatt he)
    live := fun hp => by simp [Pc.phase] at hp
    whole := fun _ _ => ⟨hw.touched, hw.len⟩
    pc := {
      pos := hpos
      fits := hfits
      log := hlog
      fresh := hfresh
      reads := hreads
      below := fun hk => hbelow _ (hby hk)
      done := fun s hs => .inl ((hheld _).mp (hlive.stores_held hatt hs))
      mem := fun a hk => by
        by_cases hd : b.design = .writeThrough
        · exact .inl (hlive.wtMem hd a ((hheld _).mpr hk))
        · have hm := hmem hd a (hby hk)
          rcases hatt.overlay_or_entry hd a with hid | ⟨j, e, he, ha⟩
          · exact .inl (by rw [hid]; exact hm)
          · exact .inr ⟨hd, hm, j, e, he, ha, Nat.zero_le j⟩ } }

/-- The locks of a live attempt and the memory below them, while the shared state
changes elsewhere. -/
theorem TInv.frame_live (hS : SInv b P g) (h : TInv b P tid g x) (hl : x.pc.phase = .live)
    (hF : Frame b tid g g') (hist : g'.hist = g.hist) :
    Att b P tid g' .live x ∧ Live b tid g' (x.pc.acqFrom x.wset.length) x := by
  have hne : x.pc.phase ≠ .out := by rw [hl]; simp
  have hatt := h.att hne
  rw [hl] at hatt
  have hheld : ∀ k, Held b .live x.wset k → (g.lock k).HeldBy tid := fun k hk =>
    h.heldBy_of_held (by rw [hl]; exact hk)
  exact ⟨hatt.stable hS (hF.keeps hheld) fun A hA => .inl (hist ▸ hA),
    (h.live hl).stable hS hF hheld hatt.snap_le⟩

theorem frame_fetchInc (hS : SInv b P g) (ss : List (Store w)) (d : Bool) :
    Frame b tid g (g.fetchInc tid ss d) :=
  ⟨evol_fetchInc hS ss d, fun _ _ => rfl, fun _ _ => rfl⟩

theorem fetchInc_self (g : Shared w) (ss : List (Store w)) (d : Bool) :
    (g.fetchInc tid ss d).log (g.clock + 1) = some ⟨tid, ss, d⟩ := by
  simp [Shared.fetchInc]

theorem log_fetchInc_of_ne {n : ℕ} (hn : n ≠ g.clock + 1) (ss : List (Store w)) (d : Bool) :
    (g.fetchInc tid ss d).log n = g.log n := by
  simp [Shared.fetchInc, hn]

theorem TInv.commitIncStep (hS : SInv b P g) (h : TInv b P tid g x) (hp : x.pc = .commitInc)
    (hfits : b.Fits w (g.clock + 1)) : StepOk b P tid g (commitIncStep b tid g x) := by
  have hc : Calm x := .of hp rfl rfl rfl
  have hcore := h.core hc.toInside
  rw [hp] at hcore
  have hlive : Live b tid g 0 x := hcore.live
  have hro : x.ro = false := by
    have := h.pc
    rw [hp] at this
    exact this
  have hw := h.whole hc.ne_out hc.storing
  have hfits' : b.Fits w g.clock := fun hmb => (Nat.le_succ _).trans (hfits hmb)
  have htouch : ∀ k, (b.sem w).touch x.stores k → (g.lock k).HeldBy tid := by
    rintro k ⟨s, hs, rfl⟩
    exact (hcore.heldBy_iff _).mpr (hlive.stores_held hcore.att hs)
  have hframe : ∀ d, Att b P tid (g.fetchInc tid x.stores d) .live x ∧
      Live b tid (g.fetchInc tid x.stores d) 0 x := by
    intro d
    have := h.frame_live hS hc.live (frame_fetchInc hS x.stores d) rfl
    rwa [hp] at this
  unfold TinyStm.commitIncStep
  split
  · next hstart =>
    -- the fast path: nothing has happened since the attempt started
    have hsnap : x.snap = g.clock := by
      have hle := hcore.att.start_le
      rw [hstart, Build.stamp_startV hfits'] at hle
      exact le_antisymm hcore.att.snap_le hle
    have hS' := hS.fetchInc x.stores true htouch
    refine ⟨hS', ?_, fun u hu => interf_fetchInc hS hu x.stores true⟩
    refine publish (g := g.fetchInc tid x.stores true) hcore.own hcore.unit ?_ ?_ hcore.began
      (hframe true).1 (hframe true).2 hw
      ⟨Nat.succ_pos _, le_rfl, by rw [hsnap]; exact Nat.lt_succ_self _⟩ hfits (fetchInc_self g _ _)
      ?_ ?_ ?_ ?_
    · intro n s k hs ho hn ht
      rw [log_fetchInc_of_ne hn] at hs
      exact hcore.settled hs ho ht
    · intro n ss hs hn
      rw [log_fetchInc_of_ne hn] at hs
      exact hcore.fate hs
    · intro A hA ht
      have := ((hS.hist A hA).commit _ ht).2.1
      omega
    · intro r hr
      have := h.reads_at_snap hS hc.toInside (fun k _ => by rw [hsnap]; exact hS.ver_le k) r hr
      rw [hsnap] at this
      exact (evol_fetchInc hS x.stores true).readAt hS le_rfl this
    · intro k _
      exact Nat.lt_succ_of_le (hS.ver_le k)
    · intro hd a hk
      obtain ⟨i, hi⟩ := (hcore.own _).mpr ((hcore.heldBy_iff _).mp hk)
      have hm := h.mem_held hS (a := a) hd hi hc.cur
      have hE : Evol b g (g.fetchInc tid x.stores true) := evol_fetchInc hS x.stores true
      exact hm.trans (hE.at_eq hS le_rfl).symm
  · have hS' := hS.fetchInc x.stores false htouch
    refine ⟨hS', ?_, fun u hu => interf_fetchInc hS hu x.stores false⟩
    exact {
      own := fun k => (hcore.own k)
      unit := fun k => iff_of_false (hcore.unit k) (by simp [UnitHeld])
      settled := fun {n s k} hs ho hn ht => by
        have hn' : n ≠ g.clock + 1 := fun heq => hn (by rw [heq]; rfl)
        rw [log_fetchInc_of_ne hn'] at hs
        exact hcore.settled hs ho ht
      fate := fun {n ss} hs => by
        by_cases hn : n = g.clock + 1
        · subst hn
          rw [fetchInc_self] at hs
          simp at hs
        · rw [log_fetchInc_of_ne hn] at hs
          exact .inl (hcore.fate hs)
      began := hcore.began
      att := fun _ => (hframe false).1.set _ x.standing x.canExtend
      live := fun _ => (hframe false).2.set _ x.standing x.canExtend
      whole := fun _ _ => ⟨hw.touched, hw.len⟩
      pc := ⟨Nat.le_succ _, hcore.att.snap_le, hfits', fun j hj => absurd hj (Nat.not_lt_zero j),
        fun k _ => hS.ver_le k, rfl, hfits, fetchInc_self g _ _, hro⟩ }

/-! ### Validation of a commit -/

theorem frame_settles {t : ℕ} (hset : Settles tid t g g') : Frame b tid g g' :=
  ⟨evol_settles hset, fun _ _ => by rw [hset.lock], fun _ _ => by rw [hset.mem]⟩

section Settled

variable {t : ℕ} (h : TInv b P tid g x) (hset : Settles tid t g g') (hcur : x.pc.cur = some t)
include h hset hcur

theorem TInv.settled_settles {n k : ℕ} {s : Slot (List (Store w))} (hs : g'.log n = some s)
    (ho : s.owner = tid) (hn : n ≠ t) (ht : (b.sem w).touch s.body k) : n ≤ g'.ver b k := by
  rw [hset.other n hn] at hs
  have := h.settled hs ho (by rw [hcur]; simpa using Ne.symm hn) ht
  simpa only [Shared.ver, hset.lock] using this

theorem TInv.fate_settles {n : ℕ} {ss : List (Store w)} (hs : g'.log n = some ⟨tid, ss, true⟩)
    (hn : n ≠ t) : Over b tid g' n ss := by
  rw [hset.other n hn] at hs
  rw [Over, hset.hist]
  rcases h.fate hs with hover | hc
  · exact hover
  · rw [hcur] at hc
    exact absurd (Option.some.inj hc).symm hn

end Settled

/-- The validation of a commit fails: its timestamp is withdrawn. -/
theorem TInv.withdraw (hS : SInv b P g) (h : TInv b P tid g x) {now i t : ℕ}
    (hp : x.pc = .validate now i (.commit t)) (r : Reason) :
    StepOk b P tid g (g.setLog t none, TinyStm.rollback b x r) := by
  have hl : x.pc.phase = .live := by rw [hp]; rfl
  have hne : x.pc.phase ≠ .out := by rw [hl]; simp
  have hcur : x.pc.cur = some t := by rw [hp]; rfl
  have hpc : PcOk b tid g x (.validate now i (.commit t)) := hp ▸ h.pc
  obtain ⟨-, -, -, -, -, -, -, hlog, -⟩ := hpc
  have hset := settles_withdraw hlog
  obtain ⟨hatt, hlive⟩ := h.frame_live hS hl (frame_settles hset) rfl
  have hgone : ∀ {n s}, (g.setLog t none).log n = some s → n ≠ t := by
    rintro n s hs rfl
    simp [Shared.setLog] at hs
  refine ⟨hS.settles hset, Core.rollback (n := x.pc.acqFrom x.wset.length) ?_
    (h.whole hne (by rw [hp]; rfl)) r,
    fun u hu => interf_settles hset hu⟩
  exact {
    own := fun k => by
      rw [← hl]
      exact h.own k
    unit := fun k hk => not_unitHeld_of_phase hne k ((h.unit k).mp hk)
    settled := fun hs ho ht => h.settled_settles hset hcur hs ho (hgone hs) ht
    fate := fun hs => h.fate_settles hset hcur hs (hgone hs)
    began := h.began
    att := hatt
    live := hlive }

/-- The validation of a commit succeeds: the update is decided. -/
theorem TInv.decide (hS : SInv b P g) (h : TInv b P tid g x) {now i t : ℕ}
    (hp : x.pc = .validate now i (.commit t)) (hi : x.rset[i]? = none) :
    StepOk b P tid g (g.setLog t (some ⟨tid, x.stores, true⟩), { x with pc := .pub t 0 }) := by
  have hl : x.pc.phase = .live := by rw [hp]; rfl
  have hne : x.pc.phase ≠ .out := by rw [hl]; simp
  have hcur : x.pc.cur = some t := by rw [hp]; rfl
  have hpc : PcOk b tid g x (.validate now i (.commit t)) := hp ▸ h.pc
  obtain ⟨hnow, hsnap, -, hquiet, hheld, ht, hfits, hlog, hro⟩ := hpc
  have hset := settles_decide hlog
  have hE : Evol b g (g.setLog t (some ⟨tid, x.stores, true⟩)) := evol_settles hset
  have hS' := hS.settles hset
  obtain ⟨hatt, hlive⟩ := h.frame_live hS hl (frame_settles hset) rfl
  have hlive' := h.live hl
  rw [hp] at hlive
  have hclock : t ≤ g.clock := (hS.slot hlog).2
  have hlt : ∀ n, x.pc.cur = some n → now < n := by
    intro n hn
    rw [hcur] at hn
    cases hn
    omega
  refine ⟨hS', ?_, fun u hu => interf_settles hset hu⟩
  refine publish (g := g.setLog t (some ⟨tid, x.stores, true⟩)) ?_ ?_
    (fun hs ho hn ht => h.settled_settles hset hcur hs ho hn ht)
    (fun hs hn => h.fate_settles hset hcur hs hn) h.began hatt hlive
    (h.whole hne (by rw [hp]; rfl)) ⟨by omega, hclock, by omega⟩ hfits (by simp [Shared.setLog])
    ?_ ?_ ?_ ?_
  · intro k
    rw [← hl]
    exact h.own k
  · exact fun k hk => not_unitHeld_of_phase hne k ((h.unit k).mp hk)
  · -- nothing on record has an undecided timestamp
    intro A hA hA'
    obtain ⟨-, -, hlog', -⟩ := (hS.hist A hA).commit t hA'
    rw [hlog] at hlog'
    simp at hlog'
  · intro r hr
    have hrt : ReadAt b g now r := by
      refine (hlive'.cover r hr).readAt (fun hx => by rw [hro] at hx; cases hx) (fun p hpr => ?_)
        fun k hk => ⟨hheld k hk, h.quiet_held hS hk hlt⟩
      obtain ⟨j, hj⟩ := List.mem_iff_getElem?.mp hpr
      have hjlt := (List.getElem?_eq_some_iff.mp hj).1
      have hlen : x.rset.length ≤ i := List.getElem?_eq_none_iff.mp hi
      exact ⟨(hlive'.rset p hpr).1.trans hsnap, hquiet j (by omega) p hj⟩
    have hnow' : t - 1 = now := by omega
    rw [hnow']
    exact hE.readAt hS hnow hrt
  · intro k hk
    have := hheld k hk
    show g.ver b k < t
    omega
  · intro hd a hk
    -- the update was undecided so far, so it has not touched memory
    have hk' : (g.lock (b.getLock w a)).HeldBy tid := hk
    have hclean : ¬ Dirty b g (b.getLock w a) := by
      unfold Dirty
      split
      · exact not_false
      · next u hu =>
        intro _
        have hu' : u = tid := by
          rcases hk' with ⟨n, hn⟩ | hn
          · rw [hu] at hn
            cases hn
          · rw [hu] at hn
            cases hn
            rfl
        exact not_unitHeld_of_phase hne _ ((h.unit _).mp (hu' ▸ hu))
      · rintro (hd' | ⟨n, s, hn, hs, hdec, htc⟩)
        · exact hd hd'
        · have hn' := h.cur_of_touches hS hk' hn ⟨s, hs, htc⟩
          rw [hcur] at hn'
          cases hn'
          rw [hlog] at hs
          cases hs
          cases hdec
    have hat : (g.setLog t (some ⟨tid, x.stores, true⟩)).at b (g.ver b (b.getLock w a)) a =
        g.at b (g.ver b (b.getLock w a)) a := hE.at_eq hS le_rfl
    exact (hS.clean a hclean).trans hat.symm

/-- One round of `stm_validate`, from any of its callers. -/
theorem TInv.validateStep (hS : SInv b P g) (h : TInv b P tid g x) {now i : ℕ} {c : Cont w}
    (hp : x.pc = .validate now i c) {r : Shared w × Tx w}
    (hr : validateStep b tid now i c g x = some r) : StepOk b P tid g r := by
  have hpc : PcOk b tid g x (.validate now i c) := hp ▸ h.pc
  obtain ⟨-, hsnap, -, -, -, hcont⟩ := hpc
  have hfail : ∀ c', c = c' → (∀ t, c' ≠ .commit t) → TInv b P tid g (extFail b x c') := by
    rintro c' rfl hnc
    obtain ⟨ρ, hρ⟩ := extFail_eq (b := b) x c
    rw [hρ]
    refine h.rollback_calm (.of hp rfl ?_ rfl) ρ
    cases c with
    | commit t => exact absurd rfl (hnc t)
    | _ => rfl
  unfold TinyStm.validateStep at hr
  split at hr
  · next e he =>
    split at hr
    · next hv =>
      simp only [Option.some.injEq] at hr
      subst hr
      exact .stay hS (h.validateNext hS hp he hv)
    · split at hr
      · next t =>
        simp only [Option.some.injEq] at hr
        subst hr
        exact h.withdraw hS hp .validate
      · next hnc =>
        simp only [Option.some.injEq] at hr
        subst hr
        exact .stay hS (hfail c rfl fun t ht => hnc t ht)
  · next hi =>
    split at hr
    · next a l v =>
      simp only [Option.some.injEq] at hr
      subst hr
      obtain ⟨h₁, h₂, h₃, h₄⟩ := hcont
      exact .stay hS (h.extended hS hp (by simp) hi (fun hx => by rw [h₄] at hx; cases hx)
        (.readRecheck a l v) ⟨⟨⟨rfl, rfl⟩, rfl⟩, fun _ => rfl⟩ ⟨h₁, h₂, h₃, h₄⟩)
    · next t =>
      simp only [Option.some.injEq] at hr
      subst hr
      exact h.decide hS hp hi
    · next hnr hnc =>
      simp only [Option.some.injEq] at hr
      subst hr
      refine .stay hS (h.extended hS hp (fun t ht => hnc t ht) hi ?_ .run
        ⟨⟨⟨rfl, rfl⟩, rfl⟩, fun _ => rfl⟩ trivial)
      cases c with
      | read a l v => exact absurd rfl (hnr a l v)
      | commit t => exact absurd rfl (hnc t)
      | tick => exact hcont
      | opEnd => exact hcont

end TinyStm
