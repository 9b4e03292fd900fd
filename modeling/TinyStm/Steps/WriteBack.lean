import TinyStm.Steps.Publish

/-!
# Steps of one thread: publication

The loop of `stm_commit` that stores the values of the write set and drops the
locks, entry by entry, forwards or (write-through) backwards.
-/

namespace TinyStm

open Timeline

variable {w : ℕ} {b : Build} {P : Mode} {tid : ℕ} {g g' : Shared w} {x : Tx w} {t i : ℕ}
  {e : WEntry w}

/-! ### Rounds of the loop -/

/-- The index of the entry of round `i`. -/
def pubIdx (b : Build) (n i : ℕ) : ℕ := if b.design = .writeThrough then n - 1 - i else i

theorem pubEntry_some (h : pubEntry b x i = some e) (t : ℕ) :
    x.wset[pubIdx b x.wset.length i]? = some e ∧
      Remains b x.wset.length (pubIdx b x.wset.length i) (.pub t i) := by
  unfold pubEntry at h
  split at h
  · next hd =>
    split at h
    · next hi =>
      simp only [pubIdx, hd, if_true, Remains]
      exact ⟨h, by omega⟩
    · cases h
  · next hd =>
    simp only [pubIdx, if_neg hd, Remains]
    exact ⟨h, le_rfl⟩

theorem pubEntry_none (h : pubEntry b x i = none) (t k : ℕ) : ¬ Held b (.pub t i) x.wset k := by
  rintro ⟨j, f, hf, -, hr, -⟩
  have hj := getElem?_lt hf
  unfold pubEntry at h
  split at h
  · next hd =>
    simp only [Remains, if_pos hd] at hr
    rw [if_pos (by omega)] at h
    have := List.getElem?_eq_none_iff.mp h
    omega
  · next hd =>
    simp only [Remains, if_neg hd] at hr
    have := List.getElem?_eq_none_iff.mp h
    omega

theorem remains_pub_succ (n j : ℕ) (_ : j < n) :
    Remains b n j (.pub t (i + 1)) ↔ Remains b n j (.pub t i) ∧ j ≠ pubIdx b n i := by
  simp only [Remains, pubIdx]
  split <;> omega

/-- The lock of the entry of round `i` is still held, and no later entry has it if
the round releases it. -/
theorem Att.pub_held (h : Att b P tid g (.pub t i) x) (he : pubEntry b x i = some e) :
    Held b (.pub t i) x.wset (b.getLock w e.addr) := by
  obtain ⟨he', hr⟩ := pubEntry_some he t
  exact h.taken trivial he' hr

theorem Att.pub_last (h : Att b P tid g (.pub t i) x) (he : pubEntry b x i = some e)
    (hd : b.drops e = true) {j : ℕ} {f : WEntry w} (hf : x.wset[j]? = some f)
    (hr : Remains b x.wset.length j (.pub t (i + 1))) :
    b.getLock w f.addr ≠ b.getLock w e.addr := by
  intro hl
  obtain ⟨he', -⟩ := pubEntry_some he t
  have hord := h.dropOrder he' hd hf hl
  have hj := getElem?_lt hf
  by_cases hdes : b.design = .writeThrough
  · simp only [Remains, pubIdx, if_pos hdes] at hr hord
    omega
  · simp only [Remains, pubIdx, if_neg hdes] at hr hord
    omega

/-- The decided update makes a lock that is still held dirty. -/
theorem PubOk.dirty {n k j : ℕ} (h : PubOk b tid g x t i n) (hk : Held b (.pub t i) x.wset k)
    (hown : (g.lock k).own = some (.entry tid j)) (hw : Whole b x) : Dirty b g k := by
  have hlt := h.below hk
  obtain ⟨j', f, hf, -, -, hl⟩ := hk
  obtain ⟨s, hs, hsa⟩ := hw.touched f (List.mem_of_getElem? hf)
  simp only [Dirty, hown]
  exact .inr ⟨t, _, hlt, h.log, rfl, s, hs, by rw [hsa]; exact hl⟩

/-! ### Storing one word -/

/-- The word of entry `i` is in memory. -/
theorem PubOk.advance {v : BitVec w} (h : PubOk b tid g x t i i) (hd : b.design ≠ .writeThrough)
    (he : x.wset[i]? = some e)
    (hg : g' = g ∨ g' = g.setMem e.addr v) (hmem : g'.mem e.addr = overlay x.stores e.addr
      (g.at b (g.ver b (b.getLock w e.addr)) e.addr)) : PubOk b tid g' x t i (i + 1) := by
  have hother : ∀ a, a ≠ e.addr → g'.mem a = g.mem a := by
    rintro a ha
    rcases hg with rfl | rfl
    · rfl
    · simp [Shared.setMem, ha]
  have hmem' : ∀ a, Held b (.pub t i) x.wset (b.getLock w a) →
      g'.mem a = overlay x.stores a (g.at b (g.ver b (b.getLock w a)) a) ∨
      (b.design ≠ .writeThrough ∧ g'.mem a = g.at b (g.ver b (b.getLock w a)) a ∧
        ∃ (j : ℕ) (f : WEntry w), x.wset[j]? = some f ∧ f.addr = a ∧ i + 1 ≤ j) := by
    intro a hk
    by_cases ha : a = e.addr
    · subst ha
      exact .inl hmem
    · rw [hother a ha]
      rcases h.mem a hk with hm | ⟨-, hm, j, f, hf, hfa, hij⟩
      · exact .inl hm
      · refine .inr ⟨hd, hm, j, f, hf, hfa, ?_⟩
        rcases Nat.eq_or_lt_of_le hij with rfl | hlt
        · rw [he] at hf
          cases hf
          exact absurd hfa.symm ha
        · exact hlt
  rcases hg with rfl | rfl
  · exact ⟨h.pos, h.fits, h.log, h.fresh, h.reads, h.below, h.done, hmem'⟩
  · exact ⟨h.pos, h.fits, h.log, h.fresh, h.reads, h.below, h.done, hmem'⟩

section Pub

variable (hS : SInv b P g) (h : TInv b P tid g x)
include hS h

/-- From storing the word of entry `i` to dropping its lock. -/
theorem TInv.toPubRel {v : BitVec w} (hph : x.pc.phase = .pub t i) (hcur : x.pc.cur = some t)
    (hs : x.pc.storing = false) (he : pubEntry b x i = some e)
    (hg : g' = g ∨ (g' = g.setMem e.addr v ∧ b.design ≠ .writeThrough))
    (hn : ∃ n, PubOk b tid g x t i n) (hpub : PubOk b tid g' x t i (i + 1)) :
    StepOk b P tid g (g', { x with pc := .pubRel t i }) := by
  have hne : x.pc.phase ≠ .out := by rw [hph]; simp
  have hatt : Att b P tid g (.pub t i) x := hph ▸ h.att hne
  obtain ⟨n, hn⟩ := hn
  have hheld := hatt.pub_held he
  obtain ⟨j, hj⟩ := (h.own _).mpr (hph ▸ hheld)
  have hdirty := hn.dirty hheld hj (h.whole hne hs)
  have hframe : g'.lock = g.lock ∧ g'.log = g.log ∧ g'.hist = g.hist ∧ Evol b g g' := by
    rcases hg with rfl | ⟨rfl, -⟩
    · exact ⟨rfl, rfl, rfl, .refl _⟩
    · exact ⟨rfl, rfl, rfl, evol_setMem _ _ _⟩
  obtain ⟨hlock, hlog, hist, hE⟩ := hframe
  refine ⟨?_, ?_, ?_⟩
  · rcases hg with rfl | ⟨rfl, -⟩
    · exact hS
    · exact hS.setMem v hdirty
  · refine h.onward hS hne hs (.pubRel t i) x.nbAcquired (by simp [Pc.phase]) (by simp [Pc.phase])
      hcur.symm ⟨hE, fun _ _ => by rw [hlock], fun k j hk => by rw [← hlock]; exact hk⟩ hlog hist
      (fun k => ?_) (fun k hk => ?_) (fun j hj hr => by rw [hph]; exact hr) (fun _ => hatt.taken trivial)
      ⟨hpub.pos, hpub.fits, hpub.log, hpub.fresh, hpub.reads, hpub.below, hpub.done, hpub.mem⟩
    · rw [hlock, h.own k, hph]
      rfl
    · rw [hlock] at hk
      exact not_unitHeld_of_phase hne k ((h.unit k).mp hk)
  · intro u hu
    rcases hg with rfl | ⟨rfl, -⟩
    · exact .refl u _
    · exact interf_setMem (.inl ⟨j, hj⟩) hu

theorem TInv.pubStep (hb : x.began < g.time) (hp : x.pc = .pub t i) {r : Shared w × Tx w}
    (hr : pubStep b tid t i g x = some r) : StepOk b P tid g r := by
  have hph : x.pc.phase = .pub t i := by rw [hp]; rfl
  have hne : x.pc.phase ≠ .out := by rw [hph]; simp
  have hcur : x.pc.cur = some t := by rw [hp]; rfl
  have hs : x.pc.storing = false := by rw [hp]; rfl
  have hatt : Att b P tid g (.pub t i) x := hph ▸ h.att hne
  have hpub : PubOk b tid g x t i i := by
    have := h.pc
    rw [hp] at this
    exact this
  unfold TinyStm.pubStep at hr
  split at hr
  · next hnone =>
    -- all entries are done: the transaction has committed
    simp only [Option.some.injEq] at hr
    subst hr
    have hfree : ∀ k, ¬ (g.lock k).HeldBy tid := by
      intro k hk
      have := h.held_of_heldBy (fun k => not_unitHeld_of_phase hne k) hk
      rw [hph] at this
      exact pubEntry_none hnone t k this
    have hwrote : (attempt tid g x (.committed t)).wrote = some t := rfl
    have hA : HistOk b P g (attempt tid g x (.committed t)) := hatt.histOk hb
      (fun t' ht' => by
        cases ht'
        exact ⟨hpub.pos.1, hpub.pos.2.1, hpub.log, hpub.reads⟩)
      fun ho => by cases ho
    refine ⟨hS.record hA rfl (fun A hA' t' ht' => ?_) (hatt.ordered fun t' ht' => ?_), ?_,
      fun u hu => interf_record rfl (Ne.symm hu)⟩
    · cases ht'
      exact hpub.fresh A hA'
    · cases ht'
      exact hpub.pos.2.2
    · refine TInv.outside hfree (fun {n s k} hs' ho ht => ?_) (fun {n ss} hs' => ?_) h.began rfl
        (by simp [UnitHeld]) trivial
      · by_cases hn : n = t
        · subst hn
          have hs'' : g.log n = some s := hs'
          rw [hpub.log] at hs''
          cases hs''
          obtain ⟨st, hst, rfl⟩ := ht
          exact (hpub.done st hst).resolve_left (pubEntry_none hnone n _)
        · exact h.settled hs' ho (by rw [hcur]; simpa using Ne.symm hn) ht
      · rcases h.fate hs' with hover | hc
        · exact hover.mono fun _ hA' => List.mem_append_left _ hA'
        · rw [hcur] at hc
          cases hc
          have hs'' : g.log t = some ⟨tid, ss, true⟩ := hs'
          rw [hpub.log] at hs''
          cases hs''
          exact .inl ⟨_, List.mem_append_right _ (List.mem_singleton_self _), rfl, rfl, rfl⟩
  · next e he =>
    have hheld := hatt.pub_held he
    obtain ⟨he', -⟩ := pubEntry_some he t
    obtain ⟨n, hown⟩ := (h.own _).mpr (hph ▸ hheld)
    split at hr
    · next hd =>
      simp only [Option.some.injEq] at hr
      subst hr
      refine h.toPubRel (v := 0) hS hph hcur hs he (.inl rfl) ⟨i, hpub⟩
        ⟨hpub.pos, hpub.fits, hpub.log, hpub.fresh, hpub.reads, hpub.below, hpub.done,
          fun a hk => ?_⟩
      rcases hpub.mem a hk with hm | ⟨hd', -⟩
      · exact .inl hm
      · exact absurd hd hd'
    · next hd =>
      have hd' : b.design ≠ .writeThrough := by simp [hd]
      have hidx : x.wset[i]? = some e := by simpa [pubIdx, hd'] using he'
      have hws := hatt.ws.etl hd
      have hval := hws.val e (List.mem_of_getElem? hidx) hheld
      split at hr
      · next hm =>
        simp only [Option.some.injEq] at hr
        subst hr
        refine h.toPubRel hS hph hcur hs he (.inr ⟨rfl, hd'⟩) ⟨i, hpub⟩
          (hpub.advance hd' hidx (.inr rfl) ?_)
        rcases hval with ⟨hm', -⟩ | ⟨-, hv⟩
        · exact absurd hm' hm
        · simp [Shared.setMem, hv]
      · next hm =>
        simp only [Option.some.injEq] at hr
        subst hr
        refine h.toPubRel (v := 0) hS hph hcur hs he (.inl rfl) ⟨i, hpub⟩
          (hpub.advance (v := 0) hd' hidx (.inl rfl) ?_)
        rcases hval with ⟨-, hid⟩ | ⟨hm', -⟩
        · rcases hpub.mem e.addr hheld with hmem | ⟨-, hmem, -⟩
          · exact hmem
          · rw [hid]
            exact hmem
        · exact absurd hm' hm
    · next hd =>
      have hd' : b.design ≠ .writeThrough := by simp [hd]
      have hidx : x.wset[i]? = some e := by simpa [pubIdx, hd'] using he'
      have hws := hatt.ws.ctl hd
      have hval := hws.val e (List.mem_of_getElem? hidx)
      split at hr
      · next hm =>
        simp only [Option.some.injEq] at hr
        subst hr
        refine h.toPubRel hS hph hcur hs he (.inr ⟨rfl, hd'⟩) ⟨i, hpub⟩
          (hpub.advance hd' hidx (.inr rfl) ?_)
        rw [hval, hm, mergeBits_allOnes]
        simp [Shared.setMem]
      · split at hr
        · -- a partial mask: the word is read, merged and stored in the next step
          simp only [Option.some.injEq] at hr
          subst hr
          refine .stay hS (h.skips hS hne hs (.pubStore t i _) x.nbAcquired (by simp [Pc.phase])
            (by simp [Pc.phase]) hcur.symm (fun k => by rw [hph]; rfl)
            (fun j hj hr => by rw [hph]; exact hr) (fun _ => hatt.taken trivial)
            ⟨hd, ⟨hpub.pos, hpub.fits, hpub.log, hpub.fresh, hpub.reads, hpub.below, hpub.done,
              hpub.mem⟩, e, hidx, ?_⟩)
          rcases hpub.mem e.addr hheld with hmem | ⟨-, hmem, -⟩
          · rw [hmem, hval, mergeBits_mergeBits, mergeBits_self, BitVec.or_self]
          · rw [hmem, hval]
        · next hm =>
          simp only [Option.some.injEq] at hr
          subst hr
          refine h.toPubRel (v := 0) hS hph hcur hs he (.inl rfl) ⟨i, hpub⟩
            (hpub.advance (v := 0) hd' hidx (.inl rfl) ?_)
          have hm' : e.mask = 0 := not_not.mp hm
          rcases hpub.mem e.addr hheld with hmem | ⟨-, hmem, -⟩
          · exact hmem
          · rw [hval, hm', mergeBits_zero]
            exact hmem

theorem TInv.pubStoreStep {v : BitVec w} (hp : x.pc = .pubStore t i v) {r : Shared w × Tx w}
    (hr : pubStoreStep b t i v g x = some r) : StepOk b P tid g r := by
  have hph : x.pc.phase = .pub t i := by rw [hp]; rfl
  have hcur : x.pc.cur = some t := by rw [hp]; rfl
  have hs : x.pc.storing = false := by rw [hp]; rfl
  have hpc : PcOk b tid g x (.pubStore t i v) := hp ▸ h.pc
  obtain ⟨hd, hpub, e, hidx, hv⟩ := hpc
  have hd' : b.design ≠ .writeThrough := by simp [hd]
  simp only [TinyStm.pubStoreStep, Option.map_eq_some_iff] at hr
  obtain ⟨e', he, rfl⟩ := hr
  obtain ⟨he', -⟩ := pubEntry_some he t
  have hee : e' = e := by
    have : x.wset[i]? = some e' := by simpa [pubIdx, hd'] using he'
    rw [hidx] at this
    exact (Option.some.inj this).symm
  subst hee
  refine h.toPubRel hS hph hcur hs he (.inr ⟨rfl, hd'⟩) ⟨i, hpub⟩
    (hpub.advance hd' hidx (.inr rfl) ?_)
  simp [Shared.setMem, hv]

/-! ### Dropping one lock -/

theorem TInv.pubRelStep (hp : x.pc = .pubRel t i) {r : Shared w × Tx w}
    (hr : pubRelStep b t i g x = some r) : StepOk b P tid g r := by
  have hph : x.pc.phase = .pub t i := by rw [hp]; rfl
  have hne : x.pc.phase ≠ .out := by rw [hph]; simp
  have hcur : x.pc.cur = some t := by rw [hp]; rfl
  have hs : x.pc.storing = false := by rw [hp]; rfl
  have hatt : Att b P tid g (.pub t i) x := hph ▸ h.att hne
  have hpub : PubOk b tid g x t i (i + 1) := by
    have := h.pc
    rw [hp] at this
    exact this
  simp only [TinyStm.pubRelStep, Option.map_eq_some_iff] at hr
  obtain ⟨e, he, rfl⟩ := hr
  obtain ⟨he', hrem⟩ := pubEntry_some he t
  have hheld := hatt.pub_held he
  have hsucc := hatt.held_step he' (fun j hj => remains_pub_succ (t := t) (i := i) _ j hj)
  have hR : ∀ j, j < x.wset.length → Remains b x.wset.length j (.pub t (i + 1)) →
      Remains b x.wset.length j (.pub t i) := fun j hj hr => ((remains_pub_succ _ j hj).mp hr).1
  split
  · next hdrop =>
    set k := b.getLock w e.addr with hk
    have hby : (g.lock k).HeldBy tid := h.heldBy_of_held (by rw [hph]; exact hheld)
    have hlt := hpub.below hheld
    have hstamp : b.stamp (b.commitV w t e.version.ts) = t := Build.stamp_commitV _ hpub.fits
    obtain ⟨s, hst, hsa⟩ := (h.whole hne hs).touched e (List.mem_of_getElem? he')
    have htouch : (b.sem w).touch x.stores k := ⟨s, hst, by rw [hsa]⟩
    have hver : VerLe b (g.lock k).ver ⟨b.commitV w t e.version.ts, 0⟩ :=
      .inl (by rw [hstamp]; exact hlt)
    have hdirty : (⟨b.commitV w t e.version.ts, 0⟩ : Ver) = (g.lock k).ver → ¬ Dirty b g k := by
      intro heq
      have : g.ver b k = t := by rw [Shared.ver, ← heq]; exact hstamp
      omega
    -- every word of the stripe is written: entries of this lock are not above `i`
    have hmem : ∀ a, b.getLock w a = k → g.mem a = g.at b t a := by
      intro a ha
      have hka : Held b (.pub t i) x.wset (b.getLock w a) := ha ▸ hheld
      rw [h.at_cur hS (ha ▸ hby) hcur hpub.log (ha ▸ hlt)]
      rcases hpub.mem a hka with hm | ⟨hd, -, j, f, hf, hfa, hij⟩
      · exact hm
      · refine absurd ?_ (hatt.pub_last he hdrop hf (by simp only [Remains, if_neg hd]; exact hij))
        rw [hfa, ha]
    have hS' : SInv b P (g.setLock k ⟨⟨b.commitV w t e.version.ts, 0⟩, none⟩) := by
      refine hS.release hver hdirty (fun m sl hsl htl => ?_) ?_ ?_
      · rw [hstamp]
        by_cases hm : m = t
        · subst hm
          rw [hpub.log] at hsl
          cases hsl
          exact ⟨le_rfl, rfl⟩
        · obtain ⟨hle, hdec⟩ := h.settled_held hS hby hsl htl
            (by rw [hcur]; simpa using Ne.symm hm)
          exact ⟨hle.trans hlt.le, hdec⟩
      · rw [hstamp]
        exact .inr ⟨_, hpub.log, htouch⟩
      · rw [hstamp]
        exact hmem
    have hE : Evol b g (g.setLock k ⟨⟨b.commitV w t e.version.ts, 0⟩, none⟩) :=
      evol_setLock hver fun heq hd => absurd hd (hdirty heq)
    have hver' : ∀ k', k' ≠ k →
        (g.setLock k ⟨⟨b.commitV w t e.version.ts, 0⟩, none⟩).ver b k' = g.ver b k' := by
      intro k' hk'
      simp only [Shared.ver, setLock_of_ne g _ hk']
    have hsucc' : ∀ k', Held b (.pub t (i + 1)) x.wset k' ↔
        Held b (.pub t i) x.wset k' ∧ k' ≠ k := by
      intro k'
      rw [hsucc k']
      simp [hdrop]
    refine ⟨hS', ?_, fun u hu => interf_release hver hdirty fun hu' => hu (hu'.unique hby)⟩
    refine h.releases hS hne hs (.pub t (i + 1)) x.nbAcquired (by simp [Pc.phase])
      (by simp [Pc.phase]) hcur.symm hE (fun k' => by rw [hph]; exact hsucc' k')
      (fun j hj hr => by rw [hph]; exact hR j hj hr) (fun _ {j f} hf hr => ?_) ?_
    · exact (hsucc' _).mpr ⟨hatt.taken trivial hf (hR j (getElem?_lt hf) hr),
        hatt.pub_last he hdrop hf hr⟩
    · exact {
        pos := hpub.pos
        fits := hpub.fits
        log := hpub.log
        fresh := hpub.fresh
        reads := fun r hr => hE.readAt hS (by have := hpub.pos; omega) (hpub.reads r hr)
        below := fun {k'} hk' => by
          obtain ⟨h₁, h₂⟩ := (hsucc' k').mp hk'
          rw [hver' k' h₂]
          exact hpub.below h₁
        done := fun s' hs' => by
          by_cases hkk : b.getLock w s'.addr = k
          · right
            rw [hkk, Shared.ver, setLock_self]
            exact hstamp.ge
          · rw [hver' _ hkk]
            exact (hpub.done s' hs').imp_left fun hh => (hsucc' _).mpr ⟨hh, hkk⟩
        mem := fun a ha => by
          obtain ⟨h₁, h₂⟩ := (hsucc' _).mp ha
          rw [hver' _ h₂]
          exact hpub.mem a h₁ }
  · next hdrop =>
    have hsucc' : ∀ k', Held b (.pub t (i + 1)) x.wset k' ↔ Held b (.pub t i) x.wset k' := by
      intro k'
      rw [hsucc k']
      simp [hdrop]
    refine .stay hS (h.skips hS hne hs (.pub t (i + 1)) x.nbAcquired (by simp [Pc.phase])
      (by simp [Pc.phase]) hcur.symm (fun k' => by rw [hph]; exact hsucc' k')
      (fun j hj hr => by rw [hph]; exact hR j hj hr) (fun _ {j f} hf hr => ?_) ?_)
    · exact (hsucc' _).mpr (hatt.taken trivial hf (hR j (getElem?_lt hf) hr))
    · exact ⟨hpub.pos, hpub.fits, hpub.log, hpub.fresh, hpub.reads,
        fun hk' => hpub.below ((hsucc' _).mp hk'),
        fun s' hs' => (hpub.done s' hs').imp_left (hsucc' _).mpr,
        fun a ha => hpub.mem a ((hsucc' _).mp ha)⟩

end Pub

end TinyStm
