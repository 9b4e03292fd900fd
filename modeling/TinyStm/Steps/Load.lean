import TinyStm.Steps.Base

/-!
# Steps of one thread: loads and extensions

The double check of the lock word around the load of the value, the loads served
under an own lock, and `stm_extend` with the part of `stm_validate` it shares
with the commit.
-/

namespace TinyStm

open Timeline

variable {w : ℕ} {b : Build} {P : Mode} {tid : ℕ} {g : Shared w} {x : Tx w} {a : ℕ}

/-! ### A value is returned -/

theorem TInv.loadReturns (h : TInv b P tid g x) (hc : Ready x)
    {v : BitVec w} (hcov : Covered b tid g x ⟨a, v, x.stores⟩)
    (hone : P.oneTime → ∃ e, x.snap ≤ e ∧ e ≤ g.clock ∧ (b.design = .writeBackCtl → e = x.snap) ∧
      ReadAt b g e ⟨a, v, x.stores⟩ ∧ ∀ r ∈ x.reads, ReadAt b g e r) :
    TInv b P tid g (loadReturns b x a v) := by
  have hatt := (h.core hc.toInside).att
  have hlive := h.live hc.live
  rw [hc.acq] at hlive
  have hw := h.whole hc.ne_out hc.storing
  have hmem : ∀ {Q : Read w → Prop}, (∀ r ∈ x.reads, Q r) → Q ⟨a, v, x.stores⟩ →
      ∀ r ∈ x.reads ++ [⟨a, v, x.stores⟩], Q r := by
    intro Q hold hnew r hr
    rcases List.mem_append.mp hr with hr | hr
    · exact hold r hr
    · rw [List.mem_singleton.mp hr]
      exact hnew
  refine TInv.opEnd (Core.tinv (n := x.wset.length) ?_ ⟨rfl, rfl⟩ rfl
    (fun _ => ⟨hw.touched, hw.len⟩) trivial)
  have hcore := h.core hc.toInside
  refine ⟨hcore.own, hcore.unit, hcore.settled, hcore.fate, hcore.began, ?_, ?_⟩
  · refine ⟨hatt.start_le, hatt.end_le, hatt.endEq, hatt.snap_le, fun ho => ?_,
      hmem hatt.pre List.prefix_rfl, hatt.order, hatt.dropVer, hatt.dropOrder, hatt.taken,
      hatt.ws.congr rfl rfl⟩
    obtain ⟨e, h₁, h₂, h₃, h₄, h₅⟩ := hone ho
    exact ⟨e, h₁, h₂, h₃, hmem h₅ h₄⟩
  · exact ⟨hlive.rset, hlive.rsetOwn, hmem hlive.cover hcov, hlive.ro,
      fun hd => (hlive.acq hd).congr rfl rfl, hlive.wtMem⟩

/-- The bits returned are all own bits. -/
theorem TInv.loadReturns_self (h : TInv b P tid g x) (hc : Ready x) {v : BitVec w} (hv : ∀ y, v = overlay x.stores a y) :
    TInv b P tid g (TinyStm.loadReturns b x a v) := by
  refine h.loadReturns hc (.inl hv) fun ho => ?_
  obtain ⟨e, h₁, h₂, h₃, h₄⟩ := (h.core hc.toInside).att.consistent ho
  exact ⟨e, h₁, h₂, h₃, .inl hv, h₄⟩

/-- A load under an own lock. -/
theorem TInv.loadReturns_own (hS : SInv b P g) (h : TInv b P tid g x) (hc : Ready x) (hd : b.design ≠ .writeBackCtl)
    (hk : (g.lock (b.getLock w a)).HeldBy tid) {v : BitVec w}
    (hv : v = overlay x.stores a (g.at b (g.ver b (b.getLock w a)) a))
    (hok : P.oneTime → OwnLoadOk b tid g x a) :
    TInv b P tid g (TinyStm.loadReturns b x a v) := by
  have hatt := (h.core hc.toInside).att
  have hquiet : ∀ e, Quiet (b.sem w) g.log (b.getLock w a) (g.ver b (b.getLock w a)) e :=
    fun e => h.quiet_held hS hk fun n hn => by rw [hc.cur] at hn; cases hn
  have hread : ∀ e, g.ver b (b.getLock w a) ≤ e → ReadAt b g e ⟨a, v, x.stores⟩ :=
    fun e he => .inr ⟨_, hv, le_rfl, he, hquiet e⟩
  refine h.loadReturns hc (.inr ⟨_, hv, le_rfl, .inr (.inr ⟨hk, rfl⟩)⟩) fun ho => ?_
  obtain ⟨e, h₁, h₂, -, h₄⟩ := hatt.consistent ho
  rcases hok ho hk with hle | hown | hfull
  · exact ⟨e, h₁, h₂, fun hd' => absurd hd' hd, hread e (hle.trans (hatt.end_le.trans h₁)), h₄⟩
  · -- all loads so far returned own bits: they are valid at any time
    refine ⟨g.clock, hatt.snap_le, le_rfl, fun hd' => absurd hd' hd, hread _ (hS.ver_le _), ?_⟩
    intro r hr
    rcases h₄ r hr with hb | ⟨v', hv', -⟩
    · exact .inl hb
    · exact .inl fun y => hv'.trans (overlay_eq_of_written (hown r hr) _ _)
  · exact ⟨e, h₁, h₂, fun hd' => absurd hd' hd,
      .inl fun y => hv.trans (overlay_eq_of_written hfull _ _), h₄⟩

/-! ### A version of a free lock is good -/

/-- Log a version in the read set. -/
theorem TInv.addRset (h : TInv b P tid g x) (hc : Ready x)
    (k raw : ℕ) (hs : b.stamp raw ≤ x.snap) (hv : b.stamp raw ≤ g.ver b k)
    (hquiet : Quiet (b.sem w) g.log k (b.stamp raw) x.snap) (hfree : ¬ (g.lock k).HeldBy tid)
    (hpc : PcOk b tid g { x with rset := x.rset ++ [(k, raw)] } x.pc) :
    TInv b P tid g { x with rset := x.rset ++ [(k, raw)] } := by
  have hatt := (h.core hc.toInside).att
  have hlive := h.live hc.live
  have hw := h.whole hc.ne_out hc.storing
  have hcore := h.core hc.toInside
  refine Core.tinv (n := x.pc.acqFrom x.wset.length)
    ⟨hcore.own, hcore.unit, hcore.settled, hcore.fate, hcore.began, ?_, ?_⟩
    ⟨hc.live, hc.cur⟩ rfl (fun _ => ⟨hw.touched, hw.len⟩) hpc
  · exact ⟨hatt.start_le, hatt.end_le, hatt.endEq, hatt.snap_le, hatt.consistent, hatt.pre,
      hatt.order, hatt.dropVer, hatt.dropOrder, hatt.taken, hatt.ws.congr rfl rfl⟩
  · refine ⟨?_, ?_, ?_, hlive.ro, fun hd => (hlive.acq hd).congr rfl rfl, hlive.wtMem⟩
    · intro r hr
      rcases List.mem_append.mp hr with hr | hr
      · exact hlive.rset r hr
      · rw [List.mem_singleton.mp hr]
        exact ⟨hs, hv, hquiet⟩
    · intro hd r hr hheld
      rcases List.mem_append.mp hr with hr | hr
      · exact hlive.rsetOwn hd r hr hheld
      · rw [List.mem_singleton.mp hr] at hheld
        exact absurd hheld hfree
    · intro r hr
      rcases hlive.cover r hr with hb | ⟨v, h₁, h₂, h₃⟩
      · exact .inl hb
      · refine .inr ⟨v, h₁, h₂, ?_⟩
        rcases h₃ with h₃ | ⟨raw', h₃, h₄⟩ | h₃
        · exact .inl h₃
        · exact .inr (.inl ⟨raw', List.mem_append_left _ h₃, h₄⟩)
        · exact .inr (.inr h₃)

/-- The word of a load is what the own stores make of the word in memory. -/
theorem readValue_eq (h : TInv b P tid g x) (hc : Ready x)
    (hfree : ¬ (g.lock (b.getLock w a)).HeldBy tid) (v : BitVec w) :
    readValue b x a v = overlay x.stores a v := by
  have hatt := (h.core hc.toInside).att
  -- a store to a stripe of the encounter-time designs is made under its lock
  have hnone : b.design ≠ .writeBackCtl → ∀ e ∈ x.wset, b.getLock w e.addr ≠ b.getLock w a := by
    intro hd e he heq
    obtain ⟨j, hj, hje⟩ := List.getElem_of_mem he
    have hj' : x.wset[j]? = some e := by rw [List.getElem?_eq_getElem hj, hje]
    have hk := hatt.taken hd hj' trivial
    exact hfree (((h.core hc.toInside).heldBy_iff _).mpr (heq ▸ hk))
  unfold readValue
  split
  · next hd =>
    have hws := hatt.ws.ctl hd
    cases hw : (stmHasWritten x.wset a).bind (x.wset[·]?) with
    | some e =>
      obtain ⟨i, hi, he⟩ := Option.bind_eq_some_iff.mp hw
      obtain ⟨e', he', ha⟩ := stmHasWritten_some hi
      have hee : e' = e := by
        rw [he'] at he
        exact Option.some.inj he
      subst hee
      subst ha
      exact (hws.val e' (List.mem_of_getElem? he') v).symm
    | none =>
      have hno : stmHasWritten x.wset a = none := by
        cases hi : stmHasWritten x.wset a with
        | none => rfl
        | some i =>
          obtain ⟨e, he, -⟩ := stmHasWritten_some hi
          simp [hi, he] at hw
      refine (overlay_of_forall_ne (fun s hs ha => ?_) v).symm
      obtain ⟨e, he, hea⟩ := hws.mem s hs
      exact stmHasWritten_none hno he (hea.trans ha)
  · next hd =>
    refine (overlay_of_forall_ne (fun s hs ha => ?_) v).symm
    cases hdes : b.design with
    | writeBackCtl => exact hd hdes
    | writeBackEtl =>
      obtain ⟨e, he, hk⟩ := (hatt.ws.etl hdes).lock s hs
      exact hnone (by simp [hdes]) e he (by rw [hk, ha])
    | writeThrough =>
      obtain ⟨j, hj, hjs⟩ := List.getElem_of_mem hs
      obtain ⟨e, he, hea, -⟩ := (hatt.ws.wt hdes).ent (j := j) (s := s)
        (by rw [List.getElem?_eq_getElem hj, hjs])
      exact hnone (by simp [hdes]) e (List.mem_of_getElem? he) (by rw [hea, ha])

/-- The value and the version of a free lock that is not newer than the snapshot. -/
theorem TInv.readDone (hS : SInv b P g) (h : TInv b P tid g x) (hc : Ready x) {l : Ver} {v : BitVec w}
    (hfree : g.lock (b.getLock w a) = ⟨l, none⟩) (hv : v = g.at b (b.stamp l.ts) a)
    (hle : b.stamp l.ts ≤ x.snap)
    (hpc : PcOk b tid g { x with rset := x.rset ++ [(b.getLock w a, l.ts)] } x.pc) :
    TInv b P tid g (readDone b x a l v) := by
  have hatt := (h.core hc.toInside).att
  have hnot : ¬ (g.lock (b.getLock w a)).HeldBy tid := by
    rw [hfree]
    exact not_heldBy_free _ _
  have hver : g.ver b (b.getLock w a) = b.stamp l.ts := by simp [Shared.ver, hfree]
  have hval : readValue b x a v = overlay x.stores a (g.at b (b.stamp l.ts) a) := by
    rw [readValue_eq h hc hnot, hv]
  have hquiet : ∀ e, Quiet (b.sem w) g.log (b.getLock w a) (b.stamp l.ts) e :=
    hS.quiet_free hfree
  have hone : P.oneTime → ∃ e, x.snap ≤ e ∧ e ≤ g.clock ∧
      (b.design = .writeBackCtl → e = x.snap) ∧
      ReadAt b g e ⟨a, readValue b x a v, x.stores⟩ ∧ ∀ r ∈ x.reads, ReadAt b g e r := by
    intro ho
    obtain ⟨e, h₁, h₂, h₃, h₄⟩ := hatt.consistent ho
    exact ⟨e, h₁, h₂, h₃, .inr ⟨_, hval, hver.ge, hle.trans h₁, hquiet e⟩, h₄⟩
  cases hro : x.ro with
  | true =>
    have heq : TinyStm.readDone b x a l v = TinyStm.loadReturns b x a (readValue b x a v) := by
      simp [TinyStm.readDone, hro]
    rw [heq]
    exact h.loadReturns hc (.inr ⟨_, hval, hver.ge, .inl ⟨hro, hle, hquiet _⟩⟩) hone
  | false =>
    have heq : TinyStm.readDone b x a l v = TinyStm.loadReturns b
        { x with rset := x.rset ++ [(b.getLock w a, l.ts)] } a (readValue b x a v) := by
      simp [TinyStm.readDone, hro]
    rw [heq]
    have h' := h.addRset hc (b.getLock w a) l.ts hle hver.ge (hquiet _) hnot hpc
    refine h'.loadReturns ⟨⟨⟨hc.live, hc.cur⟩, hc.storing⟩, hc.acq⟩ ?_ hone
    exact .inr ⟨_, hval, hver.ge, .inr (.inl ⟨l.ts, List.mem_append_right _ (by simp), rfl⟩)⟩

/-! ### The steps of a load -/

/-- A read of the encounter-time write set. -/
theorem EtlWs.overlay_self {ph : Phase} (h : EtlWs b tid g ph x)
    (hno : ∀ e ∈ x.wset, e.addr ≠ a) (y : BitVec w) : overlay x.stores a y = y := by
  refine overlay_eq_self (fun s hs ha => ?_) y
  by_contra hm
  obtain ⟨e, he, hea⟩ := h.mem s hs hm
  exact hno e he (hea.trans ha)

/-- The walk along the chain of an own lock. -/
theorem EtlWs.walk {ph : Phase} (h : EtlWs b tid g ph x) {i : ℕ}
    (hk : (g.lock (b.getLock w a)).own = some (.entry tid i)) :
    match chainWalk x.wset a x.wset.length i with
    | .found j => ∃ e, x.wset[j]? = some e ∧ e.addr = a
    | .last j => (∃ e, x.wset[j]? = some e ∧ e.next = none ∧
        b.getLock w e.addr = b.getLock w a) ∧ ∀ e ∈ x.wset, e.addr ≠ a := by
  obtain ⟨⟨e, hi, hlk⟩, hmin⟩ := h.head hk
  have hspec := chainWalk_spec h.chain a x.wset.length hi (by omega)
  cases hw : chainWalk x.wset a x.wset.length i with
  | found j =>
    rw [hw] at hspec
    obtain ⟨e', he', ha, -⟩ := hspec
    exact ⟨e', he', ha⟩
  | last j =>
    rw [hw] at hspec
    obtain ⟨e', he', hn, hl, hno⟩ := hspec
    refine ⟨⟨e', he', hn, hl.trans hlk⟩, fun f hf hfa => ?_⟩
    obtain ⟨n, hn', hnf⟩ := List.getElem_of_mem hf
    have hnf' : x.wset[n]? = some f := by rw [List.getElem?_eq_getElem hn', hnf]
    exact hno n f (hmin hnf' (by rw [hfa])) hnf' (by rw [hfa, hlk]) hfa

theorem TInv.readDispatch (hS : SInv b P g) (h : TInv b P tid g x) (hc : Ready x)
    (hok : P.oneTime → b.design ≠ .writeBackCtl → OwnLoadOk b tid g x a) :
    TInv b P tid g (readDispatch b tid x a (g.lock (b.getLock w a))) := by
  have hgoto : ∀ p : Pc w, Inside { x with pc := p } → (∀ n, p.acqFrom n = n) →
      PcOk b tid g { x with pc := p } p → TInv b P tid g { x with pc := p } := fun p hc' hp hpc =>
    h.goto hc.toCalm p x.standing x.canExtend hc' (by rw [hp, hc.acq]) hpc
  have hagain : TInv b P tid g { x with pc := .readLock a } :=
    hgoto (.readLock a) ⟨rfl, rfl⟩ (fun _ => rfl) trivial
  unfold TinyStm.readDispatch
  split
  · exact hgoto (.readVal a _) ⟨rfl, rfl⟩ (fun _ => rfl) (VerLe.refl _)
  · exact hagain
  · next t i hown =>
    split
    · exact hagain
    · next hd =>
      split
      · next ht =>
        subst ht
        refine hgoto (.readOwn a) ⟨rfl, rfl⟩ (fun _ => rfl) ⟨by simp [hd], .inl ⟨i, hown⟩, ?_⟩
        simp [hd]
      · exact h.rollback_calm hc.toCalm _
    · next hd =>
      split
      · next ht =>
        subst ht
        have hws := (h.core hc.toInside).att.ws.etl hd
        have hwalk := hws.walk hown
        have hne : b.design ≠ .writeBackCtl := by simp [hd]
        have hheld : (g.lock (b.getLock w a)).HeldBy t := .inl ⟨i, hown⟩
        cases hw : chainWalk x.wset a x.wset.length i with
        | found j =>
          rw [hw] at hwalk
          obtain ⟨e, he, ha⟩ := hwalk
          subst ha
          have hval := hws.val e (List.mem_of_getElem? he) (((h.core hc.toInside).heldBy_iff _).mp hheld)
          simp only [he]
          split
          · next hm =>
            refine hgoto (.readOwn e.addr) ⟨rfl, rfl⟩ (fun _ => rfl) ⟨hne, hheld, fun _ => ?_⟩
            rcases hval with ⟨-, hid⟩ | ⟨hm', -⟩
            · exact hid
            · exact absurd hm hm'
          · next hm =>
            rcases hval with ⟨hm', -⟩ | ⟨-, hv⟩
            · exact absurd hm' hm
            · exact h.loadReturns_own hS hc hne hheld hv fun ho => hok ho hne
        | last j =>
          rw [hw] at hwalk
          exact hgoto (.readOwn a) ⟨rfl, rfl⟩ (fun _ => rfl)
            ⟨hne, hheld, fun _ => hws.overlay_self hwalk.2⟩
      · exact h.rollback_calm hc.toCalm _

theorem TInv.loadStart (h : TInv b P tid g x) (hp : x.pc = .run) :
    TInv b P tid g (loadStart b x a) := by
  have hc : Ready x := .of hp rfl rfl rfl fun _ => rfl
  have hgo : TInv b P tid g { x with pc := .readLock a } :=
    h.goto hc.toCalm (.readLock a) x.standing x.canExtend ⟨rfl, rfl⟩ (by rw [hc.acq]; rfl) trivial
  unfold TinyStm.loadStart
  split
  · next hd =>
    have hws := (h.core hc.toInside).att.ws.ctl hd
    split
    · next e hw =>
      obtain ⟨i, hi, he⟩ := Option.bind_eq_some_iff.mp hw
      obtain ⟨e', he', ha⟩ := stmHasWritten_some hi
      have hee : e' = e := by
        rw [he'] at he
        exact Option.some.inj he
      subst hee
      subst ha
      split
      · next hm =>
        refine h.loadReturns_self hc fun y => ?_
        rw [hws.val e' (List.mem_of_getElem? he') y, hm, mergeBits_allOnes]
      · exact hgo
    · exact hgo
  · exact hgo

/-- A value loaded now is that of the version seen, unless the lock has moved on. -/
theorem Saw.value (hS : SInv b P g) {l : Ver} (h : Saw b g a l) :
    g.mem a = g.at b (b.stamp l.ts) a ∨ Passed b g (b.getLock w a) l := by
  by_cases hl : l = (g.lock (b.getLock w a)).ver
  · by_cases hd : Dirty b g (b.getLock w a)
    · exact .inr (.inr ⟨hl, hd⟩)
    · left
      rw [hl]
      exact hS.clean a hd
  · exact .inr (.inl (VerLe.lt_of_ne h hl))

theorem TInv.readVal (hS : SInv b P g) (h : TInv b P tid g x) {l : Ver}
    (hp : x.pc = .readVal a l) : TInv b P tid g { x with pc := .readLock2 a l (g.mem a) } := by
  have hc : Calm x := .of hp rfl rfl rfl
  have hsaw : Saw b g a l := by
    have := h.pc
    rwa [hp] at this
  exact h.goto hc (.readLock2 a l (g.mem a)) x.standing x.canExtend ⟨rfl, rfl⟩
    (by rw [hp]; rfl) ⟨hsaw, hsaw.value hS⟩

theorem TInv.readLock2Step (hS : SInv b P g) (h : TInv b P tid g x) {l : Ver} {v : BitVec w}
    (hp : x.pc = .readLock2 a l v)
    (hok : P.oneTime → b.design ≠ .writeBackCtl → OwnLoadOk b tid g x a) :
    TInv b P tid g (readLock2Step b tid a l v g x) := by
  have hc : Ready x := .of hp rfl rfl rfl fun _ => rfl
  have hpc : PcOk b tid g x (.readLock2 a l v) := hp ▸ h.pc
  obtain ⟨hsaw, hv⟩ := hpc
  unfold TinyStm.readLock2Step
  simp only
  split
  · exact h.readDispatch hS hc hok
  · next hfree =>
    have hfree : g.lock (b.getLock w a) = ⟨l, none⟩ := not_not.mp hfree
    have hval : v = g.at b (b.stamp l.ts) a := hv.resolve_right (not_passed_free hfree)
    split
    · split
      · exact h.rollback_calm hc.toCalm _
      · next hro =>
        have hro : x.ro = false := by
          cases hx : x.ro with
          | false => rfl
          | true => simp [hx] at hro
        refine h.goto hc.toCalm (.extClock (.read a l v)) x.standing x.canExtend ⟨rfl, rfl⟩
          (by rw [hc.acq]; rfl) ⟨by simp, by simp, ?_⟩
        rintro a' l' v' he
        cases he
        exact ⟨hsaw, hval, hro⟩
    · next hle =>
      have hle' : b.stamp l.ts ≤ x.snap :=
        (Build.stamp_mono (Nat.le_of_not_lt hle)).trans (h.core hc.toInside).att.end_le
      exact h.readDone hS hc hfree hval hle' (by rw [hp]; exact ⟨hsaw, hv⟩)

theorem TInv.readRecheckStep (hS : SInv b P g) (h : TInv b P tid g x) {l : Ver} {v : BitVec w}
    (hp : x.pc = .readRecheck a l v) : TInv b P tid g (readRecheckStep b a l v g x) := by
  have hc : Ready x := .of hp rfl rfl rfl fun _ => rfl
  have hpc : PcOk b tid g x (.readRecheck a l v) := hp ▸ h.pc
  obtain ⟨hsaw, hv, hle, hro⟩ := hpc
  unfold TinyStm.readRecheckStep
  split
  · exact h.goto hc.toCalm (.readVal a l) x.standing x.canExtend ⟨rfl, rfl⟩ (by rw [hc.acq]; rfl) hsaw
  · next hfree =>
    exact h.readDone hS hc (not_not.mp hfree) hv hle (by rw [hp]; exact ⟨hsaw, hv, hle, hro⟩)

theorem TInv.readOwn (hS : SInv b P g) (h : TInv b P tid g x) (hp : x.pc = .readOwn a)
    (hok : P.oneTime → b.design ≠ .writeBackCtl → OwnLoadOk b tid g x a) :
    TInv b P tid g (TinyStm.loadReturns b x a (g.mem a)) := by
  have hc : Ready x := .of hp rfl rfl rfl fun _ => rfl
  have hpc : PcOk b tid g x (.readOwn a) := hp ▸ h.pc
  obtain ⟨hd, hheld, hid⟩ := hpc
  have hk := ((h.core hc.toInside).heldBy_iff _).mp hheld
  refine h.loadReturns_own hS hc hd hheld ?_ fun ho => hok ho hd
  cases hdes : b.design with
  | writeBackCtl => exact absurd hdes hd
  | writeThrough => exact (h.live hc.live).wtMem hdes a hk
  | writeBackEtl =>
    obtain ⟨i, hi⟩ := ((h.core hc.toInside).own _).mpr hk
    rw [hid hdes]
    exact h.mem_held hS (by simp [hdes]) hi hc.cur

/-! ### Extension -/

/-- A read that can be revalidated is valid at `e` when the read set and the locks
held are; a read-only transaction can only be asked about its snapshot. -/
theorem Covered.readAt {r : Read w} {e : ℕ} (h : Covered b tid g x r)
    (hro : x.ro = true → e = x.snap)
    (hrset : ∀ p ∈ x.rset, b.stamp p.2 ≤ e ∧ Quiet (b.sem w) g.log p.1 (b.stamp p.2) e)
    (hheld : ∀ k, (g.lock k).HeldBy tid →
      g.ver b k ≤ e ∧ Quiet (b.sem w) g.log k (g.ver b k) e) : ReadAt b g e r := by
  rcases h with hb | ⟨v, hval, hv, hc⟩
  · exact .inl hb
  · rcases hc with ⟨hro', hle, hq⟩ | ⟨raw, hr, rfl⟩ | ⟨hk, rfl⟩
    · rw [← hro hro'] at hle hq
      exact .inr ⟨_, hval, hv, hle, hq⟩
    · obtain ⟨h₁, h₂⟩ := hrset _ hr
      exact .inr ⟨_, hval, hv, h₁, h₂⟩
    · obtain ⟨h₁, h₂⟩ := hheld _ hk
      exact .inr ⟨_, hval, le_rfl, h₁, h₂⟩

/-- An entry that passes `stm_validate` has not been overwritten. -/
theorem TInv.entryValid_quiet (hS : SInv b P g) (h : TInv b P tid g x)
    (hl : x.pc.phase = .live) {r : ℕ × ℕ} {e : ℕ} (hr : r ∈ x.rset)
    (hcur : ∀ n, x.pc.cur = some n → e < n) (hv : entryValid b tid g x r = true) :
    Quiet (b.sem w) g.log r.1 (b.stamp r.2) e := by
  have hne : x.pc.phase ≠ .out := by rw [hl]; simp
  have hlive := h.live hl
  unfold entryValid at hv
  split at hv
  · next hown =>
    have hfree : g.lock r.1 = ⟨(g.lock r.1).ver, none⟩ := by
      rw [← hown]
    have hts : (g.lock r.1).ver.ts = r.2 := by simpa using hv
    have := hS.quiet_free hfree e
    rwa [hts] at this
  · cases hv
  · next t i hown =>
    split at hv
    · next ht =>
      subst ht
      have hheld : (g.lock r.1).HeldBy t := .inl ⟨i, hown⟩
      have hquiet := h.quiet_held hS hheld hcur
      have heq : b.stamp r.2 = g.ver b r.1 := by
        split at hv
        · next hd =>
          -- the version that the own lock replaced is in the entry it points to
          obtain ⟨e', he', hdrop, hk⟩ := (hlive.acq hd).idx hown
          simp only [he', beq_iff_eq] at hv
          have hver := (h.att hne).dropVer he' hdrop (by rw [hl]; trivial)
          rw [hk] at hver
          rw [← hv, Shared.ver, hver]
        · next hd => exact hlive.rsetOwn hd r hr hheld
      rw [heq]
      exact hquiet
    · cases hv

theorem extFail_eq (x : Tx w) (c : Cont w) : ∃ r, extFail b x c = TinyStm.rollback b x r := by
  cases c with
  | read a l v => exact ⟨_, rfl⟩
  | tick => exact ⟨_, rfl⟩
  | opEnd => exact ⟨_, rfl⟩
  | commit t => exact ⟨_, rfl⟩

theorem TInv.extClockStep (hS : SInv b P g) (h : TInv b P tid g x) {c : Cont w}
    (hp : x.pc = .extClock c)
    (hasync : c = .tick ∨ c = .opEnd → x.ro = true → x.reads = []) :
    TInv b P tid g (extClockStep b c g x) := by
  have hc : Ready x := .of hp rfl rfl rfl fun _ => rfl
  have hpc : PcOk b tid g x (.extClock c) := hp ▸ h.pc
  obtain ⟨hnc, -, hread⟩ := hpc
  unfold TinyStm.extClockStep
  split
  · obtain ⟨r, hr⟩ := extFail_eq (b := b) x c
    rw [hr]
    exact h.rollback_calm hc.toCalm r
  · next hlt =>
    have hcur : (Pc.validate g.clock 0 c).cur = none := by
      cases c with
      | commit t => exact absurd rfl (hnc t)
      | _ => rfl
    have hacq : ∀ n, (Pc.validate g.clock 0 c).acqFrom n = n := by
      intro n
      cases c with
      | commit t => exact absurd rfl (hnc t)
      | _ => rfl
    refine h.goto hc.toCalm (.validate g.clock 0 c) x.standing x.canExtend ⟨rfl, hcur⟩
      (by rw [hc.acq, hacq]) ⟨le_rfl, (h.core hc.toInside).att.snap_le, fun _ => by omega, by simp,
        fun k _ => hS.ver_le k, ?_⟩
    cases c with
    | read a l v =>
      obtain ⟨h₁, h₂, h₃⟩ := hread a l v rfl
      exact ⟨h₁, h₂, h₁.stamp_le.trans (hS.ver_le _), h₃⟩
    | commit t => exact absurd rfl (hnc t)
    | tick => exact hasync (.inl rfl)
    | opEnd => exact hasync (.inr rfl)

/-- `stm_extend` succeeds: the snapshot moves to `now`. -/
theorem TInv.extended (hS : SInv b P g) (h : TInv b P tid g x) {now i : ℕ} {c : Cont w}
    (hp : x.pc = .validate now i c) (hnc : ∀ t, c ≠ .commit t) (hi : x.rset[i]? = none)
    (hro : x.ro = true → x.reads = []) (p : Pc w)
    (hc' : Ready { x with endT := b.endV w now, snap := now, standing := false, pc := p })
    (hpc' : PcOk b tid g
      { x with endT := b.endV w now, snap := now, standing := false, pc := p } p) :
    TInv b P tid g { x with endT := b.endV w now, snap := now, standing := false, pc := p } := by
  have hc : Ready x := by
    refine .of hp rfl ?_ rfl fun n => ?_
    all_goals cases c with
      | commit t => exact absurd rfl (hnc t)
      | _ => rfl
  have hpc : PcOk b tid g x (.validate now i c) := hp ▸ h.pc
  obtain ⟨hnow, hsnap, hfits, hquiet, hheld, -⟩ := hpc
  have hatt := (h.core hc.toInside).att
  have hlive := h.live hc.live
  rw [hc.acq] at hlive
  have hw := h.whole hc.ne_out hc.storing
  have hall : ∀ r ∈ x.rset, b.stamp r.2 ≤ now ∧ Quiet (b.sem w) g.log r.1 (b.stamp r.2) now := by
    intro r hr
    obtain ⟨j, hj, hjr⟩ := List.getElem_of_mem hr
    have hjr' : x.rset[j]? = some r := by rw [List.getElem?_eq_getElem hj, hjr]
    have hlen : x.rset.length ≤ i := List.getElem?_eq_none_iff.mp hi
    exact ⟨(hlive.rset r hr).1.trans hsnap, hquiet j (by omega) r hjr'⟩
  have hown : ∀ k, (g.lock k).HeldBy tid →
      g.ver b k ≤ now ∧ Quiet (b.sem w) g.log k (g.ver b k) now := fun k hk =>
    ⟨hheld k hk, h.quiet_held hS hk fun n hn => by rw [hc.cur] at hn; cases hn⟩
  have hstamp : b.stamp (b.endV w now) = now := Build.stamp_endV hfits
  have hcore := h.core hc.toInside
  refine Core.tinv (n := x.wset.length)
    ⟨hcore.own, hcore.unit, hcore.settled, hcore.fate, hcore.began, ?_, ?_⟩
    hc'.toInside (hc'.acq _) (fun _ => ⟨hw.touched, hw.len⟩) hpc'
  · refine ⟨hatt.start_le.trans hsnap, hstamp.le, fun _ => hstamp, hnow, fun _ => ?_, hatt.pre,
      hatt.order, hatt.dropVer, hatt.dropOrder, hatt.taken, hatt.ws.congr rfl rfl⟩
    refine ⟨now, le_rfl, hnow, fun _ => rfl, fun r hr => ?_⟩
    cases hx : x.ro with
    | true =>
      have hr' : r ∈ x.reads := hr
      rw [hro hx] at hr'
      cases hr'
    | false =>
      exact (hlive.cover r hr).readAt (fun hx' => by rw [hx] at hx'; cases hx') hall hown
  · refine ⟨fun r hr => ⟨(hall r hr).1, (hlive.rset r hr).2.1, (hall r hr).2⟩, hlive.rsetOwn, ?_,
      hlive.ro, fun hd => (hlive.acq hd).congr rfl rfl, hlive.wtMem⟩
    intro r hr
    rcases hlive.cover r hr with hb | ⟨v, h₁, h₂, ⟨hx, -⟩ | h₃⟩
    · exact .inl hb
    · have hr' : r ∈ x.reads := hr
      rw [hro hx] at hr'
      cases hr'
    · exact .inr ⟨v, h₁, h₂, .inr h₃⟩

/-- One more entry of the read set is valid. -/
theorem TInv.validateNext (hS : SInv b P g) (h : TInv b P tid g x) {now i : ℕ} {c : Cont w}
    (hp : x.pc = .validate now i c) {r : ℕ × ℕ} (hr : x.rset[i]? = some r)
    (hv : entryValid b tid g x r = true) :
    TInv b P tid g { x with pc := .validate now (i + 1) c } := by
  have hl : x.pc.phase = .live := by rw [hp]; rfl
  have hne : x.pc.phase ≠ .out := by rw [hl]; simp
  have hpc : PcOk b tid g x (.validate now i c) := hp ▸ h.pc
  obtain ⟨hnow, hsnap, hfits, hquiet, hheld, hcont⟩ := hpc
  have hcur : x.pc.cur = (Pc.validate now (i + 1) c).cur := by rw [hp]; cases c <;> rfl
  have hlt : ∀ n, x.pc.cur = some n → now < n := by
    intro n hn
    rw [hp] at hn
    cases c with
    | commit t =>
      have ht : t = now + 1 := hcont.1
      cases hn
      omega
    | _ => cases hn
  have hq := h.entryValid_quiet hS hl (List.mem_of_getElem? hr) hlt hv
  have hatt := h.att hne
  rw [hl] at hatt
  have hlive := h.live hl
  have hw := h.whole hne (by rw [hp]; rfl)
  exact {
    own := fun k => by
      rw [h.own k, hl]
      rfl
    unit := fun k => iff_of_false
      (fun hk => not_unitHeld_of_phase hne k ((h.unit k).mp hk)) (by simp [UnitHeld])
    settled := fun hs ho hc ht => h.settled hs ho (hcur ▸ hc) ht
    fate := fun hs => by
      have := h.fate hs
      rwa [hcur] at this
    began := h.began
    att := fun _ => hatt.set _ x.standing x.canExtend
    live := fun _ => by
      have hacq : x.pc.acqFrom x.wset.length =
          (Pc.validate now (i + 1) c).acqFrom x.wset.length := by rw [hp]; cases c <;> rfl
      rw [hacq] at hlive
      exact hlive.set _ x.standing x.canExtend
    whole := fun _ _ => ⟨hw.touched, hw.len⟩
    pc := by
      refine ⟨hnow, hsnap, hfits, fun j hj r' hr' => ?_, hheld, ?_⟩
      · rcases Nat.lt_succ_iff_lt_or_eq.mp hj with hj | rfl
        · exact hquiet j hj r' hr'
        · rw [hr] at hr'
          cases hr'
          exact hq
      · cases c <;> exact hcont }

end TinyStm
