import TinyStm.Stability

/-!
# Steps of one thread: common part

What a step has to establish, what a thread knows about the locks it holds, and
the moves that change nothing but the program counter.
-/

namespace TinyStm

open Timeline

variable {w : ℕ} {b : Build} {P : Mode} {tid : ℕ} {g g' : Shared w} {x : Tx w} {ph ph' : Phase}

/-- A step of thread `tid` from `g` leads to the shared state and the descriptor `r`. -/
def StepOk (b : Build) (P : Mode) (tid : ℕ) (g : Shared w) (r : Shared w × Tx w) : Prop :=
  SInv b P r.1 ∧ TInv b P tid r.1 r.2 ∧ ∀ u, u ≠ tid → Interf b u g r.1

theorem StepOk.stay (hS : SInv b P g) (h : TInv b P tid g x) : StepOk b P tid g (g, x) :=
  ⟨hS, h, fun u _ => .refl u g⟩

/-- When the loads of `x` at `a` are served under a lock of its own: the version
the lock had is not newer than the snapshot, or no load so far returned a bit the
attempt did not write, or it has written the whole word. -/
def OwnLoadOk (b : Build) (tid : ℕ) (g : Shared w) (x : Tx w) (a : ℕ) : Prop :=
  (g.lock (b.getLock w a)).HeldBy tid →
    g.ver b (b.getLock w a) ≤ b.stamp x.endT ∨
    (∀ r ∈ x.reads, writtenMask r.pre r.addr = BitVec.allOnes w) ∨
    writtenMask x.stores a = BitVec.allOnes w

/-- The condition under which a step keeps the invariant. The first two are about
packed versions, the next two about the raw timestamps of unit stores and of
exhausted incarnation numbers, then the tick, and what the mode asks. -/
structure Cond (b : Build) (P : Mode) (tid : ℕ) (act : Act w) (g : Shared w) (x : Tx w) :
    Prop where
  fits : b.Fits w (g.clock + 1)
  prepare : x.pc = .prepare → b.startOf w x.start g.clock = b.startV w g.clock ∧
    b.endOf w x.endT g.clock = b.endV w g.clock
  unit : ∀ a v, x.pc = .unitInc a v → b.stamp (g.clock + 1) = g.clock + 1
  wt : b.design = .writeThrough → b.mbRevalidation = false
  async : x.pc = .extClock .tick ∨ x.pc = .extClock .opEnd → x.ro = true → x.reads = []
  ownLoad : P.oneTime → b.design ≠ .writeBackCtl → ∀ a,
    (x.pc = .readLock a ∨ x.pc = .readOwn a ∨ ∃ l v, x.pc = .readLock2 a l v) →
    OwnLoadOk b tid g x a
  ext : P.noExt → ∀ en ts, act ≠ .setExtension en ts

/-! ### Locks held -/

/-- Only the update in progress is above the version of a lock that is held. -/
theorem TInv.cur_of_touches (hS : SInv b P g) (h : TInv b P tid g x) {k n : ℕ}
    (hk : (g.lock k).HeldBy tid) (hn : g.ver b k < n) (ht : Touches (b.sem w) g.log n k) :
    x.pc.cur = some n := by
  obtain ⟨s, hs, ht⟩ := ht
  by_contra hc
  have ho : s.owner = tid := (hS.live hs ht hn).unique hk
  have := h.settled hs ho hc ht
  omega

theorem TInv.quiet_held (hS : SInv b P g) (h : TInv b P tid g x) {k e : ℕ}
    (hk : (g.lock k).HeldBy tid) (hc : ∀ n, x.pc.cur = some n → e < n) :
    Quiet (b.sem w) g.log k (g.ver b k) e := by
  intro n hn hne ht
  have := hc n (h.cur_of_touches hS hk hn ht)
  omega

/-- The memory after the update in progress, on a lock that is held. -/
theorem TInv.at_cur (hS : SInv b P g) (h : TInv b P tid g x) {a t : ℕ} {ss : List (Store w)}
    (hk : (g.lock (b.getLock w a)).HeldBy tid) (hc : x.pc.cur = some t)
    (hlog : g.log t = some ⟨tid, ss, true⟩) (hlt : g.ver b (b.getLock w a) < t) :
    g.at b t a = overlay ss a (g.at b (g.ver b (b.getLock w a)) a) := by
  obtain ⟨t', rfl⟩ : ∃ t', t = t' + 1 := ⟨t - 1, by omega⟩
  have hq : Quiet (b.sem w) g.log (b.getLock w a) (g.ver b (b.getLock w a)) t' :=
    h.quiet_held hS hk fun n hn => by
      rw [hc] at hn
      cases hn
      omega
  have hstep : g.at b (t' + 1) a = overlay ss a (g.at b t' a) :=
    memAt_succ_decided (S := b.sem w) a hlog rfl
  have hprev : g.at b t' a = g.at b (g.ver b (b.getLock w a)) a :=
    memAt_eq_of_quiet (S := b.sem w) hq (by omega)
  rw [hstep, hprev]

/-- Without an update in progress, memory under an own lock of a write-back design
is the memory at its version. -/
theorem TInv.mem_held (hS : SInv b P g) (h : TInv b P tid g x) {a i : ℕ}
    (hd : b.design ≠ .writeThrough) (hk : (g.lock (b.getLock w a)).own = some (.entry tid i))
    (hc : x.pc.cur = none) : g.mem a = g.at b (g.ver b (b.getLock w a)) a := by
  refine hS.clean a ?_
  simp only [Dirty, hk, hd, false_or]
  rintro ⟨n, s, hn, hs, -, ht⟩
  have := h.cur_of_touches hS (.inl ⟨i, hk⟩) hn ⟨s, hs, ht⟩
  rw [hc] at this
  cases this

/-- All own updates are over: nothing above the version of a lock that is held. -/
theorem TInv.settled_held (hS : SInv b P g) (h : TInv b P tid g x) {k : ℕ}
    (hk : (g.lock k).HeldBy tid) {n : ℕ} {s : Slot (List (Store w))} (hs : g.log n = some s)
    (ht : (b.sem w).touch s.body k) (hc : x.pc.cur ≠ some n) :
    n ≤ g.ver b k ∧ s.decided = true := by
  have hle : n ≤ g.ver b k := by
    by_contra hn
    exact hc (h.cur_of_touches hS hk (by omega) ⟨s, hs, ht⟩)
  exact ⟨hle, hS.decided hle hs ht⟩

/-! ### Fields the invariant does not look at -/

/-- Only the write set and the stores count. -/
theorem WsOk.congr {x' : Tx w} (h : WsOk b tid g ph x) (hw : x'.wset = x.wset)
    (hs : x'.stores = x.stores) : WsOk b tid g ph x' := by
  obtain ⟨h₁, h₂, h₃⟩ := h
  refine ⟨hw ▸ hs ▸ h₁, fun hd => ?_, fun hd => ?_⟩
  · obtain ⟨i₁, i₂, i₃, i₄, i₅, i₆⟩ := h₂ hd
    rw [← hw] at i₁ i₂ i₃ i₄ i₅ i₆
    rw [← hs] at i₂ i₃ i₄
    exact ⟨i₁, i₂, i₃, i₄, i₅, i₆⟩
  · obtain ⟨i₁, i₂⟩ := h₃ hd
    rw [← hw, ← hs] at i₁ i₂
    exact ⟨i₁, i₂⟩

theorem Att.set (h : Att b P tid g ph x) (p : Pc w) (s c : Bool) :
    Att b P tid g ph { x with pc := p, standing := s, canExtend := c } :=
  ⟨h.start_le, h.end_le, h.endEq, h.snap_le, h.consistent, h.pre, h.order, h.dropVer,
    h.dropOrder, h.taken, h.ws.congr rfl rfl⟩

theorem CtlAcq.congr {n : ℕ} {x' : Tx w} (h : CtlAcq b tid g n x) (hw : x'.wset = x.wset)
    (hn : x'.nbAcquired = x.nbAcquired) : CtlAcq b tid g n x' := by
  obtain ⟨h₁, h₂, h₃, h₄⟩ := h
  rw [← hw] at h₁ h₂ h₃ h₄
  exact ⟨h₁, h₂, hn.trans h₃, h₄⟩

theorem Live.set {n : ℕ} (h : Live b tid g n x) (p : Pc w) (s c : Bool) :
    Live b tid g n { x with pc := p, standing := s, canExtend := c } :=
  ⟨h.rset, h.rsetOwn, h.cover, h.ro, fun hd => (h.acq hd).congr rfl rfl, h.wtMem⟩

theorem PubOk.set {t i n : ℕ} (h : PubOk b tid g x t i n) (p : Pc w) (s c : Bool) :
    PubOk b tid g { x with pc := p, standing := s, canExtend := c } t i n :=
  ⟨h.pos, h.fits, h.log, h.fresh, h.reads, h.below, h.done, h.mem⟩

theorem UndoOk.set {i n t : ℕ} (h : UndoOk b tid g x i n t) (p : Pc w) (s c : Bool) :
    UndoOk b tid g { x with pc := p, standing := s, canExtend := c } i n t :=
  ⟨h.count, h.bound, h.wtMem, h.noBump, h.bump⟩

/-! ### Moves inside an attempt -/

/-- The part of the invariant that does not depend on the program counter, while
the attempt can read and write and no timestamp has been taken; the acquisition
loop has dealt with the entries from `n` on. -/
structure Core (b : Build) (P : Mode) (tid : ℕ) (g : Shared w) (n : ℕ) (x : Tx w) : Prop where
  own : ∀ k, (∃ i, (g.lock k).own = some (.entry tid i)) ↔ Held b .live x.wset k
  unit : ∀ k, (g.lock k).own ≠ some (.unit tid)
  settled : ∀ {n s k}, g.log n = some s → s.owner = tid → (b.sem w).touch s.body k → n ≤ g.ver b k
  fate : ∀ {n ss}, g.log n = some ⟨tid, ss, true⟩ →
    Over b tid g n ss
  began : x.began ≤ g.time
  att : Att b P tid g .live x
  live : Live b tid g n x

/-- Inside an attempt, with no commit in progress. -/
structure Inside (x : Tx w) : Prop where
  live : x.pc.phase = .live
  cur : x.pc.cur = none

/-- In addition, no store in progress. -/
structure Calm (x : Tx w) : Prop extends Inside x where
  storing : x.pc.storing = false

/-- In addition, no locks are being acquired for a commit. -/
structure Ready (x : Tx w) : Prop extends Calm x where
  acq : ∀ n, x.pc.acqFrom n = n

theorem Inside.of {p : Pc w} (hp : x.pc = p) (h₁ : p.phase = .live) (h₂ : p.cur = none) :
    Inside x := ⟨hp ▸ h₁, hp ▸ h₂⟩

theorem Calm.of {p : Pc w} (hp : x.pc = p) (h₁ : p.phase = .live) (h₂ : p.cur = none)
    (h₃ : p.storing = false) : Calm x := ⟨.of hp h₁ h₂, hp ▸ h₃⟩

theorem Ready.of {p : Pc w} (hp : x.pc = p) (h₁ : p.phase = .live) (h₂ : p.cur = none)
    (h₃ : p.storing = false) (h₄ : ∀ n, p.acqFrom n = n) : Ready x :=
  ⟨.of hp h₁ h₂ h₃, hp ▸ h₄⟩

theorem Inside.ne_out (h : Inside x) : x.pc.phase ≠ .out := by
  rw [h.live]
  simp

theorem TInv.core (h : TInv b P tid g x) (hc : Inside x) :
    Core b P tid g (x.pc.acqFrom x.wset.length) x where
  own k := by rw [h.own k, hc.live]
  unit k hk := not_unitHeld_of_phase hc.ne_out k ((h.unit k).mp hk)
  settled hs ho ht := h.settled hs ho (by rw [hc.cur]; simp) ht
  fate hs := by
    rcases h.fate hs with hover | hcur
    · exact hover
    · rw [hc.cur] at hcur
      cases hcur
  began := h.began
  att := hc.live ▸ h.att hc.ne_out
  live := h.live hc.live

theorem Core.tinv {n : ℕ} (h : Core b P tid g n x) (hc : Inside x)
    (hn : x.pc.acqFrom x.wset.length = n) (hw : x.pc.storing = false → Whole b x)
    (hpc : PcOk b tid g x x.pc) : TInv b P tid g x where
  own k := by rw [h.own k, hc.live]
  unit k := iff_of_false (h.unit k) (not_unitHeld_of_phase hc.ne_out k)
  settled hs ho _ ht := h.settled hs ho ht
  fate hs := .inl (h.fate hs)
  began := h.began
  att _ := by rw [hc.live]; exact h.att
  live _ := by rw [hn]; exact h.live
  whole _ hs := hw hs
  pc := hpc

theorem Core.heldBy_iff {n : ℕ} (h : Core b P tid g n x) (k : ℕ) :
    (g.lock k).HeldBy tid ↔ Held b .live x.wset k := by
  rw [← h.own k]
  constructor
  · rintro (hk | hk)
    · exact hk
    · exact absurd hk (h.unit k)
  · exact fun hk => .inl hk

theorem Core.set {n : ℕ} (h : Core b P tid g n x) (p : Pc w) (s c : Bool) :
    Core b P tid g n { x with pc := p, standing := s, canExtend := c } :=
  ⟨h.own, h.unit, h.settled, h.fate, h.began, h.att.set p s c, h.live.set p s c⟩

/-- Only the program counter (and a flag) changes. -/
theorem TInv.goto (h : TInv b P tid g x) (hc : Calm x) (p : Pc w) (s c : Bool)
    (hc' : Inside { x with pc := p, standing := s, canExtend := c })
    (hacq : p.acqFrom x.wset.length = x.pc.acqFrom x.wset.length)
    (hpc : PcOk b tid g { x with pc := p, standing := s, canExtend := c } p) :
    TInv b P tid g { x with pc := p, standing := s, canExtend := c } := by
  have hw := h.whole hc.ne_out hc.storing
  exact ((h.core hc.toInside).set p s c).tinv hc' hacq (fun _ => ⟨hw.touched, hw.len⟩) hpc

theorem TInv.opEnd (h : TInv b P tid g { x with pc := .run }) : TInv b P tid g (opEnd b x) := by
  unfold TinyStm.opEnd
  split
  · next he =>
    simp only [Bool.and_eq_true] at he
    refine h.goto ⟨⟨rfl, rfl⟩, rfl⟩ (.extClock .opEnd) x.standing x.canExtend ⟨rfl, rfl⟩ rfl ?_
    exact ⟨by simp, fun _ => he.1, by simp⟩
  · exact h

/-! ### Change of phase -/

section Phase

variable {ws : List (WEntry w)}

theorem Held.mono (hR : ∀ j, j < ws.length → Remains b ws.length j ph' → Remains b ws.length j ph)
    {k : ℕ} (hk : Held b ph' ws k) : Held b ph ws k := by
  obtain ⟨j, e, he, hd, hr, hl⟩ := hk
  exact ⟨j, e, he, hd, hR j (getElem?_lt he) hr, hl⟩

theorem held_congr
    (hR : ∀ j, j < ws.length → (Remains b ws.length j ph ↔ Remains b ws.length j ph')) (k : ℕ) :
    Held b ph ws k ↔ Held b ph' ws k :=
  ⟨Held.mono fun j hj => (hR j hj).mp, Held.mono fun j hj => (hR j hj).mpr⟩

end Phase

/-- Two entries that release the same lock are one. -/
theorem Att.drop_unique (h : Att b P tid g ph x) {j j' : ℕ} {e e' : WEntry w}
    (hj : x.wset[j]? = some e) (hd : b.drops e = true) (hj' : x.wset[j']? = some e')
    (hd' : b.drops e' = true) (hl : b.getLock w e'.addr = b.getLock w e.addr) : j' = j := by
  have h₁ := h.dropOrder hj hd hj' hl
  have h₂ := h.dropOrder hj' hd' hj hl.symm
  split at h₁
  · next hdes =>
    rw [if_pos hdes] at h₂
    omega
  · next hdes =>
    rw [if_neg hdes] at h₂
    omega

/-- A loop is past entry `i`: its lock, if it released it, is no longer held. -/
theorem Att.held_step (h : Att b P tid g ph x) {i : ℕ} {e : WEntry w} (he : x.wset[i]? = some e)
    (hR : ∀ j, j < x.wset.length →
      (Remains b x.wset.length j ph' ↔ Remains b x.wset.length j ph ∧ j ≠ i)) (k : ℕ) :
    Held b ph' x.wset k ↔
      Held b ph x.wset k ∧ (b.drops e = true → k ≠ b.getLock w e.addr) := by
  constructor
  · rintro ⟨j, f, hf, hd, hr, hl⟩
    obtain ⟨hr', hji⟩ := (hR j (getElem?_lt hf)).mp hr
    refine ⟨⟨j, f, hf, hd, hr', hl⟩, fun hde hk => hji ?_⟩
    exact h.drop_unique he hde hf hd (hl.trans hk)
  · rintro ⟨⟨j, f, hf, hd, hr, hl⟩, hne⟩
    refine ⟨j, f, hf, hd, (hR j (getElem?_lt hf)).mpr ⟨hr, ?_⟩, hl⟩
    rintro rfl
    rw [he] at hf
    cases hf
    exact hne hd hl.symm

/-- A phase with fewer entries left. -/
theorem Att.rephase (h : Att b P tid g ph x)
    (hR : ∀ j, j < x.wset.length → Remains b x.wset.length j ph' → Remains b x.wset.length j ph)
    (ht : LocksTaken b ph' → ∀ {j : ℕ} {e : WEntry w}, x.wset[j]? = some e →
      Remains b x.wset.length j ph' → Held b ph' x.wset (b.getLock w e.addr)) :
    Att b P tid g ph' x where
  start_le := h.start_le
  end_le := h.end_le
  endEq := h.endEq
  snap_le := h.snap_le
  consistent := h.consistent
  pre := h.pre
  order := h.order
  dropVer he hd hr := h.dropVer he hd (hR _ (getElem?_lt he) hr)
  dropOrder := h.dropOrder
  taken := ht
  ws := {
    ctl := h.ws.ctl
    etl := fun hd =>
      { inj := (h.ws.etl hd).inj
        mem := (h.ws.etl hd).mem
        lock := (h.ws.etl hd).lock
        val := fun e he hk => (h.ws.etl hd).val e he (hk.mono hR)
        chain := (h.ws.etl hd).chain
        head := (h.ws.etl hd).head }
    wt := fun hd =>
      { len := (h.ws.wt hd).len
        ent := fun hs => by
          obtain ⟨e, he, ha, hm, hv⟩ := (h.ws.wt hd).ent hs
          exact ⟨e, he, ha, hm, fun hne hk => hv hne (hk.mono hR)⟩ } }

/-! ### Rolling back -/

/-- Where the rollback starts. -/
def rbFrom (b : Build) (x : Tx w) : ℕ :=
  match b.design with
  | .writeBackEtl => 0
  | _ => x.wset.length

theorem rollback_eq (x : Tx w) (r : Reason) :
    rollback b x r = { x with pc := .rb r (rbFrom b x) 0 } := by
  unfold rollback rbFrom
  cases b.design <;> rfl

theorem remains_rbFrom (x : Tx w) (j : ℕ) (hj : j < x.wset.length) :
    Remains b x.wset.length j .live ↔ Remains b x.wset.length j (.undo (rbFrom b x) 0) := by
  simp only [Remains, rbFrom]
  cases b.design <;> simp [hj]

/-- Every rollback of an attempt that is not in the middle of a store. -/
theorem Core.rollback {n : ℕ} (h : Core b P tid g n x) (hw : Whole b x) (r : Reason) :
    TInv b P tid g (rollback b x r) := by
  have hheld := held_congr (b := b) (remains_rbFrom (b := b) x)
  rw [rollback_eq]
  exact {
    own := fun k => (h.own k).trans (hheld k)
    unit := fun k => iff_of_false (h.unit k) (by simp [UnitHeld])
    settled := fun hs ho _ ht => h.settled hs ho ht
    fate := fun hs => .inl (h.fate hs)
    began := h.began
    att := fun _ => (h.att.set _ x.standing x.canExtend).rephase
      (fun j hj => (remains_rbFrom x j hj).mpr)
      fun hl _ _ he _ => (hheld _).mp (h.att.taken hl he trivial)
    live := fun hp => by simp [Pc.phase] at hp
    whole := fun _ _ => ⟨hw.touched, hw.len⟩
    pc := {
      count := fun hd => by
        have := (h.live.acq hd).count
        simpa [rbFrom, hd] using this
      bound := fun _ => by
        cases hd : b.design <;> simp [rbFrom, hd]
      wtMem := fun hd a hk => by
        have hlen := hw.len hd
        have hi : rbFrom b x = x.wset.length := by simp [rbFrom, hd]
        simp only [hi, hlen, List.take_length]
        exact h.live.wtMem hd a ((hheld _).mpr hk)
      noBump := fun _ => rfl
      bump := fun ht => absurd rfl ht } }

theorem TInv.rollback_calm (h : TInv b P tid g x) (hc : Calm x) (r : Reason) :
    TInv b P tid g (TinyStm.rollback b x r) :=
  (h.core hc.toInside).rollback (h.whole hc.ne_out hc.storing) r

/-! ### From one round of a loop to the next -/

/-- A round of the publication or of the undo loop: no lock is gained, those left
are kept, and no timestamp is taken. -/
theorem TInv.onward (hS : SInv b P g) (h : TInv b P tid g x) (hne : x.pc.phase ≠ .out)
    (hs : x.pc.storing = false) (p : Pc w) (n : ℕ) (hp : p.phase ≠ .out) (hpl : p.phase ≠ .live)
    (hcur : p.cur = x.pc.cur) (hK : Keeps b tid g g' (Held b p.phase x.wset))
    (hlog : g'.log = g.log) (hist : g'.hist = g.hist)
    (hown : ∀ k, (∃ i, (g'.lock k).own = some (.entry tid i)) ↔ Held b p.phase x.wset k)
    (hunit : ∀ k, (g'.lock k).own ≠ some (.unit tid))
    (hR : ∀ j, j < x.wset.length → Remains b x.wset.length j p.phase →
      Remains b x.wset.length j x.pc.phase)
    (ht : LocksTaken b p.phase → ∀ {j : ℕ} {e : WEntry w}, x.wset[j]? = some e →
      Remains b x.wset.length j p.phase → Held b p.phase x.wset (b.getLock w e.addr))
    (hpc : PcOk b tid g' { x with pc := p, nbAcquired := n } p) :
    TInv b P tid g' { x with pc := p, nbAcquired := n } := by
  have hatt : Att b P tid g' p.phase x :=
    ((h.att hne).rephase hR ht).stable hS hK fun A hA => .inl (hist ▸ hA)
  have hw := h.whole hne hs
  exact {
    own := hown
    unit := fun k => iff_of_false (hunit k) (not_unitHeld_of_phase hp k)
    settled := fun hs' ho hc ht' =>
      (h.settled (hlog ▸ hs') ho (hcur ▸ hc) ht').trans (hK.ver_le _)
    fate := fun hs' => by
      have := h.fate (hlog ▸ hs')
      rw [Over, hist]
      rwa [Over, ← hcur] at this
    began := h.began.trans hK.time
    att := fun _ => ⟨hatt.start_le, hatt.end_le, hatt.endEq, hatt.snap_le, hatt.consistent,
      hatt.pre, hatt.order, hatt.dropVer, hatt.dropOrder, hatt.taken, hatt.ws.congr rfl rfl⟩
    live := fun hl => absurd hl hpl
    whole := fun _ _ => ⟨hw.touched, hw.len⟩
    pc := hpc }

/-- A round that releases lock `k`. -/
theorem TInv.releases (hS : SInv b P g) (h : TInv b P tid g x) (hne : x.pc.phase ≠ .out)
    (hs : x.pc.storing = false) (p : Pc w) (n : ℕ) (hp : p.phase ≠ .out) (hpl : p.phase ≠ .live)
    (hcur : p.cur = x.pc.cur) {k : ℕ} {v : Ver} (hE : Evol b g (g.setLock k ⟨v, none⟩))
    (hheld : ∀ k', Held b p.phase x.wset k' ↔ Held b x.pc.phase x.wset k' ∧ k' ≠ k)
    (hR : ∀ j, j < x.wset.length → Remains b x.wset.length j p.phase →
      Remains b x.wset.length j x.pc.phase)
    (ht : LocksTaken b p.phase → ∀ {j : ℕ} {e : WEntry w}, x.wset[j]? = some e →
      Remains b x.wset.length j p.phase → Held b p.phase x.wset (b.getLock w e.addr))
    (hpc : PcOk b tid (g.setLock k ⟨v, none⟩) { x with pc := p, nbAcquired := n } p) :
    TInv b P tid (g.setLock k ⟨v, none⟩) { x with pc := p, nbAcquired := n } := by
  have hother : ∀ k', k' ≠ k → (g.setLock k ⟨v, none⟩).lock k' = g.lock k' :=
    fun k' hk' => setLock_of_ne g _ hk'
  refine h.onward hS hne hs p n hp hpl hcur
    ⟨hE, fun k' hk' => hother k' ((hheld k').mp hk').2, fun k' j hk' => ?_⟩ rfl rfl
    (fun k' => ?_) (fun k' hk' => ?_) hR ht hpc
  · by_cases hkk : k' = k
    · subst hkk
      simp at hk'
    · rwa [hother k' hkk] at hk'
  · rw [hheld k']
    by_cases hkk : k' = k
    · subst hkk
      simp
    · rw [hother k' hkk, h.own]
      simp [hkk]
  · by_cases hkk : k' = k
    · subst hkk
      simp at hk'
    · rw [hother k' hkk] at hk'
      exact not_unitHeld_of_phase hne k' ((h.unit k').mp hk')

/-- A round that releases nothing. -/
theorem TInv.skips (hS : SInv b P g) (h : TInv b P tid g x) (hne : x.pc.phase ≠ .out)
    (hs : x.pc.storing = false) (p : Pc w) (n : ℕ) (hp : p.phase ≠ .out) (hpl : p.phase ≠ .live)
    (hcur : p.cur = x.pc.cur)
    (hheld : ∀ k', Held b p.phase x.wset k' ↔ Held b x.pc.phase x.wset k')
    (hR : ∀ j, j < x.wset.length → Remains b x.wset.length j p.phase →
      Remains b x.wset.length j x.pc.phase)
    (ht : LocksTaken b p.phase → ∀ {j : ℕ} {e : WEntry w}, x.wset[j]? = some e →
      Remains b x.wset.length j p.phase → Held b p.phase x.wset (b.getLock w e.addr))
    (hpc : PcOk b tid g { x with pc := p, nbAcquired := n } p) :
    TInv b P tid g { x with pc := p, nbAcquired := n } :=
  h.onward hS hne hs p n hp hpl hcur ⟨.refl g, fun _ _ => rfl, fun _ _ h => h⟩ rfl rfl
    (fun k' => by rw [hheld k', h.own])
    (fun k' hk' => not_unitHeld_of_phase hne k' ((h.unit k').mp hk')) hR ht hpc

/-! ### Leaving an attempt -/

/-- A thread that holds no lock and has settled its updates is outside. -/
theorem TInv.outside {x' : Tx w} (hown : ∀ k, ¬ (g.lock k).HeldBy tid)
    (hset : ∀ {n s k}, g.log n = some s → s.owner = tid → (b.sem w).touch s.body k → n ≤ g.ver b k)
    (hfate : ∀ {n ss}, g.log n = some ⟨tid, ss, true⟩ →
      Over b tid g n ss)
    (hb : x'.began ≤ g.time) (hp : x'.pc.phase = .out) (hu : ∀ k, ¬ UnitHeld b k x'.pc)
    (hpc : PcOk b tid g x' x'.pc) : TInv b P tid g x' where
  own k := by
    rw [hp]
    refine iff_of_false (fun hk => hown k (.inl hk)) ?_
    rintro ⟨j, e, -, -, hr, -⟩
    exact hr
  unit k := iff_of_false (fun hk => hown k (.inr hk)) (hu k)
  settled hs ho _ ht := hset hs ho ht
  fate hs := .inl (hfate hs)
  began := hb
  att hne := absurd hp hne
  live hl := by
    rw [hp] at hl
    cases hl
  whole hne := absurd hp hne
  pc := hpc

end TinyStm
