import TinyStm.Ctl.Log

/-!
# Lock discipline of commit-time locking

The invariant ties the entries that release, the lock words, `nb_acquired` and the
log of the attempt together, for each position of the three loops.
-/

namespace TinyStm

open Interleave

variable {w : ℕ} {b : Build} {tid : ℕ} {g g' : Shared w} {x x' : Tx w} {e : WEntry w}
  {ℓ : List (Access w)}

/-! ### The invariant of one thread -/

/-- Positions inside an attempt before its commit. -/
def Pc.open : Pc w → Bool
  | .run => true
  | .readLock _ => true
  | .readVal _ _ => true
  | .readLock2 _ _ _ => true
  | .readRecheck _ _ _ => true
  | .extClock (.commit _) => false
  | .extClock _ => true
  | .validate _ _ (.commit _) => false
  | .validate _ _ _ => true
  | .writeLock _ _ _ => true
  | _ => false

/-- Positions of the commit and of the rollback. -/
def Pc.closing : Pc w → Bool
  | .commitLock _ => true
  | .commitCas _ _ => true
  | .commitInc => true
  | .validate _ _ (.commit _) => true
  | .pub _ _ => true
  | .pubStore _ _ _ => true
  | .pubRel _ _ => true
  | .rb _ _ _ => true
  | _ => false

/-- Every stripe of the write set has an entry that releases its lock. -/
def Covers (b : Build) (ws : List (WEntry w)) : Prop :=
  ∀ e ∈ ws, ∃ f ∈ ws, b.drops f = true ∧ b.getLock w f.addr = b.getLock w e.addr

/-- The acquisition loop has dealt with the entries from `n` on. -/
structure Acquired (b : Build) (n : ℕ) (x : Tx w) (ℓ : List (Access w)) : Prop where
  todo : ∀ {j : ℕ} {e : WEntry w}, x.wset[j]? = some e → j < n → b.drops e = false
  got : ∀ {j : ℕ} {e : WEntry w}, x.wset[j]? = some e → n ≤ j →
    ∃ f ∈ x.wset, b.drops f = true ∧ b.getLock w f.addr = b.getLock w e.addr
  count : x.nbAcquired = x.wset.countP b.drops
  log : ℓ = (releasers b x.wset).map (acquireOf b)

/-- The write-back loop has dealt with the entries below `i`. -/
structure Publishing (b : Build) (t i : ℕ) (x : Tx w) (S ℓ : List (Access w)) : Prop where
  covers : Covers b x.wset
  log : ∃ P, Published b t (x.wset.take i) P ∧
    ℓ = (releasers b x.wset).map (acquireOf b) ++ P ++ S

def LoopOk (b : Build) (x : Tx w) (ℓ : List (Access w)) : Pc w → Prop
  | .commitLock i => i < x.wset.length
  | .commitCas i _ => i < x.wset.length
  | .pub t i => Publishing b t i x [] ℓ
  | .pubStore t i v => Publishing b t i x [] ℓ ∧
    ∃ e, x.wset[i]? = some e ∧ e.mask ≠ 0 ∧ v &&& e.mask = e.value &&& e.mask
  | .pubRel t i => ∃ e S, x.wset[i]? = some e ∧ Stored e S ∧ Publishing b t i x S ℓ
  | .rb _ i _ => i ≤ x.wset.length ∧ x.nbAcquired = (x.wset.take i).countP b.drops ∧
    ℓ = (releasers b x.wset).map (acquireOf b) ++
      (releasers b (x.wset.drop i)).map (restoreOf b)
  | _ => True

structure CtlInv (b : Build) (tid : ℕ) (g : Shared w) (x : Tx w) (ℓ : List (Access w)) :
    Prop where
  pcs : x.pc.phase = .out ∨ x.pc.open = true ∨ x.pc.closing = true
  own : ∀ {k i : ℕ}, (g.lock k).own = some (.entry tid i) → ∃ e, x.wset[i]? = some e ∧
    b.drops e = true ∧ Remains b x.wset.length i x.pc.phase ∧ b.getLock w e.addr = k
  ver : ∀ {i : ℕ} {e : WEntry w}, x.wset[i]? = some e → b.drops e = true →
    Remains b x.wset.length i x.pc.phase →
    g.lock (b.getLock w e.addr) = ⟨e.version, some (.entry tid i)⟩
  unit : ∀ k, (g.lock k).own = some (.unit tid) ↔ UnitHeld b k x.pc
  order : x.pc.phase ≠ .out → DropOrder b x.wset
  live : x.pc.phase = .live → Acquired b (x.pc.acqFrom x.wset.length) x ℓ
  loop : LoopOk b x ℓ x.pc

/-- What a step of `tid` must show. -/
structure CtlStep (b : Build) (tid : ℕ) (g : Shared w) (r : Shared w × Tx w)
    (acc ℓ : List (Access w)) : Prop where
  inv : CtlInv b tid r.1 r.2 ℓ
  effect : Effect tid g r.1 acc

theorem Pc.phase_of_open {p : Pc w} (h : p.open = true) : p.phase = .live := by
  cases p <;> first | rfl | cases h

theorem Pc.acqFrom_of_open {p : Pc w} (h : p.open = true) (n : ℕ) : p.acqFrom n = n := by
  cases p with
  | validate now i c => cases c <;> first | rfl | cases h
  | _ => first | rfl | cases h

theorem loopOk_of_open {p : Pc w} (h : p.open = true) : LoopOk b x ℓ p := by
  cases p <;> trivial

theorem not_unitHeld_of_live {p : Pc w} (h : p.phase = .live) (k : ℕ) : ¬ UnitHeld b k p :=
  not_unitHeld_of_phase (by rw [h]; simp) k

theorem drops_ctl (hd : b.design = .writeBackCtl) (e : WEntry w) : b.drops e = !e.noDrop := by
  simp [Build.drops, hd]

/-- Steps of other threads. -/
theorem CtlInv.stable (h : CtlInv b tid g x ℓ)
    (hg : ∀ k, (g.lock k).HeldBy tid ∨ (g'.lock k).HeldBy tid → g'.lock k = g.lock k) :
    CtlInv b tid g' x ℓ where
  pcs := h.pcs
  own {k i} hk := h.own (by rw [← hg k (.inr (.inl ⟨i, hk⟩))]; exact hk)
  ver he hd hr := by
    have := h.ver he hd hr
    rw [hg _ (.inl (by rw [this]; exact .inl ⟨_, rfl⟩))]
    exact this
  unit k := by
    rw [← h.unit k]
    constructor
    · intro hk
      rw [← hg k (.inr (.inr hk))]
      exact hk
    · intro hk
      rw [hg k (.inl (.inr hk))]
      exact hk
  order := h.order
  live := h.live
  loop := h.loop

/-! ### Moves that touch no lock -/

/-- Inside an attempt, with the same entries acquired. -/
theorem CtlInv.move (h : CtlInv b tid g x ℓ) (hph : x.pc.phase = .live)
    (hl : g'.lock = g.lock) (hw : x'.wset = x.wset) (hn : x'.nbAcquired = x.nbAcquired)
    (hpcs : x'.pc.open = true ∨ x'.pc.closing = true) (hph' : x'.pc.phase = .live)
    (hacq : x'.pc.acqFrom x.wset.length = x.pc.acqFrom x.wset.length)
    (hloop : LoopOk b x' ℓ x'.pc) : CtlInv b tid g' x' ℓ where
  pcs := .inr hpcs
  own hk := by
    rw [hl] at hk
    obtain ⟨e, he, hd, -, hlk⟩ := h.own hk
    rw [hw, hph']
    exact ⟨e, he, hd, trivial, hlk⟩
  ver he hd _ := by
    rw [hw] at he
    rw [hl]
    exact h.ver he hd (by rw [hph]; trivial)
  unit k := by
    rw [hl, h.unit k]
    exact iff_of_false (not_unitHeld_of_live hph k) (not_unitHeld_of_live hph' k)
  order _ := by
    rw [hw]
    exact h.order (by rw [hph]; simp)
  live _ := by
    have ha := h.live hph
    rw [hw, hacq]
    refine ⟨?_, ?_, ?_, ?_⟩
    · rw [hw]
      exact ha.todo
    · rw [hw]
      exact ha.got
    · rw [hw, hn]
      exact ha.count
    · rw [hw]
      exact ha.log
  loop := hloop

theorem rollback_ctl (hd : b.design = .writeBackCtl) (x : Tx w) (r : Reason) :
    rollback b x r = { x with pc := .rb r x.wset.length 0 } := by
  simp [rollback, hd]

theorem CtlInv.rollback (h : CtlInv b tid g x ℓ) (hd : b.design = .writeBackCtl)
    (hph : x.pc.phase = .live) (hl : g'.lock = g.lock) (hw : x'.wset = x.wset)
    (hn : x'.nbAcquired = x.nbAcquired) {r : Reason} (hpc : x'.pc = .rb r x.wset.length 0) :
    CtlInv b tid g' x' ℓ := by
  have ha := h.live hph
  have hph' : x'.pc.phase = .undo x.wset.length 0 := by rw [hpc]; rfl
  have hrem : ∀ {j : ℕ}, Remains b x.wset.length j (.undo x.wset.length 0) ↔
      j < x.wset.length := by
    intro j
    simp [Remains, hd]
  constructor
  case pcs => exact .inr (.inr (by rw [hpc]; rfl))
  case own =>
    intro k i hk
    rw [hl] at hk
    obtain ⟨e, he, hdr, -, hlk⟩ := h.own hk
    rw [hw, hph']
    exact ⟨e, he, hdr, hrem.mpr (getElem?_lt he), hlk⟩
  case ver =>
    intro i e he hdr _
    rw [hw] at he
    rw [hl]
    exact h.ver he hdr (by rw [hph]; trivial)
  case unit =>
    intro k
    rw [hl, h.unit k, hpc]
    exact iff_of_false (not_unitHeld_of_live hph k) (by simp [UnitHeld])
  case order =>
    rw [hw]
    exact fun _ => h.order (by rw [hph]; simp)
  case live =>
    rw [hph']
    exact fun hp => by cases hp
  case loop =>
    rw [hpc]
    refine ⟨by rw [hw], ?_, ?_⟩
    · rw [hw, hn, List.take_length]
      exact ha.count
    · rw [hw, List.drop_length]
      simpa [releasers] using ha.log

theorem CtlInv.abort (h : CtlInv b tid g x ℓ) (hd : b.design = .writeBackCtl)
    (hph : x.pc.phase = .live) (r : Reason) : CtlInv b tid g (TinyStm.rollback b x r) ℓ := by
  rw [rollback_ctl hd]
  exact h.rollback hd hph rfl rfl rfl rfl

/-- No entry is held: the thread leaves the attempt. -/
theorem CtlInv.leave (h : CtlInv b tid g x ℓ) (hl : g'.lock = g.lock)
    (hnone : ∀ k i, (g.lock k).own ≠ some (.entry tid i)) (hph : x'.pc.phase = .out)
    (hunit : ∀ k, UnitHeld b k x'.pc ↔ UnitHeld b k x.pc) (ℓ' : List (Access w)) :
    CtlInv b tid g' x' ℓ' where
  pcs := .inl hph
  own {k i} hk := absurd (by rw [← hl]; exact hk) (hnone k i)
  ver _ _ hr := by
    rw [hph] at hr
    exact hr.elim
  unit k := by rw [hl, h.unit k, hunit k]
  order ho := absurd hph ho
  live hp := by
    rw [hph] at hp
    cases hp
  loop := by
    cases hp : x'.pc <;> first | trivial | (rw [hp] at hph; cases hph)

theorem CtlInv.none_of_out (h : CtlInv b tid g x ℓ) (hph : x.pc.phase = .out) (k i : ℕ) :
    (g.lock k).own ≠ some (.entry tid i) := by
  intro hk
  obtain ⟨e, -, -, hr, -⟩ := h.own hk
  rw [hph] at hr
  exact hr

/-! ### Before the commit -/

/-- The write set is untouched, and the thread goes on or rolls back. -/
def Onward (x x' : Tx w) : Prop :=
  x'.wset = x.wset ∧ x'.nbAcquired = x.nbAcquired ∧
    (x'.pc.open = true ∨ ∃ r, x'.pc = .rb r x.wset.length 0)

theorem CtlInv.onward (h : CtlInv b tid g x ℓ) (hd : b.design = .writeBackCtl)
    (ho : x.pc.open = true) (hx : Onward x x') (hl : g'.lock = g.lock) :
    CtlInv b tid g' x' ℓ := by
  have hph := Pc.phase_of_open ho
  obtain ⟨hw, hn, ho' | ⟨r, hr⟩⟩ := hx
  · exact h.move hph hl hw hn (.inl ho') (Pc.phase_of_open ho')
      (by rw [Pc.acqFrom_of_open ho', Pc.acqFrom_of_open ho]) (loopOk_of_open ho')
  · exact h.rollback hd hph hl hw hn hr

theorem onward_rollback (hd : b.design = .writeBackCtl) (x : Tx w) (r : Reason) :
    Onward x (rollback b x r) := by
  rw [rollback_ctl hd]
  exact ⟨rfl, rfl, .inr ⟨r, rfl⟩⟩

theorem onward_opEnd {y : Tx w} (hw : y.wset = x.wset) (hn : y.nbAcquired = x.nbAcquired) :
    Onward x (opEnd b y) := by
  unfold opEnd
  split
  · exact ⟨hw, hn, .inl rfl⟩
  · exact ⟨hw, hn, .inl rfl⟩

theorem onward_readDone (a : ℕ) (l : Ver) (v : BitVec w) : Onward x (readDone b x a l v) := by
  unfold readDone loadReturns
  split
  · exact onward_opEnd rfl rfl
  · exact onward_opEnd rfl rfl

theorem onward_loadStart (hd : b.design = .writeBackCtl) (a : ℕ) : Onward x (loadStart b x a) := by
  simp only [loadStart, hd]
  split
  · split
    · exact onward_opEnd rfl rfl
    · exact ⟨rfl, rfl, .inl rfl⟩
  · exact ⟨rfl, rfl, .inl rfl⟩

theorem onward_readDispatch (hd : b.design = .writeBackCtl) (a : ℕ) (l : LockWord) :
    Onward x (readDispatch b tid x a l) := by
  simp only [readDispatch, hd]
  split <;> exact ⟨rfl, rfl, .inl rfl⟩

theorem onward_readLock2 (hd : b.design = .writeBackCtl) (a : ℕ) (l : Ver) (v : BitVec w) :
    Onward x (readLock2Step b tid a l v g x) := by
  unfold readLock2Step
  simp only
  split
  · exact onward_readDispatch hd a _
  · split
    · split
      · exact onward_rollback hd x _
      · exact ⟨rfl, rfl, .inl rfl⟩
    · exact onward_readDone a l v

theorem onward_readRecheck (a : ℕ) (l : Ver) (v : BitVec w) :
    Onward x (readRecheckStep b a l v g x) := by
  unfold readRecheckStep
  split
  · exact ⟨rfl, rfl, .inl rfl⟩
  · exact onward_readDone a l v

theorem onward_extFail (hd : b.design = .writeBackCtl) (c : Cont w) : Onward x (extFail b x c) := by
  cases c <;> exact onward_rollback hd x _

theorem onward_extClock (hd : b.design = .writeBackCtl) {c : Cont w}
    (hc : (Pc.extClock c).open = true) : Onward x (extClockStep b c g x) := by
  unfold extClockStep
  split
  · exact onward_extFail hd c
  · refine ⟨rfl, rfl, .inl ?_⟩
    cases c <;> first | rfl | cases hc

theorem onward_validate (hd : b.design = .writeBackCtl) {now i : ℕ} {c : Cont w}
    (hc : (Pc.validate now i c).open = true) {r : Shared w × Tx w}
    (hr : validateStep b tid now i c g x = some r) : r.1 = g ∧ Onward x r.2 := by
  unfold validateStep at hr
  split at hr
  · split at hr
    · cases hr
      refine ⟨rfl, rfl, rfl, .inl ?_⟩
      cases c <;> first | rfl | cases hc
    · split at hr
      · cases hc
      · cases hr
        exact ⟨rfl, onward_extFail hd _⟩
  · split at hr
    · cases hr
      exact ⟨rfl, rfl, rfl, .inl rfl⟩
    · cases hc
    · cases hr
      exact ⟨rfl, rfl, rfl, .inl rfl⟩

/-- No entry of an attempt that is not committing carries a release. -/
theorem CtlInv.no_drops (h : CtlInv b tid g x ℓ) (ho : x.pc.open = true) :
    ∀ e ∈ x.wset, b.drops e = false := by
  intro e he
  obtain ⟨j, hj⟩ := List.mem_iff_getElem?.mp he
  have ha := h.live (Pc.phase_of_open ho)
  rw [Pc.acqFrom_of_open ho] at ha
  exact ha.todo hj (getElem?_lt hj)

/-- An attempt whose write set carries no release, before its commit. -/
theorem CtlInv.fresh (hown : ∀ k i, (g.lock k).own ≠ some (.entry tid i))
    (hunit : ∀ k, (g.lock k).own ≠ some (.unit tid)) (ho : x.pc.open = true)
    (hno : ∀ e ∈ x.wset, b.drops e = false) (hn : x.nbAcquired = 0) : CtlInv b tid g x [] where
  pcs := .inr (.inl ho)
  own {k i} hk := absurd hk (hown k i)
  ver he hd _ := by simp [hno _ (List.mem_of_getElem? he)] at hd
  unit k := iff_of_false (hunit k) (not_unitHeld_of_live (Pc.phase_of_open ho) k)
  order _ {j j' e e'} he hd _ _ := by simp [hno _ (List.mem_of_getElem? he)] at hd
  live _ := by
    refine ⟨fun he _ => hno _ (List.mem_of_getElem? he), fun he hle => ?_, ?_, ?_⟩
    · rw [Pc.acqFrom_of_open ho] at hle
      exact absurd (getElem?_lt he) (Nat.not_lt.mpr hle)
    · rw [hn, eq_comm, List.countP_eq_zero]
      intro e he
      simp [hno e he]
    · rw [releasers_eq_nil hno]
      rfl
  loop := loopOk_of_open ho

theorem CtlInv.own_none (h : CtlInv b tid g x ℓ) (ho : x.pc.open = true) (k i : ℕ) :
    (g.lock k).own ≠ some (.entry tid i) := by
  intro hk
  obtain ⟨e, he, hdr, -⟩ := h.own hk
  simp [h.no_drops ho e (List.mem_of_getElem? he)] at hdr

theorem CtlInv.log_nil (h : CtlInv b tid g x ℓ) (ho : x.pc.open = true) :
    ℓ = [] ∧ x.nbAcquired = 0 := by
  have ha := h.live (Pc.phase_of_open ho)
  have hno := h.no_drops ho
  refine ⟨?_, ?_⟩
  · rw [ha.log, releasers_eq_nil hno]
    rfl
  · rw [ha.count, List.countP_eq_zero]
    intro e he
    simp [hno e he]

theorem CtlInv.stored (h : CtlInv b tid g x ℓ) (hd : b.design = .writeBackCtl)
    (ho : x.pc.open = true) (a : ℕ) (v m : BitVec w) (l : Ver) :
    CtlInv b tid g (storeReturns b { x with wset := ctlWrite x.wset a v m l } a v m) ℓ := by
  obtain ⟨rfl, hn⟩ := h.log_nil ho
  have hno : ∀ e ∈ ctlWrite x.wset a v m l, b.drops e = false := by
    intro e he
    rw [drops_ctl hd, ctlWrite_noDrop (fun f hf => ?_) v m l e he]
    · rfl
    · have := h.no_drops ho f hf
      rw [drops_ctl hd] at this
      simpa using this
  have hunit : ∀ k, (g.lock k).own ≠ some (.unit tid) := fun k hk =>
    not_unitHeld_of_live (Pc.phase_of_open ho) k ((h.unit k).mp hk)
  unfold storeReturns opEnd
  split
  · exact .fresh (h.own_none ho) hunit rfl hno hn
  · exact .fresh (h.own_none ho) hunit rfl hno hn

theorem CtlInv.writeLock (h : CtlInv b tid g x ℓ) (hd : b.design = .writeBackCtl) {a : ℕ}
    {v m : BitVec w} (hp : x.pc = .writeLock a v m) :
    CtlInv b tid g (writeLockStep b tid a v m g x) ℓ := by
  have ho : x.pc.open = true := by rw [hp]; rfl
  simp only [writeLockStep, hd]
  split
  · exact h
  · exact h
  · split
    · exact h.stored hd ho a v m _
    · split
      · exact h.onward hd ho (onward_rollback hd x _) rfl
      · exact h.stored hd ho a v m _

/-! ### The acquisition loop -/

theorem CtlInv.commitStart (h : CtlInv b tid g x ℓ) (hd : b.design = .writeBackCtl)
    (ho : x.pc.open = true) {r : Shared w × Tx w} (hr : commitStart b tid g x = some r) :
    CtlInv b tid r.1 r.2 ℓ ∧ r.1.lock = g.lock ∧ r.1.mem = g.mem := by
  have hph := Pc.phase_of_open ho
  simp only [TinyStm.commitStart, hd] at hr
  split at hr
  · cases hr
    refine ⟨h.leave (by rfl) (h.own_none ho) (by rfl) (fun k => ?_) ℓ, rfl, rfl⟩
    exact iff_of_false (by simp [UnitHeld]) (not_unitHeld_of_live hph k)
  · next hne =>
    cases hr
    have hlen : 0 < x.wset.length := List.length_pos_iff.mpr hne
    refine ⟨h.move hph rfl rfl rfl (.inr rfl) rfl ?_ (by simp only [LoopOk]; omega), rfl, rfl⟩
    rw [Pc.acqFrom_of_open ho]
    simp only [Pc.acqFrom]
    omega

/-- The loop goes on below entry `i`. -/
theorem acqFrom_commitNext (x : Tx w) (i n : ℕ) : (commitNext x i).pc.acqFrom n = i := by
  cases i <;> rfl

theorem closing_commitNext (x : Tx w) (i : ℕ) : (commitNext x i).pc.closing = true := by
  cases i <;> rfl

theorem phase_commitNext (x : Tx w) (i : ℕ) : (commitNext x i).pc.phase = .live := by
  cases i <;> rfl

theorem wset_commitNext (x : Tx w) (i : ℕ) : (commitNext x i).wset = x.wset := by
  cases i <;> rfl

theorem nbAcquired_commitNext (x : Tx w) (i : ℕ) :
    (commitNext x i).nbAcquired = x.nbAcquired := by
  cases i <;> rfl

theorem loopOk_commitNext {i : ℕ} (hi : i < x.wset.length) :
    LoopOk b (commitNext x i) ℓ (commitNext x i).pc := by
  cases i with
  | zero => trivial
  | succ i => exact Nat.lt_of_succ_lt hi

theorem CtlInv.commitLock (h : CtlInv b tid g x ℓ) (hd : b.design = .writeBackCtl) {i : ℕ}
    (hp : x.pc = .commitLock i) {r : Shared w × Tx w}
    (hr : commitLockStep b tid i g x = some r) : r.1 = g ∧ CtlInv b tid g r.2 ℓ := by
  have hph : x.pc.phase = .live := by rw [hp]; rfl
  have hlt : i < x.wset.length := by
    have := h.loop
    rw [hp] at this
    exact this
  simp only [commitLockStep, Option.map_eq_some_iff] at hr
  obtain ⟨e, he, hr⟩ := hr
  split at hr
  · next t j hown =>
    split at hr
    · next ht =>
      -- the lock is our own: an entry further up releases it
      subst ht hr
      obtain ⟨f, hf, hdf, -, hlk⟩ := h.own hown
      have ha := h.live hph
      rw [hp] at ha
      refine ⟨rfl, ?_⟩
      have hpc := loopOk_commitNext (b := b) (ℓ := ℓ) hlt
      exact {
        pcs := .inr (.inr (closing_commitNext x i))
        own := fun hk => by
          obtain ⟨e, he, hde, -, hl⟩ := h.own hk
          rw [wset_commitNext, phase_commitNext]
          exact ⟨e, he, hde, trivial, hl⟩
        ver := fun he hde _ => by
          rw [wset_commitNext] at he
          exact h.ver he hde (by rw [hph]; trivial)
        unit := fun k => by
          rw [h.unit k]
          exact iff_of_false (not_unitHeld_of_live hph k)
            (not_unitHeld_of_live (phase_commitNext x i) k)
        order := fun _ => by
          rw [wset_commitNext]
          exact h.order (by rw [hph]; simp)
        live := fun _ => by
          rw [acqFrom_commitNext]
          constructor
          case todo =>
            rw [wset_commitNext]
            exact fun hj hlt => ha.todo hj (Nat.lt_succ_of_lt hlt)
          case got =>
            rw [wset_commitNext]
            intro j e' hj hle
            rcases Nat.eq_or_lt_of_le hle with rfl | hlt
            · rw [he] at hj
              cases hj
              exact ⟨f, List.mem_of_getElem? hf, hdf, hlk⟩
            · exact ha.got hj hlt
          case count =>
            rw [wset_commitNext, nbAcquired_commitNext]
            exact ha.count
          case log =>
            rw [wset_commitNext]
            exact ha.log
        loop := hpc }
    · subst hr
      exact ⟨rfl, h.abort hd hph _⟩
  · subst hr
    exact ⟨rfl, h.abort hd hph _⟩
  · subst hr
    exact ⟨rfl, h.move hph rfl rfl rfl (.inr rfl) rfl (by rw [hp]; rfl) hlt⟩

section Acquire

variable {ws : List (WEntry w)} {i : ℕ} {l : Ver}

/-- The entry once its lock is acquired. -/
def taken (l : Ver) (e : WEntry w) : WEntry w := { e with noDrop := false, version := l }

theorem getElem?_taken {j : ℕ} {f : WEntry w} (hf : (ws.modify i (taken l))[j]? = some f) :
    ∃ f', ws[j]? = some f' ∧ f = if i = j then taken l f' else f' := by
  rw [List.getElem?_modify, Option.map_eq_map, Option.map_eq_some_iff] at hf
  obtain ⟨f', hf', rfl⟩ := hf
  refine ⟨f', hf', ?_⟩
  split <;> rfl

theorem modify_taken (he : ws[i]? = some e) :
    ws = ws.take i ++ e :: ws.drop (i + 1) ∧
      ws.modify i (taken l) = ws.take i ++ taken l e :: ws.drop (i + 1) := by
  obtain ⟨hi, rfl⟩ := List.getElem?_eq_some_iff.mp he
  refine ⟨?_, ?_⟩
  · rw [← List.drop_eq_getElem_cons hi, List.take_append_drop]
  · rw [List.modify_eq_take_cons_drop hi]

theorem drops_taken (hd : b.design = .writeBackCtl) (l : Ver) (e : WEntry w) :
    b.drops (taken l e) = true := by
  simp [drops_ctl hd, taken]

/-- The acquisition of entry `i` after those above it. -/
theorem releasers_taken (hd : b.design = .writeBackCtl) (he : ws[i]? = some e)
    (htodo : ∀ {j : ℕ} {f : WEntry w}, ws[j]? = some f → j < i + 1 → b.drops f = false) :
    releasers b (ws.modify i (taken l)) = releasers b ws ++ [taken l e] := by
  obtain ⟨hsplit, hsplit'⟩ := modify_taken (l := l) he
  have hlow : releasers b (ws.take i) = [] := by
    refine releasers_eq_nil fun f hf => ?_
    obtain ⟨j, hj⟩ := List.mem_iff_getElem?.mp hf
    rw [List.getElem?_take] at hj
    split at hj
    · next hlt => exact htodo hj (Nat.lt_succ_of_lt hlt)
    · cases hj
  have hde : b.drops e = false := htodo he (Nat.lt_succ_self i)
  rw [hsplit', ← List.singleton_append, releasers_append, releasers_append, hlow,
    releasers_singleton, drops_taken hd, if_pos rfl]
  conv_rhs => rw [hsplit, ← List.singleton_append, releasers_append, releasers_append, hlow,
    releasers_singleton, hde, if_neg (by simp)]
  simp

theorem countP_taken (hd : b.design = .writeBackCtl) (he : ws[i]? = some e)
    (htodo : ∀ {j : ℕ} {f : WEntry w}, ws[j]? = some f → j < i + 1 → b.drops f = false) :
    (ws.modify i (taken l)).countP b.drops = ws.countP b.drops + 1 := by
  obtain ⟨hsplit, hsplit'⟩ := modify_taken (l := l) he
  have hde : b.drops e = false := htodo he (Nat.lt_succ_self i)
  rw [hsplit']
  conv_rhs => rw [hsplit]
  simp only [List.countP_append, List.countP_cons, drops_taken hd, hde, if_true,
    Bool.false_eq_true, if_false]
  omega

end Acquire

theorem CtlInv.commitCas (h : CtlInv b tid g x ℓ) (hd : b.design = .writeBackCtl) {i : ℕ} {l : Ver}
    (hp : x.pc = .commitCas i l) {r : Shared w × Tx w}
    (hr : commitCasStep b tid i l g x = some r) :
    CtlStep b tid g r (accesses b .go g x) (ℓ ++ accesses b .go g x) := by
  have hph : x.pc.phase = .live := by rw [hp]; rfl
  have hlt : i < x.wset.length := by
    have := h.loop
    rw [hp] at this
    exact this
  simp only [commitCasStep, Option.map_eq_some_iff] at hr
  obtain ⟨e, he, hr⟩ := hr
  simp only [accesses, hp, he]
  split at hr
  · next hfree =>
    subst hr
    rw [if_pos hfree]
    set k := b.getLock w e.addr with hk
    have ha := h.live hph
    rw [hp] at ha
    have htodo : ∀ {j : ℕ} {f : WEntry w}, x.wset[j]? = some f → b.drops f = true → i < j := by
      intro j f hf hdf
      by_contra hle
      simp [ha.todo hf (show j < i + 1 by omega)] at hdf
    have hnk : ∀ {j : ℕ} {f : WEntry w}, x.wset[j]? = some f → b.drops f = true →
        b.getLock w f.addr ≠ k := by
      intro j f hf hdf hfk
      have := h.ver hf hdf (by rw [hph]; trivial)
      rw [hfk, hfree] at this
      cases this
    have hdrop : ∀ {j : ℕ} {f : WEntry w}, (x.wset.modify i (taken l))[j]? = some f →
        b.drops f = true → (j = i ∧ f = taken l e) ∨ (x.wset[j]? = some f ∧ i < j) := by
      intro j f hf hdf
      obtain ⟨f', hf', rfl⟩ := getElem?_taken hf
      by_cases hij : i = j
      · subst hij
        rw [he] at hf'
        cases hf'
        exact .inl ⟨rfl, if_pos rfl⟩
      · rw [if_neg hij] at hdf ⊢
        exact .inr ⟨hf', htodo hf' hdf⟩
    have haddr : ∀ {j : ℕ} {f : WEntry w}, (x.wset.modify i (taken l))[j]? = some f →
        ∃ f', x.wset[j]? = some f' ∧ f.addr = f'.addr := by
      intro j f hf
      obtain ⟨f', hf', rfl⟩ := getElem?_taken hf
      refine ⟨f', hf', ?_⟩
      split <;> rfl
    have hnew : (x.wset.modify i (taken l))[i]? = some (taken l e) := by
      rw [List.getElem?_modify, he]
      simp
    have hmem : ∀ {f : WEntry w}, f ∈ x.wset → b.drops f = true →
        f ∈ x.wset.modify i (taken l) := by
      intro f hf hdf
      obtain ⟨j, hj⟩ := List.mem_iff_getElem?.mp hf
      have hij : i ≠ j := (htodo hj hdf).ne
      exact List.mem_iff_getElem?.mpr ⟨j, by simp [hij, hj]⟩
    have hlen : (x.wset.modify i (taken l)).length = x.wset.length := List.length_modify ..
    have hrel := releasers_taken (l := l) hd he ha.todo
    have hcnt := countP_taken (l := l) hd he ha.todo
    have hHeld : (⟨l, some (.entry tid i)⟩ : LockWord).HeldBy tid := .inl ⟨i, rfl⟩
    refine ⟨?_, .acquire hfree hHeld rfl rfl⟩
    exact {
      pcs := .inr (.inr (closing_commitNext _ i))
      own := fun {k' j} hk' => by
        rw [wset_commitNext, phase_commitNext]
        rcases eq_or_ne k' k with rfl | hne
        · have hj : j = i := by
            have : some (Owner.entry tid i) = some (.entry tid j) := by
              simpa [Shared.setLock] using hk'
            cases this
            rfl
          subst hj
          exact ⟨taken l e, hnew, drops_taken hd l e, trivial, rfl⟩
        · have hk'' : (g.lock k').own = some (.entry tid j) := by
            simpa [Shared.setLock, Function.update_of_ne hne] using hk'
          obtain ⟨f, hf, hdf, -, hfk⟩ := h.own hk''
          refine ⟨f, ?_, hdf, trivial, hfk⟩
          have hij : i ≠ j := (htodo hf hdf).ne
          show (x.wset.modify i (taken l))[j]? = some f
          simp [hij, hf]
      ver := fun {j f} hf hdf _ => by
        rw [wset_commitNext] at hf
        rcases hdrop hf hdf with ⟨rfl, rfl⟩ | ⟨hf', -⟩
        · exact Function.update_self ..
        · show Function.update g.lock k _ _ = _
          rw [Function.update_of_ne (hnk hf' hdf)]
          exact h.ver hf' hdf (by rw [hph]; trivial)
      unit := fun k' => by
        refine iff_of_false (fun hk' => ?_) (not_unitHeld_of_live (phase_commitNext _ i) k')
        rcases eq_or_ne k' k with rfl | hne
        · simp [Shared.setLock] at hk'
        · have hk'' : (g.lock k').own = some (.unit tid) := by
            simpa [Shared.setLock, Function.update_of_ne hne] using hk'
          exact not_unitHeld_of_live hph k' ((h.unit k').mp hk'')
      order := fun _ {j j' f f'} hf hdf hf' heq => by
        rw [wset_commitNext] at hf hf'
        obtain ⟨f₀, hf₀, haddr'⟩ := haddr hf'
        rw [haddr'] at heq
        rcases hdrop hf hdf with ⟨rfl, rfl⟩ | ⟨hf₁, -⟩
        · -- an entry of this lock further up would have its lock held already
          by_contra hlt'
          obtain ⟨f₂, hf₂, hdf₂, hl₂⟩ := ha.got hf₀ (by simp only [Pc.acqFrom]; omega)
          obtain ⟨j₂, hj₂⟩ := List.mem_iff_getElem?.mp hf₂
          exact hnk hj₂ hdf₂ (hl₂.trans heq)
        · exact h.order (by rw [hph]; simp) hf₁ hdf hf₀ heq
      live := fun _ => by
        rw [acqFrom_commitNext]
        constructor
        case todo =>
          rw [wset_commitNext]
          intro j f hf hlt'
          cases hdf : b.drops f with
          | false => rfl
          | true =>
            rcases hdrop hf hdf with ⟨rfl, -⟩ | ⟨-, hlt''⟩ <;> omega
        case got =>
          rw [wset_commitNext]
          intro j f hf hle
          obtain ⟨f', hf', haddr'⟩ := haddr hf
          rw [haddr']
          rcases Nat.eq_or_lt_of_le hle with rfl | hlt'
          · rw [he] at hf'
            cases hf'
            exact ⟨taken l e, List.mem_of_getElem? hnew, drops_taken hd l e, rfl⟩
          · obtain ⟨f₂, hf₂, hdf₂, hl₂⟩ := ha.got hf' hlt'
            exact ⟨f₂, hmem hf₂ hdf₂, hdf₂, hl₂⟩
        case count =>
          rw [wset_commitNext, nbAcquired_commitNext]
          show x.nbAcquired + 1 = (x.wset.modify i (taken l)).countP b.drops
          rw [hcnt, ha.count]
        case log =>
          rw [wset_commitNext]
          show _ = (releasers b (x.wset.modify i (taken l))).map (acquireOf b)
          rw [hrel, ha.log, List.map_append]
          rfl
      loop := loopOk_commitNext (by
        show i < (x.wset.modify i (taken l)).length
        rw [hlen]
        exact hlt) }
  · next hfree =>
    subst hr
    rw [if_neg hfree, List.append_nil]
    exact ⟨h.move hph rfl rfl rfl (.inr rfl) rfl (by rw [hp]; rfl) hlt, .none rfl rfl⟩

end TinyStm
