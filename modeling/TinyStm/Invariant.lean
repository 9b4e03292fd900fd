import TinyStm.Steps.Unit

/-!
# The invariant of the machine

Every step of every thread keeps the invariants of the shared state and of the
thread and interferes with the others as `Interf` allows; by the rely/guarantee
rule they hold in every state that a run reaches.
-/

namespace TinyStm

open Timeline Interleave

variable {w : ℕ} {b : Build} {P : Mode} {tid : ℕ} {g : Shared w} {x : Tx w}

/-! ### One step -/

theorem TInv.stepRun (hS : SInv b P g) (h : TInv b P tid g x) (hb : x.began < g.time)
    (hp : x.pc = .run) {act : Act w} (hcond : Cond b P tid act g x) {r : Shared w × Tx w}
    (hr : stepRun b tid g x act = some r) : StepOk b P tid g r := by
  have hc : Ready x := .of hp rfl rfl rfl fun _ => rfl
  cases act with
  | load a =>
    cases hr
    exact .stay hS (h.loadStart hp)
  | store a v m =>
    cases hr
    exact .stay hS (h.storeStart hp v m)
  | commit => exact h.commitStart hS hb hp hr
  | abort =>
    cases hr
    exact .stay hS (h.rollback_calm hc.toCalm _)
  | setExtension en ts =>
    cases hr
    exact .stay hS (h.setExtension hp (fun hn => hcond.ext hn en ts rfl) en ts)
  | tick =>
    simp only [TinyStm.stepRun] at hr
    split at hr
    · next he =>
      cases hr
      exact .stay hS (h.goto hc.toCalm (.extClock .tick) x.standing x.canExtend ⟨rfl, rfl⟩
        (by rw [hc.acq]; rfl) ⟨by simp, fun _ => he, by simp⟩)
    · cases hr
  | _ => cases hr

theorem TInv.stepGo (hS : SInv b P g) (h : TInv b P tid g x) (hb : x.began < g.time)
    (hcond : Cond b P tid .go g x) {r : Shared w × Tx w}
    (hr : stepGo b tid g x x.pc = some r) : StepOk b P tid g r := by
  have hload : ∀ a, (x.pc = .readLock a ∨ x.pc = .readOwn a ∨ ∃ l v, x.pc = .readLock2 a l v) →
      P.oneTime → b.design ≠ .writeBackCtl → OwnLoadOk b tid g x a :=
    fun a ha ho hd => hcond.ownLoad ho hd a ha
  cases hp : x.pc with
  | idle => rw [hp] at hr; cases hr
  | barrier => rw [hp] at hr; cases hr
  | run => rw [hp] at hr; cases hr
  | prepare =>
    rw [hp] at hr
    obtain ⟨h₁, h₂⟩ := hcond.prepare hp
    exact h.stmPrepare hS hp hcond.fits h₁ h₂ hr
  | readLock a =>
    rw [hp] at hr
    cases hr
    exact .stay hS (h.readDispatch hS (.of hp rfl rfl rfl fun _ => rfl) (hload a (.inl hp)))
  | readVal a l =>
    rw [hp] at hr
    cases hr
    exact .stay hS (h.readVal hS hp)
  | readLock2 a l v =>
    rw [hp] at hr
    cases hr
    exact .stay hS (h.readLock2Step hS hp (hload a (.inr (.inr ⟨l, v, hp⟩))))
  | readRecheck a l v =>
    rw [hp] at hr
    cases hr
    exact .stay hS (h.readRecheckStep hS hp)
  | readOwn a =>
    rw [hp] at hr
    cases hr
    exact .stay hS (h.readOwn hS hp (hload a (.inr (.inl hp))))
  | extClock c =>
    rw [hp] at hr
    cases hr
    refine .stay hS (h.extClockStep hS hp fun hc => hcond.async ?_)
    rcases hc with rfl | rfl
    · exact .inl hp
    · exact .inr hp
  | validate now i c =>
    rw [hp] at hr
    exact h.validateStep hS hp hr
  | writeLock a v m =>
    rw [hp] at hr
    cases hr
    exact .stay hS (h.writeLockStep hp)
  | writeCas a v m l =>
    rw [hp] at hr
    cases hr
    exact h.writeCasStep hS hp
  | writeLoad i v m =>
    rw [hp] at hr
    exact h.writeLoadStep hS hp hr
  | writeOld i v m =>
    rw [hp] at hr
    exact h.writeOldStep hS hp hr
  | writeMem a v m y =>
    rw [hp] at hr
    cases hr
    exact h.writeMem hS hp
  | commitLock i =>
    rw [hp] at hr
    exact h.commitLockStep hS hp hr
  | commitCas i l =>
    rw [hp] at hr
    exact h.commitCasStep hS hp hr
  | commitInc =>
    rw [hp] at hr
    cases hr
    exact h.commitIncStep hS hp hcond.fits
  | pub t i =>
    rw [hp] at hr
    exact h.pubStep hS hb hp hr
  | pubStore t i v =>
    rw [hp] at hr
    exact h.pubStoreStep hS hp hr
  | pubRel t i =>
    rw [hp] at hr
    exact h.pubRelStep hS hp hr
  | rb ρ i t =>
    rw [hp] at hr
    cases hd : b.design with
    | writeBackEtl => exact h.rbStep_etl hS hb hd hp hr
    | writeBackCtl => exact h.rbStep_ctl hS hb hd hp hr
    | writeThrough => exact h.rbStep_wt hS hd hb hp hr
  | rbDrop ρ i t =>
    rw [hp] at hr
    have hd : b.design = .writeThrough := by
      have := h.pc
      rw [hp] at this
      exact this.1
    exact h.rbDropStep hS hd (hcond.wt hd) hp hr
  | unitLock a v ts =>
    rw [hp] at hr
    cases hr
    exact .stay hS (h.unitLockStep hp)
  | unitCas a v ts l =>
    rw [hp] at hr
    cases hr
    exact h.unitCasStep hS hp
  | unitStore a v =>
    rw [hp] at hr
    cases hr
    exact h.unitStoreStep hS hp
  | unitInc a v =>
    rw [hp] at hr
    cases hr
    exact h.unitIncStep hS hp (hcond.unit a v hp)
  | unitRel a v t =>
    rw [hp] at hr
    cases hr
    exact h.unitRelStep hS hb hp
  | unitLdLock a =>
    rw [hp] at hr
    cases hr
    exact .stay hS (h.unitLdDispatch (by rw [hp]; rfl) (by simp [hp, UnitHeld]) (by rw [hp]; rfl))
  | unitLdVal a l =>
    rw [hp] at hr
    cases hr
    have hsaw : Saw b g a l := by
      have := h.pc
      rw [hp] at this
      exact this
    refine .stay hS (h.outMove (by rw [hp]; rfl) (by simp [hp, UnitHeld]) (by rw [hp]; rfl) h.began
      rfl (by simp [UnitHeld]) ⟨hsaw, hsaw.value hS⟩)
  | unitLdLock2 a l v =>
    rw [hp] at hr
    cases hr
    exact .stay hS (h.unitLdLock2Step hp)

/-- Every step of a thread that meets the condition. -/
theorem TInv.stepTx (hS : SInv b P g) (h : TInv b P tid g x) (hb : x.began < g.time)
    {act : Act w} (hcond : Cond b P tid act g x) {r : Shared w × Tx w}
    (hr : stepTx b tid act g x = some r) : StepOk b P tid g r := by
  unfold TinyStm.stepTx at hr
  split at hr
  · exact h.stepGo hS hb hcond hr
  · split at hr
    · cases hr
      exact .stay hS (h.setStanding true)
    · cases hr
  · split at hr
    · next hp => exact h.stepIdle hS hp hr
    · next hp => exact h.stepRun hS hb hp hcond hr
    · cases hr

/-! ### Every run -/

theorem Initial.sinv {s : State w} (h : Initial s) : SInv b P s.shared := by
  have hver : ∀ k, s.shared.ver b k = 0 := fun k => by simp [Shared.ver, h.lock]
  constructor
  case slot => exact fun hs => by simp [h.log] at hs
  case live => exact fun hs => by simp [h.log] at hs
  case pend => exact fun hs => by simp [h.log] at hs
  case wrote => exact fun k => .inl (hver k)
  case clean =>
    intro a _
    rw [hver, h.mem]
    rfl
  case hist => simp [h.hist]
  case uniq => simp [h.hist]
  case order => simp [h.hist]

theorem Initial.tinv {s : State w} (h : Initial s) (i : ℕ) : TInv b P i s.shared (s.loc i) := by
  refine .outside (fun k => ?_) (fun hs => by simp [h.log] at hs) (fun hs => by simp [h.log] at hs)
    (by rw [h.began]; exact Nat.zero_le _) (by rw [h.pc]; rfl) (by simp [h.pc, UnitHeld])
    (by rw [h.pc]; trivial)
  rw [h.lock]
  exact not_heldBy_free _ _

/-- The invariants hold in every state of a run whose steps meet the condition;
the initial memory on record is the one the run started from. -/
theorem run_inv {ok : State w → ℕ → Act w → Prop}
    (hok : ∀ s i act, ok s i act → SInv b P s.shared → TInv b P i s.shared (s.loc i) →
      Cond b P i act s.shared (s.loc i)) {s₀ s : State w} (h : Run (machine b w) ok s₀ s)
    (hi : Initial s₀) :
    SInv b P s.shared ∧ (∀ i, TInv b P i s.shared (s.loc i)) ∧
      s.shared.mem0 = s₀.shared.mem := by
  have hrun := h.rely_guarantee (I := fun g => SInv b P g ∧ g.mem0 = s₀.shared.mem)
    (L := TInv b P) (R := fun j _ g g' => Interf b j g.tick g') ?_ ?_
    ⟨⟨hi.sinv, hi.mem.symm⟩, hi.tinv⟩
  · exact ⟨hrun.1.1, hrun.2, hrun.1.2⟩
  · intro c i act g' x' hS hL ho hs
    have hT := hL i
    obtain ⟨h₁, h₂, h₃, h₄, h₅, h₆, h₇⟩ := hok c i act ho hS.1 hT
    have hstep := (hT.tick hS.1).stepTx hS.1.tick (Nat.lt_succ_of_le hT.began)
      ⟨h₁, h₂, h₃, h₄, h₅, h₆, h₇⟩ hs
    obtain ⟨hS', hT', hI⟩ := hstep
    exact ⟨⟨hS', (hI (i + 1) (by omega)).mem0.trans hS.2⟩, hT', hI⟩
  · intro j g g' y hS hS' hI hT
    refine (hT.tick hS.1).stable hS.1.tick hI hS'.1 fun A hA => ?_
    rcases hI.hist A hA with hA' | hA'
    · exact .inl hA'
    · exact .inr (lt_of_lt_of_le (Nat.lt_succ_of_le hT.began) hA')

end TinyStm
