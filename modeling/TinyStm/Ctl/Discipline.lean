import TinyStm.Ctl.Locks
import TinyStm.Steps.Undo

/-!
# Write-back and rollback of the commit-time design

The two loops that release the locks, the remaining steps, and what the log of a
finished commit or rollback says.
-/

namespace TinyStm

open Interleave

variable {w : ℕ} {b : Build} {tid : ℕ} {g g' : Shared w} {x x' : Tx w} {e : WEntry w}
  {ℓ ℓ' : List (Access w)}

/-! ### One round of a loop -/

/-- The same round of a loop, no lock touched. -/
theorem CtlInv.sameRound (h : CtlInv b tid g x ℓ) (hl : g'.lock = g.lock)
    (hw : x'.wset = x.wset) (hph : x'.pc.phase = x.pc.phase) (hout : x.pc.phase ≠ .out)
    (hlive : x.pc.phase ≠ .live) (hc : x'.pc.closing = true) (hloop : LoopOk b x' ℓ' x'.pc) :
    CtlInv b tid g' x' ℓ' where
  pcs := .inr (.inr hc)
  own hk := by
    rw [hw, hph]
    exact h.own (by rw [← hl]; exact hk)
  ver he hd hr := by
    rw [hw] at he
    rw [hw, hph] at hr
    rw [hl]
    exact h.ver he hd hr
  unit k := by
    rw [hl, h.unit k]
    exact iff_of_false (not_unitHeld_of_phase hout k)
      (not_unitHeld_of_phase (by rw [hph]; exact hout) k)
  order _ := by
    rw [hw]
    exact h.order hout
  live hp := absurd (hph ▸ hp) hlive
  loop := hloop

/-- The round of entry `i` is over: its lock is released, if it carries the release. -/
theorem CtlInv.nextRound (h : CtlInv b tid g x ℓ) {i : ℕ} {v : Ver}
    (he : x.wset[i]? = some e) (hrem : Remains b x.wset.length i x.pc.phase)
    (hR : ∀ j, j < x.wset.length → (Remains b x.wset.length j x'.pc.phase ↔
      Remains b x.wset.length j x.pc.phase ∧ j ≠ i))
    (hl : g'.lock = if b.drops e = true then
      Function.update g.lock (b.getLock w e.addr) ⟨v, none⟩ else g.lock)
    (hw : x'.wset = x.wset) (hout : x.pc.phase ≠ .out) (hout' : x'.pc.phase ≠ .out)
    (hlive : x'.pc.phase ≠ .live) (hc : x'.pc.closing = true)
    (hloop : LoopOk b x' ℓ' x'.pc) : CtlInv b tid g' x' ℓ' := by
  -- a lock that is owned after the round was owned before, and is not that of `e`
  have hback : ∀ {k : ℕ} {o : Owner}, (g'.lock k).own = some o → (g.lock k).own = some o ∧
      (b.drops e = true → k ≠ b.getLock w e.addr) := by
    intro k o hk
    rw [hl] at hk
    split at hk
    · next hde =>
      rcases eq_or_ne k (b.getLock w e.addr) with rfl | hne
      · simp at hk
      · rw [Function.update_of_ne hne] at hk
        exact ⟨hk, fun _ => hne⟩
    · next hde => exact ⟨hk, fun hde' => absurd hde' hde⟩
  constructor
  case pcs => exact .inr (.inr hc)
  case own =>
    intro k j hk
    obtain ⟨hk', hne⟩ := hback hk
    obtain ⟨f, hf, hdf, hrf, hlk⟩ := h.own hk'
    rw [hw]
    refine ⟨f, hf, hdf, (hR j (getElem?_lt hf)).mpr ⟨hrf, ?_⟩, hlk⟩
    rintro rfl
    rw [he] at hf
    cases hf
    exact hne hdf hlk.symm
  case ver =>
    intro j f hf hdf hr
    rw [hw] at hf hr
    obtain ⟨hrf, hji⟩ := (hR j (getElem?_lt hf)).mp hr
    have hver := h.ver hf hdf hrf
    rw [hl]
    split
    · next hde =>
      rw [Function.update_of_ne, hver]
      intro heq
      have hver' := h.ver he hde hrem
      rw [← heq, hver] at hver'
      have hown := congrArg LockWord.own hver'
      simp only [Option.some.injEq, Owner.entry.injEq] at hown
      exact hji hown.2
    · exact hver
  case unit =>
    intro k
    refine iff_of_false (fun hk => ?_) (not_unitHeld_of_phase hout' k)
    exact not_unitHeld_of_phase hout k ((h.unit k).mp (hback hk).1)
  case order =>
    rw [hw]
    exact fun _ => h.order hout
  case live => exact fun hp => absurd hp hlive
  case loop => exact hloop

/-! ### The write-back loop -/

/-- The locks are acquired and the timestamp is `t`. -/
theorem CtlInv.toPub (h : CtlInv b tid g x ℓ) (hd : b.design = .writeBackCtl)
    (hph : x.pc.phase = .live) (hacq : x.pc.acqFrom x.wset.length = 0) (hl : g'.lock = g.lock)
    (t : ℕ) : CtlInv b tid g' { x with pc := .pub t 0 } ℓ := by
  have ha := h.live hph
  rw [hacq] at ha
  constructor
  case pcs => exact .inr (.inr rfl)
  case own =>
    intro k i hk
    rw [hl] at hk
    obtain ⟨f, hf, hdf, -, hlk⟩ := h.own hk
    exact ⟨f, hf, hdf, by simp [Remains, Pc.phase, hd], hlk⟩
  case ver =>
    intro i f hf hdf _
    rw [hl]
    exact h.ver hf hdf (by rw [hph]; trivial)
  case unit =>
    intro k
    rw [hl, h.unit k]
    exact iff_of_false (not_unitHeld_of_live hph k) (by simp [UnitHeld])
  case order => exact fun _ => h.order (by rw [hph]; simp)
  case live => exact fun hp => by cases hp
  case loop =>
    refine ⟨fun f hf => ?_, [], ?_, ?_⟩
    · obtain ⟨j, hj⟩ := List.mem_iff_getElem?.mp hf
      exact ha.got hj (Nat.zero_le j)
    · exact .nil
    · simpa using ha.log

theorem CtlInv.commitInc (h : CtlInv b tid g x ℓ) (hd : b.design = .writeBackCtl)
    (hp : x.pc = .commitInc) :
    CtlInv b tid (commitIncStep b tid g x).1 (commitIncStep b tid g x).2 ℓ := by
  have hph : x.pc.phase = .live := by rw [hp]; rfl
  have hacq : x.pc.acqFrom x.wset.length = 0 := by rw [hp]; rfl
  unfold commitIncStep
  split
  · exact h.toPub hd hph hacq (by rfl) _
  · exact h.move hph rfl rfl rfl (.inr rfl) rfl (by rw [hacq]; rfl) trivial

theorem CtlInv.validateCommit (h : CtlInv b tid g x ℓ) (hd : b.design = .writeBackCtl)
    {now i t : ℕ} (hp : x.pc = .validate now i (.commit t)) {r : Shared w × Tx w}
    (hr : validateStep b tid now i (.commit t) g x = some r) :
    CtlInv b tid r.1 r.2 ℓ ∧ r.1.lock = g.lock ∧ r.1.mem = g.mem := by
  have hph : x.pc.phase = .live := by rw [hp]; rfl
  have hacq : x.pc.acqFrom x.wset.length = 0 := by rw [hp]; rfl
  unfold validateStep at hr
  split at hr
  · split at hr
    · cases hr
      exact ⟨h.move hph rfl rfl rfl (.inr rfl) rfl (by rw [hacq]; rfl) trivial, rfl, rfl⟩
    · cases hr
      refine ⟨?_, rfl, rfl⟩
      show CtlInv b tid (g.setLog t none) (TinyStm.rollback b x .validate) ℓ
      rw [rollback_ctl hd]
      exact h.rollback hd hph rfl rfl rfl rfl
  · cases hr
    exact ⟨h.toPub hd hph hacq (by rfl) _, rfl, rfl⟩

section Pub

variable {t i : ℕ}

theorem remains_pub (hd : b.design = .writeBackCtl) {n j : ℕ} :
    Remains b n j (.pub t i) ↔ i ≤ j := by
  simp [Remains, hd]

theorem CtlInv.pub (h : CtlInv b tid g x ℓ) (hd : b.design = .writeBackCtl)
    (hp : x.pc = .pub t i) {r : Shared w × Tx w} (hr : pubStep b tid t i g x = some r) :
    CtlStep b tid g r (accesses b .go g x) (ℓ ++ accesses b .go g x) := by
  have hph : x.pc.phase = .pub t i := by rw [hp]; rfl
  have hout : x.pc.phase ≠ .out := by rw [hph]; simp
  have hlive : x.pc.phase ≠ .live := by rw [hph]; simp
  obtain ⟨hcov, P, hP, hlog⟩ : Publishing b t i x [] ℓ := by
    have := h.loop
    rw [hp] at this
    exact this
  simp only [pubStep, pubEntry, hd] at hr
  simp only [accesses, hp]
  split at hr
  · next hnone =>
    cases hr
    rw [hnone, List.append_nil]
    refine ⟨h.leave (by rfl) (fun k j hk => ?_) rfl (fun k => ?_) ℓ, .none rfl rfl⟩
    · obtain ⟨f, hf, -, hrf, -⟩ := h.own hk
      rw [hph, remains_pub hd] at hrf
      have := getElem?_lt hf
      have := List.getElem?_eq_none_iff.mp hnone
      omega
    · exact iff_of_false (by simp [UnitHeld]) (not_unitHeld_of_phase hout k)
  · next e he =>
    simp only [he]
    split at hr
    · next hm =>
      cases hr
      rw [if_pos hm]
      refine ⟨h.sameRound (by rfl) rfl hph.symm hout hlive rfl ?_, .store rfl rfl⟩
      refine ⟨e, [.store e.addr e.value], he, .inr ⟨e.value, rfl, rfl⟩, hcov, P, hP, ?_⟩
      rw [hlog]
      simp
    · next hm =>
      rw [if_neg hm, List.append_nil]
      split at hr
      · next hm0 =>
        cases hr
        exact ⟨h.sameRound rfl rfl hph.symm hout hlive rfl
          ⟨⟨hcov, P, hP, hlog⟩, e, he, hm0, mergeBits_and_mask ..⟩, .none rfl rfl⟩
      · next hm0 =>
        cases hr
        exact ⟨h.sameRound rfl rfl hph.symm hout hlive rfl
          ⟨e, [], he, .inl ⟨not_not.mp hm0, rfl⟩, hcov, P, hP, hlog⟩, .none rfl rfl⟩

theorem CtlInv.pubStore (h : CtlInv b tid g x ℓ) (hd : b.design = .writeBackCtl) {v : BitVec w}
    (hp : x.pc = .pubStore t i v) {r : Shared w × Tx w} (hr : pubStoreStep b t i v g x = some r) :
    CtlStep b tid g r (accesses b .go g x) (ℓ ++ accesses b .go g x) := by
  have hph : x.pc.phase = .pub t i := by rw [hp]; rfl
  obtain ⟨⟨hcov, P, hP, hlog⟩, e, he, -, hv⟩ : LoopOk b x ℓ (.pubStore t i v) := hp ▸ h.loop
  simp only [pubStoreStep, pubEntry, hd, he, Option.map_some, Option.some.injEq] at hr
  subst hr
  simp only [accesses, hp, he]
  refine ⟨h.sameRound (by rfl) rfl hph.symm (by rw [hph]; simp) (by rw [hph]; simp) rfl ?_,
    .store rfl rfl⟩
  refine ⟨e, [.store e.addr v], he, .inr ⟨v, rfl, hv⟩, hcov, P, hP, ?_⟩
  rw [hlog]
  simp

theorem CtlInv.pubRel (h : CtlInv b tid g x ℓ) (hd : b.design = .writeBackCtl)
    (hp : x.pc = .pubRel t i) {r : Shared w × Tx w} (hr : pubRelStep b t i g x = some r) :
    CtlStep b tid g r (accesses b .go g x) (ℓ ++ accesses b .go g x) := by
  have hph : x.pc.phase = .pub t i := by rw [hp]; rfl
  obtain ⟨e, S, he, hS, hcov, P, hP, hlog⟩ : LoopOk b x ℓ (.pubRel t i) := hp ▸ h.loop
  have hrem : Remains b x.wset.length i x.pc.phase := by
    rw [hph, remains_pub hd]
  have hR : ∀ j, j < x.wset.length → (Remains b x.wset.length j (.pub t (i + 1)) ↔
      Remains b x.wset.length j x.pc.phase ∧ j ≠ i) := by
    intro j _
    rw [hph, remains_pub hd, remains_pub hd]
    omega
  have htake : x.wset.take (i + 1) = x.wset.take i ++ [e] := by
    rw [List.take_add_one, he]
    rfl
  have hloop : Publishing b t (i + 1) { x with pc := .pub t (i + 1) } []
      (ℓ ++ if b.drops e = true then [publishOf b t e] else []) := by
    refine ⟨hcov, P ++ S ++ if b.drops e = true then [publishOf b t e] else [], ?_, ?_⟩
    · show Published b t (x.wset.take (i + 1)) _
      rw [htake]
      exact hP.snoc hS
    · rw [hlog]
      simp
  simp only [pubRelStep, pubEntry, hd, he, Option.map_some, Option.some.injEq] at hr
  have hacc : accesses b .go g x = if b.drops e = true then [publishOf b t e] else [] := by
    simp only [accesses, hp, he]
    rfl
  rw [hacc]
  split at hr
  · next hde =>
    subst hr
    have hver := h.ver he hde hrem
    refine ⟨h.nextRound he hrem hR (by rw [if_pos hde]; rfl) rfl (by rw [hph]; simp)
      (by simp [Pc.phase]) (by simp [Pc.phase]) rfl hloop, ?_⟩
    rw [if_pos hde]
    exact .release (by rw [hver]; exact .inl ⟨i, rfl⟩) rfl rfl
  · next hde =>
    subst hr
    refine ⟨h.nextRound (v := ⟨0, 0⟩) he hrem hR (by rw [if_neg hde]) rfl (by rw [hph]; simp)
      (by simp [Pc.phase]) (by simp [Pc.phase]) rfl hloop, ?_⟩
    rw [if_neg hde]
    exact .none rfl rfl

end Pub

/-! ### The rollback loop -/

theorem CtlInv.undo (h : CtlInv b tid g x ℓ) (hd : b.design = .writeBackCtl) {ρ : Reason}
    {i t : ℕ} (hp : x.pc = .rb ρ i t) {r : Shared w × Tx w}
    (hr : rbStep b tid ρ i t g x = some r) :
    CtlStep b tid g r (accesses b .go g x) (ℓ ++ accesses b .go g x) := by
  have hph : x.pc.phase = .undo i t := by rw [hp]; rfl
  have hrem : ∀ {j : ℕ}, Remains b x.wset.length j (.undo i t) ↔ j < i := by
    intro j
    simp [Remains, hd]
  obtain ⟨hle, hcount, hlog⟩ : LoopOk b x ℓ (.rb ρ i t) := hp ▸ h.loop
  simp only [rbStep, hd] at hr
  split at hr
  · next h0 =>
    -- no lock is left: an entry below `i` that releases would be counted
    have hacc : accesses b .go g x = [] := by
      unfold accesses
      rw [hp]
      cases i with
      | zero => rfl
      | succ j =>
        simp only [h0, ne_eq, not_true_eq_false, false_and, if_false]
        split <;> rfl
    rw [hacc, List.append_nil]
    simp only [finishAbort, Option.some.injEq] at hr
    subst hr
    refine ⟨h.leave (by rfl) (fun k j hk => ?_) rfl (fun k => ?_) ℓ, .none rfl rfl⟩
    · obtain ⟨f, hf, hdf, hrf, -⟩ := h.own hk
      rw [hph, hrem] at hrf
      rw [h0, eq_comm, List.countP_eq_zero] at hcount
      exact hcount f (List.mem_iff_getElem?.mpr
        ⟨j, by rw [List.getElem?_take, if_pos hrf]; exact hf⟩) hdf
    · exact iff_of_false (by simp [UnitHeld])
        (not_unitHeld_of_phase (by rw [hph]; simp) k)
  · next h0 =>
    cases i with
    | zero => cases hr
    | succ j =>
      simp only [Option.map_eq_some_iff] at hr
      obtain ⟨e, he, hr⟩ := hr
      have hrj : Remains b x.wset.length j x.pc.phase := by
        rw [hph, hrem]
        exact Nat.lt_succ_self j
      have hR : ∀ j', j' < x.wset.length → (Remains b x.wset.length j' (.undo j t) ↔
          Remains b x.wset.length j' x.pc.phase ∧ j' ≠ j) := by
        intro j' _
        rw [hph, hrem]
        simp only [Remains, hd]
        simp only [reduceCtorEq, if_false]
        omega
      have hacc : accesses b .go g x = if b.drops e = true then [restoreOf b e] else [] := by
        simp only [accesses, hp, he, h0, ne_eq, not_false_eq_true, true_and]
        rfl
      rw [countP_take_succ he] at hcount
      have hlog' : ℓ ++ (if b.drops e = true then [restoreOf b e] else []) =
          (releasers b x.wset).map (acquireOf b) ++
            (releasers b (x.wset.drop j)).map (restoreOf b) := by
        rw [hlog, releasers_drop he]
        by_cases hde : b.drops e <;> simp [hde]
      rw [hacc]
      split at hr
      · next hde =>
        subst hr
        have hver := h.ver he hde hrj
        rw [if_pos hde] at hcount
        refine ⟨h.nextRound he hrj hR (by rw [if_pos hde]; rfl) rfl (by rw [hph]; simp)
          (by simp [Pc.phase]) (by simp [Pc.phase]) rfl ⟨Nat.le_of_succ_le hle, ?_, hlog'⟩, ?_⟩
        · show x.nbAcquired - 1 = (x.wset.take j).countP b.drops
          omega
        · rw [if_pos hde]
          exact .release (by rw [hver]; exact .inl ⟨j, rfl⟩) rfl rfl
      · next hde =>
        subst hr
        rw [if_neg hde] at hcount
        refine ⟨h.nextRound (v := ⟨0, 0⟩) he hrj hR (by rw [if_neg hde]) rfl (by rw [hph]; simp)
          (by simp [Pc.phase]) (by simp [Pc.phase]) rfl ⟨Nat.le_of_succ_le hle, hcount, hlog'⟩, ?_⟩
        rw [if_neg hde]
        exact .none rfl rfl

/-! ### The other steps -/

/-- Outside an attempt, the unit operations included. -/
theorem CtlInv.outside (h : CtlInv b tid g x ℓ) (hph : x.pc.phase = .out)
    (hl : g'.lock = g.lock) (hph' : x'.pc.phase = .out)
    (hunit : ∀ k, UnitHeld b k x'.pc ↔ UnitHeld b k x.pc) (ℓ' : List (Access w)) :
    CtlInv b tid g' x' ℓ' :=
  h.leave hl (h.none_of_out hph) hph' hunit ℓ'

/-- A unit store takes the lock of its address, or gives it back. -/
theorem CtlInv.unitLock (h : CtlInv b tid g x ℓ) (hph : x.pc.phase = .out) {k : ℕ}
    {l : LockWord} (hl : g'.lock = Function.update g.lock k l)
    (hentry : ∀ i, l.own ≠ some (.entry tid i)) (hph' : x'.pc.phase = .out)
    (hk : l.own = some (.unit tid) ↔ UnitHeld b k x'.pc)
    (hunit : ∀ k', k' ≠ k → (UnitHeld b k' x'.pc ↔ UnitHeld b k' x.pc)) (ℓ' : List (Access w)) :
    CtlInv b tid g' x' ℓ' where
  pcs := .inl hph'
  own {k' i} hk' := by
    rw [hl] at hk'
    rcases eq_or_ne k' k with rfl | hne
    · rw [Function.update_self] at hk'
      exact absurd hk' (hentry i)
    · rw [Function.update_of_ne hne] at hk'
      exact absurd hk' (h.none_of_out hph k' i)
  ver _ _ hr := by
    rw [hph'] at hr
    exact hr.elim
  unit k' := by
    rw [hl]
    rcases eq_or_ne k' k with rfl | hne
    · rw [Function.update_self]
      exact hk
    · rw [Function.update_of_ne hne, h.unit k', hunit k' hne]
  order ho := absurd hph' ho
  live hp := by
    rw [hph'] at hp
    cases hp
  loop := by
    cases hp : x'.pc <;> first | trivial | (rw [hp] at hph'; cases hph')

theorem CtlInv.prepare (h : CtlInv b tid g x ℓ) (hp : x.pc = .prepare) {r : Shared w × Tx w}
    (hr : stmPrepare b g x = some r) :
    CtlInv b tid r.1 r.2 [] ∧ r.1 = g := by
  have hph : x.pc.phase = .out := by rw [hp]; rfl
  have hunit : ∀ k, ¬ UnitHeld b k x.pc := by simp [hp, UnitHeld]
  simp only [stmPrepare] at hr
  split at hr
  · cases hr
    exact ⟨h.outside hph rfl rfl (fun k => iff_of_false (by simp [UnitHeld]) (hunit k)) [], rfl⟩
  · cases hr
    refine ⟨.fresh (h.none_of_out hph) (fun k hk => hunit k ((h.unit k).mp hk)) rfl ?_ rfl, rfl⟩
    simp

theorem CtlInv.stepGo (h : CtlInv b tid g x ℓ) (hd : b.design = .writeBackCtl)
    {r : Shared w × Tx w} (hr : stepGo b tid g x x.pc = some r) :
    CtlStep b tid g r (accesses b .go g x) (nextLog b tid .go g x ℓ) := by
  -- no lock and no word is touched
  have hquiet : ∀ {r : Shared w × Tx w}, x.pc ≠ .prepare → accesses b .go g x = [] →
      CtlInv b tid r.1 r.2 ℓ → r.1.lock = g.lock → r.1.mem = g.mem →
      CtlStep b tid g r (accesses b .go g x) (nextLog b tid .go g x ℓ) := by
    intro r hne hacc hinv hl hm
    rw [nextLog, if_neg hne, hacc, List.append_nil]
    exact ⟨hinv, .none hl hm⟩
  have hopen : ∀ {x' : Tx w}, x.pc.open = true → accesses b .go g x = [] → Onward x x' →
      CtlStep b tid g (g, x') (accesses b .go g x) (nextLog b tid .go g x ℓ) := by
    intro x' ho hacc hx
    refine hquiet (fun hp => ?_) hacc (h.onward hd ho hx rfl) rfl rfl
    rw [hp] at ho
    cases ho
  have hloop : ∀ {r : Shared w × Tx w}, x.pc.closing = true →
      CtlStep b tid g r (accesses b .go g x) (ℓ ++ accesses b .go g x) →
      CtlStep b tid g r (accesses b .go g x) (nextLog b tid .go g x ℓ) := by
    intro r hc hstep
    rw [nextLog, if_neg]
    · exact hstep
    · intro hp
      rw [hp] at hc
      cases hc
  cases hp : x.pc with
  | idle => rw [hp] at hr; cases hr
  | barrier => rw [hp] at hr; cases hr
  | run => rw [hp] at hr; cases hr
  | prepare =>
    rw [hp] at hr
    obtain ⟨hinv, hg⟩ := h.prepare hp hr
    have hacc : accesses b .go g x = [] := by simp [accesses, hp]
    rw [nextLog, if_pos hp, hacc]
    exact ⟨hinv, .none (by rw [hg]) (by rw [hg])⟩
  | readLock a =>
    rw [hp] at hr
    cases hr
    exact hopen (by rw [hp]; rfl) (by simp [accesses, hp]) (onward_readDispatch hd a _)
  | readVal a l =>
    rw [hp] at hr
    cases hr
    exact hopen (by rw [hp]; rfl) (by simp [accesses, hp]) ⟨rfl, rfl, .inl rfl⟩
  | readLock2 a l v =>
    rw [hp] at hr
    cases hr
    exact hopen (by rw [hp]; rfl) (by simp [accesses, hp]) (onward_readLock2 hd a l v)
  | readRecheck a l v =>
    rw [hp] at hr
    cases hr
    exact hopen (by rw [hp]; rfl) (by simp [accesses, hp]) (onward_readRecheck a l v)
  | extClock c =>
    rw [hp] at hr
    cases hr
    have ho : x.pc.open = true := by
      rcases h.pcs with h₁ | h₁ | h₁
      · simp [hp, Pc.phase] at h₁
      · exact h₁
      · simp [hp, Pc.closing] at h₁
    exact hopen ho (by simp [accesses, hp]) (onward_extClock hd (hp ▸ ho))
  | validate now i c =>
    have hpc := hp
    rw [hp] at hr
    have hacc : accesses b .go g x = [] := by simp [accesses, hp]
    cases c with
    | commit t =>
      obtain ⟨hinv, hl, hm⟩ := h.validateCommit hd hp hr
      exact hquiet (by rw [hp]; simp) hacc hinv hl hm
    | _ =>
      have ho : x.pc.open = true := by rw [hp]; rfl
      obtain ⟨hg, hx⟩ := onward_validate hd (by rw [← hp]; exact ho) hr
      obtain ⟨g₁, x₁⟩ := r
      subst hg
      exact hopen ho hacc hx
  | writeLock a v m =>
    rw [hp] at hr
    cases hr
    exact hquiet (by rw [hp]; simp) (by simp [accesses, hp]) (h.writeLock hd hp) rfl rfl
  | commitLock i =>
    rw [hp] at hr
    obtain ⟨hg, hinv⟩ := h.commitLock hd hp hr
    exact hquiet (by rw [hp]; simp) (by simp [accesses, hp]) (by rw [hg]; exact hinv)
      (by rw [hg]) (by rw [hg])
  | commitCas i l =>
    rw [hp] at hr
    exact hloop (by rw [hp]; rfl) (h.commitCas hd hp hr)
  | commitInc =>
    rw [hp] at hr
    cases hr
    refine hquiet (by rw [hp]; simp) (by simp [accesses, hp]) (h.commitInc hd hp) ?_ ?_
    · unfold commitIncStep
      split <;> rfl
    · unfold commitIncStep
      split <;> rfl
  | pub t i =>
    rw [hp] at hr
    exact hloop (by rw [hp]; rfl) (h.pub hd hp hr)
  | pubStore t i v =>
    rw [hp] at hr
    exact hloop (by rw [hp]; rfl) (h.pubStore hd hp hr)
  | pubRel t i =>
    rw [hp] at hr
    exact hloop (by rw [hp]; rfl) (h.pubRel hd hp hr)
  | rb ρ i t =>
    rw [hp] at hr
    exact hloop (by rw [hp]; rfl) (h.undo hd hp hr)
  | unitLock a v ts =>
    rw [hp] at hr
    cases hr
    have hph : x.pc.phase = .out := by rw [hp]; rfl
    have hx : (unitLockStep b a v ts g x).pc.phase = .out ∧
        ∀ k, ¬ UnitHeld b k (unitLockStep b a v ts g x).pc := by
      unfold unitLockStep
      simp only
      split
      · exact ⟨hph, by simp [hp, UnitHeld]⟩
      · split
        · split <;> exact ⟨rfl, by simp [UnitHeld]⟩
        · exact ⟨rfl, by simp [UnitHeld]⟩
    refine hquiet (by rw [hp]; simp) (by simp [accesses, hp])
      (h.outside hph rfl hx.1 (fun k => ?_) ℓ) rfl rfl
    exact iff_of_false (hx.2 k) (by simp [hp, UnitHeld])
  | unitCas a v ts l =>
    rw [hp] at hr
    cases hr
    have hph : x.pc.phase = .out := by rw [hp]; rfl
    have hnl : nextLog b tid .go g x ℓ = ℓ ++ accesses b .go g x := by simp [nextLog, hp]
    rw [hnl]
    simp only [accesses, hp, unitCasStep]
    split
    · next hfree =>
      exact ⟨h.unitLock hph rfl (by simp) rfl (by simp [UnitHeld])
        (fun k hk => by simp [hp, UnitHeld, Ne.symm hk]) _,
        .acquire hfree (.inr rfl) rfl rfl⟩
    · rw [List.append_nil]
      exact ⟨h.outside hph rfl rfl (fun k => by simp [hp, UnitHeld]) ℓ, .none rfl rfl⟩
  | unitStore a v =>
    rw [hp] at hr
    cases hr
    have hph : x.pc.phase = .out := by rw [hp]; rfl
    have hacc : accesses b .go g x = [.store a v] := by simp [accesses, hp]
    rw [hacc]
    exact ⟨h.outside hph (by rfl) (by rfl) (fun k => by simp [hp, UnitHeld]) _, .store rfl rfl⟩
  | unitInc a v =>
    rw [hp] at hr
    cases hr
    have hph : x.pc.phase = .out := by rw [hp]; rfl
    exact hquiet (by rw [hp]; simp) (by simp [accesses, hp])
      (h.outside hph (by rfl) (by rfl) (fun k => by simp [hp, unitIncStep, UnitHeld]) ℓ) rfl rfl
  | unitRel a v t =>
    rw [hp] at hr
    cases hr
    have hph : x.pc.phase = .out := by rw [hp]; rfl
    have hacc : accesses b .go g x = [.release (b.getLock w a) ⟨t, 0⟩] := by
      simp [accesses, hp]
    have hx : (unitRelStep b tid a v t g x).2.pc.phase = .out ∧
        ∀ k, ¬ UnitHeld b k (unitRelStep b tid a v t g x).2.pc := by
      simp only [unitRelStep]
      split <;> exact ⟨rfl, by simp [UnitHeld]⟩
    rw [hacc]
    refine ⟨h.unitLock hph (l := ⟨⟨t, 0⟩, none⟩) rfl (by simp) hx.1
      (iff_of_false (by simp) (hx.2 _)) (fun k hk => ?_) _, .release ?_ rfl rfl⟩
    · exact iff_of_false (hx.2 k) (by simp [hp, UnitHeld, Ne.symm hk])
    · exact .inr ((h.unit _).mpr (by rw [hp]; rfl))
  | unitLdLock a =>
    rw [hp] at hr
    cases hr
    have hph : x.pc.phase = .out := by rw [hp]; rfl
    refine hquiet (by rw [hp]; simp) (by simp [accesses, hp])
      (h.outside hph rfl ?_ (fun k => ?_) ℓ) rfl rfl
    · unfold unitLdDispatch
      split <;> rfl
    · unfold unitLdDispatch
      split <;> simp [hp, UnitHeld]
  | unitLdVal a l =>
    rw [hp] at hr
    cases hr
    have hph : x.pc.phase = .out := by rw [hp]; rfl
    exact hquiet (by rw [hp]; simp) (by simp [accesses, hp])
      (h.outside hph rfl rfl (fun k => by simp [hp, UnitHeld]) ℓ) rfl rfl
  | unitLdLock2 a l v =>
    rw [hp] at hr
    cases hr
    have hph : x.pc.phase = .out := by rw [hp]; rfl
    refine hquiet (by rw [hp]; simp) (by simp [accesses, hp])
      (h.outside hph rfl ?_ (fun k => ?_) ℓ) rfl rfl
    · unfold unitLdLock2Step unitLdDispatch
      simp only
      split
      · split <;> rfl
      · rfl
    · unfold unitLdLock2Step unitLdDispatch
      simp only
      split
      · split <;> simp [hp, UnitHeld]
      · simp [hp, UnitHeld]
  | _ =>
    -- positions of the encounter-time designs
    rcases h.pcs with h₁ | h₁ | h₁ <;> simp [hp, Pc.phase, Pc.open, Pc.closing] at h₁

theorem CtlInv.stepRun (h : CtlInv b tid g x ℓ) (hd : b.design = .writeBackCtl)
    (hp : x.pc = .run) {act : Act w} {r : Shared w × Tx w}
    (hr : stepRun b tid g x act = some r) :
    CtlInv b tid r.1 r.2 ℓ ∧ r.1.lock = g.lock ∧ r.1.mem = g.mem := by
  have ho : x.pc.open = true := by rw [hp]; rfl
  cases act with
  | load a =>
    cases hr
    exact ⟨h.onward hd ho (onward_loadStart hd a) rfl, rfl, rfl⟩
  | store a v m =>
    cases hr
    refine ⟨h.onward hd ho ?_ rfl, rfl, rfl⟩
    unfold storeStart
    split
    · exact onward_rollback hd x _
    · exact ⟨rfl, rfl, .inl rfl⟩
  | commit => exact h.commitStart hd ho hr
  | abort =>
    cases hr
    exact ⟨h.onward hd ho (onward_rollback hd x _) rfl, rfl, rfl⟩
  | setExtension en ts =>
    cases hr
    refine ⟨h.onward hd ho ?_ rfl, rfl, rfl⟩
    cases ts <;> exact ⟨rfl, rfl, .inl ho⟩
  | tick =>
    simp only [TinyStm.stepRun] at hr
    split at hr
    · cases hr
      exact ⟨h.onward hd ho ⟨rfl, rfl, .inl rfl⟩ rfl, rfl, rfl⟩
    · cases hr
  | _ => cases hr

theorem CtlInv.stepIdle (h : CtlInv b tid g x ℓ) (hp : x.pc = .idle) {act : Act w}
    {r : Shared w × Tx w} (hr : stepIdle g x act = some r) :
    CtlInv b tid r.1 r.2 ℓ ∧ r.1.lock = g.lock ∧ r.1.mem = g.mem := by
  have hph : x.pc.phase = .out := by rw [hp]; rfl
  have hno : ∀ k, ¬ UnitHeld b k x.pc := by simp [hp, UnitHeld]
  cases act <;> cases hr <;>
    exact ⟨h.outside hph rfl rfl (fun k => iff_of_false (by simp [UnitHeld]) (hno k)) ℓ, rfl, rfl⟩

theorem CtlInv.setStanding (h : CtlInv b tid g x ℓ) (s : Bool) :
    CtlInv b tid g { x with standing := s } ℓ where
  pcs := h.pcs
  own := h.own
  ver := h.ver
  unit := h.unit
  order := h.order
  live hp := ⟨(h.live hp).todo, (h.live hp).got, (h.live hp).count, (h.live hp).log⟩
  loop := by
    have := h.loop
    cases hp : x.pc <;> rw [hp] at this <;>
      first
      | exact this
      | exact ⟨this.1, this.2⟩
      | exact ⟨⟨this.1.1, this.1.2⟩, this.2⟩
      | exact (by
          obtain ⟨e, S, he, hS, hc, hl⟩ := this
          exact ⟨e, S, he, hS, hc, hl⟩)

theorem CtlInv.step (h : CtlInv b tid g x ℓ) (hd : b.design = .writeBackCtl) {act : Act w}
    {r : Shared w × Tx w} (hr : stepTx b tid act g x = some r) :
    CtlStep b tid g r (accesses b act g x) (nextLog b tid act g x ℓ) := by
  unfold stepTx at hr
  split at hr
  · exact h.stepGo hd hr
  · split at hr
    · cases hr
      have hacc : accesses b .standing g x = [] := by simp [accesses]
      rw [hacc]
      refine ⟨?_, .none rfl rfl⟩
      rw [nextLog, hacc, List.append_nil]
      split
      · next hp =>
        have hph : x.pc.phase = .out := by rw [hp]; rfl
        exact h.outside hph rfl (by exact hph) (fun _ => by exact Iff.rfl) []
      · exact h.setStanding true
    · cases hr
  · next hgo _ =>
    have hacc : accesses b act g x = [] := by
      unfold accesses
      split <;> first | rfl | exact absurd rfl hgo
    have hlog : x.pc ≠ .prepare → nextLog b tid act g x ℓ = ℓ := by
      intro hne
      rw [nextLog, if_neg hne, hacc, List.append_nil]
    split at hr
    · next hp =>
      obtain ⟨hinv, hl, hm⟩ := h.stepIdle hp hr
      rw [hlog (by rw [hp]; simp), hacc]
      exact ⟨hinv, .none hl hm⟩
    · next hp =>
      obtain ⟨hinv, hl, hm⟩ := h.stepRun hd hp hr
      rw [hlog (by rw [hp]; simp), hacc]
      exact ⟨hinv, .none hl hm⟩
    · cases hr

/-! ### Every run -/

theorem Initial.ctlInv {s : State w} (h : Initial s) (tid : ℕ) :
    CtlInv b tid s.shared (s.loc tid) [] where
  pcs := .inl (by rw [h.pc]; rfl)
  own hk := by simp [h.lock] at hk
  ver _ _ hr := by
    rw [h.pc] at hr
    exact hr.elim
  unit k := by simp [h.lock, h.pc, UnitHeld]
  order ho := absurd (by rw [h.pc]; rfl) ho
  live hp := by
    rw [h.pc] at hp
    cases hp
  loop := by
    rw [h.pc]
    trivial

theorem run_ctlInv {ok : Config ℕ (Shared w) (Tx w × List (Access w)) → ℕ → Act w → Prop}
    (hd : b.design = .writeBackCtl) {s₀ : State w} (hi : Initial s₀)
    {c : Config ℕ (Shared w) (Tx w × List (Access w))}
    (h : Run (logMachine b w) ok (s₀.withLog []) c) (tid : ℕ) :
    CtlInv b tid c.shared (c.loc tid).1 (c.loc tid).2 := by
  have hrun := h.rely_guarantee (I := fun _ => True)
    (L := fun i g p => CtlInv b i g p.1 p.2)
    (R := fun j _ g g' => ∀ k, (g.lock k).HeldBy j ∨ (g'.lock k).HeldBy j →
      g'.lock k = g.lock k) ?_ ?_ ⟨trivial, fun i => hi.ctlInv i⟩
  · exact hrun.2 tid
  · rintro c i act g' ⟨x', ℓ'⟩ - hL - hs
    obtain ⟨hstx, rfl⟩ := logged_step hs
    have hT : CtlInv b i c.shared.tick (c.loc i).1 (c.loc i).2 := (hL i).stable fun _ _ => rfl
    have hstep := hT.step hd hstx
    exact ⟨trivial, hstep.inv, fun j hj => hstep.effect.frame hj⟩
  · exact fun j g g' y _ _ hR hL => hL.stable hR

/-- What the log shows of a rollback. While the loop has locks left, its next entry
exists; when it stops, the log is that of the acquisitions, each lock at most once,
followed by one release for each of them that puts back the word it replaced. -/
def RollbackOk (g : Shared w) (tid : ℕ) (x : Tx w) (ℓ : List (Access w)) : Prop :=
  ∀ r i t, x.pc = .rb r i t →
    (x.nbAcquired ≠ 0 → ∃ j e, i = j + 1 ∧ x.wset[j]? = some e) ∧
    (x.nbAcquired = 0 → ∃ A : List (ℕ × Ver), (A.map Prod.fst).Nodup ∧
      ℓ = (A.map fun p => .acquire p.1 p.2) ++ A.map (fun p => .release p.1 p.2) ∧
      ∀ k, ¬ (g.lock k).HeldBy tid)

/-- What the log shows of a commit with timestamp `t`, at the end of its write-back
loop: the acquisitions, one for each lock of the write set, then stores and one
release for each lock, with the version of `t`; a release stands after the stores
to all words of the write set that the lock covers. -/
def CommitOk (b : Build) (g : Shared w) (tid : ℕ) (x : Tx w) (ℓ : List (Access w)) : Prop :=
  ∀ t i, x.pc = .pub t i → x.wset[i]? = none →
    ∃ (A : List (ℕ × Ver)) (P : List (Access w)), (A.map Prod.fst).Nodup ∧
      (∀ k, k ∈ A.map Prod.fst ↔ ∃ e ∈ x.wset, b.getLock w e.addr = k) ∧
      ℓ = (A.map fun p => .acquire p.1 p.2) ++ P ∧ (∀ k l, .acquire k l ∉ P) ∧
      releasesOf P = (A.map fun p => (p.1, (⟨b.commitV w t p.2.ts, 0⟩ : Ver))).reverse ∧
      (∀ p q k v, P = p ++ .release k v :: q → ∀ e ∈ x.wset, b.getLock w e.addr = k →
        e.mask ≠ 0 → ∃ y, .store e.addr y ∈ p ∧ y &&& e.mask = e.value &&& e.mask) ∧
      ∀ k, ¬ (g.lock k).HeldBy tid

theorem CtlInv.not_heldBy (h : CtlInv b tid g x ℓ) (hout : x.pc.phase ≠ .out)
    (hnone : ∀ k i, (g.lock k).own ≠ some (.entry tid i)) (k : ℕ) : ¬ (g.lock k).HeldBy tid := by
  rintro (⟨i, hk⟩ | hk)
  · exact hnone k i hk
  · exact not_unitHeld_of_phase hout k ((h.unit k).mp hk)

theorem CtlInv.rollbackOk (h : CtlInv b tid g x ℓ) (hd : b.design = .writeBackCtl) :
    RollbackOk g tid x ℓ := by
  intro r i t hp
  have hph : x.pc.phase = .undo i t := by rw [hp]; rfl
  have hout : x.pc.phase ≠ .out := by rw [hph]; simp
  obtain ⟨hle, hcount, hlog⟩ : LoopOk b x ℓ (.rb r i t) := hp ▸ h.loop
  refine ⟨fun hne => ?_, fun h0 => ?_⟩
  · cases i with
    | zero =>
      rw [List.take_zero, List.countP_nil] at hcount
      exact absurd hcount hne
    | succ j => exact ⟨j, x.wset[j], rfl, List.getElem?_eq_getElem hle⟩
  · -- below `i` no entry releases, so the releases so far are those of all acquisitions
    rw [h0, eq_comm, List.countP_eq_zero] at hcount
    have hlow : releasers b (x.wset.take i) = [] :=
      releasers_eq_nil fun f hf => by simpa using hcount f hf
    have hall : releasers b (x.wset.drop i) = releasers b x.wset := by
      conv_rhs => rw [← List.take_append_drop i x.wset, releasers_append, hlow, List.append_nil]
    rw [hall] at hlog
    refine ⟨(releasers b x.wset).map fun e => (b.getLock w e.addr, e.version), ?_, ?_, ?_⟩
    · rw [List.map_map]
      exact releasers_nodup (h.order hout)
    · rw [hlog, List.map_map, List.map_map]
      rfl
    · refine h.not_heldBy hout fun k j hk => ?_
      obtain ⟨f, hf, hdf, hrf, -⟩ := h.own hk
      rw [hph] at hrf
      simp only [Remains, hd, reduceCtorEq, if_false] at hrf
      exact hcount f (List.mem_iff_getElem?.mpr
        ⟨j, by rw [List.getElem?_take, if_pos hrf]; exact hf⟩) hdf

theorem CtlInv.commitOk (h : CtlInv b tid g x ℓ) (hd : b.design = .writeBackCtl) :
    CommitOk b g tid x ℓ := by
  intro t i hp hnone
  have hph : x.pc.phase = .pub t i := by rw [hp]; rfl
  have hout : x.pc.phase ≠ .out := by rw [hph]; simp
  obtain ⟨hcov, P, hP, hlog⟩ : LoopOk b x ℓ (.pub t i) := hp ▸ h.loop
  have hlen := List.getElem?_eq_none_iff.mp hnone
  rw [List.take_of_length_le hlen] at hP
  refine ⟨(releasers b x.wset).map fun e => (b.getLock w e.addr, e.version), P, ?_, fun k => ?_, ?_,
    hP.no_acquire, ?_, fun p q k v hpq e he hk hm => ?_, ?_⟩
  · rw [List.map_map]
    exact releasers_nodup (h.order hout)
  · simp only [List.map_map, List.mem_map, releasers, List.mem_filter, List.mem_reverse]
    constructor
    · rintro ⟨f, ⟨hf, -⟩, rfl⟩
      exact ⟨f, hf, rfl⟩
    · rintro ⟨e, he, rfl⟩
      obtain ⟨f, hf, hdf, hl⟩ := hcov e he
      exact ⟨f, ⟨hf, hdf⟩, hl⟩
  · rw [hlog, List.append_nil, List.map_map]
    rfl
  · rw [hP.releases, releasers, List.filter_reverse, List.map_reverse, List.map_reverse,
      List.reverse_reverse, List.map_map]
    rfl
  · obtain ⟨ws₁, f, ws₂, hws, hdf, hrel, hst⟩ := hP.release_after hpq
    refine hst e ?_ hm
    -- `f` releases the lock of `e`, so `e` is not above it
    obtain ⟨j, hj⟩ := List.mem_iff_getElem?.mp he
    have hf : x.wset[ws₁.length]? = some f := by simp [hws]
    have hkf : k = b.getLock w f.addr := by
      simp only [publishOf, Access.release.injEq] at hrel
      exact hrel.1
    have hle : j ≤ ws₁.length := h.order hout hf hdf hj (by rw [hk, hkf])
    have hsplit : x.wset = ws₁ ++ [f] ++ ws₂ := by simp [hws]
    rw [hsplit, List.getElem?_append_left
      (by simp only [List.length_append, List.length_singleton]; omega)] at hj
    exact List.mem_of_getElem? hj
  · refine h.not_heldBy hout fun k j hk => ?_
    obtain ⟨f, hf, -, hrf, -⟩ := h.own hk
    rw [hph, remains_pub hd] at hrf
    have := getElem?_lt hf
    omega

/-- In every run of the commit-time design: the log of a thread records what its
steps do to locks and memory, a rollback restores the locks of the commit and no
others, and a commit releases each of its locks once, after the words it covers. -/
theorem ctl_lock_discipline
    {ok : Config ℕ (Shared w) (Tx w × List (Access w)) → ℕ → Act w → Prop}
    (hd : b.design = .writeBackCtl) (s₀ : State w) (hi : Initial s₀)
    (c : Config ℕ (Shared w) (Tx w × List (Access w)))
    (hr : Run (logMachine b w) ok (s₀.withLog []) c) (tid : ℕ) :
    (∀ act g' x' ℓ', (logMachine b w).step tid act c.shared (c.loc tid) = some (g', x', ℓ') →
      Effect tid c.shared g' (accesses b act c.shared (c.loc tid).1) ∧
      ((c.loc tid).1.pc ≠ .prepare →
        ℓ' = (c.loc tid).2 ++ accesses b act c.shared (c.loc tid).1)) ∧
    RollbackOk c.shared tid (c.loc tid).1 (c.loc tid).2 ∧
    CommitOk b c.shared tid (c.loc tid).1 (c.loc tid).2 := by
  have h := run_ctlInv hd hi hr tid
  refine ⟨fun act g' x' ℓ' hs => ?_, h.rollbackOk hd, h.commitOk hd⟩
  obtain ⟨hstx, rfl⟩ := logged_step hs
  have hT : CtlInv b tid c.shared.tick (c.loc tid).1 (c.loc tid).2 := h.stable fun _ _ => rfl
  exact ⟨(hT.step hd hstx).effect.of_tick, fun hne => by rw [nextLog, if_neg hne]⟩

/-- The commit-time design with sixteen locks. -/
def lockBuild : Build := ⟨.writeBackCtl, false, false, 0, 4⟩

/-- Both threads store to word 0, thread 0 to word 8 too; thread 1 acquires its lock
first, and thread 0 has to give the lock of word 8 back. -/
def conflictRun : List (ℕ × Act 64) :=
  List.flatten [
    turn 0 [.start false, .go, .store 0 5 (BitVec.allOnes 64), .go,
      .store 8 7 (BitVec.allOnes 64), .go],
    turn 1 [.start false, .go, .store 0 9 (BitVec.allOnes 64), .go, .commit, .go, .go],
    turn 0 [.commit, .go, .go, .go, .go]]

theorem ctl_lock_discipline_conflict :
    ∃ c, Run (logMachine lockBuild 64) (fun _ _ _ => True) ((State.fresh fun _ => 0).withLog []) c ∧
      ((c.loc 0).1.pc = .rb .wwConflict 1 0 ∧ (c.loc 0).1.nbAcquired = 0 ∧
        (c.loc 0).2 = [.acquire 1 ⟨0, 0⟩, .release 1 ⟨0, 0⟩]) ∧
      RollbackOk c.shared 0 (c.loc 0).1 (c.loc 0).2 := by
  obtain ⟨c, hr, hc⟩ := exists_run_of_exec (logMachine lockBuild 64) (fun _ _ _ => True)
    ((State.fresh fun _ => 0).withLog []) conflictRun (fun c => (c.loc 0).1.pc = .rb .wwConflict 1 0 ∧
      (c.loc 0).1.nbAcquired = 0 ∧ (c.loc 0).2 = [.acquire 1 ⟨0, 0⟩, .release 1 ⟨0, 0⟩])
    (by decide +kernel)
  exact ⟨c, hr, hc, (ctl_lock_discipline rfl _ (initial_fresh _) c hr 0).2.1⟩

end TinyStm
