import TinyStm.Steps.Load

/-!
# Steps of one thread: stores

How each design enters a store in its write set: a merged entry (commit-time), a
full word linked to the chain of its lock (encounter-time write-back), an undo
entry and the word itself (write-through); and the compare-and-swap by which the
encounter-time designs take a lock.
-/

namespace TinyStm

open Timeline

variable {w : ℕ} {b : Build} {P : Mode} {tid : ℕ} {g : Shared w} {x : Tx w} {a : ℕ} {ph : Phase}

/-! ### Changes of values and masks only -/

section Reshape

variable {ws ws' : List (WEntry w)}

theorem drops_congr {e e' : WEntry w} (h₁ : e.noDrop = e'.noDrop) (h₂ : e.next = e'.next) :
    b.drops e = b.drops e' := by
  simp only [Build.drops, h₁, h₂]

theorem SameShape.held_of (h : SameShape ws ws') {k : ℕ} (hk : Held b ph ws' k) :
    Held b ph ws k := by
  obtain ⟨j, e', he', hd, hr, hl⟩ := hk
  obtain ⟨e, he, ha, -, hno, hn⟩ := h.get he'
  exact ⟨j, e, he, (drops_congr hno hn).trans hd, h.length_eq ▸ hr, ha ▸ hl⟩

theorem SameShape.held_iff (h : SameShape ws ws') (k : ℕ) : Held b ph ws' k ↔ Held b ph ws k :=
  ⟨h.held_of, h.symm.held_of⟩

/-- `drops` on the shape of an entry. -/
def Build.dropsShape (b : Build) (s : ℕ × Ver × Bool × Option ℕ) : Bool :=
  match b.design with
  | .writeBackEtl => s.2.2.2.isNone
  | _ => !s.2.2.1

theorem SameShape.countP_eq (h : SameShape ws ws') : ws'.countP b.drops = ws.countP b.drops := by
  have hd : (b.drops : WEntry w → Bool) = b.dropsShape ∘ WEntry.shape := by
    funext e
    unfold Build.drops Build.dropsShape
    rfl
  rw [hd, ← List.countP_map, ← List.countP_map, h]

theorem EtlWs.reshape (h : EtlWs b tid g ph x) (hsh : SameShape x.wset ws') {ss : List (Store w)}
    (hmem : ∀ s ∈ ss, s.mask ≠ 0 → ∃ e ∈ x.wset, e.addr = s.addr)
    (hlock : ∀ s ∈ ss, ∃ e ∈ x.wset, b.getLock w e.addr = b.getLock w s.addr)
    (hval : ∀ e ∈ ws', Held b ph x.wset (b.getLock w e.addr) →
      (e.mask = 0 ∧ ∀ y, overlay ss e.addr y = y) ∨
      (e.mask ≠ 0 ∧ e.value = overlay ss e.addr (g.at b (g.ver b (b.getLock w e.addr)) e.addr))) :
    EtlWs b tid g ph { x with wset := ws', stores := ss } where
  inj hi hj ha := by
    obtain ⟨e, he, ha₁, -⟩ := hsh.get hi
    obtain ⟨e', he', ha₂, -⟩ := hsh.get hj
    exact h.inj he he' (by rw [ha₁, ha₂, ha])
  mem s hs hm := by
    obtain ⟨e, he, ha⟩ := hmem s hs hm
    obtain ⟨j, hj⟩ := List.mem_iff_getElem?.mp he
    obtain ⟨e', he', ha', -⟩ := hsh.symm.get hj
    exact ⟨e', List.mem_of_getElem? he', ha'.trans ha⟩
  lock s hs := by
    obtain ⟨e, he, ha⟩ := hlock s hs
    obtain ⟨j, hj⟩ := List.mem_iff_getElem?.mp he
    obtain ⟨e', he', ha', -⟩ := hsh.symm.get hj
    exact ⟨e', List.mem_of_getElem? he', by rw [ha', ha]⟩
  val e he hk := hval e he ((hsh.held_iff _).mp hk)
  chain := h.chain.reshape hsh
  head hk := by
    obtain ⟨⟨e, he, hl⟩, hmin⟩ := h.head hk
    obtain ⟨e', he', ha', -⟩ := hsh.symm.get he
    refine ⟨⟨e', he', by rw [ha', hl]⟩, fun hj hjl => ?_⟩
    obtain ⟨e₁, he₁, ha₁, -⟩ := hsh.get hj
    exact hmin he₁ (by rw [ha₁, hjl])

theorem Att.reshape (h : Att b P tid g ph x) (hsh : SameShape x.wset ws') {ss : List (Store w)}
    (hpre : x.stores <+: ss) (hws : WsOk b tid g ph { x with wset := ws', stores := ss }) :
    Att b P tid g ph { x with wset := ws', stores := ss } where
  start_le := h.start_le
  end_le := h.end_le
  endEq := h.endEq
  snap_le := h.snap_le
  consistent := h.consistent
  pre r hr := (h.pre r hr).trans hpre
  order := h.order
  dropVer hj hd hr := by
    obtain ⟨e, he, ha, hv, hno, hn⟩ := hsh.get hj
    rw [← ha, ← hv]
    exact h.dropVer he ((drops_congr hno hn).trans hd) (hsh.length_eq ▸ hr)
  dropOrder hj hd hj' hl := by
    obtain ⟨e, he, ha, -, hno, hn⟩ := hsh.get hj
    obtain ⟨e', he', ha', -⟩ := hsh.get hj'
    exact h.dropOrder he ((drops_congr hno hn).trans hd) he' (by rw [ha, ha', hl])
  taken hl j e hj hr := by
    obtain ⟨e', he', ha', -⟩ := hsh.get hj
    rw [hsh.held_iff, ← ha']
    exact h.taken hl he' (hsh.length_eq ▸ hr)
  ws := hws

theorem CtlAcq.reshape {n : ℕ} (h : CtlAcq b tid g n x) (hsh : SameShape x.wset ws')
    {ss : List (Store w)} : CtlAcq b tid g n { x with wset := ws', stores := ss } where
  todo hj hn := by
    obtain ⟨e, he, -, -, hno, -⟩ := hsh.get hj
    rw [← hno]
    exact h.todo he hn
  got hj hn := by
    obtain ⟨e, he, ha, -⟩ := hsh.get hj
    rw [hsh.held_iff, ← ha]
    exact h.got he hn
  count := h.count.trans hsh.countP_eq.symm
  idx hk := by
    obtain ⟨e, he, hd, hl⟩ := h.idx hk
    obtain ⟨e', he', ha', -, hno, hn⟩ := hsh.symm.get he
    exact ⟨e', he', (drops_congr hno hn).trans hd, by rw [ha', hl]⟩

theorem Core.reshape {n : ℕ} (h : Core b P tid g n x) (hro : x.ro = false)
    (hsh : SameShape x.wset ws') {ss : List (Store w)} (hpre : x.stores <+: ss)
    (hws : WsOk b tid g .live { x with wset := ws', stores := ss })
    (hmem : b.design = .writeThrough → ∀ a, Held b .live x.wset (b.getLock w a) →
      g.mem a = overlay ss a (g.at b (g.ver b (b.getLock w a)) a)) :
    Core b P tid g n { x with wset := ws', stores := ss } where
  own k := by rw [hsh.held_iff, h.own]
  unit := h.unit
  settled := h.settled
  fate := h.fate
  began := h.began
  att := h.att.reshape hsh hpre hws
  live := {
    rset := h.live.rset
    rsetOwn := h.live.rsetOwn
    cover := h.live.cover
    ro := fun hr => by
      rw [hro] at hr
      cases hr
    acq := fun hd => (h.live.acq hd).reshape hsh
    wtMem := fun hd a hk => hmem hd a ((hsh.held_iff _).mp hk) }

end Reshape

/-- A complete store ends in user code or handles a standing tick. -/
theorem Core.storeDone {v m : BitVec w}
    (h : Core b P tid g x.wset.length { x with stores := x.stores ++ [⟨a, v, m⟩] })
    (hw : Whole b { x with stores := x.stores ++ [⟨a, v, m⟩] }) :
    TInv b P tid g (storeReturns b x a v m) :=
  TInv.opEnd ((h.set .run x.standing x.canExtend).tinv ⟨rfl, rfl⟩ rfl
    (fun _ => ⟨hw.touched, hw.len⟩) trivial)

/-! ### The commit-time design -/

theorem ctlMerge_sameShape (ws : List (WEntry w)) (i : ℕ) (v m : BitVec w) :
    SameShape ws (ws.modify i fun e =>
      { e with value := mergeBits e.value v m, mask := e.mask ||| m }) :=
  sameShape_modify i fun _ => rfl

/-- A first entry for an address; with an empty mask its value does not matter. -/
theorem CtlWs.append {ws : List (WEntry w)} {ss : List (Store w)} (h : CtlWs ws ss) {a : ℕ}
    (hno : ∀ e ∈ ws, e.addr ≠ a) {u v m : BitVec w} (hu : m ≠ 0 → u = v) (l : Ver) :
    CtlWs (ws ++ [⟨a, u, m, l, true, none⟩]) (ss ++ [⟨a, v, m⟩]) := by
  have hself : ∀ y, overlay ss a y = y := by
    refine overlay_of_forall_ne fun s hs hsa => ?_
    obtain ⟨e, he, hea⟩ := h.mem s hs
    exact hno e he (hea.trans hsa)
  refine ⟨fun hj hj' hjj => ?_, fun s hs => ?_, fun f hf y => ?_⟩
  · rcases getElem?_snoc.mp hj with hj₁ | ⟨rfl, rfl⟩ <;>
      rcases getElem?_snoc.mp hj' with hj₂ | ⟨rfl, rfl⟩
    · exact h.inj hj₁ hj₂ hjj
    · exact absurd hjj (hno _ (List.mem_of_getElem? hj₁))
    · exact absurd hjj.symm (hno _ (List.mem_of_getElem? hj₂))
    · rfl
  · rcases List.mem_append.mp hs with hs | hs
    · obtain ⟨e, he, hea⟩ := h.mem s hs
      exact ⟨e, List.mem_append_left _ he, hea⟩
    · rw [List.mem_singleton.mp hs]
      exact ⟨_, List.mem_append_right _ (List.mem_singleton_self _), rfl⟩
  · rcases List.mem_append.mp hf with hf | hf
    · rw [overlay_snoc_of_ne _ _ _ _ (hno f hf).symm]
      exact h.val f hf y
    · rw [List.mem_singleton.mp hf, overlay_snoc_self, hself]
      by_cases hm : m = 0
      · rw [hm, mergeBits_zero, mergeBits_zero]
      · rw [hu hm]

theorem CtlWs.write {ws : List (WEntry w)} {ss : List (Store w)} (h : CtlWs ws ss) (a : ℕ)
    (v m : BitVec w) (l : Ver) : CtlWs (ctlWrite ws a v m l) (ss ++ [⟨a, v, m⟩]) := by
  unfold ctlWrite
  split
  · next i hi =>
    obtain ⟨e, he, ha⟩ := stmHasWritten_some hi
    subst ha
    have hsh := ctlMerge_sameShape ws i v m
    refine ⟨fun hj hj' hjj => ?_, fun s hs => ?_, fun f hf y => ?_⟩
    · obtain ⟨f, hf, hfa, -⟩ := hsh.get hj
      obtain ⟨f', hf', hfa', -⟩ := hsh.get hj'
      exact h.inj hf hf' (by rw [hfa, hfa', hjj])
    · have : ∃ f ∈ ws, f.addr = s.addr := by
        rcases List.mem_append.mp hs with hs | hs
        · exact h.mem s hs
        · rw [List.mem_singleton.mp hs]
          exact ⟨e, List.mem_of_getElem? he, rfl⟩
      obtain ⟨f, hf, hfa⟩ := this
      obtain ⟨j, hj⟩ := List.mem_iff_getElem?.mp hf
      obtain ⟨f', hf', hfa', -⟩ := hsh.symm.get hj
      exact ⟨f', List.mem_of_getElem? hf', hfa'.trans hfa⟩
    · obtain ⟨j, hj⟩ := List.mem_iff_getElem?.mp hf
      by_cases hij : i = j
      · subst hij
        rw [List.getElem?_modify_eq, he] at hj
        cases hj
        rw [overlay_snoc_self, h.val e (List.mem_of_getElem? he) y, mergeBits_mergeBits]
      · rw [List.getElem?_modify_ne _ _ hij] at hj
        have hne : e.addr ≠ f.addr := fun heq => hij (h.inj he hj heq)
        rw [overlay_snoc_of_ne _ _ _ _ hne]
        exact h.val f (List.mem_of_getElem? hj) y
  · next hi =>
    exact h.append (fun e he => stmHasWritten_none hi he) (fun hm => if_neg hm) l

theorem ctlWrite_noDrop {ws : List (WEntry w)} (h : ∀ e ∈ ws, e.noDrop = true) (v m : BitVec w)
    (l : Ver) : ∀ e ∈ ctlWrite ws a v m l, e.noDrop = true := by
  intro e he
  unfold ctlWrite at he
  split at he
  · next i _ =>
    obtain ⟨j, hj⟩ := List.mem_iff_getElem?.mp he
    obtain ⟨f, hf, -, -, hno, -⟩ := (ctlMerge_sameShape ws i v m).get hj
    rw [← hno]
    exact h f (List.mem_of_getElem? hf)
  · rcases List.mem_append.mp he with he | he
    · exact h e he
    · rw [List.mem_singleton.mp he]

theorem ctlWrite_touched {ws : List (WEntry w)} {ss : List (Store w)}
    (h : ∀ e ∈ ws, ∃ s ∈ ss, s.addr = e.addr) (v m : BitVec w) (l : Ver) :
    ∀ e ∈ ctlWrite ws a v m l, ∃ s ∈ ss ++ [⟨a, v, m⟩], s.addr = e.addr := by
  intro e he
  have hold : ∀ f ∈ ws, f.addr = e.addr → ∃ s ∈ ss ++ [⟨a, v, m⟩], s.addr = e.addr := by
    intro f hf hfa
    obtain ⟨s, hs, hsa⟩ := h f hf
    exact ⟨s, List.mem_append_left _ hs, hsa.trans hfa⟩
  unfold ctlWrite at he
  split at he
  · next i _ =>
    obtain ⟨j, hj⟩ := List.mem_iff_getElem?.mp he
    obtain ⟨f, hf, ha, -⟩ := (ctlMerge_sameShape ws i v m).get hj
    exact hold f (List.mem_of_getElem? hf) ha
  · rcases List.mem_append.mp he with he | he
    · exact hold e he rfl
    · rw [List.mem_singleton.mp he]
      exact ⟨_, List.mem_append_right _ (List.mem_singleton_self _), rfl⟩

/-- No entry of a commit-time write set holds a lock before the commit. -/
theorem not_held_of_noDrop {ws : List (WEntry w)} (hd : b.design = .writeBackCtl)
    (h : ∀ e ∈ ws, e.noDrop = true) (k : ℕ) : ¬ Held b ph ws k := by
  rintro ⟨j, e, he, hdrop, -⟩
  simp [Build.drops, hd, h e (List.mem_of_getElem? he)] at hdrop

theorem Core.ctlStore (h : Core b P tid g x.wset.length x) (hd : b.design = .writeBackCtl)
    (hro : x.ro = false) (a : ℕ) (v m : BitVec w) (l : Ver) :
    Core b P tid g (ctlWrite x.wset a v m l).length
      { x with wset := ctlWrite x.wset a v m l, stores := x.stores ++ [⟨a, v, m⟩] } := by
  have hacq := h.live.acq hd
  have hall : ∀ e ∈ x.wset, e.noDrop = true := by
    intro e he
    obtain ⟨j, hj⟩ := List.mem_iff_getElem?.mp he
    exact hacq.todo hj (getElem?_lt hj)
  have hall' : ∀ e ∈ ctlWrite x.wset a v m l, e.noDrop = true := ctlWrite_noDrop hall v m l
  have hnone : ∀ k, ¬ Held b .live x.wset k := not_held_of_noDrop hd hall
  have hnone' : ∀ k, ¬ Held b .live (ctlWrite x.wset a v m l) k := not_held_of_noDrop hd hall'
  have hnd : ∀ {ws : List (WEntry w)}, (∀ e ∈ ws, e.noDrop = true) → ∀ e ∈ ws,
      b.drops e ≠ true := by
    intro ws hws e he
    simp [Build.drops, hd, hws e he]
  have hdrop : ∀ {j : ℕ} {e : WEntry w}, (ctlWrite x.wset a v m l)[j]? = some e →
      b.drops e ≠ true := fun he => hnd hall' _ (List.mem_of_getElem? he)
  exact {
    own := fun k => iff_of_false (fun hk => hnone k ((h.own k).mp hk)) (hnone' k)
    unit := h.unit
    settled := h.settled
    fate := h.fate
    began := h.began
    att := {
      start_le := h.att.start_le
      end_le := h.att.end_le
      endEq := h.att.endEq
      snap_le := h.att.snap_le
      consistent := h.att.consistent
      pre := fun r hr => (h.att.pre r hr).trans (List.prefix_append _ _)
      order := h.att.order
      dropVer := fun he hdr => absurd hdr (hdrop he)
      dropOrder := fun he hdr => absurd hdr (hdrop he)
      taken := fun ht => absurd hd ht
      ws := .ofCtl hd ((h.att.ws.ctl hd).write a v m l) }
    live := {
      rset := h.live.rset
      rsetOwn := h.live.rsetOwn
      cover := h.live.cover
      ro := fun hr => by
        rw [hro] at hr
        cases hr
      acq := fun _ => {
        todo := fun he _ => hall' _ (List.mem_of_getElem? he)
        got := fun he hle => absurd (getElem?_lt he) (Nat.not_lt.mpr hle)
        count := by
          have h₁ : x.wset.countP b.drops = 0 := List.countP_eq_zero.mpr (hnd hall)
          have h₂ : (ctlWrite x.wset a v m l).countP b.drops = 0 :=
            List.countP_eq_zero.mpr (hnd hall')
          rw [h₂, ← h₁]
          exact hacq.count
        idx := fun hk => absurd ((h.own _).mp ⟨_, hk⟩) (hnone _) }
      wtMem := fun hd' => by
        rw [hd] at hd'
        cases hd' } }

theorem TInv.ctlStore (h : TInv b P tid g x) (hc : Ready x) (hd : b.design = .writeBackCtl)
    (hro : x.ro = false) (v m : BitVec w) (l : Ver) :
    TInv b P tid g (storeReturns b { x with wset := ctlWrite x.wset a v m l } a v m) := by
  have hcore := h.core hc.toInside
  rw [hc.acq] at hcore
  refine Core.storeDone (hcore.ctlStore hd hro a v m l) ⟨?_, fun hd' => ?_⟩
  · exact ctlWrite_touched (h.whole hc.ne_out hc.storing).touched v m l
  · rw [hd] at hd'
    cases hd'

end TinyStm
