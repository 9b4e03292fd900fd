import TinyStm.TxInv

/-!
# The steps of the other threads

What a thread relies on is stable: the invariant of thread `u` survives every
change of the shared state that `Interf u` allows.
-/

namespace TinyStm

open Timeline

variable {w : ℕ} {b : Build} {P : Mode} {u tid : ℕ} {g g' : Shared w} {x : Tx w} {ph : Phase}

/-! ### What the invariant says about ownership -/

theorem TInv.heldBy_of_held (h : TInv b P tid g x) {k : ℕ} (hk : Held b x.pc.phase x.wset k) :
    (g.lock k).HeldBy tid := .inl ((h.own k).mpr hk)

theorem TInv.held_of_heldBy (h : TInv b P tid g x) (hp : ∀ k, ¬ UnitHeld b k x.pc) {k : ℕ}
    (hk : (g.lock k).HeldBy tid) : Held b x.pc.phase x.wset k := by
  rcases hk with hk | hk
  · exact (h.own k).mp hk
  · exact absurd ((h.unit k).mp hk) (hp k)

theorem not_unitHeld_of_phase {pc : Pc w} (h : pc.phase ≠ .out) (k : ℕ) : ¬ UnitHeld b k pc := by
  cases pc <;> simp_all [UnitHeld, Pc.phase]

/-- The state evolves, the locks of `K` stay as they are and thread `u` gets no new
one. -/
structure Keeps (b : Build) (u : ℕ) (g g' : Shared w) (K : ℕ → Prop) : Prop
    extends Evol b g g' where
  kept : ∀ k, K k → g'.lock k = g.lock k
  noGain : ∀ k i, (g'.lock k).own = some (.entry u i) → (g.lock k).own = some (.entry u i)

theorem Keeps.at_kept {K : ℕ → Prop} (hS : SInv b P g) (hK : Keeps b u g g' K) {a : ℕ}
    (ha : K (b.getLock w a)) :
    g'.at b (g'.ver b (b.getLock w a)) a = g.at b (g.ver b (b.getLock w a)) a := by
  have hv : g'.ver b (b.getLock w a) = g.ver b (b.getLock w a) := by
    simp only [Shared.ver, hK.kept _ ha]
  rw [hv, hK.toEvol.at_eq hS le_rfl]

theorem Frame.keeps {K : ℕ → Prop} (hI : Frame b u g g')
    (hheld : ∀ k, K k → (g.lock k).HeldBy u) : Keeps b u g g' K where
  toEvol := hI.toEvol
  kept k hk := hI.lock k (.inl (hheld k hk))
  noGain k i := (hI.entry_iff k i).mp

section Keeps

variable (hS : SInv b P g) (hK : Keeps b u g g' (Held b ph x.wset))
include hS hK

theorem EtlWs.stable (h : EtlWs b u g ph x) : EtlWs b u g' ph x where
  inj := h.inj
  mem := h.mem
  lock := h.lock
  val e he hk := by
    rw [hK.at_kept hS hk]
    exact h.val e he hk
  chain := h.chain
  head hk := h.head (hK.noGain _ _ hk)

theorem WtWs.stable (h : WtWs b g ph x) : WtWs b g' ph x where
  len := h.len
  ent hs := by
    obtain ⟨e, he, ha, hm, hv⟩ := h.ent hs
    refine ⟨e, he, ha, hm, fun hne hk => ?_⟩
    rw [hK.at_kept hS hk]
    exact hv hne hk

theorem WsOk.stable (h : WsOk b u g ph x) : WsOk b u g' ph x where
  ctl := h.ctl
  etl hd := (h.etl hd).stable hS hK
  wt hd := (h.wt hd).stable hS hK

theorem Att.stable (hb : ∀ A ∈ g'.hist, A ∈ g.hist ∨ x.began < A.finished)
    (h : Att b P u g ph x) : Att b P u g' ph x where
  start_le := h.start_le
  end_le := h.end_le
  endEq := h.endEq
  snap_le := h.snap_le.trans hK.clock
  consistent ho := by
    obtain ⟨e, hse, hec, hd, hr⟩ := h.consistent ho
    exact ⟨e, hse, hec.trans hK.clock, hd, fun r hm => hK.toEvol.readAt hS hec (hr r hm)⟩
  pre := h.pre
  order A hA hf p hp := by
    rcases hb A hA with hA | hA
    · exact h.order A hA hf p hp
    · omega
  dropVer he hd hr := by
    rw [hK.kept _ ⟨_, _, he, hd, hr, rfl⟩]
    exact h.dropVer he hd hr
  dropOrder := h.dropOrder
  taken := h.taken
  ws := h.ws.stable hS hK

end Keeps

section Frame

variable (hS : SInv b P g) (hI : Frame b u g g')
include hS hI

theorem Covered.stable (hs : x.snap ≤ g.clock) {r : Read w} (h : Covered b u g x r) :
    Covered b u g' x r := by
  rcases h with h | ⟨v, hval, hv, hc⟩
  · exact .inl h
  · refine .inr ⟨v, ?_, hv.trans (hI.ver_le _), ?_⟩
    · rw [hI.toEvol.at_eq hS hv]
      exact hval
    · rcases hc with ⟨hro, hvs, hq⟩ | hr | ⟨hh, he⟩
      · exact .inl ⟨hro, hvs, hI.quiet hs hq⟩
      · exact .inr (.inl hr)
      · exact .inr (.inr ⟨(hI.heldBy_iff _).mpr hh, by rw [hI.ver_held hh]; exact he⟩)

omit hS in
theorem CtlAcq.stable {n : ℕ} (h : CtlAcq b u g n x) : CtlAcq b u g' n x where
  todo := h.todo
  got := h.got
  count := h.count
  idx hk := h.idx ((hI.entry_iff _ _).mp hk)

theorem Live.stable {n : ℕ} (hheld : ∀ k, Held b .live x.wset k → (g.lock k).HeldBy u)
    (hs : x.snap ≤ g.clock) (h : Live b u g n x) : Live b u g' n x where
  rset r hr := by
    obtain ⟨h₁, h₂, h₃⟩ := h.rset r hr
    exact ⟨h₁, h₂.trans (hI.ver_le _), hI.quiet hs h₃⟩
  rsetOwn hd r hr hh := by
    have hh' := (hI.heldBy_iff _).mp hh
    rw [hI.ver_held hh']
    exact h.rsetOwn hd r hr hh'
  cover r hr := (h.cover r hr).stable hS hI hs
  ro := h.ro
  acq hd := (h.acq hd).stable hI
  wtMem hd a hk := by
    rw [hI.mem a (hheld _ hk), hI.at_held hS (hheld _ hk)]
    exact h.wtMem hd a hk

end Frame

section Stable

variable (hS : SInv b P g) (hI : Interf b u g g')
include hS hI

omit hS in
/-- No thread records a timestamp of another thread. -/
theorem fresh_stable (hS' : SInv b P g') {t : ℕ} {ss : List (Store w)} {d : Bool}
    (hlog : g.log t = some ⟨u, ss, d⟩) (h : ∀ A ∈ g.hist, A.wrote ≠ some t) :
    ∀ A ∈ g'.hist, A.wrote ≠ some t := by
  intro A hA ht
  rcases hI.histNew A hA with hA' | hne
  · exact h A hA' ht
  · obtain ⟨-, -, hl, -⟩ := (hS'.hist A hA).commit t ht
    rw [(hI.own t _ rfl).mpr hlog] at hl
    simp only [Option.some.injEq, Slot.mk.injEq] at hl
    exact hne hl.1.symm

theorem PubOk.stable (hS' : SInv b P g') {t i n : ℕ}
    (hheld : ∀ k, Held b (.pub t i) x.wset k → (g.lock k).HeldBy u)
    (h : PubOk b u g x t i n) : PubOk b u g' x t i n where
  pos := ⟨h.pos.1, h.pos.2.1.trans hI.clock, h.pos.2.2⟩
  fits := h.fits
  log := (hI.own _ _ rfl).mpr h.log
  fresh := fresh_stable hI hS' h.log h.fresh
  reads r hr := hI.toEvol.readAt hS (by have := h.pos; omega) (h.reads r hr)
  below hk := by
    rw [hI.ver_held (hheld _ hk)]
    exact h.below hk
  done s hs := (h.done s hs).imp_right fun hle => hle.trans (hI.ver_le _)
  mem a hk := by
    rw [hI.mem a (hheld _ hk), hI.at_held hS (hheld _ hk)]
    exact h.mem a hk

theorem UndoOk.stable {i n t : ℕ}
    (hheld : ∀ k, Held b (.undo i t) x.wset k → (g.lock k).HeldBy u)
    (h : UndoOk b u g x i n t) : UndoOk b u g' x i n t where
  count := h.count
  bound := h.bound
  wtMem hd a hk := by
    rw [hI.mem a (hheld _ hk), hI.at_held hS (hheld _ hk)]
    exact h.wtMem hd a hk
  noBump := h.noBump
  bump ht := by
    obtain ⟨hle, m, hlog, him, hd, hb⟩ := h.bump ht
    refine ⟨hle.trans hI.clock, m, (hI.own _ _ rfl).mpr hlog, him, fun k hk => ?_, fun hk => ?_⟩
    · exact (hd k hk).imp_right fun hle => hle.trans (hI.ver_le _)
    · rw [hI.ver_held (hheld _ hk)]
      exact hb hk

omit hS in
theorem Saw.stable {a : ℕ} {l : Ver} (h : Saw b g a l) : Saw b g' a l := VerLe.trans h (hI.ver _)

/-- What a load saw is fixed. -/
theorem Saw.at_eq {a : ℕ} {l : Ver} (h : Saw b g a l) :
    g'.at b (b.stamp l.ts) a = g.at b (b.stamp l.ts) a := hI.toEvol.at_eq hS h.stamp_le

theorem ContOk.stable {now : ℕ} {c : Cont w} (h : ContOk b u g x now c) :
    ContOk b u g' x now c := by
  cases c with
  | read a l v =>
    obtain ⟨h₁, h₂, h₃⟩ := h
    exact ⟨h₁.stable hI, h₂.trans (h₁.at_eq hS hI).symm, h₃⟩
  | commit t => exact ⟨h.1, h.2.1, (hI.own _ _ rfl).mpr h.2.2.1, h.2.2.2⟩
  | tick => exact h
  | opEnd => exact h

theorem UnitMem.stable {a : ℕ} {v : Option (BitVec w)} (hh : (g.lock (b.getLock w a)).HeldBy u)
    (h : UnitMem b g a v) : UnitMem b g' a v := by
  intro a' ha'
  have hh' : (g.lock (b.getLock w a')).HeldBy u := ha' ▸ hh
  rw [hI.mem a' hh', hI.at_held hS hh']
  exact h a' ha'

/-- A value read under version `l`, or the version is gone. -/
theorem Saw.value_stable {a : ℕ} {l : Ver} {v : BitVec w} (h : Saw b g a l)
    (hv : v = g.at b (b.stamp l.ts) a ∨ Passed b g (b.getLock w a) l) :
    v = g'.at b (b.stamp l.ts) a ∨ Passed b g' (b.getLock w a) l := by
  rcases hv with hv | hv
  · exact .inl (hv.trans (h.at_eq hS hI).symm)
  · exact .inr (hI.passed hv)

theorem PcOk.stable (hS' : SInv b P g') (h : TInv b P u g x) : PcOk b u g' x x.pc := by
  have hheld : ∀ k, Held b x.pc.phase x.wset k → (g.lock k).HeldBy u :=
    fun k hk => h.heldBy_of_held hk
  have hunit : ∀ k, UnitHeld b k x.pc → (g.lock k).HeldBy u := fun k hk => .inr ((h.unit k).mpr hk)
  have hpc := h.pc
  have hlive := h.live
  have hatt := h.att
  -- the cases in which the call in progress has local variables
  cases hp : x.pc with
  | readVal a l =>
    rw [hp] at hpc
    exact Saw.stable hI hpc
  | readLock2 a l v =>
    rw [hp] at hpc
    exact ⟨hpc.1.stable hI, hpc.1.value_stable hS hI hpc.2⟩
  | readRecheck a l v =>
    rw [hp] at hpc
    exact ⟨hpc.1.stable hI, hpc.2.1.trans (hpc.1.at_eq hS hI).symm, hpc.2.2⟩
  | readOwn a =>
    rw [hp] at hpc
    exact ⟨hpc.1, (hI.heldBy_iff _).mpr hpc.2.1, hpc.2.2⟩
  | extClock c =>
    rw [hp] at hpc
    refine ⟨hpc.1, hpc.2.1, fun a l v hc => ?_⟩
    obtain ⟨h₁, h₂, h₃⟩ := hpc.2.2 a l v hc
    exact ⟨h₁.stable hI, h₂.trans (h₁.at_eq hS hI).symm, h₃⟩
  | validate now i c =>
    rw [hp] at hpc
    obtain ⟨h₁, h₂, h₃, h₄, h₅, h₆⟩ := hpc
    refine ⟨h₁.trans hI.clock, h₂, h₃, fun j hj r hr => hI.quiet h₁ (h₄ j hj r hr),
      fun k hk => ?_, h₆.stable hS hI⟩
    have hk' := (hI.heldBy_iff k).mp hk
    rw [hI.ver_held hk']
    exact h₅ k hk'
  | writeMem a v m y =>
    rw [hp] at hpc
    obtain ⟨h₁, h₂, h₃, h₄, h₅, e, he, ha, hm, hv⟩ := hpc
    have hk : Held b x.pc.phase x.wset (b.getLock w e.addr) :=
      (hatt (by simp [hp, Pc.phase])).taken (by simp [hp, Pc.phase, LocksTaken, h₁]) he
        (by simp [hp, Pc.phase, Remains])
    have hmem : g'.mem a = g.mem a := hI.mem a (ha ▸ hheld _ hk)
    exact ⟨h₁, h₂, h₃, h₄, hmem ▸ h₅, e, he, ha, hm, hmem ▸ hv⟩
  | pub t i =>
    rw [hp] at hpc hheld
    exact PubOk.stable hS hI hS' hheld hpc
  | pubStore t i v =>
    rw [hp] at hpc
    obtain ⟨h₁, h₂, e, he, hv⟩ := hpc
    have hk : Held b x.pc.phase x.wset (b.getLock w e.addr) :=
      (hatt (by simp [hp, Pc.phase])).taken (by simp [hp, Pc.phase, LocksTaken]) he
        (by simp [hp, Pc.phase, Remains, h₁])
    refine ⟨h₁, h₂.stable hS hI hS' (by rw [hp] at hheld; exact hheld), e, he, ?_⟩
    rw [hI.at_held hS (hheld _ hk)]
    exact hv
  | pubRel t i =>
    rw [hp] at hpc hheld
    exact PubOk.stable hS hI hS' hheld hpc
  | rb r i t =>
    rw [hp] at hpc hheld
    exact UndoOk.stable hS hI hheld hpc
  | rbDrop r i t =>
    rw [hp] at hpc hheld
    exact ⟨hpc.1, UndoOk.stable hS hI hheld hpc.2⟩
  | unitStore a v =>
    rw [hp] at hpc hunit
    exact UnitMem.stable (v := none) hS hI (hunit _ rfl) hpc
  | unitInc a v =>
    rw [hp] at hpc hunit
    exact UnitMem.stable (v := some v) hS hI (hunit _ rfl) hpc
  | unitRel a v t =>
    rw [hp] at hpc hunit
    obtain ⟨h₁, h₂, h₃, h₄, h₅⟩ := hpc
    refine ⟨h₁.stable hS hI (hunit _ rfl), (hI.own _ _ rfl).mpr h₂, h₃, ?_,
      fresh_stable hI hS' h₂ h₅⟩
    rw [hI.ver_held (hunit _ rfl)]
    exact h₄
  | unitLdVal a l =>
    rw [hp] at hpc
    exact Saw.stable hI hpc
  | unitLdLock2 a l v =>
    rw [hp] at hpc
    exact ⟨hpc.1.stable hI, hpc.1.value_stable hS hI hpc.2⟩
  | _ =>
    rw [hp] at hpc
    exact hpc

/-- The invariant of a thread survives the steps of the others. -/
theorem TInv.stable (hS' : SInv b P g')
    (hb : ∀ A ∈ g'.hist, A ∈ g.hist ∨ x.began < A.finished) (h : TInv b P u g x) :
    TInv b P u g' x where
  own k := by
    rw [← h.own k]
    exact exists_congr fun i => hI.entry_iff k i
  unit k := (hI.unit_iff k).trans (h.unit k)
  settled hs ho hc ht := (h.settled ((hI.own _ _ ho).mp hs) ho hc ht).trans (hI.ver_le _)
  fate hs := by
    rcases h.fate ((hI.own _ _ rfl).mp hs) with hover | hc
    · exact .inl (hover.mono hI.histKeep)
    · exact .inr hc
  began := h.began.trans hI.time
  att hp := (h.att hp).stable hS (hI.keeps fun _ hk => h.heldBy_of_held hk) hb
  live hp :=
    (h.live hp).stable hS hI.toFrame (fun _ hk => h.heldBy_of_held (hp.symm ▸ hk))
      (h.att (by rw [hp]; simp)).snap_le
  whole := h.whole
  pc := PcOk.stable hS hI hS' h

end Stable

/-- The invariant survives the ghost step counter. -/
theorem TInv.tick (hS : SInv b P g) (h : TInv b P tid g x) : TInv b P tid g.tick x :=
  h.stable hS (interf_tick tid g) hS.tick fun _ hA => .inl hA

end TinyStm
