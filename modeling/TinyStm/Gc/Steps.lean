import TinyStm.Gc.Ops

/-!
# The steps of the collector

Every step keeps the invariant of the shared state and of the thread that takes it,
and leaves the others what they rely on.
-/

namespace TinyStm.Gc

open Interleave Function

variable {ι : Type*} [Fintype ι] {fwd : Prop} {g g' : Threads ι} {i j : ι} {k : ℕ}
  {home : Option ℕ} {pc : Pc} {ys : ι → Local}

structure StepOk (fwd : Prop) (ys : ι → Local) (i : ι) (g g' : Threads ι) (x : Local) : Prop where
  shared : SharedOk fwd g'
  loc : LocalOk fwd i g' x
  rely : ∀ j, j ≠ i → Rely fwd j (ys j) g g'

omit [Fintype ι] in
theorem Rely.refl {y : Local} (hc : g.closing ≠ some j) : Rely fwd j y g g where
  slot _ _ := rfl
  owns _ := id
  active := rfl
  clock := le_rfl
  mine := rfl
  gen _ := le_rfl
  pub _ _ := rfl
  held _ _ _ _ h₁ h₂ := ⟨h₁, h₂⟩
  floor _ _ _ f' hf := .inl ⟨f', hf, le_rfl⟩
  used _ := id
  closing := ⟨hc, hc⟩

omit [Fintype ι] in
/-- A step on one slot, which is the thread's own or nobody's. -/
theorem Rely.of_slot {y : Local} {s : Slot ι} (hslots : g'.slots = update g.slots k s)
    (hown : ∀ l, (g.slots k).owner = some l → l = i) (hown' : ∀ l, s.owner = some l → l = i) (hactive : g'.active = g.active)
    (hclock : g'.clock = g.clock) (hclosing : g'.closing = g.closing) (hc : g.closing ≠ some j)
    (hmine : g'.gen j = g.gen j) (hgen : ∀ l, g.gen l ≤ g'.gen l)
    (hpub : ∀ l, g'.gen l = g.gen l → g'.pub l = g.pub l)
    (hheld : g'.gen i = g.gen i → ∀ f, (g.slots k).floor = some f →
      s.owner = (g.slots k).owner ∧ s.floor = some f)
    (hfloor : fwd → y.pc.sweeping = true → ∀ f', s.floor = some f' →
      (∃ f, (g.slots k).floor = some f ∧ f ≤ f') ∨ g.clock ≤ f')
    (hused : (g.slots k).used ≠ .null → s.used ≠ .null) (hj : j ≠ i) : Rely fwd j y g g' where
  slot k' hk' := by
    have hne : k' ≠ k := by
      rintro rfl
      exact hj (hown j hk')
    rw [hslots, update_of_ne hne]
  owns k' hk' := by
    rw [hslots] at hk'
    have hne : k' ≠ k := by
      rintro rfl
      rw [update_self] at hk'
      exact hj (hown' j hk')
    rwa [update_of_ne hne] at hk'
  active := by rw [hactive]
  clock := hclock.ge
  mine := hmine
  gen := hgen
  pub := hpub
  held l hl k' f ho hf := by
    rw [hslots]
    by_cases hk : k' = k
    · subst hk
      obtain rfl := hown l ho
      rw [update_self, (hheld hl f hf).1]
      exact ⟨ho, (hheld hl f hf).2⟩
    · rw [update_of_ne hk]
      exact ⟨ho, hf⟩
  floor hw hy k' f' hf := by
    rw [hslots] at hf
    by_cases hk : k' = k
    · subst hk
      rw [update_self] at hf
      exact hfloor hw hy f' hf
    · rw [update_of_ne hk] at hf
      exact .inl ⟨f', hf, le_rfl⟩
  used k' hk' := by
    rw [hslots]
    by_cases hk : k' = k
    · subst hk
      rw [update_self]
      exact hused hk'
    · rwa [update_of_ne hk]
  closing := ⟨hc, by rwa [hclosing]⟩

/-- A step that changes nothing shared. -/
theorem StepOk.stay (hg : SharedOk fwd g) (hc : g.closing = none)
    (hl : LocalOk fwd i g ⟨home, pc⟩) {pc' : Pc}
    (hcount : Local.counted ⟨home, pc'⟩ = Local.counted ⟨home, pc⟩) (hholds : pc'.holds = pc.holds)
    (hpc : PcOk fwd g i home pc') : StepOk fwd ys i g g ⟨home, pc'⟩ where
  shared := hg
  loc :=
    { home := hl.home
      owns := fun k hk => hholds ▸ hl.owns k hk
      pub := hl.pub
      active := hl.active.trans hcount.symm
      closing := fun h => by simp [hc] at h
      pc := hpc }
  rely j _ := .refl (by simp [hc])

omit [Fintype ι] in
/-- The home of a thread stays as it is when the slot the step is about keeps what it
publishes. -/
theorem LocalOk.home_update (hl : LocalOk fwd i g ⟨home, pc⟩) {s : Slot ι}
    (hs : (g.slots k).owner = some i → ∀ f, (g.slots k).floor = some f →
      s.owner = some i ∧ ∃ f', s.floor = some f')
    (k' : ℕ) (hk' : home = some k') : k' < maxGcThreads ∧
      (update g.slots k s k').owner = some i ∧ ∃ f, (update g.slots k s k').floor = some f := by
  obtain ⟨hlt, ho, f, hf⟩ := hl.home k' hk'
  refine ⟨hlt, ?_⟩
  by_cases hk : k' = k
  · subst hk
    rw [update_self]
    exact hs ho f hf
  · rw [update_of_ne hk]
    exact ⟨ho, f, hf⟩

omit [Fintype ι] in
theorem LocalOk.owns_update (hl : LocalOk fwd i g ⟨home, pc⟩) {s : Slot ι} {x : Local}
    (hs : s.owner = some i → x.home = some k ∨ x.pc.holds = some k)
    (hrest : ∀ k', k' ≠ k → home = some k' ∨ pc.holds = some k' →
      x.home = some k' ∨ x.pc.holds = some k')
    (k' : ℕ) (hk' : (update g.slots k s k').owner = some i) :
    x.home = some k' ∨ x.pc.holds = some k' := by
  by_cases hk : k' = k
  · subst hk
    rw [update_self] at hk'
    exact hs hk'
  · rw [update_of_ne hk] at hk'
    exact hrest k' hk (hl.owns k' hk')

theorem StepOk.take (hg : SharedOk fwd g) (hc : g.closing = none)
    (hl : LocalOk fwd i g ⟨home, pc⟩) (hk : k < maxGcThreads)
    (hto : (g.slots k).used ≠ .null ∨ UsedTo g k) (hb : (g.slots k).used ≠ .busy) {pc' : Pc}
    (hcount : Local.counted ⟨home, pc'⟩ = Local.counted ⟨home, pc⟩) (hold : pc.holds = none)
    (hnew : pc'.holds = some k) (hpc : Bare (take g i k) i k → PcOk fwd (take g i k) i home pc') :
    StepOk fwd ys i g (take g i k) ⟨home, pc'⟩ := by
  have hnone := hg.owner_eq_none hb
  have hfl : (g.slots k).floor = none := by
    by_contra hf
    obtain ⟨f, hf⟩ := Option.ne_none_iff_exists'.mp hf
    exact ((hg.slot k).floor f hf).1 hnone
  refine ⟨hg.take hk hto hb, ⟨hl.home_update (by simp [hnone]),
    hl.owns_update (fun _ => .inr hnew) (by simp +contextual [hold]), hl.pub,
    hl.active.trans hcount.symm, fun h => absurd (hc.symm.trans h) (by simp), hpc ?_⟩,
    fun j hj => ?_⟩
  · simp [Bare, Gc.take, Threads.setSlot, hk, hfl]
  · exact Rely.of_slot (i := i) rfl (by simp [hnone]) (by simp) rfl rfl rfl (by simp [hc]) rfl
      (fun _ => le_rfl) (fun _ _ => rfl) (by simp [hfl]) (by simp [hfl]) (by simp) hj

theorem StepOk.initStore (hg : SharedOk fwd g) (hc : g.closing = none) {ts : ℕ}
    (hl : LocalOk fwd i g ⟨none, .initStore k ts⟩) :
    StepOk fwd ys i g (g.setSlot k { g.slots k with ts := ts, floor := some g.clock })
      ⟨some k, .rest⟩ := by
  obtain ⟨-, ⟨hk, hown, hfl⟩, hts⟩ := hl.pc
  refine ⟨hg.initStore ⟨hk, hown, hfl⟩ hts, ⟨?_, hl.owns_update (fun _ => .inl rfl) ?_, by simp,
    hl.active, fun h => absurd (hc.symm.trans h) (by simp), trivial⟩, fun j hj => ?_⟩
  · rintro k' ⟨⟩
    simp [Threads.setSlot, hk, hown]
  · intro k' hne hk'
    simp only [Pc.holds, reduceCtorEq, Option.some.injEq, false_or] at hk'
    exact absurd hk'.symm hne
  · exact Rely.of_slot (i := i) rfl (by simp [hown]) (by simp [hown]) rfl rfl rfl (by simp [hc]) rfl
      (fun _ => le_rfl) (fun _ _ => rfl) (by simp [hfl])
      (fun _ _ f hf => .inr (Option.some.inj hf).le) (by simp) hj

/-- A slot in which nothing is published is given back. -/
theorem StepOk.release (hg : SharedOk fwd g) (hc : g.closing = none)
    (hl : LocalOk fwd i g ⟨home, pc⟩) (hk : Bare g i k) {pc' : Pc}
    (hcount : Local.counted ⟨home, pc'⟩ = Local.counted ⟨home, pc⟩) (hold : pc.holds = some k)
    (hpc : PcOk fwd (release g k) i home pc') :
    StepOk fwd ys i g (release g k) ⟨home, pc'⟩ := by
  obtain ⟨hlt, hown, hfl⟩ := hk
  refine ⟨hg.release ⟨hlt, hown, hfl⟩, ⟨hl.home_update (by simp [hfl]),
    hl.owns_update (by simp) ?_, hl.pub, hl.active.trans hcount.symm,
    fun h => absurd (hc.symm.trans h) (by simp), hpc⟩, fun j hj => ?_⟩
  · intro k' hne hk'
    rw [hold, Option.some.injEq] at hk'
    exact .inl (hk'.resolve_right hne.symm)
  · have hrel : released (g.slots k) ≠ .null := by
      unfold released
      split <;> simp
    exact Rely.of_slot (i := i) rfl (by simp [hown]) (by simp) rfl rfl rfl (by simp [hc]) rfl
      (fun _ => le_rfl) (fun _ _ => rfl) (by simp [hfl]) (by simp [hfl]) (fun _ => hrel) hj

/-- The list of a slot changes, and nothing that others read of it. -/
theorem StepOk.setRegions (hg' : SharedOk fwd g') (hc : g.closing = none)
    (hl : LocalOk fwd i g ⟨home, pc⟩) {s : Slot ι} (hslots : g'.slots = update g.slots k s)
    (hown : (g.slots k).owner = some i) (hso : s.owner = some i)
    (hsf : s.floor = (g.slots k).floor) (hsu : s.used = (g.slots k).used)
    (hsame : g'.active = g.active ∧ g'.clock = g.clock ∧ g'.closing = g.closing ∧
      g'.gen = g.gen ∧ g'.pub = g.pub) {pc' : Pc}
    (hcount : Local.counted ⟨home, pc'⟩ = Local.counted ⟨home, pc⟩) (hholds : pc'.holds = pc.holds)
    (hpc : PcOk fwd g' i home pc') : StepOk fwd ys i g g' ⟨home, pc'⟩ := by
  obtain ⟨ha, hcl, hcs, hgen, hpub⟩ := hsame
  refine ⟨hg', ⟨?_, ?_, ?_, ?_, ?_, hpc⟩, fun j hj => ?_⟩
  · rw [hslots]
    exact hl.home_update fun _ f hf => ⟨hso, f, hsf.trans hf⟩
  · rw [hslots]
    exact hl.owns_update (fun _ => hholds ▸ hl.owns k hown) fun k' _ hk' => hholds ▸ hk'
  · rw [hpub]
    exact hl.pub
  · rw [ha]
    exact hl.active.trans hcount.symm
  · rw [hcs, hc]
    exact fun h => absurd h (by simp)
  · exact Rely.of_slot (i := i) hslots (by simp [hown]) (by simp [hso]) ha hcl hcs (by simp [hc])
      (by rw [hgen]) (by simp [hgen]) (by simp [hpub])
      (fun _ f hf => ⟨hso.trans hown.symm, hsf.trans hf⟩)
      (fun _ _ f hf => .inl ⟨f, hsf ▸ hf, le_rfl⟩) (by simp [hsu]) hj

/-! ## The scan -/

omit [Fintype ι] in
theorem ScanOk.advance {w : Work} {pos m m' : ℕ} (h : ScanOk fwd g w pos m) (hm : m' ≤ m)
    (hpos : ∀ f, (g.slots pos).floor = some f → m' ≤ f) : ScanOk fwd g w (pos + 1) m' := by
  cases w with
  | own k =>
    intro b hb l n hn hgen s hs
    rcases h b hb l n hn hgen s hs with hle | ⟨k', hp, ho, hf⟩
    · exact .inl (hm.trans hle)
    · rcases hp.eq_or_lt with rfl | hlt
      · exact .inl (hpos s hf)
      · exact .inr ⟨k', hlt, ho, hf⟩
  | all k =>
    intro hw
    refine ⟨hm.trans (h hw).1, fun k' f hf => ?_⟩
    rcases (h hw).2 k' f hf with hle | hp
    · exact .inl (hm.trans hle)
    · rcases hp.eq_or_lt with rfl | hlt
      · exact .inl (hpos f hf)
      · exact .inr hlt

omit [Fintype ι] in
/-- Nothing is published from `pos` on. -/
theorem ScanOk.last {w : Work} {pos m : ℕ} (h : ScanOk fwd g w pos m)
    (hpos : ∀ k f, (g.slots k).floor = some f → k < pos) : ScanOk fwd g w maxGcThreads m := by
  cases w with
  | own k =>
    intro b hb l n hn hgen s hs
    rcases h b hb l n hn hgen s hs with hle | ⟨k', hp, ho, hf⟩
    · exact .inl hle
    · exact absurd (hpos k' s hf) (not_lt.mpr hp)
  | all k =>
    intro hw
    refine ⟨(h hw).1, fun k' f hf => ?_⟩
    rcases (h hw).2 k' f hf with hle | hp
    · exact .inl hle
    · exact absurd (hpos k' f hf) (not_lt.mpr hp)

theorem OwnLow.start (hg : SharedOk fwd g) (k m : ℕ) : OwnLow g k 0 m := by
  intro b _ l n _ _ s hs
  obtain ⟨-, k', ho, hf⟩ := hg.pub l s hs
  exact .inr ⟨k', Nat.zero_le k', ho, hf⟩

/-- The break at the first slot that was never used. -/
theorem SharedOk.floor_lt_of_null (hg : SharedOk fwd g) {pos : ℕ}
    (hnull : (g.slots pos).used = .null) (k f : ℕ) (hf : (g.slots k).floor = some f) : k < pos := by
  have hk := (hg.lt_of_floor hf).2
  rcases lt_trichotomy k pos with hlt | rfl | hlt
  · exact hlt
  · exact absurd hnull hk
  · exact absurd hnull (hg.contiguous k pos hlt hk)

/-- A block of a region below the minimum has no guard left. -/
theorem ScanOk.unguarded (hg : SharedOk fwd g) {w : Work} {m : ℕ}
    (h : ScanOk fwd g w maxGcThreads m) (hw : fwd) {r : Region ι}
    (hr : r ∈ (g.slots w.slot).regions) (hts : r.ts < m) {b : Block ι} (hb : b ∈ r.blocks)
    {l : ι} {n : ℕ} (hn : b.guards l = some n) : n < g.gen l := by
  have hmem : b ∈ (g.slots w.slot).blocks := List.mem_flatMap.mpr ⟨r, hr, hb⟩
  obtain ⟨hle, hs⟩ := hg.guards _ b hmem l n hn
  refine lt_of_le_of_ne hle fun hne => ?_
  -- otherwise the scan has seen the epoch of the guard
  obtain ⟨s, hs, hse⟩ := hs hne.symm
  have hbr := (hg.slot _).aged r hr b hb
  obtain ⟨-, k', ho, hf⟩ := hg.pub l s hs
  have hms : m ≤ s := by
    cases w with
    | own k =>
      rcases h b hmem l n hn hne.symm s hs with hms | ⟨k₂, hp, -, hf₂⟩
      · exact hms
      · exact absurd (hg.lt_of_floor hf₂).1 (not_lt.mpr hp)
    | all k =>
      rcases (h hw).2 k' s hf with hms | hp
      · exact hms
      · exact absurd (hg.lt_of_floor hf).1 (not_lt.mpr hp)
  omega

omit [Fintype ι] in
theorem ScanOk.pop {w : Work} {m : ℕ} {rs : List (Region ι)} {freed : List (Block ι)}
    (h : ScanOk fwd g w maxGcThreads m) (hsub : ∀ r ∈ rs, r ∈ (g.slots w.slot).regions) :
    ScanOk fwd { g.setSlot w.slot { g.slots w.slot with regions := rs } with freed := freed }
      w maxGcThreads m := by
  have hsame : ∀ k, (update g.slots w.slot { g.slots w.slot with regions := rs } k).owner =
      (g.slots k).owner ∧ (update g.slots w.slot { g.slots w.slot with regions := rs } k).floor =
      (g.slots k).floor :=
    (forall_update_iff g.slots fun k t =>
      t.owner = (g.slots k).owner ∧ t.floor = (g.slots k).floor).mpr
      ⟨⟨rfl, rfl⟩, fun _ _ => ⟨rfl, rfl⟩⟩
  cases w with
  | own k =>
    intro b hb l n hn hgen s hs
    have hb : b ∈ (update g.slots k { g.slots k with regions := rs } k).blocks := hb
    rw [update_self] at hb
    obtain ⟨r, hr, hb⟩ := List.mem_flatMap.mp hb
    have hmem : b ∈ (g.slots k).blocks := List.mem_flatMap.mpr ⟨r, hsub r hr, hb⟩
    rcases h b hmem l n hn hgen s hs with hle | ⟨k', hp, ho, hf⟩
    · exact .inl hle
    · exact .inr ⟨k', hp, (hsame k').1.trans ho, (hsame k').2.trans hf⟩
  | all k =>
    intro hw
    exact ⟨(h hw).1, fun k' f hf => (h hw).2 k' f ((hsame k').2.symm.trans hf)⟩

/-! ## The steps of a call -/

omit [Fintype ι] in
theorem LocalOk.work (hl : LocalOk fwd i g ⟨home, pc⟩) {w : Work} (hw : WorkOk g i home w) :
    w.slot < maxGcThreads ∧ (g.slots w.slot).owner = some i := by
  cases w with
  | own k => exact ⟨(hl.home k hw).1, (hl.home k hw).2.1⟩
  | all k => exact ⟨hw.1, hw.2.1⟩

theorem StepOk.gcFree (hg : SharedOk fwd g) (hc : g.closing = none) {addr epoch : ℕ}
    (hl : LocalOk fwd i g ⟨some k, .free addr epoch⟩) (freq : Option ℕ) :
    StepOk fwd ys i g (gcFree freq g k addr epoch).1 ⟨some k, (gcFree freq g k addr epoch).2⟩ := by
  obtain ⟨hk, hown, -⟩ := hl.home k rfl
  refine .setRegions (hg.gcFree hk hc freq addr epoch) hc hl rfl hown hown rfl rfl
    ⟨rfl, rfl, rfl, rfl, rfl⟩ (by simp [Local.counted]) ?_ ?_
  · rw [Gc.gcFree]
    dsimp only
    split <;> rfl
  · rw [Gc.gcFree]
    dsimp only
    split <;> trivial

theorem StepOk.clean (hg : SharedOk fwd g) (hc : g.closing = none) {w : Work} {m : ℕ}
    (hl : LocalOk fwd i g ⟨home, .clean w m⟩) :
    StepOk fwd ys i g (cleanStep g w m).1 ⟨home, (cleanStep g w m).2⟩ := by
  obtain ⟨hw, hs⟩ := hl.pc
  obtain ⟨hk, hown⟩ := hl.work hw
  have hdone : StepOk fwd ys i g g ⟨home, w.done m⟩ := by
    cases w with
    | own k => exact .stay hg hc hl rfl rfl trivial
    | all k => exact .stay hg hc hl rfl rfl ⟨hw, .inr hs⟩
  unfold cleanStep
  dsimp only
  split
  · exact hdone
  · next r rs hregs =>
    split
    · next hts =>
      have hcut := blocks_cons (g.slots w.slot) r rs hregs
      have hsub : ∀ r' ∈ rs, r' ∈ (g.slots w.slot).regions := by
        rw [hregs]
        exact fun r' hr' => List.mem_cons_of_mem r hr'
      refine .setRegions (hg.pop hk hsub hcut ?_ ?_) hc hl rfl hown hown rfl rfl
        ⟨rfl, rfl, rfl, rfl, rfl⟩ rfl rfl ⟨?_, hs.pop hsub⟩
      · exact fun h => absurd hc (hg.closed h).1
      · intro hfwd b hb l n hn
        exact hs.unguarded hg hfwd (by rw [hregs]; exact List.mem_cons_self) hts hb hn
      · cases w with
        | own k => exact hw
        | all k => simpa [WorkOk, Bare, Work.slot, Threads.setSlot] using hw
    · exact hdone

variable [DecidableEq ι]

theorem StepOk.exitDec (hg : SharedOk fwd g) (hc : g.closing = none)
    (hl : LocalOk fwd i g ⟨home, .exitDec⟩) :
    StepOk fwd ys i g
      { g with nbActive := g.nbActive - 1, active := update g.active i false } ⟨home, .rest⟩ := by
  have hh : home = none := hl.pc
  subst hh
  refine ⟨hg.exitDec hl.active (hl.pub rfl), ⟨by simp, hl.owns, hl.pub, by simp [Local.counted],
    fun h => absurd (hc.symm.trans h) (by simp), trivial⟩, fun j hj => ?_⟩
  exact { Rely.refl (g := g) (y := ys j) (by simp [hc]) with
    active := update_of_ne hj false g.active }

theorem StepOk.init (hg : SharedOk fwd g) (hc : g.closing = none)
    (hl : LocalOk fwd i g ⟨none, .rest⟩) :
    StepOk fwd ys i g { g with nbActive := g.nbActive + 1, active := update g.active i true }
      ⟨none, .initLoad 0⟩ := by
  refine ⟨hg.enter hl.active, ⟨by simp, hl.owns, hl.pub, by simp [Local.counted],
    fun h => absurd (hc.symm.trans h) (by simp), rfl, by simp [maxGcThreads], ?_⟩, fun j hj => ?_⟩
  · intro k hk
    cases hk
  · exact { Rely.refl (g := g) (y := ys j) (by simp [hc]) with
      active := update_of_ne hj true g.active }

theorem StepOk.setEpoch (hg : SharedOk fwd g) (hc : g.closing = none)
    (hl : LocalOk fwd i g ⟨some k, .rest⟩) {epoch : ℕ}
    (hep : fwd → (∃ j, (ys j).pc.sweeping = true) → ∀ f ∈ (g.slots k).floor, f ≤ epoch) :
    StepOk fwd ys i g (setEpoch g i k epoch) ⟨some k, .rest⟩ := by
  obtain ⟨hk, hown, f₀, hf₀⟩ := hl.home k rfl
  refine ⟨hg.setEpoch hown hl.active epoch, ⟨hl.home_update fun _ _ _ => ⟨hown, epoch, rfl⟩,
    hl.owns_update (fun _ => .inl rfl) fun _ _ => id, by simp, hl.active,
    fun h => absurd (hc.symm.trans h) (by simp), trivial⟩, fun j hj => ?_⟩
  refine Rely.of_slot (i := i) rfl (by simp [hown]) (by simp [hown]) rfl rfl rfl (by simp [hc])
    (update_of_ne hj _ g.gen) (gen_update_le g i) (fun l => pub_update_of_gen g i l _) ?_ ?_ id hj
  · exact fun h => absurd h (by simp [Gc.setEpoch])
  · rintro hw hy f ⟨⟩
    exact .inl ⟨f₀, hf₀, hep hw ⟨j, hy⟩ f₀ hf₀⟩

theorem StepOk.exit (hg : SharedOk fwd g) (hc : g.closing = none)
    (hl : LocalOk fwd i g ⟨some k, .rest⟩) :
    StepOk fwd ys i g (leave g i k) ⟨none, .exitRel k⟩ := by
  obtain ⟨hk, hown, f₀, hf₀⟩ := hl.home k rfl
  refine ⟨hg.leave hown hl.active, ⟨by simp, hl.owns_update (fun _ => .inr rfl) ?_,
    fun _ => by simp [leave], hl.active, fun h => absurd (hc.symm.trans h) (by simp), rfl, hk, ?_⟩,
    fun j hj => ?_⟩
  · intro k' hne hk'
    simp only [Pc.holds, Option.some.injEq, reduceCtorEq, or_false] at hk'
    exact absurd hk'.symm hne
  · simp [leave, Threads.setSlot, hown]
  · refine Rely.of_slot (i := i) rfl (by simp [hown]) (by simp [hown]) rfl rfl rfl (by simp [hc])
      (update_of_ne hj _ g.gen) (gen_update_le g i) (fun l => pub_update_of_gen g i l _) ?_
      (by simp) id hj
    exact fun h => absurd h (by simp [leave])

/-! ## `gc_exit` -/

omit [DecidableEq ι] in
/-- When `nb_active` is 0 and no other call is in progress, no slot is taken. -/
theorem SharedOk.owner_none_of_rest (hg : SharedOk fwd g) (hl : ∀ j, LocalOk fwd j g (ys j))
    (hactive : g.nbActive = 0) (hrest : ∀ j, (ys j).pc = .rest) (k : ℕ) :
    (g.slots k).owner = none := by
  by_contra ho
  obtain ⟨j, hj⟩ := Option.ne_none_iff_exists'.mp ho
  have hin : g.active j = false := by
    have hcard := hg.count
    rw [hactive, eq_comm, Finset.card_eq_zero, Finset.filter_eq_empty_iff] at hcard
    exact Bool.not_eq_true _ ▸ hcard (Finset.mem_univ j)
  have hcnt := (hl j).active
  rw [hin, Local.counted, hrest j] at hcnt
  have howns := (hl j).owns k hj
  rw [hrest j] at howns
  rcases howns with hh | hh
  · simp [hh] at hcnt
  · cases hh

theorem StepOk.gcExit (hg : SharedOk fwd g) (hl : ∀ j, LocalOk fwd j g (ys j))
    (hx : ys i = ⟨home, .rest⟩) (hc : g.closing = none) (hactive : g.nbActive = 0)
    (hrest : ∀ j, j ≠ i → (ys j).pc = .rest) :
    StepOk fwd ys i g { g with closing := some i } ⟨home, .gcExit 0⟩ := by
  have hi := hl i
  rw [hx] at hi
  have hown := hg.owner_none_of_rest hl hactive fun j => by
    by_cases hj : j = i
    · rw [hj, hx]
    · exact hrest j hj
  refine ⟨{ hg with closed := fun h => ⟨by simp, (hg.closed h).2⟩ }, ⟨hi.home, hi.owns, hi.pub,
    hi.active, fun _ => .inr ⟨0, rfl⟩, rfl, hown, by simp⟩, fun j hj => ?_⟩
  exact { Rely.refl (g := g) (y := ys j) (by simp [hc]) with
    closing := ⟨by simp [hc], by simpa using hj.symm⟩ }

omit [DecidableEq ι] in
/-- `gc_exit` empties one slot after the other. -/
theorem StepOk.drain (hg : SharedOk fwd g) (hl : LocalOk fwd i g ⟨home, .gcExit k⟩)
    (hk : k < maxGcThreads) :
    StepOk fwd ys i g { g.setSlot k { g.slots k with regions := [] } with
      freed := g.freed ++ (g.slots k).regions.flatMap Region.blocks } ⟨home, .gcExit (k + 1)⟩ := by
  obtain ⟨hc, hown, hdone⟩ := hl.pc
  have hfree : ∀ b ∈ (g.slots k).blocks, ∀ j n, b.guards j = some n → n < g.gen j := by
    intro b hb j n hn
    obtain ⟨hle, hs⟩ := hg.guards k b hb j n hn
    refine lt_of_le_of_ne hle fun hne => ?_
    obtain ⟨s, hs, -⟩ := hs hne.symm
    obtain ⟨-, k', ho, -⟩ := hg.pub j s hs
    simp [hown k'] at ho
  have hsame : ∀ k', (update g.slots k { g.slots k with regions := [] } k').owner = none :=
    (forall_update_iff g.slots fun _ t => t.owner = none).mpr ⟨hown k, fun k' _ => hown k'⟩
  refine ⟨hg.pop hk (by simp) (by simp [Slot.blocks]) (fun _ => rfl) (fun _ => hfree),
    ⟨hl.home_update (by simp [hown]), ?_, hl.pub, hl.active, fun _ => .inr ⟨k + 1, rfl⟩, hc,
    hsame, ?_⟩, fun j hj => ?_⟩
  · intro k' hk'
    exact absurd ((hsame k').symm.trans hk') (by simp)
  · intro k' hk'
    show (update g.slots k { g.slots k with regions := [] } k').regions = []
    by_cases hkk : k' = k
    · subst hkk
      rw [update_self]
    · rw [update_of_ne hkk]
      exact hdone k' (by omega)
  · exact Rely.of_slot (i := i) rfl (by simp [hown]) (by simp [hown]) rfl rfl rfl
      (by simpa [hc] using hj.symm) rfl (fun _ => le_rfl) (fun _ _ => rfl)
      (fun _ f hf => ⟨rfl, hf⟩) (fun _ _ f hf => .inl ⟨f, hf, le_rfl⟩) id hj

omit [DecidableEq ι] in
theorem StepOk.close (hg : SharedOk fwd g) (hl : LocalOk fwd i g ⟨home, .gcExit k⟩)
    (hk : ¬k < maxGcThreads) : StepOk fwd ys i g { g with closed := true } ⟨home, .rest⟩ := by
  obtain ⟨hc, hown, hdone⟩ := hl.pc
  refine ⟨{ hg with closed := fun _ => ⟨by simp [hc], fun k' => ?_⟩ }, ⟨hl.home, hl.owns, hl.pub,
    hl.active, fun _ => .inl rfl, trivial⟩, fun j hj => ?_⟩
  · by_cases hk' : k' < maxGcThreads
    · exact hdone k' (by omega)
    · exact ((hg.slot k').bound (not_lt.mp hk')).2
  · exact { Rely.refl (g := g) (y := ys j) (by simpa [hc] using hj.symm) with }

end TinyStm.Gc
