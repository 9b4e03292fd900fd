import Mathlib.Data.List.Count
import TinyStm.Gc.Inv

/-!
# The operations of the collector keep the invariant

An operation changes one slot. Those that keep the region list are alike
(`SharedOk.setSlot`), and so are those that only change it (`SharedOk.setRegions`):
a block is added by `gc_free` and goes from the list to the freed blocks later.
-/

namespace TinyStm.Gc

open Interleave Function

variable {ι : Type*} {fwd : Prop} {g : Threads ι} {i j : ι} {k : ℕ}

@[simp] theorem countCall_nil (n : ℕ) : countCall n ([] : List (Block ι)) = 0 := rfl

@[simp] theorem countCall_append (n : ℕ) (bs bs' : List (Block ι)) :
    countCall n (bs ++ bs') = countCall n bs + countCall n bs' :=
  List.countP_append

@[simp] theorem countCall_cons (n : ℕ) (b : Block ι) (bs : List (Block ι)) :
    countCall n (b :: bs) = countCall n bs + if b.call = n then 1 else 0 := by
  simp [countCall, List.countP_cons]

theorem pending_update (slots : ℕ → Slot ι) (hk : k < maxGcThreads) (s : Slot ι) (n : ℕ) :
    pending (update slots k s) n + countCall n (slots k).blocks =
      pending slots n + countCall n s.blocks :=
  sum_update_add _ (fun s : Slot ι => countCall n s.blocks) slots (Finset.mem_range.mpr hk) s

theorem BlockOk.mono {b : Block ι} {g g' : Threads ι} (h : BlockOk g b)
    (hgen : ∀ l, g.gen l ≤ g'.gen l) (hpub : ∀ l, g'.gen l = g.gen l → g'.pub l = g.pub l) :
    BlockOk g' b := by
  intro l n hn
  obtain ⟨hle, hs⟩ := h l n hn
  refine ⟨hle.trans (hgen l), fun hl => ?_⟩
  have heq : g'.gen l = g.gen l := by
    have := hgen l
    omega
  rw [hpub l heq]
  exact hs (heq.symm.trans hl)

section Slots

variable [Fintype ι]

theorem SharedOk.owner_eq_none (hg : SharedOk fwd g) (h : (g.slots k).used ≠ .busy) :
    (g.slots k).owner = none :=
  of_not_not fun ho => h ((hg.slot k).busy.mpr ho)

theorem SharedOk.lt_of_owner (hg : SharedOk fwd g) (h : (g.slots k).owner = some i) :
    k < maxGcThreads ∧ (g.slots k).used ≠ .null := by
  have hb : (g.slots k).used = .busy := (hg.slot k).busy.mpr (by simp [h])
  refine ⟨not_le.mp fun hle => ?_, by simp [hb]⟩
  rw [((hg.slot k).bound hle).1] at hb
  cases hb

theorem SharedOk.lt_of_floor (hg : SharedOk fwd g) {f : ℕ} (h : (g.slots k).floor = some f) :
    k < maxGcThreads ∧ (g.slots k).used ≠ .null := by
  obtain ⟨l, hl⟩ := Option.ne_none_iff_exists'.mp ((hg.slot k).floor f h).1
  exact hg.lt_of_owner hl

/-- A slot is taken, given back or given another epoch. -/
theorem SharedOk.setSlot (hg : SharedOk fwd g) {s : Slot ι} (hk : k < maxGcThreads)
    (hto : (g.slots k).used ≠ .null ∨ UsedTo g k) (hused : s.used ≠ .null)
    (hbusy : s.used = .busy ↔ s.owner ≠ none)
    (hts : s.ts ≤ epochMax) (hfloor : ∀ f, s.floor = some f → s.owner ≠ none ∧ s.ts ≤ f)
    (hreg : s.regions = (g.slots k).regions) {p : ι → Option ℕ} {q : ι → ℕ}
    (hpub : ∀ l f, p l = some f → g.active l = true ∧
      ∃ k', (update g.slots k s k').owner = some l ∧ (update g.slots k s k').floor = some f)
    (hgen : ∀ l, g.gen l ≤ q l) (hkeep : ∀ l, q l = g.gen l → p l = g.pub l) :
    SharedOk fwd { g.setSlot k s with pub := p, gen := q } := by
  have hblocks : ∀ k', (update g.slots k s k').regions = (g.slots k').regions :=
    (forall_update_iff g.slots fun k' t => t.regions = (g.slots k').regions).mpr
      ⟨hreg, fun _ _ => rfl⟩
  have hnull : ∀ k', (g.slots k').used ≠ .null → (update g.slots k s k').used ≠ .null :=
    (forall_update_iff g.slots fun k' t => (g.slots k').used ≠ .null → t.used ≠ .null).mpr
      ⟨fun _ => hused, fun _ _ => id⟩
  refine
    { clock := hg.clock
      slot := ?_
      contiguous := ?_
      pub := hpub
      guards := fun k' b hb => ?_
      freed := fun hw b hb l n hn => (hg.freed hw b hb l n hn).trans_le (hgen l)
      count := hg.count
      once := fun n => ?_
      closed := fun hc => ⟨(hg.closed hc).1, fun k' => (hblocks k').trans ((hg.closed hc).2 k')⟩ }
  · refine (forall_update_iff g.slots SlotOk).mpr ⟨⟨hbusy, ?_, hts, hfloor, ?_⟩, fun k' _ =>
      hg.slot k'⟩
    · exact fun hle => absurd hk (not_lt.mpr hle)
    · rw [hreg]
      exact (hg.slot k).aged
  · intro k₁ k₂ hlt h₁
    by_cases hk₁ : k₁ = k
    · subst hk₁
      rcases hto with hto | hto
      · exact hnull k₂ (hg.contiguous k₁ k₂ hlt hto)
      · exact hnull k₂ (hto k₂ hlt)
    · have h₁ : (update g.slots k s k₁).used ≠ .null := h₁
      rw [update_of_ne hk₁] at h₁
      exact hnull k₂ (hg.contiguous k₁ k₂ hlt h₁)
  · have hb : b ∈ (update g.slots k s k').blocks := hb
    rw [Slot.blocks, hblocks] at hb
    exact (hg.guards k' b hb).mono hgen hkeep
  · have hsum := pending_update g.slots hk s n
    rw [Slot.blocks, Slot.blocks, hreg] at hsum
    have := hg.once n
    show countCall n g.freed + pending (update g.slots k s) n = _
    rw [Nat.add_right_cancel hsum]
    exact this

/-- Blocks are added to a list or leave it. -/
theorem SharedOk.setRegions (hg : SharedOk fwd g) {s : Slot ι} (hk : k < maxGcThreads)
    (hsame : s.used = (g.slots k).used ∧ s.ts = (g.slots k).ts ∧ s.owner = (g.slots k).owner ∧
      s.floor = (g.slots k).floor)
    (haged : ∀ r ∈ s.regions, ∀ b ∈ r.blocks, b.epoch ≤ r.ts)
    (hguards : ∀ b ∈ s.blocks, BlockOk g b) (hclosed : g.closed = true → s.regions = [])
    {f : List (Block ι)} {m : ℕ}
    (hfreed : fwd → ∀ b ∈ f, ∀ j n, b.guards j = some n → n < g.gen j)
    (honce : ∀ n, countCall n f + countCall n s.blocks + (if n < g.calls then 1 else 0) =
      countCall n g.freed + countCall n (g.slots k).blocks + if n < m then 1 else 0) :
    SharedOk fwd { g.setSlot k s with freed := f, calls := m } := by
  obtain ⟨hused, hts, hown, hfloor⟩ := hsame
  have hslots : ∀ k', (update g.slots k s k').used = (g.slots k').used ∧
      (update g.slots k s k').owner = (g.slots k').owner ∧
      (update g.slots k s k').floor = (g.slots k').floor :=
    (forall_update_iff g.slots fun k' t => t.used = (g.slots k').used ∧
      t.owner = (g.slots k').owner ∧ t.floor = (g.slots k').floor).mpr
      ⟨⟨hused, hown, hfloor⟩, fun _ _ => ⟨rfl, rfl, rfl⟩⟩
  refine
    { clock := hg.clock
      slot := ?_
      contiguous := fun k₁ k₂ hlt => ?_
      pub := fun l e hl => ⟨(hg.pub l e hl).1, ?_⟩
      guards := ?_
      freed := hfreed
      count := hg.count
      once := fun n => ?_
      closed := fun hc => ⟨(hg.closed hc).1, ?_⟩ }
  · refine (forall_update_iff g.slots SlotOk).mpr ⟨⟨?_, ?_, ?_, ?_, haged⟩, fun k' _ =>
      hg.slot k'⟩
    · rw [hused, hown]
      exact (hg.slot k).busy
    · exact fun hle => absurd hk (not_lt.mpr hle)
    · rw [hts]
      exact (hg.slot k).ts
    · rw [hfloor, hown, hts]
      exact (hg.slot k).floor
  · show (update g.slots k s k₁).used ≠ .null → (update g.slots k s k₂).used ≠ .null
    rw [(hslots k₁).1, (hslots k₂).1]
    exact hg.contiguous k₁ k₂ hlt
  · obtain ⟨k', ho, hf⟩ := (hg.pub l e hl).2
    exact ⟨k', (hslots k').2.1.trans ho, (hslots k').2.2.trans hf⟩
  · exact (forall_update_iff g.slots fun _ t => ∀ b ∈ t.blocks, BlockOk g b).mpr
      ⟨hguards, fun k' _ => hg.guards k'⟩
  · have hsum := pending_update g.slots hk s n
    have h₁ := hg.once n
    have h₂ := honce n
    show countCall n f + pending (update g.slots k s) n = if n < m then 1 else 0
    omega
  · exact (forall_update_iff g.slots fun _ t => t.regions = []).mpr
      ⟨hclosed hc, fun k' _ => (hg.closed hc).2 k'⟩

end Slots

/-! ## The blocks of a list -/

theorem blocks_cons (s : Slot ι) (r : Region ι) (rs : List (Region ι)) (h : s.regions = r :: rs) :
    s.blocks = r.blocks ++ { s with regions := rs }.blocks := by
  simp [Slot.blocks, h]

theorem mem_addBlock {b b' : Block ι} {e : ℕ} {r : Region ι} {rs : List (Region ι)}
    (hr : r ∈ addBlock b e rs) (hb : b' ∈ r.blocks) :
    b' = b ∧ e ≤ r.ts ∨ ∃ r' ∈ rs, r'.ts = r.ts ∧ b' ∈ r'.blocks := by
  cases rs with
  | nil =>
    simp only [addBlock, List.mem_singleton] at hr
    subst hr
    exact .inl ⟨List.mem_singleton.mp hb, le_rfl⟩
  | cons r₀ rs =>
    rw [addBlock] at hr
    split at hr
    · rcases List.mem_append.mp hr with hr | hr
      · exact .inr ⟨r, hr, rfl, hb⟩
      · rw [List.mem_singleton.mp hr] at hb ⊢
        exact .inl ⟨List.mem_singleton.mp hb, le_rfl⟩
    · next hle =>
      rcases List.mem_cons.mp hr with rfl | hr
      · rcases List.mem_cons.mp hb with rfl | hb
        · exact .inl ⟨rfl, not_lt.mp hle⟩
        · exact .inr ⟨r₀, List.mem_cons_self, rfl, hb⟩
      · exact .inr ⟨r, List.mem_cons_of_mem _ hr, rfl, hb⟩

theorem countCall_addBlock (n : ℕ) (b : Block ι) (e : ℕ) (rs : List (Region ι)) :
    countCall n ((addBlock b e rs).flatMap Region.blocks) =
      countCall n (rs.flatMap Region.blocks) + if b.call = n then 1 else 0 := by
  cases rs with
  | nil => simp [addBlock]
  | cons r rs =>
    rw [addBlock]
    split
    · simp [List.flatMap_append, add_assoc]
    · simp [add_right_comm]

/-- A guard is a thread that has published its epoch. -/
theorem blockOk_guardsFor (g : Threads ι) (addr call e : ℕ) :
    BlockOk g ⟨addr, call, e, guardsFor g e⟩ := by
  intro l n hn
  simp only [guardsFor] at hn
  split at hn
  · next s hs =>
    split at hn
    · next hle =>
      cases hn
      exact ⟨le_rfl, fun _ => ⟨s, hs, hle⟩⟩
    · cases hn
  · cases hn

/-! ## The operations -/

section Ops

variable [Fintype ι]

/-- An operation that leaves what is published as it is leaves the slots in which it
is published. -/
theorem SharedOk.pub_setSlot (hg : SharedOk fwd g) {s : Slot ι}
    (h : ∀ f, (g.slots k).floor = some f → s.owner = (g.slots k).owner ∧ s.floor = some f) (l : ι)
    (f : ℕ) (hl : g.pub l = some f) : g.active l = true ∧
      ∃ k', (update g.slots k s k').owner = some l ∧ (update g.slots k s k').floor = some f := by
  obtain ⟨ha, k', ho, hf⟩ := hg.pub l f hl
  refine ⟨ha, k', ?_⟩
  by_cases hk : k' = k
  · subst hk
    rw [update_self, (h f hf).1]
    exact ⟨ho, (h f hf).2⟩
  · rw [update_of_ne hk]
    exact ⟨ho, hf⟩

theorem SharedOk.take (hg : SharedOk fwd g) (hk : k < maxGcThreads)
    (hto : (g.slots k).used ≠ .null ∨ UsedTo g k) (hb : (g.slots k).used ≠ .busy) :
    SharedOk fwd (take g i k) := by
  have hnone : (g.slots k).floor = none := by
    by_contra hf
    obtain ⟨f, hf⟩ := Option.ne_none_iff_exists'.mp hf
    exact ((hg.slot k).floor f hf).1 (hg.owner_eq_none hb)
  refine hg.setSlot (s := { g.slots k with used := .busy, owner := some i }) (p := g.pub)
    (q := g.gen) hk hto (by simp) (by simp) (hg.slot k).ts (by simp [hnone]) rfl
    (hg.pub_setSlot ?_) (fun _ => le_rfl) (fun _ _ => rfl)
  intro f hf
  rw [hnone] at hf
  cases hf

theorem SharedOk.initStore (hg : SharedOk fwd g) (hk : Bare g i k) {ts : ℕ} (hts : ts ≤ g.clock) :
    SharedOk fwd (g.setSlot k { g.slots k with ts := ts, floor := some g.clock }) := by
  obtain ⟨hlt, hown, hf⟩ := hk
  refine hg.setSlot (s := { g.slots k with ts := ts, floor := some g.clock }) (p := g.pub)
    (q := g.gen) hlt (.inl (hg.lt_of_owner hown).2) (hg.lt_of_owner hown).2 (hg.slot k).busy
    (hts.trans hg.clock) ?_ rfl (hg.pub_setSlot ?_) (fun _ => le_rfl) (fun _ _ => rfl)
  · rintro f ⟨⟩
    exact ⟨by simp [hown], hts⟩
  · intro f hf'
    rw [hf] at hf'
    cases hf'

theorem SharedOk.release (hg : SharedOk fwd g) (hk : Bare g i k) : SharedOk fwd (release g k) := by
  obtain ⟨hlt, hown, hf⟩ := hk
  have hrel : released (g.slots k) ≠ .null ∧ released (g.slots k) ≠ .busy := by
    unfold released
    split <;> simp
  refine hg.setSlot (s := { g.slots k with used := released (g.slots k), owner := none })
    (p := g.pub) (q := g.gen) hlt (.inl (hg.lt_of_owner hown).2) hrel.1
    (iff_of_false hrel.2 (by simp)) (hg.slot k).ts (by simp [hf]) rfl (hg.pub_setSlot ?_)
    (fun _ => le_rfl) (fun _ _ => rfl)
  intro f hf'
  rw [hf] at hf'
  cases hf'

theorem SharedOk.gcFree (hg : SharedOk fwd g) (hk : k < maxGcThreads) (hc : g.closing = none)
    (freq : Option ℕ) (addr epoch : ℕ) : SharedOk fwd (gcFree freq g k addr epoch).1 := by
  have hmem : ∀ r ∈ addBlock ⟨addr, g.calls, epoch, guardsFor g epoch⟩ epoch (g.slots k).regions,
      ∀ b ∈ r.blocks, b.epoch ≤ r.ts ∧ BlockOk g b := by
    intro r hr b hb
    rcases mem_addBlock hr hb with ⟨rfl, hle⟩ | ⟨r', hr', hts, hb'⟩
    · exact ⟨hle, blockOk_guardsFor g addr g.calls epoch⟩
    · rw [← hts]
      exact ⟨(hg.slot k).aged r' hr' b hb',
        hg.guards k b (List.mem_flatMap.mpr ⟨r', hr', hb'⟩)⟩
  refine hg.setRegions (s := { g.slots k with
      regions := addBlock ⟨addr, g.calls, epoch, guardsFor g epoch⟩ epoch (g.slots k).regions
      frees := ((g.slots k).frees + 1) % 2 ^ 32 }) (f := g.freed) (m := g.calls + 1) hk
    ⟨rfl, rfl, rfl, rfl⟩ (fun r hr b hb => (hmem r hr b hb).1) ?_ ?_ hg.freed ?_
  · intro b hb
    obtain ⟨r, hr, hb⟩ := List.mem_flatMap.mp hb
    exact (hmem r hr b hb).2
  · exact fun h => absurd hc (hg.closed h).1
  · intro n
    have := countCall_addBlock n ⟨addr, g.calls, epoch, guardsFor g epoch⟩ epoch (g.slots k).regions
    simp only [Slot.blocks]
    rw [this]
    dsimp only
    split_ifs <;> omega

/-- The blocks whose guards have all moved on leave the list. -/
theorem SharedOk.pop (hg : SharedOk fwd g) (hk : k < maxGcThreads) {freed : List (Block ι)}
    {rs : List (Region ι)} (hsub : ∀ r ∈ rs, r ∈ (g.slots k).regions)
    (hcut : (g.slots k).blocks = freed ++ { g.slots k with regions := rs }.blocks)
    (hclosed : g.closed = true → rs = [])
    (hfree : fwd → ∀ b ∈ freed, ∀ j n, b.guards j = some n → n < g.gen j) :
    SharedOk fwd { g.setSlot k { g.slots k with regions := rs } with freed := g.freed ++ freed } := by
  refine hg.setRegions (s := { g.slots k with regions := rs }) (f := g.freed ++ freed)
    (m := g.calls) hk ⟨rfl, rfl, rfl, rfl⟩ (fun r hr => (hg.slot k).aged r (hsub r hr)) ?_
    hclosed ?_ ?_
  · intro b hb
    refine hg.guards k b ?_
    rw [hcut]
    exact List.mem_append_right _ hb
  · intro hw b hb
    rcases List.mem_append.mp hb with hb | hb
    · exact hg.freed hw b hb
    · exact hfree hw b hb
  · intro n
    rw [hcut, countCall_append, countCall_append]
    omega

variable [DecidableEq ι]

omit [Fintype ι] in
theorem gen_update_le (g : Threads ι) (i l : ι) : g.gen l ≤ update g.gen i (g.gen i + 1) l := by
  by_cases hl : l = i
  · subst hl
    simp
  · simp [hl]

omit [Fintype ι] in
theorem pub_update_of_gen (g : Threads ι) (i l : ι) (p : Option ℕ)
    (h : update g.gen i (g.gen i + 1) l = g.gen l) : update g.pub i p l = g.pub l := by
  by_cases hl : l = i
  · subst hl
    simp at h
  · exact update_of_ne hl p g.pub

/-- What thread `i` publishes is in its own slot, so that of the others is not touched. -/
theorem SharedOk.pub_update (hg : SharedOk fwd g) {s : Slot ι} {p : Option ℕ}
    (hown : (g.slots k).owner = some i) (ha : g.active i = true)
    (h : ∀ f, p = some f → s.owner = some i ∧ s.floor = some f) (l : ι) (f : ℕ)
    (hl : update g.pub i p l = some f) : g.active l = true ∧
      ∃ k', (update g.slots k s k').owner = some l ∧ (update g.slots k s k').floor = some f := by
  by_cases hli : l = i
  · subst hli
    rw [update_self] at hl
    exact ⟨ha, k, by rw [update_self]; exact h f hl⟩
  · rw [update_of_ne hli] at hl
    obtain ⟨ha, k', ho, hf⟩ := hg.pub l f hl
    have hk : k' ≠ k := by
      rintro rfl
      rw [hown] at ho
      exact hli (Option.some.inj ho).symm
    exact ⟨ha, k', by rw [update_of_ne hk]; exact ⟨ho, hf⟩⟩

theorem SharedOk.setEpoch (hg : SharedOk fwd g) (hown : (g.slots k).owner = some i)
    (ha : g.active i = true) (epoch : ℕ) : SharedOk fwd (setEpoch g i k epoch) := by
  -- `gc_set_epoch` refuses an epoch that is the largest word
  have hts : (if epochMax ≤ epoch then (g.slots k).ts else epoch) ≤ epochMax ∧
      (if epochMax ≤ epoch then (g.slots k).ts else epoch) ≤ epoch := by
    have := (hg.slot k).ts
    split <;> omega
  refine hg.setSlot (s := { g.slots k with
      ts := if epochMax ≤ epoch then (g.slots k).ts else epoch
      floor := some epoch }) (hg.lt_of_owner hown).1 (.inl (hg.lt_of_owner hown).2)
    (hg.lt_of_owner hown).2 (hg.slot k).busy hts.1 ?_ rfl (hg.pub_update hown ha ?_)
    (gen_update_le g i) (fun l => pub_update_of_gen g i l _)
  · rintro f ⟨⟩
    exact ⟨by simp [hown], hts.2⟩
  · rintro f ⟨⟩
    exact ⟨hown, rfl⟩

theorem SharedOk.leave (hg : SharedOk fwd g) (hown : (g.slots k).owner = some i)
    (ha : g.active i = true) : SharedOk fwd (leave g i k) :=
  hg.setSlot (s := { g.slots k with ts := epochMax, floor := none }) (hg.lt_of_owner hown).1
    (.inl (hg.lt_of_owner hown).2) (hg.lt_of_owner hown).2 (hg.slot k).busy le_rfl (by simp) rfl
    (hg.pub_update hown ha (by simp)) (gen_update_le g i) (fun l => pub_update_of_gen g i l _)

theorem card_active_update {a : ι → Bool} (h : a i = false) :
    (Finset.univ.filter fun j => update a i true j = true).card =
      (Finset.univ.filter fun j => a j = true).card + 1 := by
  have hins : (Finset.univ.filter fun j => update a i true j = true) =
      insert i (Finset.univ.filter fun j => a j = true) := by
    ext j
    by_cases hj : j = i
    · subst hj
      simp
    · simp [hj]
  rw [hins, Finset.card_insert_of_notMem (by simp [h])]

theorem SharedOk.enter (hg : SharedOk fwd g) (h : g.active i = false) :
    SharedOk fwd { g with nbActive := g.nbActive + 1, active := update g.active i true } where
  clock := hg.clock
  slot := hg.slot
  contiguous := hg.contiguous
  pub j s hs := by
    obtain ⟨ha, hk⟩ := hg.pub j s hs
    refine ⟨?_, hk⟩
    by_cases hj : j = i
    · subst hj
      simp
    · simpa [hj] using ha
  guards := hg.guards
  freed := hg.freed
  count := by
    dsimp only
    rw [card_active_update h, hg.count]
  once := hg.once
  closed := hg.closed

theorem SharedOk.exitDec (hg : SharedOk fwd g) (h : g.active i = true) (hp : g.pub i = none) :
    SharedOk fwd { g with nbActive := g.nbActive - 1, active := update g.active i false } where
  clock := hg.clock
  slot := hg.slot
  contiguous := hg.contiguous
  pub j s hs := by
    obtain ⟨ha, hk⟩ := hg.pub j s hs
    have hj : j ≠ i := by
      rintro rfl
      rw [hp] at hs
      cases hs
    exact ⟨by simpa [hj] using ha, hk⟩
  guards := hg.guards
  freed := hg.freed
  count := by
    have := card_active_update (i := i) (a := update g.active i false) (by simp)
    rw [update_idem, show update g.active i true = g.active by rw [← h, update_eq_self]] at this
    dsimp only
    rw [hg.count]
    omega
  once := hg.once
  closed := hg.closed

end Ops

end TinyStm.Gc
