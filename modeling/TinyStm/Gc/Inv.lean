import Mathlib.Data.Fintype.Card
import TinyStm.Gc.Model

/-!
# The invariant of the collector

A slot that is taken has one owner, and only the owner touches it. A thread that
scans for its own list needs the minimum only against the guards of the blocks that
are in the list already; `gc_cleanup_all` uses one minimum for lists that are filled
after the scan, and needs it below every epoch that is still to be published. That
holds only if no thread goes back in its epochs (`fwd`).
-/

namespace TinyStm.Gc

open Interleave

variable {ι : Type*}

def Slot.blocks (s : Slot ι) : List (Block ι) := s.regions.flatMap Region.blocks

def countCall (n : ℕ) (bs : List (Block ι)) : ℕ := bs.countP fun b => b.call = n

def pending (slots : ℕ → Slot ι) (n : ℕ) : ℕ :=
  ∑ k ∈ Finset.range maxGcThreads, countCall n (slots k).blocks

/-- The guards of a block that are still in force have published an epoch not
above that of the block. -/
def BlockOk (g : Threads ι) (b : Block ι) : Prop :=
  ∀ j n, b.guards j = some n →
    n ≤ g.gen j ∧ (g.gen j = n → ∃ s, g.pub j = some s ∧ s ≤ b.epoch)

structure SlotOk (k : ℕ) (s : Slot ι) : Prop where
  busy : s.used = .busy ↔ s.owner ≠ none
  bound : maxGcThreads ≤ k → s.used = .null ∧ s.regions = []
  ts : s.ts ≤ epochMax
  floor : ∀ f, s.floor = some f → s.owner ≠ none ∧ s.ts ≤ f
  aged : ∀ r ∈ s.regions, ∀ b ∈ r.blocks, b.epoch ≤ r.ts

structure SharedOk [Fintype ι] (fwd : Prop) (g : Threads ι) : Prop where
  clock : g.clock ≤ epochMax
  slot : ∀ k, SlotOk k (g.slots k)
  contiguous : ∀ k k', k' < k → (g.slots k).used ≠ .null → (g.slots k').used ≠ .null
  pub : ∀ j s, g.pub j = some s →
    g.active j = true ∧ ∃ k, (g.slots k).owner = some j ∧ (g.slots k).floor = some s
  guards : ∀ k, ∀ b ∈ (g.slots k).blocks, BlockOk g b
  freed : fwd → ∀ b ∈ g.freed, ∀ j n, b.guards j = some n → n < g.gen j
  count : g.nbActive = (Finset.univ.filter fun j => g.active j = true).card
  once : ∀ n, countCall n g.freed + pending g.slots n = if n < g.calls then 1 else 0
  closed : g.closed = true → g.closing ≠ none ∧ ∀ k, (g.slots k).regions = []

/-- `m` is not above any epoch that will be published, or is published in a slot
before `pos`. -/
def ScanLow (g : Threads ι) (pos m : ℕ) : Prop :=
  m ≤ g.clock ∧ ∀ k f, (g.slots k).floor = some f → m ≤ f ∨ pos ≤ k

/-- `m` is not above the epoch of any thread that guards a block of slot `k` and
whose own slot is before `pos`. -/
def OwnLow (g : Threads ι) (k pos m : ℕ) : Prop :=
  ∀ b ∈ (g.slots k).blocks, ∀ j n, b.guards j = some n → g.gen j = n → ∀ s, g.pub j = some s →
    m ≤ s ∨ ∃ k', pos ≤ k' ∧ (g.slots k').owner = some j ∧ (g.slots k').floor = some s

def ScanOk (fwd : Prop) (g : Threads ι) : Work → ℕ → ℕ → Prop
  | .own k, pos, m => OwnLow g k pos m
  | .all _, pos, m => fwd → ScanLow g pos m

/-- The minimum of `gc_cleanup_all` is not computed yet, or good. -/
def Cached (fwd : Prop) (g : Threads ι) (m : ℕ) : Prop :=
  m = epochMax ∨ (fwd → ScanLow g maxGcThreads m)

/-- The slot is the thread's, and it does not publish an epoch in it. -/
def Bare (g : Threads ι) (i : ι) (k : ℕ) : Prop :=
  k < maxGcThreads ∧ (g.slots k).owner = some i ∧ (g.slots k).floor = none

def WorkOk (g : Threads ι) (i : ι) (home : Option ℕ) : Work → Prop
  | .own k => home = some k
  | .all k => Bare g i k

/-- The slots before `k` have been in use. -/
def UsedTo (g : Threads ι) (k : ℕ) : Prop := ∀ k', k' < k → (g.slots k').used ≠ .null

def PcOk (fwd : Prop) (g : Threads ι) (i : ι) (home : Option ℕ) : Pc → Prop
  | .rest | .free _ _ | .cleanup => True
  | .initLoad k => home = none ∧ k < maxGcThreads ∧ UsedTo g k
  | .initCas k used => home = none ∧ k < maxGcThreads ∧ UsedTo g k ∧ used ≠ .busy ∧
    (used ≠ .null → (g.slots k).used ≠ .null)
  | .initEpoch k => home = none ∧ Bare g i k
  | .initStore k ts => home = none ∧ Bare g i k ∧ ts ≤ g.clock
  | .scanUsed w pos m | .scanTs w pos m => WorkOk g i home w ∧ ScanOk fwd g w pos m
  | .clean w m => WorkOk g i home w ∧ ScanOk fwd g w maxGcThreads m
  | .allNull _ m => Cached fwd g m
  | .allFull k m | .allCas k m => k < maxGcThreads ∧ Cached fwd g m
  | .allEpoch k => Bare g i k
  | .allRel k m => Bare g i k ∧ Cached fwd g m
  | .exitRel k => home = none ∧ Bare g i k
  | .exitDec => home = none
  | .gcExit k => g.closing = some i ∧ (∀ k', (g.slots k').owner = none) ∧
    ∀ k', k' < k → (g.slots k').regions = []

/-- `nb_active` counts the thread. -/
def Local.counted (x : Local) : Bool :=
  x.home.isSome || match x.pc with
    | .initLoad _ | .initCas _ _ | .initEpoch _ | .initStore _ _ | .exitRel _ | .exitDec => true
    | _ => false

/-- The slot that the thread has taken, or is about to give back. -/
def Pc.holds : Pc → Option ℕ
  | .initEpoch k | .initStore k _ | .allEpoch k | .allRel k _ | .exitRel k => some k
  | .scanUsed (.all k) _ _ | .scanTs (.all k) _ _ | .clean (.all k) _ => some k
  | _ => none

structure LocalOk (fwd : Prop) (i : ι) (g : Threads ι) (x : Local) : Prop where
  home : ∀ k, x.home = some k → k < maxGcThreads ∧ (g.slots k).owner = some i ∧
    ∃ f, (g.slots k).floor = some f
  owns : ∀ k, (g.slots k).owner = some i → x.home = some k ∨ x.pc.holds = some k
  pub : x.home = none → g.pub i = none
  active : g.active i = x.counted
  closing : g.closing = some i → x.pc = .rest ∨ ∃ k, x.pc = .gcExit k
  pc : PcOk fwd g i x.home x.pc

/-- What the steps of the others leave to thread `j`, in the local state `y`. -/
structure Rely (fwd : Prop) (j : ι) (y : Local) (g g' : Threads ι) : Prop where
  slot : ∀ k, (g.slots k).owner = some j → g'.slots k = g.slots k
  owns : ∀ k, (g'.slots k).owner = some j → (g.slots k).owner = some j
  active : g'.active j = g.active j
  clock : g.clock ≤ g'.clock
  mine : g'.gen j = g.gen j
  gen : ∀ l, g.gen l ≤ g'.gen l
  pub : ∀ l, g'.gen l = g.gen l → g'.pub l = g.pub l
  held : ∀ l, g'.gen l = g.gen l → ∀ k f, (g.slots k).owner = some l →
    (g.slots k).floor = some f → (g'.slots k).owner = some l ∧ (g'.slots k).floor = some f
  floor : fwd → y.pc.sweeping = true → ∀ k f', (g'.slots k).floor = some f' →
    (∃ f, (g.slots k).floor = some f ∧ f ≤ f') ∨ g.clock ≤ f'
  used : ∀ k, (g.slots k).used ≠ .null → (g'.slots k).used ≠ .null
  closing : g.closing ≠ some j ∧ g'.closing ≠ some j

variable {fwd : Prop} {g g' : Threads ι} {i j : ι} {y : Local}

theorem Rely.scanLow (hR : Rely fwd j y g g') (hw : fwd) (hy : y.pc.sweeping = true) {pos m : ℕ}
    (h : ScanLow g pos m) : ScanLow g' pos m := by
  refine ⟨h.1.trans hR.clock, fun k f' hf => ?_⟩
  rcases hR.floor hw hy k f' hf with ⟨f, hf, hle⟩ | hle
  · rcases h.2 k f hf with hm | hp
    · exact .inl (hm.trans hle)
    · exact .inr hp
  · exact .inl (h.1.trans hle)

theorem Rely.ownLow [Fintype ι] (hR : Rely fwd j y g g') (hg : SharedOk fwd g) {k pos m : ℕ}
    (hk : (g.slots k).owner = some j) (h : OwnLow g k pos m) : OwnLow g' k pos m := by
  intro b hb l n hn hgen s hs
  rw [hR.slot k hk] at hb
  -- the guard was in force before the step too
  have hle := (hg.guards k b hb l n hn).1
  have heq : g'.gen l = g.gen l := by
    have := hR.gen l
    omega
  rw [hR.pub l heq] at hs
  rcases h b hb l n hn (heq.symm.trans hgen) s hs with hm | ⟨k', hp, hown, hf⟩
  · exact .inl hm
  · exact .inr ⟨k', hp, hR.held l heq k' s hown hf⟩

theorem Rely.cached (hR : Rely fwd j y g g') (hy : y.pc.sweeping = true) {m : ℕ}
    (h : Cached fwd g m) : Cached fwd g' m :=
  h.imp id fun hs hw => hR.scanLow hw hy (hs hw)

theorem Rely.bare (hR : Rely fwd j y g g') {k : ℕ} (h : Bare g j k) : Bare g' j k := by
  rw [Bare, hR.slot k h.2.1]
  exact h

theorem Rely.usedTo (hR : Rely fwd j y g g') {k : ℕ} (h : UsedTo g k) : UsedTo g' k :=
  fun k' hk' => hR.used k' (h k' hk')

theorem Rely.workOk (hR : Rely fwd j y g g') {home : Option ℕ} {w : Work} (h : WorkOk g j home w) :
    WorkOk g' j home w := by
  cases w with
  | own k => exact h
  | all k => exact hR.bare h

/-- What a thread knows survives the steps of the others. -/
theorem LocalOk.stable [Fintype ι] {home : Option ℕ} {pc : Pc}
    (hR : Rely fwd j ⟨home, pc⟩ g g') (hg : SharedOk fwd g) (h : LocalOk fwd j g ⟨home, pc⟩) :
    LocalOk fwd j g' ⟨home, pc⟩ := by
  have hscan : ∀ w pos m, (∀ k, w = .all k → pc.sweeping = true) → WorkOk g j home w →
      ScanOk fwd g w pos m → ScanOk fwd g' w pos m := by
    intro w pos m hsw hw hs
    cases w with
    | own k => exact hR.ownLow hg (h.home k hw).2.1 hs
    | all k => exact fun hf => hR.scanLow hf (hsw k rfl) (hs hf)
  refine ⟨fun k hk => ?_, fun k hk => h.owns k (hR.owns k hk), fun hh => (hR.pub j hR.mine).trans (h.pub hh),
    hR.active.trans h.active, fun hc => absurd hc hR.closing.2, ?_⟩
  · obtain ⟨hlt, hown, hf⟩ := h.home k hk
    rw [hR.slot k hown]
    exact ⟨hlt, hown, hf⟩
  · have hpc := h.pc
    cases pc with
    | rest | free | cleanup => trivial
    | initLoad k => exact ⟨hpc.1, hpc.2.1, hR.usedTo hpc.2.2⟩
    | initCas k u =>
      obtain ⟨hh, hlt, hto, hb, hu⟩ := hpc
      exact ⟨hh, hlt, hR.usedTo hto, hb, fun hn => hR.used k (hu hn)⟩
    | initEpoch k => exact ⟨hpc.1, hR.bare hpc.2⟩
    | initStore k ts => exact ⟨hpc.1, hR.bare hpc.2.1, hpc.2.2.trans hR.clock⟩
    | scanUsed w pos m | scanTs w pos m =>
      exact ⟨hR.workOk hpc.1, hscan w pos m (fun k hw => by subst hw; rfl) hpc.1 hpc.2⟩
    | clean w m =>
      exact ⟨hR.workOk hpc.1, hscan w _ m (fun k hw => by subst hw; rfl) hpc.1 hpc.2⟩
    | allNull k m => exact hR.cached rfl hpc
    | allFull k m | allCas k m => exact ⟨hpc.1, hR.cached rfl hpc.2⟩
    | allEpoch k => exact hR.bare hpc
    | allRel k m => exact ⟨hR.bare hpc.1, hR.cached rfl hpc.2⟩
    | exitRel k => exact ⟨hpc.1, hR.bare hpc.2⟩
    | exitDec => exact hpc
    | gcExit k => exact absurd hpc.1 hR.closing.1

end TinyStm.Gc
