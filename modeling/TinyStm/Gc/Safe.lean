import Mathlib.Data.Fintype.Basic
import TinyStm.Gc.Steps

/-!
# What the collector guarantees

No block is freed under a guard, no list is worked on by two threads, and after
`gc_exit` every block has been freed once. The first needs that no thread goes back
in its epochs while another is in `gc_cleanup_all`.
-/

namespace TinyStm.Gc

open Interleave Function

variable {ι : Type*} [Fintype ι] [DecidableEq ι] {fwd : Prop} {g g' : Threads ι} {i : ι}
  {freq : Option ℕ} {ys : ι → Local}

omit [Fintype ι] [DecidableEq ι] in
theorem initNext_ok {k : ℕ} (hto : UsedTo g k) (hk : (g.slots k).used ≠ .null) :
    PcOk fwd g i none (initNext k) := by
  unfold initNext
  split
  · next hlt =>
    refine ⟨rfl, hlt, fun k' hk' => ?_⟩
    rcases (Nat.lt_succ_iff.mp hk').eq_or_lt with rfl | hlt
    · exact hk
    · exact hto k' hlt
  · exact ⟨rfl, by simp [maxGcThreads], fun k' hk' => absurd hk' (Nat.not_lt_zero k')⟩

omit [Fintype ι] [DecidableEq ι] in
theorem ScanLow.setSlot {k pos m : ℕ} {s : Slot ι} (h : ScanLow g pos m)
    (hs : s.floor = (g.slots k).floor) : ScanLow (g.setSlot k s) pos m := by
  refine ⟨h.1, fun k' f hf => h.2 k' f ?_⟩
  have hsame : ∀ k', (update g.slots k s k').floor = (g.slots k').floor :=
    (forall_update_iff g.slots fun k' t => t.floor = (g.slots k').floor).mpr ⟨hs, fun _ _ => rfl⟩
  exact (hsame k').symm.trans hf

theorem scanUsed_ok (hg : SharedOk fwd g) {home : Option ℕ} {w : Work} {pos m : ℕ}
    (hl : LocalOk fwd i g ⟨home, .scanUsed w pos m⟩) (hc : g.closing = none)
    {home' : Option ℕ} {pc' : Pc}
    (hs : goStep freq i g home (.scanUsed w pos m) = some (g', home', pc')) :
    StepOk fwd ys i g g' ⟨home', pc'⟩ := by
  obtain ⟨hw, hscan⟩ := hl.pc
  have hskip : (g.slots pos).used ≠ .busy → ScanOk fwd g w (pos + 1) m := by
    refine fun hb => hscan.advance le_rfl fun f hf => ?_
    exact absurd (hg.owner_eq_none hb) ((hg.slot pos).floor f hf).1
  have hclean : ScanOk fwd g w maxGcThreads m → StepOk fwd ys i g g ⟨home, .clean w m⟩ := by
    refine fun h => .stay hg hc hl rfl ?_ ⟨hw, h⟩
    cases w <;> rfl
  have hscanned : ScanOk fwd g w (pos + 1) m →
      StepOk fwd ys i g g ⟨home, .scanUsed w (pos + 1) m⟩ := by
    refine fun h => .stay hg hc hl rfl ?_ ⟨hw, h⟩
    cases w <;> rfl
  simp only [goStep] at hs
  split at hs
  · next hlt =>
    split at hs
    · next hu =>
      cases hs
      exact hclean (hscan.last (hg.floor_lt_of_null hu))
    · cases hs
      refine .stay hg hc hl rfl ?_ ⟨hw, hscan⟩
      cases w <;> rfl
    · next hu =>
      cases hs
      exact hscanned (hskip (by simp [hu]))
    · next hu =>
      cases hs
      exact hscanned (hskip (by simp [hu]))
  · next hlt =>
    cases hs
    exact hclean (hscan.last fun k f hf => (hg.lt_of_floor hf).1.trans_le (not_lt.mp hlt))

theorem goStep_ok (hg : SharedOk fwd g) {home : Option ℕ} {pc : Pc}
    (hl : LocalOk fwd i g ⟨home, pc⟩) (hturn : g.closing = none ∨ g.closing = some i)
    {home' : Option ℕ} {pc' : Pc} (hs : goStep freq i g home pc = some (g', home', pc')) :
    StepOk fwd ys i g g' ⟨home', pc'⟩ := by
  have hc : (∀ k, pc ≠ .gcExit k) → pc ≠ .rest → g.closing = none := by
    intro hne hr
    rcases hturn with hn | hi
    · exact hn
    · rcases hl.closing hi with h | ⟨k, h⟩
      · exact absurd h hr
      · exact absurd h (hne k)
  cases pc with
  | rest => cases hs
  | initLoad k =>
    have hc := hc (by simp) (by simp)
    obtain ⟨hh, hk, hto⟩ := hl.pc
    rw [goStep] at hs
    split at hs
    · next hb =>
      cases hs
      subst hh
      exact .stay hg hc hl rfl rfl (initNext_ok hto (by simp [hb]))
    · next hb =>
      cases hs
      exact .stay hg hc hl rfl rfl ⟨hh, hk, hto, hb, id⟩
  | initCas k used =>
    have hc := hc (by simp) (by simp)
    obtain ⟨hh, hk, hto, hb, hu⟩ := hl.pc
    rw [goStep] at hs
    split at hs
    · next he =>
      cases hs
      exact .take hg hc hl hk (.inr hto) (he ▸ hb) rfl rfl rfl fun h => ⟨hh, h⟩
    · next he =>
      cases hs
      subst hh
      refine .stay hg hc hl rfl rfl (initNext_ok hto fun hn => ?_)
      exact hu (fun hn' => he (hn.trans hn'.symm)) hn
  | initEpoch k =>
    cases hs
    exact .stay hg (hc (by simp) (by simp)) hl rfl rfl ⟨hl.pc.1, hl.pc.2, le_rfl⟩
  | initStore k ts =>
    have hc := hc (by simp) (by simp)
    have hh := hl.pc.1
    subst hh
    cases hs
    exact .initStore hg hc hl
  | free addr epoch =>
    have hc := hc (by simp) (by simp)
    cases home with
    | none => cases hs
    | some k =>
      cases hs
      exact .gcFree hg hc hl freq
  | cleanup =>
    have hc := hc (by simp) (by simp)
    cases home with
    | none => cases hs
    | some k =>
      simp only [goStep, Option.map_some, Option.some.injEq] at hs
      split at hs
      · cases hs
        exact .stay hg hc hl rfl rfl trivial
      · cases hs
        exact .stay hg hc hl rfl rfl ⟨rfl, .start hg k _⟩
  | scanUsed w pos m => exact scanUsed_ok hg hl (hc (by simp) (by simp)) hs
  | scanTs w pos m =>
    have hc := hc (by simp) (by simp)
    obtain ⟨hw, hscan⟩ := hl.pc
    cases hs
    have hmin : ∀ n : ℕ, (if n < m then n else m) ≤ m ∧ (if n < m then n else m) ≤ n := by
      intro n
      split <;> omega
    refine .stay hg hc hl rfl (by cases w <;> rfl) ⟨hw, hscan.advance (hmin _).1 fun f hf => ?_⟩
    exact (hmin _).2.trans ((hg.slot pos).floor f hf).2
  | clean w m =>
    cases hs
    exact .clean hg (hc (by simp) (by simp)) hl
  | allNull k m =>
    have hc := hc (by simp) (by simp)
    rw [goStep] at hs
    split at hs
    · next h =>
      cases hs
      exact .stay hg hc hl rfl rfl ⟨h.1, hl.pc⟩
    · cases hs
      exact .stay hg hc hl rfl rfl trivial
  | allFull k m =>
    have hc := hc (by simp) (by simp)
    rw [goStep] at hs
    split at hs
    · cases hs
      exact .stay hg hc hl rfl rfl hl.pc
    · cases hs
      exact .stay hg hc hl rfl rfl hl.pc.2
  | allCas k m =>
    have hc := hc (by simp) (by simp)
    rw [goStep] at hs
    split at hs
    · next hf =>
      cases hs
      have hb : (g.slots k).used ≠ .busy := by simp [hf]
      have hn : (g.slots k).used ≠ .null ∨ UsedTo g k := .inl (by simp [hf])
      split
      · exact .take hg hc hl hl.pc.1 hn hb rfl rfl rfl id
      · next hm =>
        refine .take hg hc hl hl.pc.1 hn hb rfl rfl rfl fun h => ⟨h, fun hw => ?_⟩
        exact (hl.pc.2.resolve_left hm hw).setSlot rfl
    · cases hs
      exact .stay hg hc hl rfl rfl hl.pc.2
  | allEpoch k =>
    cases hs
    refine .stay hg (hc (by simp) (by simp)) hl rfl rfl ⟨hl.pc, fun _ => ⟨le_rfl, ?_⟩⟩
    exact fun k' f _ => .inr (Nat.zero_le k')
  | allRel k m =>
    cases hs
    refine .release hg (hc (by simp) (by simp)) hl hl.pc.1 rfl rfl ?_
    exact hl.pc.2.imp id fun h hw => (h hw).setSlot rfl
  | exitRel k =>
    cases hs
    exact .release hg (hc (by simp) (by simp)) hl hl.pc.2 rfl rfl hl.pc.1
  | exitDec =>
    cases hs
    exact .exitDec hg (hc (by simp) (by simp)) hl
  | gcExit k =>
    rw [goStep] at hs
    split at hs
    · next hk =>
      cases hs
      exact .drain hg hl hk
    · next hk =>
      cases hs
      exact .close hg hl hk

theorem callStep_ok (hg : SharedOk fwd g) (hl : ∀ j, LocalOk fwd j g (ys j)) {home : Option ℕ}
    (hx : ys i = ⟨home, .rest⟩) (hc : g.closing = none) {a : Act}
    (hlast : a = .gcExit → ∀ j, j ≠ i → (ys j).pc = .rest)
    (hep : fwd → ∀ epoch, a = .setEpoch epoch → (∃ j, (ys j).pc.sweeping = true) →
      ∀ k ∈ home, ∀ f ∈ (g.slots k).floor, f ≤ epoch)
    {home' : Option ℕ} {pc' : Pc} (hs : callStep i g a home = some (g', home', pc')) :
    StepOk fwd ys i g g' ⟨home', pc'⟩ := by
  have hi := hl i
  rw [hx] at hi
  unfold callStep at hs
  split at hs
  · split at hs
    · cases hs
    · cases hs
      exact .init hg hc hi
  · next epoch k =>
    cases hs
    exact .setEpoch hg hc hi fun hw hj => hep hw epoch rfl hj k rfl
  · cases hs
    exact .stay hg hc hi rfl rfl trivial
  · cases hs
    exact .stay hg hc hi rfl rfl trivial
  · cases hs
    exact .stay hg hc hi rfl rfl (.inl rfl)
  · cases hs
    exact .exit hg hc hi
  · split at hs
    · next hn =>
      cases hs
      exact .gcExit hg hl hx hc hn (hlast rfl)
    · cases hs
  · cases hs

omit [DecidableEq ι] in
theorem tick_ok (hg : SharedOk fwd g) {x : Local} (hl : LocalOk fwd i g x)
    (hturn : g.closing = none ∨ g.closing = some i) (hlt : g.clock < epochMax) :
    StepOk fwd ys i g { g with clock := g.clock + 1 } x := by
  have hrely : ∀ j y, g.closing ≠ some j → Rely fwd j y g { g with clock := g.clock + 1 } :=
    fun j y hj => { Rely.refl (g := g) hj with clock := Nat.le_succ g.clock }
  refine ⟨{ hg with clock := hlt }, ?_, fun j hj => hrely j (ys j) ?_⟩
  · rcases hturn with hc | hc
    · exact hl.stable (hrely i x (by simp [hc])) hg
    · -- the thread is in `gc_exit`, which does not look at the epoch
      obtain ⟨home, pc⟩ := x
      rcases hl.closing hc with h | ⟨k, h⟩
      · cases h
        exact ⟨hl.home, hl.owns, hl.pub, hl.active, hl.closing, trivial⟩
      · cases h
        exact ⟨hl.home, hl.owns, hl.pub, hl.active, hl.closing, hl.pc⟩
  · rcases hturn with hc | hc
    · simp [hc]
    · simpa [hc] using hj.symm

theorem step_ok {c : Config ι (Threads ι) Local} (hg : SharedOk fwd c.shared)
    (hl : ∀ j, LocalOk fwd j c.shared (c.loc j)) {a : Act} (hlast : ExitLast c i a)
    (hep : fwd → EpochsForward c i a) {x' : Local}
    (hs : (gcSystem ι freq).step i a c.shared (c.loc i) = some (g', x')) :
    StepOk fwd c.loc i c.shared g' x' := by
  have hi := hl i
  obtain ⟨home, pc, hx⟩ : ∃ home pc, c.loc i = ⟨home, pc⟩ := ⟨_, _, rfl⟩
  rw [hx] at hi hs
  simp only [gcSystem] at hs
  split at hs
  · next hturn =>
    split at hs
    · split at hs
      · next hlt =>
        cases hs
        exact tick_ok hg hi hturn hlt
      · cases hs
    · obtain ⟨⟨g₁, home', pc'⟩, hgo, he⟩ := Option.map_eq_some_iff.mp hs
      cases he
      exact goStep_ok hg hi hturn hgo
    · split at hs
      · next h =>
        obtain ⟨⟨g₁, home', pc'⟩, hcall, he⟩ := Option.map_eq_some_iff.mp hs
        cases he
        obtain ⟨rfl, hc⟩ := h
        refine callStep_ok hg hl hx hc ?_ ?_ hcall
        · rintro rfl
          exact hlast
        · rintro hw epoch rfl hsweep k hk
          exact hep hw hsweep k (by rw [hx]; exact hk)
      · cases hs
  · cases hs

theorem run_ok (fwd : Prop) {ok : Config ι (Threads ι) Local → ι → Act → Prop}
    (hlast : ∀ c i a, ok c i a → ExitLast c i a)
    (hep : fwd → ∀ c i a, ok c i a → EpochsForward c i a) {c : Config ι (Threads ι) Local}
    (h : Run (gcSystem ι freq) ok (start ι) c) :
    SharedOk fwd c.shared ∧ ∀ i, LocalOk fwd i c.shared (c.loc i) := by
  refine h.rely_guarantee (R := Rely fwd) ?_ ?_ ⟨?_, fun i => ?_⟩
  · intro c i a g' x' hg hl ho hs
    obtain ⟨h₁, h₂, h₃⟩ := step_ok hg hl (hlast c i a ho) (fun hw => hep hw c i a ho) hs
    exact ⟨h₁, h₂, h₃⟩
  · intro j g g' y hg _ hR hl
    exact hl.stable hR hg
  · refine ⟨by simp [start, gcInit], fun k => ?_, ?_, ?_, ?_, ?_, ?_, ?_, ?_⟩
    · constructor <;> simp [start, gcInit]
    all_goals simp [start, gcInit, Slot.blocks, pending]
  · constructor <;> simp [start, gcInit, Local.counted, PcOk]

/-! ## The guarantees -/

/-- The slot whose region list a call that is in progress is about. -/
def Local.worksOn (x : Local) : Option ℕ :=
  match x.pc with
  | .free _ _ | .cleanup => x.home
  | .scanUsed w _ _ | .scanTs w _ _ | .clean w _ => some w.slot
  | .allEpoch k | .allRel k _ | .exitRel k => some k
  | .gcExit k => some k
  | _ => none

omit [Fintype ι] [DecidableEq ι] in
theorem LocalOk.worksOn {x : Local} (hl : LocalOk fwd i g x) {k : ℕ} (hk : x.worksOn = some k) :
    (g.slots k).owner = some i ∨ g.closing = some i ∧ ∀ k, (g.slots k).owner = none := by
  obtain ⟨home, pc⟩ := x
  cases pc with
  | free | cleanup => exact .inl (hl.home k hk).2.1
  | scanUsed w _ _ | scanTs w _ _ | clean w _ =>
    cases hk
    exact .inl (hl.work hl.pc.1).2
  | allEpoch _ =>
    cases hk
    exact .inl hl.pc.2.1
  | allRel _ _ =>
    cases hk
    exact .inl hl.pc.1.2.1
  | exitRel _ =>
    cases hk
    exact .inl hl.pc.2.2.1
  | gcExit _ => exact .inr ⟨hl.pc.1, hl.pc.2.1⟩
  | rest | initLoad | initCas | initEpoch | initStore | allNull | allFull | allCas | exitDec =>
    cases hk

/-- In every run in which `gc_exit` comes last: if no thread goes back in its epochs
while another is in `gc_cleanup_all`, no block is freed as long as a thread that had
published an epoch not above that of the block stays with it; no two threads are at
work on the same list; and when `gc_exit` is done, every block has been freed once. -/
theorem collector_safe {ok : Config ι (Threads ι) Local → ι → Act → Prop}
    (hlast : ∀ c i a, ok c i a → ExitLast c i a) {c : Config ι (Threads ι) Local}
    (h : Run (gcSystem ι freq) ok (start ι) c) :
    ((∀ c i a, ok c i a → EpochsForward c i a) →
      ∀ b ∈ c.shared.freed, ∀ j n, b.guards j = some n → c.shared.gen j ≠ n) ∧
    (∀ i j k, (c.loc i).worksOn = some k → (c.loc j).worksOn = some k → i = j) ∧
    (c.shared.closed = true → ∀ n, n < c.shared.calls → countCall n c.shared.freed = 1) := by
  obtain ⟨hg, hl⟩ := run_ok False hlast (fun h => h.elim) h
  refine ⟨fun hep b hb j n hn => ?_, fun i j k hi hj => ?_, fun hc n hn => ?_⟩
  · obtain ⟨hg, -⟩ := run_ok True hlast (fun _ => hep) h
    exact (hg.freed trivial b hb j n hn).ne'
  · rcases (hl i).worksOn hi with hoi | ⟨hci, hni⟩ <;> rcases (hl j).worksOn hj with hoj | ⟨hcj, hnj⟩
    · exact Option.some.inj (hoi.symm.trans hoj)
    · exact absurd (hoi.symm.trans (hnj k)) (by simp)
    · exact absurd (hoj.symm.trans (hni k)) (by simp)
    · exact Option.some.inj (hci.symm.trans hcj)
  · have honce := hg.once n
    have hpend : pending c.shared.slots n = 0 := by
      simp [pending, Slot.blocks, (hg.closed hc).2]
    rw [hpend, if_pos hn] at honce
    exact honce

instance (c : Config ι (Threads ι) Local) (i : ι) (a : Act) : Decidable (ExitLast c i a) :=
  match a with
  | .gcExit => inferInstanceAs (Decidable (∀ j, j ≠ i → (c.loc j).pc = .rest))
  | .init | .setEpoch _ | .free _ _ | .cleanup | .cleanupAll | .exit | .go | .tick =>
    .isTrue trivial

instance (c : Config ι (Threads ι) Local) (i : ι) (a : Act) : Decidable (EpochsForward c i a) :=
  match a with
  | .setEpoch epoch => inferInstanceAs (Decidable ((∃ j, (c.loc j).pc.sweeping = true) →
      ∀ k ∈ (c.loc i).home, ∀ f ∈ (c.shared.slots k).floor, f ≤ epoch))
  | .gcExit | .init | .free _ _ | .cleanup | .cleanupAll | .exit | .go | .tick => .isTrue trivial

def call {ι : Type*} (i : ι) (a : Act) (n : ℕ) : List (ι × Act) :=
  (i, a) :: List.replicate n (i, .go)

/-- Threads 0, 1 and 2 come in, thread 0 leaves a block behind that was freed in epoch
0, and thread 3 sweeps after 1 and 2 have gone on to epoch 1. -/
def sweep : List (Fin 4 × Act) :=
  [call 0 .init 4, call 1 .init 5, call 2 .init 6, call 1 (.setEpoch 0) 0, call 0 (.free 100 0) 10,
    call 0 .exit 2, call 0 .tick 0, call 1 (.setEpoch 1) 0, call 2 (.setEpoch 1) 0,
    call 3 .cleanupAll 14].flatten

theorem collector_safe_sweep : ∃ c, Run (gcSystem (Fin 4) (some 1))
      (fun c i a => ExitLast c i a ∧ EpochsForward c i a) (start (Fin 4)) c ∧
    c.shared.freed.any (fun b => (b.guards 1).isSome) = true ∧
    ∀ b ∈ c.shared.freed, ∀ j n, b.guards j = some n → c.shared.gen j ≠ n := by
  obtain ⟨c, hrun, hc⟩ := exists_run_of_exec (gcSystem (Fin 4) (some 1))
    (fun c i a => ExitLast c i a ∧ EpochsForward c i a) (start (Fin 4)) sweep
    (fun c => c.shared.freed.any (fun b => (b.guards 1).isSome) = true) (by decide +kernel)
  exact ⟨c, hrun, hc, (collector_safe (fun _ _ _ h => h.1) hrun).1 fun _ _ _ h => h.2⟩

/-- Thread 2 goes back to epoch 0, which the minimum of the sweep is above, and guards
a block of thread 1 there. Thread 1 leaves it behind in a slot that the sweep has
still to come to. -/
theorem sweep_frees_guarded : ∃ c, Run (gcSystem (Fin 4) (some 1)) ExitLast (start (Fin 4)) c ∧
    ∃ b ∈ c.shared.freed, b.guards 2 = some (c.shared.gen 2) := by
  have hex := exists_run_of_exec (gcSystem (Fin 4) (some 1)) ExitLast (start (Fin 4))
    [sweep, call 2 (.setEpoch 0) 0, call 1 (.free 200 0) 9, call 1 .exit 2,
      List.replicate 4 (3, .go)].flatten
    (fun c => c.shared.freed.any (fun b => b.guards 2 = some (c.shared.gen 2)) = true)
    (by decide +kernel)
  obtain ⟨c, hrun, hc⟩ := hex
  obtain ⟨b, hb, hg⟩ := List.any_eq_true.mp hc
  exact ⟨c, hrun, b, hb, of_decide_eq_true hg⟩

end TinyStm.Gc
