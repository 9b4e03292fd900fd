import TinyStm.Opacity
import TinyStm.Range

/-!
# Asynchronous revalidation

The extra tick calls `stm_extend` from a callback or at the end of an operation,
without the test of `tx->ro` and `can_extend` that the call in the load makes
first. For a transaction whose reads are logged and whose extensions are enabled
it keeps the snapshot; for a read-only one it advances `tx->end` over reads that
nothing revalidates.
-/

namespace TinyStm

open Timeline Interleave

variable {w : ℕ} {b : Build} {P : Mode} {s s₀ : State w} {g g' : Shared w} {x x' : Tx w} {tid : ℕ}

/-! ### Runs with ticks -/

/-- At a tick, extensions are enabled and the reads of the attempt are logged. -/
def TickOk (s : State w) (i : ℕ) (_ : Act w) : Prop :=
  (s.loc i).pc = .extClock .tick ∨ (s.loc i).pc = .extClock .opEnd →
    (s.loc i).canExtend = true ∧ ((s.loc i).ro = true → (s.loc i).reads = [])

instance (s : State w) (i : ℕ) (act : Act w) : Decidable (TickOk s i act) :=
  inferInstanceAs (Decidable (_ ∨ _ → _ ∧ (_ → _)))

/-- What a step may do to the validity range: a tick ends in a rollback or with all
loads at the new `tx->end`, and `tx->end` is only advanced where extensions are
enabled, over loads that are still valid there. -/
structure RangeSafe (M : ℕ → ℕ → BitVec w) (x x' : Tx w) : Prop where
  tick : ∀ {now i c}, x.pc = .validate now i c → c = .tick ∨ c = .opEnd →
    (∃ j, x'.pc = .validate now j c) ∨ (∃ r j, x'.pc = .rb r j 0) ∨
    ∀ r ∈ x'.reads, Shows (M x'.endT) x'.stores r
  advance : x.pc.phase = .live → x.endT < x'.endT → x.canExtend = true ∧
    ∀ r ∈ x'.reads, Shows (M x'.endT) x'.stores r

theorem RangeStep.canExtend {t t' : ℕ} (h : RangeStep b t x t' x')
    (htick : x.pc = .extClock .tick ∨ x.pc = .extClock .opEnd → x.canExtend = true)
    (hx : x.pc.extending = true → x.canExtend = true) (hp : x'.pc.extending = true) :
    x'.canExtend = true := by
  cases h with
  | stay _ he hk => exact hk.canExtend ▸ hx (he ▸ hp)
  | same _ h => simp [h.extending] at hp
  | commit _ _ _ h => simp [h.extending] at hp
  | unit _ h => simp [h.extending] at hp
  | prepare _ _ _ _ he => simp [he] at hp
  | lower _ he hrun _ _ _ => simp [he, hrun, Pc.extending] at hp
  | guarded _ _ hc _ hk => exact hk.canExtend.trans hc
  | @clock c now _ hq hq' hk =>
    rw [hk.canExtend]
    cases c with
    | read a l v => exact hx (by rw [hq]; rfl)
    | tick => exact htick (.inl hq)
    | opEnd => exact htick (.inr hq)
    | commit t => simp [hq', Pc.extending] at hp
  | @next c now i _ hq hq' hk =>
    rw [hk.canExtend]
    refine hx ?_
    rw [hq'] at hp
    rw [hq]
    cases c <;> simp_all [Pc.extending]
  | extended _ _ _ _ _ _ _ he => simp [he] at hp

theorem rollback_rb (x : Tx w) (r : Reason) : ∃ j, (rollback b x r).pc = .rb r j 0 := by
  unfold rollback
  split <;> exact ⟨_, rfl⟩

/-- A validation on behalf of a tick goes on, fails or extends the snapshot. -/
theorem tick_validate {now i : ℕ} {c : Cont w} (hp : x.pc = .validate now i c)
    (hc : c = .tick ∨ c = .opEnd) {act : Act w} (h : stepTx b tid act g x = some (g', x')) :
    (∃ j, x'.pc = .validate now j c) ∨ (∃ r j, x'.pc = .rb r j 0) ∨
      (x'.endT = b.endV w now ∧ x'.snap = now ∧ x'.pc = .run) := by
  have hgo : validateStep b tid now i c g x = some (g', x') →
      (∃ j, x'.pc = .validate now j c) ∨ (∃ r j, x'.pc = .rb r j 0) ∨
        (x'.endT = b.endV w now ∧ x'.snap = now ∧ x'.pc = .run) := by
    intro hv
    unfold validateStep at hv
    split at hv
    · split at hv
      · cases hv
        exact .inl ⟨_, rfl⟩
      · rcases hc with rfl | rfl <;> cases hv <;> exact .inr (.inl ⟨_, rollback_rb x _⟩)
    · rcases hc with rfl | rfl <;> cases hv <;> exact .inr (.inr ⟨rfl, rfl, rfl⟩)
  unfold stepTx at h
  rw [hp] at h
  split at h
  · exact hgo h
  · split at h <;> cases h
    exact .inl ⟨i, rfl⟩
  · cases h

section Run

variable (hd : b.design = .writeBackCtl) (hm : b.mbRevalidation = false)
include hd hm

theorem run_inv_tick (hi : Initial s₀) (hr : Run (machine b w) TickOk s₀ s) :
    SInv b ⟨True, False⟩ s.shared ∧ (∀ i, TInv b ⟨True, False⟩ i s.shared (s.loc i)) ∧
      s.shared.mem0 = s₀.shared.mem := by
  refine run_inv (fun s i act ho _ _ => ?_) hr hi
  constructor
  case fits => simp [Build.Fits, hm]
  case prepare => simp [Build.startOf, Build.startV, Build.endOf, Build.endV, hm]
  case unit => simp [Build.stamp, hm]
  case wt => exact fun _ => hm
  case async => exact fun hp hro => (ho hp).2 hro
  case ownLoad => exact fun _ hc => absurd hd hc
  case ext => exact fun hf => hf.elim

theorem run_canExtend (hi : Initial s₀) (hr : Run (machine b w) TickOk s₀ s) (i : ℕ) :
    (s.loc i).pc.extending = true → (s.loc i).canExtend = true := by
  induction hr with
  | refl => simp [hi.pc, Pc.extending]
  | @tail c e j act hr ho hmove ih =>
    obtain ⟨hS, hT, -⟩ := run_inv_tick hd hm hi hr
    obtain ⟨g, x, hs, rfl⟩ := move_eq_some hmove
    by_cases hij : i = j
    · subst hij
      have hstep := rangeStep hd ((hT i).tick hS) hs
      simpa using hstep.canExtend (fun hp => (ho hp).1) ih
    · simpa [hij] using ih

/-- Right after an extension all loads are those of `tx->end`. -/
theorem TInv.shows_endT (ho : P.oneTime) (hT : TInv b P tid g x) (hph : x.pc.phase = .live)
    {now : ℕ} (hend : x.endT = b.endV w now) (hsnap : x.snap = now) :
    ∀ r ∈ x.reads, Shows (g.at b x.endT) x.stores r := by
  intro r hr
  have hA := hT.att (by rw [hph]; simp)
  obtain ⟨e, -, -, hes, hreads⟩ := hA.consistent ho
  have he : e = x.endT := by
    rw [hes hd, hend, hsnap]
    simp [Build.endV, hm]
  exact he ▸ (hreads r hr).shows (hA.pre r hr)

end Run

/-- Revalidation by ticks keeps every snapshot, in the runs whose ticks only meet
transactions with logged reads and extensions enabled. -/
theorem tick_keeps_snapshot (b : Build) (hd : b.design = .writeBackCtl)
    (hm : b.mbRevalidation = false) (s₀ s s' : State w) (hi : Initial s₀) (i : ℕ) (act : Act w)
    (hr : Run (machine b w) TickOk s₀ s) (ho : TickOk s i act)
    (hs : (machine b w).move s i act = some s') :
    ∃ M, Produces s₀.shared.mem s' M ∧ SeenAtOnce s' M ∧ RangeSafe M (s.loc i) (s'.loc i) := by
  obtain ⟨hS, hT, -⟩ := run_inv_tick hd hm hi hr
  obtain ⟨hS', hT', hm₀⟩ := run_inv_tick hd hm hi (.tail hr ho hs)
  have hcan := run_canExtend hd hm hi hr i
  refine ⟨s'.shared.at b, hm₀ ▸ produces hS' hT', seenAtOnce trivial hS' hT', ?_⟩
  have hx' := hT' i
  obtain ⟨g, x', hstep, rfl⟩ := move_eq_some hs
  simp only [Function.update_self] at hx' ⊢
  constructor
  case tick =>
    intro now j c hp hc
    rcases tick_validate hp hc hstep with h | h | ⟨hend, hsnap, hrun⟩
    · exact .inl h
    · exact .inr (.inl h)
    · exact .inr (.inr (hx'.shows_endT hd hm trivial (by rw [hrun]; rfl) hend hsnap))
  case advance =>
    intro hph hlt
    cases rangeStep hd ((hT i).tick hS) hstep with
    | extended _ _ hext _ hend hsnap hlive _ =>
      exact ⟨hcan hext, hx'.shows_endT hd hm trivial hlive hend hsnap⟩
    | prepare hp => simp [hp, Pc.phase] at hph
    | lower _ _ _ _ hle _ => omega
    | same _ h => exact absurd h.endT hlt.ne'
    | commit _ _ _ h => exact absurd h.endT hlt.ne'
    | unit _ h => exact absurd h.endT hlt.ne'
    | stay _ _ hk => exact absurd hk.endT hlt.ne'
    | guarded _ _ _ _ hk => exact absurd hk.endT hlt.ne'
    | clock _ _ _ hk => exact absurd hk.endT hlt.ne'
    | next _ _ _ hk => exact absurd hk.endT hlt.ne'

/-- The commit-time design with extra ticks. -/
def tickBuild : Build := ⟨.writeBackCtl, false, true, 0, 4⟩

/-- A tick extends the snapshot of an update transaction over the commit. -/
theorem tick_keeps_snapshot_update :
    ∃ s s' : State 64, (s.loc 0).pc = .validate 1 1 .tick ∧
      (machine tickBuild 64).move s 0 .go = some s' ∧
      ∃ M, Produces (fun _ => 0) s' M ∧ SeenAtOnce s' M ∧ RangeSafe M (s.loc 0) (s'.loc 0) := by
  obtain ⟨s, hr, hpc, ho, hm⟩ := exists_run_of_exec (machine tickBuild 64) TickOk
    (State.fresh fun _ => 0)
    (List.flatten [turn 0 [.start false, .go, .load 16, .go, .go, .go], storeBoth,
      turn 0 [.tick, .go, .go]])
    (fun s => (s.loc 0).pc = .validate 1 1 .tick ∧ TickOk s 0 .go ∧
      ((machine tickBuild 64).move s 0 .go).isSome = true) (by decide +kernel)
  obtain ⟨s', hs'⟩ := Option.isSome_iff_exists.mp hm
  exact ⟨s, s', hpc, hs', tick_keeps_snapshot tickBuild rfl rfl _ s s' (initial_fresh _) 0 .go hr ho hs'⟩

/-- A tick in a read-only transaction: word 0 was read before the commit of thread
1, nothing is validated, and word 8 is then read at the new `tx->end`. -/
theorem tick_torn :
    ∃ s : State 64, Run (machine tickBuild 64) (fun _ _ _ => True) (State.fresh fun _ => 0) s ∧
      (s.loc 0).ro = true ∧ ¬ ∃ M, Produces (fun _ => 0) s M ∧ SeenAtOnce s M := by
  obtain ⟨s, hr, hro, hs⟩ := exists_run_of_exec (machine tickBuild 64) (fun _ _ _ => True)
    (State.fresh fun _ => 0)
    (List.flatten [turn 0 [.start true, .go, .load 0, .go, .go, .go], storeBoth,
      turn 0 [.tick, .go, .go, .load 8, .go, .go, .go]])
    (fun s => (s.loc 0).ro = true ∧ (s.loc 0).reads = [⟨0, 0, []⟩, ⟨8, 1, []⟩] ∧
      (s.loc 0).pc = .run ∧ s.shared.clock = 1 ∧ ∃ A ∈ s.shared.hist, A.tid = 1 ∧
        A.stores = [⟨0, 1, BitVec.allOnes 64⟩, ⟨8, 1, BitVec.allOnes 64⟩] ∧
        A.outcome = .committed 1)
    (by decide +kernel)
  exact ⟨s, hr, hro, not_seenAtOnce_of_torn rfl hs⟩

end TinyStm
