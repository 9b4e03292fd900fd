import TinyStm.Gc.Safe

/-!
# What the steps of the collector do not do

The view of its callers: which blocks it has, and what the threads have published.
-/

namespace TinyStm.Gc

open Interleave Function

variable {ι : Type*} {g g' : Threads ι} {i : ι} {freq : Option ℕ}

/-- The block was handed to `gc_free`. -/
def Threads.Has (g : Threads ι) (b : Block ι) : Prop :=
  b ∈ g.freed ∨ ∃ k, b ∈ (g.slots k).blocks

theorem Threads.Has.of_setSlot {k : ℕ} {s : Slot ι} {b : Block ι} {P : Prop}
    (hs : b ∈ s.blocks → g.Has b ∨ P) (h : (g.setSlot k s).Has b) : g.Has b ∨ P := by
  rcases h with h | ⟨k', h⟩
  · exact .inl (.inl h)
  · by_cases hk : k' = k
    · subst hk
      exact hs (by simpa [Threads.setSlot] using h)
    · exact .inl (.inr ⟨k', by simpa [Threads.setSlot, hk] using h⟩)

/-- What a step of a call does not do: it publishes nothing, and the only blocks that
come in are those of `gc_free`. -/
structure GoEffect (g g' : Threads ι) (pc pc' : Pc) : Prop where
  clock : g'.clock = g.clock
  gen : g'.gen = g.gen
  pub : g'.pub = g.pub
  has : ∀ b, g'.Has b → g.Has b ∨
    ∃ addr e, pc = .free addr e ∧ b.addr = addr ∧ b.guards = guardsFor g e
  free : ∀ addr e, pc' ≠ .free addr e
  sweeping : pc.sweeping = false → pc'.sweeping = false

theorem GoEffect.stay {pc pc' : Pc} (hf : ∀ addr e, pc' ≠ .free addr e)
    (hs : pc.sweeping = false → pc'.sweeping = false) : GoEffect g g pc pc' :=
  ⟨rfl, rfl, rfl, fun _ => .inl, hf, hs⟩

theorem GoEffect.setSlot {k : ℕ} {s : Slot ι} {pc pc' : Pc} (hr : s.regions = (g.slots k).regions)
    (hf : ∀ addr e, pc' ≠ .free addr e) (hs : pc.sweeping = false → pc'.sweeping = false) :
    GoEffect g (g.setSlot k s) pc pc' := by
  refine ⟨rfl, rfl, rfl, fun b hb => hb.of_setSlot fun h => ?_, hf, hs⟩
  rw [Slot.blocks, hr] at h
  exact .inl (.inr ⟨k, h⟩)

theorem GoEffect.gcFree (k addr e : ℕ) :
    GoEffect g (gcFree freq g k addr e).1 (.free addr e) (gcFree freq g k addr e).2 := by
  refine ⟨rfl, rfl, rfl, fun b hb => ?_, fun _ _ => ?_, fun _ => ?_⟩
  · refine Threads.Has.of_setSlot (g := g) (k := k) (s := { g.slots k with
      regions := addBlock ⟨addr, g.calls, e, guardsFor g e⟩ e (g.slots k).regions
      frees := ((g.slots k).frees + 1) % 2 ^ 32 }) (fun h => ?_) hb
    obtain ⟨r, hr, hb⟩ := List.mem_flatMap.mp h
    rcases mem_addBlock hr hb with ⟨rfl, -⟩ | ⟨r', hr', -, hb'⟩
    · exact .inr ⟨addr, e, rfl, rfl, rfl⟩
    · exact .inl (.inr ⟨k, List.mem_flatMap.mpr ⟨r', hr', hb'⟩⟩)
  · unfold Gc.gcFree
    dsimp only
    split <;> simp
  · unfold Gc.gcFree
    dsimp only
    split <;> rfl

/-- Blocks go from a list to those that are freed. -/
theorem GoEffect.pop {k : ℕ} {rs : List (Region ι)} {bs : List (Block ι)} {pc pc' : Pc}
    (hrs : ∀ r ∈ rs, r ∈ (g.slots k).regions) (hbs : ∀ b ∈ bs, b ∈ (g.slots k).blocks)
    (hf : ∀ addr e, pc' ≠ .free addr e) (hs : pc.sweeping = false → pc'.sweeping = false) :
    GoEffect g { g.setSlot k { g.slots k with regions := rs } with freed := g.freed ++ bs }
      pc pc' := by
  refine ⟨rfl, rfl, rfl, fun b hb => ?_, hf, hs⟩
  rcases hb with hb | ⟨k', hb⟩
  · rcases List.mem_append.mp hb with hb | hb
    · exact .inl (.inl hb)
    · exact .inl (.inr ⟨k, hbs b hb⟩)
  · refine Threads.Has.of_setSlot (k := k) (s := { g.slots k with regions := rs }) (fun h => ?_)
      (.inr ⟨k', hb⟩)
    obtain ⟨r, hr, hb⟩ := List.mem_flatMap.mp h
    exact .inl (.inr ⟨k, List.mem_flatMap.mpr ⟨r, hrs r hr, hb⟩⟩)

theorem GoEffect.clean (w : Work) (m : ℕ) :
    GoEffect g (cleanStep g w m).1 (.clean w m) (cleanStep g w m).2 := by
  have hdone : GoEffect g g (.clean w m) (w.done m) := by
    cases w with
    | own k => exact .stay (by simp [Work.done]) fun _ => rfl
    | all k => exact .stay (by simp [Work.done]) id
  unfold cleanStep
  dsimp only
  split
  · exact hdone
  · next r rs hr =>
    split
    · refine .pop ?_ ?_ (by simp) id
      · rw [hr]
        exact fun r' hr' => List.mem_cons_of_mem r hr'
      · intro b hb
        rw [blocks_cons _ r rs hr]
        exact List.mem_append_left _ hb
    · exact hdone

theorem goStep_effect [DecidableEq ι] {home home' : Option ℕ} {pc pc' : Pc}
    (hs : goStep freq i g home pc = some (g', home', pc')) : GoEffect g g' pc pc' := by
  cases pc with
  | rest => cases hs
  | free addr e =>
    cases home with
    | none => cases hs
    | some k =>
      cases hs
      exact .gcFree k addr e
  | clean w m =>
    cases hs
    exact .clean w m
  | gcExit k =>
    simp only [goStep] at hs
    split at hs
    · cases hs
      exact .pop (by simp) (fun b hb => hb) (by simp) id
    · cases hs
      exact ⟨rfl, rfl, rfl, fun _ => .inl, by simp, fun _ => rfl⟩
  | cleanup =>
    cases home with
    | none => cases hs
    | some k =>
      simp only [goStep, Option.map_some, Option.some.injEq] at hs
      split at hs <;> cases hs <;> exact .stay (by simp) fun _ => rfl
  | scanUsed w pos m =>
    simp only [goStep] at hs
    split at hs
    · split at hs <;> cases hs <;> exact .stay (by simp) (by cases w <;> exact id)
    · cases hs
      exact .stay (by simp) (by cases w <;> exact id)
  | scanTs w pos m =>
    cases hs
    exact .stay (by simp) (by cases w <;> exact id)
  | initLoad k =>
    simp only [goStep] at hs
    split at hs <;> cases hs <;> exact .stay (by simp [initNext]) fun _ => rfl
  | initCas k used =>
    simp only [goStep] at hs
    split at hs
    · cases hs
      exact .setSlot rfl (by simp) fun _ => rfl
    · cases hs
      exact .stay (by simp [initNext]) fun _ => rfl
  | initEpoch k =>
    cases hs
    exact .stay (by simp) fun _ => rfl
  | initStore k ts =>
    cases hs
    exact .setSlot rfl (by simp) fun _ => rfl
  | allNull k m | allFull k m =>
    simp only [goStep] at hs
    split at hs <;> cases hs <;> exact .stay (by simp) fun h => by simp [Pc.sweeping] at h
  | allCas k m =>
    simp only [goStep] at hs
    split at hs
    · cases hs
      exact .setSlot rfl (by intros; split <;> simp) fun h => by simp [Pc.sweeping] at h
    · cases hs
      exact .stay (by simp) fun h => by simp [Pc.sweeping] at h
  | allEpoch k =>
    cases hs
    exact .stay (by simp) fun h => by simp [Pc.sweeping] at h
  | allRel k m =>
    cases hs
    exact .setSlot rfl (by simp) fun h => by simp [Pc.sweeping] at h
  | exitRel k =>
    cases hs
    exact .setSlot rfl (by simp) fun _ => rfl
  | exitDec =>
    cases hs
    exact ⟨rfl, rfl, rfl, fun _ => .inl, by simp, fun _ => rfl⟩

/-! ## The calls that the transactions make -/

section Calls

variable [DecidableEq ι] {y y' : Local}

theorem step_call {a : Act} (htick : a ≠ .tick) (hgo : a ≠ .go)
    (h : (gcSystem ι freq).step i a g y = some (g', y')) :
    callStep i g a y.home = some (g', y'.home, y'.pc) := by
  simp only [gcSystem, Option.ite_none_right_eq_some] at h
  replace h := h.2
  have hcall : ((callStep i g a y.home).map fun r => (r.1, (⟨r.2.1, r.2.2⟩ : Local))) =
      some (g', y') := by
    cases a with
    | tick => exact absurd rfl htick
    | go => exact absurd rfl hgo
    | init | setEpoch | free | cleanup | cleanupAll | exit | gcExit =>
      exact h.2
  obtain ⟨⟨g₁, home, pc⟩, hc, he⟩ := Option.map_eq_some_iff.mp hcall
  cases he
  exact hc

theorem step_free {a e : ℕ} (h : (gcSystem ι freq).step i (.free a e) g y = some (g', y')) :
    g' = g ∧ y' = ⟨y.home, .free a e⟩ := by
  have hc := step_call (by simp) (by simp) h
  cases hy : y.home with
  | none => simp [hy, callStep] at hc
  | some k =>
    simp only [hy, callStep, Option.some.injEq, Prod.mk.injEq] at hc
    obtain ⟨rfl, hh, hp⟩ := hc
    exact ⟨rfl, by rw [hh, hp]⟩

theorem step_setEpoch {e : ℕ} (h : (gcSystem ι freq).step i (.setEpoch e) g y = some (g', y')) :
    ∃ k, g' = setEpoch g i k e ∧ y' = ⟨y.home, .rest⟩ := by
  have hc := step_call (by simp) (by simp) h
  cases hy : y.home with
  | none => simp [hy, callStep] at hc
  | some k =>
    simp only [hy, callStep, Option.some.injEq, Prod.mk.injEq] at hc
    obtain ⟨rfl, hh, hp⟩ := hc
    exact ⟨k, rfl, by rw [hh, hp]⟩

theorem step_exit (h : (gcSystem ι freq).step i .exit g y = some (g', y')) :
    ∃ k, g' = leave g i k ∧ y' = ⟨none, .exitRel k⟩ := by
  have hc := step_call (by simp) (by simp) h
  cases hy : y.home with
  | none => simp [hy, callStep] at hc
  | some k =>
    simp only [hy, callStep, Option.some.injEq, Prod.mk.injEq] at hc
    obtain ⟨rfl, hh, hp⟩ := hc
    exact ⟨k, rfl, by rw [hh, hp]⟩

theorem step_init (h : (gcSystem ι freq).step i .init g y = some (g', y')) :
    g' = { g with nbActive := g.nbActive + 1, active := update g.active i true } ∧
      y' = ⟨none, .initLoad 0⟩ := by
  have hc := step_call (by simp) (by simp) h
  cases hy : y.home with
  | none =>
    simp only [hy, callStep, Option.ite_none_left_eq_some, Option.some.injEq, Prod.mk.injEq] at hc
    obtain ⟨-, rfl, hh, hp⟩ := hc
    exact ⟨rfl, by rw [hh, hp]⟩
  | some k => simp [hy, callStep] at hc

theorem step_tick (h : (gcSystem ι freq).step i .tick g y = some (g', y')) :
    g' = { g with clock := g.clock + 1 } ∧ y' = y := by
  simp only [gcSystem] at h
  split_ifs at h
  cases h
  exact ⟨rfl, rfl⟩

theorem step_go (h : (gcSystem ι freq).step i .go g y = some (g', y')) :
    GoEffect g g' y.pc y'.pc := by
  simp only [gcSystem] at h
  split_ifs at h
  obtain ⟨⟨g₁, home, pc⟩, hs, he⟩ := Option.map_eq_some_iff.mp h
  cases he
  exact goStep_effect hs

omit [DecidableEq ι] in
theorem Threads.Has.of_regions {b : Block ι} {t : Threads ι} (hf : t.freed = g.freed)
    (hr : ∀ k, (t.slots k).regions = (g.slots k).regions) (h : t.Has b) : g.Has b := by
  rcases h with h | ⟨k, h⟩
  · exact .inl (hf ▸ h)
  · refine .inr ⟨k, ?_⟩
    rwa [Slot.blocks, hr] at h

omit [DecidableEq ι] in
theorem regions_update {k : ℕ} {s : Slot ι} (h : s.regions = (g.slots k).regions) (k' : ℕ) :
    (update g.slots k s k').regions = (g.slots k').regions :=
  (forall_update_iff g.slots fun k t => t.regions = (g.slots k).regions).mpr
    ⟨h, fun _ _ => rfl⟩ k'

theorem has_setEpoch {k e : ℕ} {b : Block ι} (h : (setEpoch g i k e).Has b) : g.Has b :=
  Threads.Has.of_regions (t := setEpoch g i k e) rfl (regions_update (g := g) rfl) h

theorem has_leave {k : ℕ} {b : Block ι} (h : (leave g i k).Has b) : g.Has b :=
  Threads.Has.of_regions (t := leave g i k) rfl (regions_update (g := g) rfl) h

end Calls

end TinyStm.Gc
