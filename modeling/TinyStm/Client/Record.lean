import TinyStm.Client.Follow
import TinyStm.Serial

/-!
# What is on record of the bodies

The invariant of the threads, and of the transactions that have returned: their
bodies lead from the start to the result by the loads and stores of the attempt.
Below, a run of the threads is a run of the machine.
-/

namespace TinyStm.Client

open Interleave

variable {w : ℕ} {α : Type*} {b : Build} {tid : ℕ} {g g' : Glob w α} {x x' : Thread w α}
  {Φ : Prog w α → Prop} {s s₀ : State w α}

/-- Where a thread stands. -/
inductive Ahead (x : Thread w α) : Prop
  | idle : x.tx.pc = .idle → Ahead x
  | barrier : x.tx.pc = .barrier → Ahead x
  | prepare : x.tx.pc = .prepare → x.rest = x.code → Ahead x
  | body : Leads x.code x.tx.reads x.tx.stores x.rest → Going x.tx.wset x.rest x.tx.pc → Ahead x

/-- The transactions that have returned are those of the history, with their bodies. -/
structure Recorded (Φ : Prog w α → Prop) (g : Glob w α) : Prop where
  atts : g.done.map (·.att) = g.stm.hist.filter returned
  body : ∀ d ∈ g.done, Φ d.code ∧ Returned d.att ∧
    Leads d.code d.att.reads d.att.stores (.ret d.result)

/-- A thread executes a body with `Φ`. -/
structure Follows (Φ : Prog w α → Prop) (x : Thread w α) : Prop where
  code : x.tx.pc ≠ .idle → Φ x.code
  ahead : Ahead x

theorem Thread.after_of_same {y : Tx w} (hp : y.pc ≠ .prepare) (hr : y.reads = x.tx.reads)
    (hs : y.stores = x.tx.stores) : x.after y = x.rest := by
  rw [Thread.after, if_neg hp, hr, hs]
  cases x.rest <;> simp

theorem Thread.finish_of_ne_idle {y : Tx w} (hp : y.pc ≠ .idle) (g : Shared w) :
    x.finish y g = [] := by
  unfold Thread.finish
  split
  · exact absurd ‹_› hp
  · rfl

theorem Recorded.stay (hR : Recorded Φ g) {h : Shared w} (hh : h.hist = g.stm.hist) :
    Recorded Φ ⟨h, g.done ++ []⟩ where
  atts := by rw [List.append_nil, hh, hR.atts]
  body d hd := hR.body d (by simpa using hd)

/-- A step of the body as `Moves` has it. -/
theorem Moves.keep {h : Shared w} {y : Tx w} (hm : Moves x.rest g.stm.tick x.tx h y)
    (hR : Recorded Φ g) (hΦ : Φ x.code)
    (hl : Leads x.code x.tx.reads x.tx.stores x.rest) :
    Recorded Φ ⟨h, g.done ++ x.finish y h⟩ ∧ Follows Φ ⟨y, x.code, x.after y⟩ := by
  cases hm with
  | goes hq hr hs hh =>
    have hp : y.pc ≠ .prepare := fun hp => by simp [hp, Going] at hq
    have hi : y.pc ≠ .idle := fun hi => by simp [hi, Going] at hq
    rw [Thread.finish_of_ne_idle hi, Thread.after_of_same hp hr hs]
    exact ⟨hR.stay (hh), fun _ => hΦ, .body (by rw [hr, hs]; exact hl) hq⟩
  | @loads a k v hq hp hr hs hh =>
    rw [hq] at hl
    rw [Thread.finish_of_ne_idle (by rw [hp]; simp)]
    refine ⟨hR.stay (hh), fun _ => hΦ, .body ?_ (by rw [hp]; trivial)⟩
    have hafter : x.after y = k v := by simp [Thread.after, hp, hq, hr]
    rw [hafter, hr, hs]
    exact .load v hl
  | @stores a v m k hq hp hr hs hh =>
    rw [hq] at hl
    rw [Thread.finish_of_ne_idle (by rw [hp]; simp)]
    refine ⟨hR.stay (hh), fun _ => hΦ, .body ?_ (by rw [hp]; trivial)⟩
    have hafter : x.after y = k := by simp [Thread.after, hp, hq, hs]
    rw [hafter, hr, hs]
    exact .store hl
  | @aborts A r hp ho hh =>
    rw [Thread.finish_of_ne_idle (by rw [hp]; simp)]
    refine ⟨⟨?_, fun d hd => hR.body d (by simpa using hd)⟩, fun _ => hΦ, .prepare hp ?_⟩
    · simp [hh, Shared.tick, hR.atts, returned, ho]
    · exact if_pos hp
  | @commits A r hq hp hr hs ho hh =>
    have hf : x.finish y h = [⟨A, x.code, r⟩] := by simp [Thread.finish, hq, hp, hh]
    rw [hf]
    refine ⟨⟨?_, fun d hd => ?_⟩, fun hi => absurd hp hi, .idle hp⟩
    · simp [hh, Shared.tick, hR.atts, ho.returned]
    · rcases List.mem_append.mp hd with hd | hd
      · exact hR.body d hd
      · cases List.mem_singleton.mp hd
        exact ⟨hΦ, ho, by rw [hr, hs, ← hq]; exact hl⟩

/-- A call of `stm_prepare`. -/
theorem keep_prepare {h : Shared w} {y : Tx w} (hs : stmPrepare b g.stm.tick x.tx = some (h, y))
    (hp : x.tx.pc = .prepare) (hc : x.rest = x.code) (hR : Recorded Φ g) (hF : Follows Φ x) :
    Recorded Φ ⟨h, g.done ++ x.finish y h⟩ ∧ Follows Φ ⟨y, x.code, x.after y⟩ := by
  have hΦ : Φ x.code := hF.code (by rw [hp]; simp)
  simp only [stmPrepare] at hs
  split at hs <;> cases hs
  · rw [Thread.finish_of_ne_idle (by simp)]
    exact ⟨hR.stay rfl, fun _ => hΦ, .barrier rfl⟩
  · rw [Thread.finish_of_ne_idle (by simp)]
    refine ⟨hR.stay rfl, fun _ => hΦ, .body ?_ trivial⟩
    have hafter : x.after { x.tx with pc := .run, reads := [], stores := [] } = x.code := by
      rw [Thread.after, if_neg (by simp), hc]
      cases x.code <;> simp
    exact hafter ▸ .start

/-- Every step keeps the record. -/
theorem keep_step (he : b.extraTick = false) {act : Act w α} (ha : ∀ ro p, act = .start ro p → Φ p)
    (hs : step b tid act g x = some (g', x')) (hR : Recorded Φ g) (hF : Follows Φ x) :
    Recorded Φ g' ∧ Follows Φ x' := by
  have hbody : x.tx.pc = .run → Φ x.code ∧ Leads x.code x.tx.reads x.tx.stores x.rest := by
    intro hp
    refine ⟨hF.code (by rw [hp]; simp), ?_⟩
    cases hF.ahead with
    | body hl => exact hl
    | idle h | barrier h | prepare h => simp [hp] at h
  unfold step at hs
  split at hs
  · -- a body starts
    next ro p hp =>
    obtain ⟨r, h, he'⟩ := Option.map_eq_some_iff.mp hs
    cases he'
    simp only [stepTx, hp, stepIdle, Option.some.injEq] at h
    subst h
    rw [Thread.finish_of_ne_idle (by simp)]
    refine ⟨hR.stay rfl, fun _ => ha ro p rfl, .prepare rfl ?_⟩
    simp [Thread.after]
  · -- its next call
    next hp =>
    obtain ⟨r, h, he'⟩ := Option.map_eq_some_iff.mp hs
    cases he'
    obtain ⟨hΦ, hl⟩ := hbody hp
    have hrun : stepRun b tid g.stm.tick x.tx x.rest.next = some r := by
      rw [← h]
      cases x.rest <;> simp [stepTx, Prog.next, hp]
    exact (moves_next he hrun).keep hR hΦ hl
  · -- a rollback that the program asks for
    next hp =>
    obtain ⟨r, h, he'⟩ := Option.map_eq_some_iff.mp hs
    cases he'
    obtain ⟨hΦ, hl⟩ := hbody hp
    simp only [stepTx, hp, stepRun, Option.some.injEq] at h
    subst h
    exact (Moves.rollback (g := g.stm.tick) rfl rfl rfl _).keep hR hΦ hl
  · obtain ⟨r, h, he'⟩ := Option.map_eq_some_iff.mp hs
    cases he'
    cases hF.ahead with
    | idle hp => simp [stepTx, stepGo, hp] at h
    | barrier hp => simp [stepTx, stepGo, hp] at h
    | prepare hp hc =>
      simp only [stepTx, hp, stepGo] at h
      exact keep_prepare h hp hc hR hF
    | body hl hq =>
      have hΦ : Φ x.code := hF.code fun hi => by simp [hi, Going] at hq
      exact (moves_stepGo he hq h).keep hR hΦ hl
  · cases hs

/-- The runs in which every body that is started meets `Φ`. -/
def Starts (Φ : Prog w α → Prop) (_ : State w α) (_ : ℕ) (act : Act w α) : Prop :=
  ∀ ro p, act = .start ro p → Φ p

theorem run_recorded (he : b.extraTick = false) (hr : Run (system b w α) (Starts Φ) s₀ s)
    (hi : Initial s₀) : Recorded Φ s.shared ∧ ∀ i, Follows Φ (s.loc i) := by
  refine hr.invariant (P := fun s => Recorded Φ s.shared ∧ ∀ i, Follows Φ (s.loc i)) ?_ ?_
  · intro s i act e hP ho hm
    obtain ⟨g', x', hs, rfl⟩ := move_eq_some hm
    obtain ⟨hR, hF⟩ := keep_step he ho hs hP.1 (hP.2 i)
    refine ⟨hR, fun j => ?_⟩
    by_cases hj : j = i
    · subst hj
      simpa using hF
    · simpa [Function.update_of_ne hj] using hP.2 j
  · refine ⟨⟨?_, ?_⟩, fun i => ⟨fun h => absurd (hi.stm.pc i) h, .idle (hi.stm.pc i)⟩⟩
    · rw [hi.done, show s₀.shared.stm.hist = [] from hi.stm.hist]
      rfl
    · simp [hi.done]

theorem step_stm {act : Act w α} (hs : step b tid act g x = some (g', x')) :
    ∃ a : TinyStm.Act w, a.isSetExtension = false ∧
      stepTx b tid a g.stm.tick x.tx = some (g'.stm, x'.tx) := by
  have hstep : ∀ (a : TinyStm.Act w) (z : Thread w α), z.tx = x.tx →
      z.step b tid a g = some (g', x') → stepTx b tid a g.stm.tick x.tx = some (g'.stm, x'.tx) := by
    intro a z hz h
    obtain ⟨r, hr, he⟩ := Option.map_eq_some_iff.mp h
    cases he
    rw [← hz]
    exact hr
  unfold step at hs
  split at hs
  · next p _ => exact ⟨_, rfl, hstep _ { x with code := p } rfl hs⟩
  · refine ⟨_, ?_, hstep _ x rfl hs⟩
    cases x.rest <;> rfl
  · exact ⟨_, rfl, hstep _ x rfl hs⟩
  · exact ⟨_, rfl, hstep _ x rfl hs⟩
  · cases hs

/-- A run of the threads is a run of the machine. -/
theorem run_stm {ok : State w α → ℕ → Act w α → Prop} (hr : Run (system b w α) ok s₀ s) :
    Run (machine b w) NoExtension s₀.stm s.stm := by
  induction hr with
  | refl => exact .refl
  | @tail s e i act _ _ hm ih =>
    obtain ⟨g', x', hs, rfl⟩ := move_eq_some hm
    obtain ⟨a, ha, hs⟩ := step_stm hs
    refine ih.tail (i := i) (a := a) ha ?_
    have hloc : (fun j => (Function.update s.loc i x' j).tx) =
        Function.update (fun j => (s.loc j).tx) i x'.tx :=
      funext fun j => Function.apply_update (fun _ x => x.tx) s.loc i x' j
    simp only [System.move, machine, State.stm, hs, hloc, Option.map_some]

end TinyStm.Client
