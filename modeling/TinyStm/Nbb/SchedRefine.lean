import TinyStm.Nbb.SchedStep

/-!
# The scheduler neither loses, duplicates nor swaps a task
-/

namespace TinyStm.Nbb

open Interleave

variable {ι τ : Type*} [DecidableEq ι] [DecidableEq τ] [Fintype τ] {z : Sizes}
  {place : τ → Place ι} {h : ℕ → ℕ} {ids : ℕ → List (BitVec 64)}
  {c d : Config ι (Sched τ) (Worker τ)} {c' : Config ι (Queues τ) (Client τ)} {i : ι}

def Worker.inserting : Worker τ → Option Insert
  | .insert _ _ _ op => some op
  | _ => none

/-- The version that thread `i` is about to write fits: an insertion gets to its
compare-and-swap only at an index `mytail` with `mytail / pool_size` below
`2 ^ 32 - 1`. -/
def SchedFits (z : Sizes) (c : Config ι (Sched τ) (Worker τ)) (i : ι) (_ : SchedAct τ) : Prop :=
  ∀ op ∈ (c.loc i).inserting, op.VerFits z.shape

omit [DecidableEq ι] [DecidableEq τ] [Fintype τ] in
instance (c : Config ι (Sched τ) (Worker τ)) (i : ι) (a : SchedAct τ) :
    Decidable (SchedFits z c i a) :=
  inferInstanceAs (Decidable (∀ op ∈ (c.loc i).inserting, op.VerFits z.shape))

theorem SchedSim.call_insert (hS : SchedSim z place h ids c c') (hy : c'.loc i = .idle) {task : τ}
    {prio : ℤ} (hout : c.shared.out task = false) (hprio : ¬ (prio < 0 ∨ z.numPrio ≤ prio)) :
    Matched z c c' i { c.shared with out := Function.update c.shared.out task true }
      (.acquire task prio.toNat 0) (some (.callInsert task prio)) := by
  have hfree := (hS.free task).mp hout
  have hhist : Hist (queueSystem z ι) (fun _ _ _ => True) queueLabel c'
      (shown i (some (.callInsert task prio)))
      ⟨{ c'.shared with out := Function.update c'.shared.out task true },
        Function.update c'.loc i (.insert task prio.toNat)⟩ := by
    refine queue_hist (.insert task prio) hy ?_
    simp only [queueSystem, hS.out, hout, if_neg hprio]
    rfl
  refine ⟨Function.update place task (.acquire i prio.toNat 0), h, ids, _, hhist,
    hS.move_task (by rw [hfree]; exact fun _ _ ho => by cases ho) ?_ ?_ ?_ ?_ ?_ (fun _ _ _ _ _ _ hp => hp)
      (fun _ => le_rfl) (fun _ => le_rfl) ⟨Function.update_self .., Nat.zero_le _, rfl⟩⟩
  · exact fun p => (hS.nodes p).other (by rw [hfree]; exact fun _ h => by cases h) (fun _ h => by cases h)
  · exact fun p => (hS.queued p).keep (by rw [hfree]; simp)
  · refine fun p k hk => (hS.crowded p k hk).mono fun u hu => ?_
    by_cases hut : u = task
    · subst hut
      rw [Function.update_self] at hu
      exact absurd hu.2 (by omega)
    · rwa [Function.update_of_ne hut] at hu
  · intro u
    by_cases hut : u = task
    · subst hut
      simp
    · simpa [Function.update_of_ne hut] using hS.free u
  · simp only [hS.out]

theorem SchedSim.return_removed (hS : SchedSim z place h ids c c') {task : τ}
    (hpl : place task = .leaving i) (hy : c'.loc i = .removed (some task)) :
    Matched z c c' i { c.shared with out := Function.update c.shared.out task false }
      .idle (some (.retRemove (some task))) := by
  have hhist : Hist (queueSystem z ι) (fun _ _ _ => True) queueLabel c'
      (shown i (some (.retRemove (some task))))
      ⟨{ c'.shared with out := Function.update c'.shared.out task false },
        Function.update c'.loc i .idle⟩ := queue_hist .go hy rfl
  refine ⟨Function.update place task .free, h, ids, _, hhist,
    hS.move_task (owner_ne hpl rfl) ?_ ?_ ?_ ?_ ?_ (fun _ _ _ _ _ _ hp => hp)
      (fun _ => le_rfl) (fun _ => le_rfl) rfl⟩
  · exact fun p => (hS.nodes p).other (by rw [hpl]; nofun) nofun
  · exact fun p => (hS.queued p).keep (by rw [hpl]; nofun)
  · refine fun p k hk => (hS.crowded p k hk).mono fun u hu => ?_
    by_cases hut : u = task
    · subst hut
      rw [Function.update_self] at hu
      exact absurd hu id
    · rwa [Function.update_of_ne hut] at hu
  · intro u
    by_cases hut : u = task
    · subst hut
      simp
    · simpa [Function.update_of_ne hut] using hS.free u
  · simp only [hS.out]

/-- A call or return that leaves the shared state alone. -/
theorem SchedSim.show_step (hS : SchedSim z place h ids c c') (a : SchedAct τ) {y y' : Client τ}
    {x' : Worker τ} (hy : c'.loc i = y)
    (hs : (queueSystem z ι).step i a c'.shared y = some (c'.shared, y'))
    (hx : x'.Ok z place c.shared h (fun p => h p + (ids p).length) i y') :
    Matched z c c' i c.shared x' (queueLabel a y) :=
  ⟨place, h, ids, _, queue_hist a hy hs, hS.stay hx⟩

/-- Every step that is not a call or a return. -/
theorem SchedSim.inner_step (hS : SchedSim z place h ids c c') (hz : z.Fits)
    (hcard : Fintype.card τ ≤ z.poolSize) (hfit : ∀ op ∈ (c.loc i).inserting, op.VerFits z.shape)
    {g' : Sched τ}
    {x' : Worker τ} (hs : (c.loc i).step z c.shared = some (g', x')) :
    Matched z c c' i g' x' none := by
  have hx := hS.loc i
  revert hs hx hfit
  generalize c.loc i = x
  intro hfit hs hx
  cases x with
  | idle => cases hs
  | nullNode => cases hs
  | outside => cases hs
  | inserted code => cases hs
  | removed task => cases hs
  | acquire task p b => exact hS.step_acquire hz hcard hx.1 hx.2.1 hx.2.2 hs
  | acquireCas task p b w => exact hS.step_acquireCas hz hcard hx hs
  | store task p id => exact hS.step_store hz hx.1 hx.2 hs
  | insert task p id op =>
    have hmatch := hS.step_insert hz hcard (hfit op rfl) hx
    obtain ⟨_, hx⟩ := hx
    cases op with
    | full => rcases hx with ⟨hph, _⟩ | ⟨hph, _⟩ <;> cases hph
    | done =>
      cases hs
      rcases hx with ⟨hph, _⟩ | ⟨_, hy⟩
      · cases hph
      · exact hS.quiet hy
    | start v => cases hs; exact hmatch
    | scan v x b => cases hs; exact hmatch
    | cas v x b => cases hs; exact hmatch
    | publish x b => cases hs; exact hmatch
    | reload x => cases hs; exact hmatch
  | remove p op =>
    have hmatch := hS.step_remove hx
    obtain ⟨_, hx⟩ := hx
    cases op with
    | empty =>
      cases hs
      rcases hx with ⟨hph, _⟩ | ⟨_, _, hph, _⟩ | ⟨_, hy⟩
      · cases hph
      · cases hph
      · refine hS.quiet ?_
        rw [hy]
        cases p with
        | zero => exact rfl
        | succ p => exact ⟨trivial, .inl ⟨rfl, rfl⟩⟩
    | done v =>
      cases hs
      rcases hx with ⟨hph, _⟩ | ⟨v', task, hph, hpl, hy⟩ | ⟨hph, _⟩
      · cases hph
      · cases hph
        exact hS.quiet ⟨task, hpl, hy⟩
      · cases hph
    | start => cases hs; exact hmatch
    | scan x b => cases hs; exact hmatch
    | cas w x b => cases hs; exact hmatch
    | publish v x b => cases hs; exact hmatch
    | reload v x => cases hs; exact hmatch
  | load p id => exact hS.step_load hx hs
  | release task p id => exact hS.step_release hx hs
  | releasePayload task p id w =>
    cases hs
    obtain ⟨u, hu, hpl, hy⟩ := hx
    exact hS.quiet ⟨u, hu, (hS.nodes p).payload u id (.inr ⟨i, hpl⟩), hpl, hy⟩
  | releaseCas task p id w pay => exact hS.step_releaseCas hx hs
  | releaseClear task p id pay => exact hS.step_releaseClear hx hs

theorem SchedSim.step (hS : SchedSim z place h ids c c') (hz : z.Fits)
    (hcard : Fintype.card τ ≤ z.poolSize) {a : SchedAct τ} (hfit : SchedFits z c i a)
    (hm : (schedSystem z ι).move c i a = some d) :
    ∃ place' h' ids' d', Hist (queueSystem z ι) (fun _ _ _ => True) queueLabel c'
      (shown i (schedLabel a (c.loc i))) d' ∧ SchedSim z place' h' ids' d d' := by
  obtain ⟨g', x', hs, rfl⟩ := move_eq_some hm
  have hx := hS.loc i
  have hinner : (c.loc i).step z c.shared = some (g', x') → Matched z c c' i g' x' none :=
    hS.inner_step hz hcard hfit
  revert hs hx hinner
  generalize c.loc i = x
  intro hs hx hinner
  rcases a with ⟨task, prio⟩ | _ | _
  · cases x with
    | idle =>
      simp only [schedSystem] at hs
      split at hs
      · cases hs
      · rename_i hout
        have hout : c.shared.out task = false := by simpa using hout
        have hout' : c'.shared.out task = false := by rw [hS.out, hout]
        split at hs
        · rename_i hprio
          cases hs
          refine hS.show_step (.insert task prio) hx ?_ rfl
          simp only [queueSystem, hout', if_pos hprio]
          rfl
        · rename_i hprio
          cases hs
          exact hS.call_insert hx hout hprio
    | _ => cases hs
  · cases x with
    | idle =>
      cases hs
      exact hS.show_step .remove hx rfl ⟨trivial, .inl ⟨rfl, rfl⟩⟩
    | _ => cases hs
  · cases x with
    | idle => cases hs
    | inserted code =>
      cases hs
      exact hS.show_step .go hx rfl rfl
    | removed task =>
      cases task with
      | none =>
        cases hs
        exact hS.show_step .go hx rfl rfl
      | some task =>
        cases hs
        exact hS.return_removed hx.1 hx.2
    | _ => exact hinner hs

theorem busy_init (id : ℕ) :
    busy (fun b => if b = 0 then 1#64 else 0#64) id = true ↔ id = 0 := by
  show (if id / 64 = 0 then 1#64 else 0#64).getLsbD (id % 64) = true ↔ id = 0
  by_cases h0 : id / 64 = 0
  · rw [if_pos h0]
    have : id % 64 = id := by omega
    rw [this, BitVec.getLsbD_one]
    simp only [Nat.zero_lt_succ, decide_true, Bool.true_and, decide_eq_true_eq]
  · rw [if_neg h0, BitVec.getLsbD_zero]
    constructor
    · nofun
    · rintro rfl
      exact absurd rfl h0

omit [DecidableEq ι] [DecidableEq τ] in
theorem schedSim_init (z : Sizes) :
    SchedSim z (ι := ι) (τ := τ) (fun _ => .free) (fun _ => 0) (fun _ => [])
      ⟨getPrioTaskArray, fun _ => .idle⟩ ⟨⟨fun _ => [], fun _ => false⟩, fun _ => .idle⟩ where
  nodes p := by
    refine ⟨fun id => ?_, nofun, nofun, nofun, fun t id h => ?_⟩
    · refine (busy_init id).trans ⟨.inl, ?_⟩
      rintro (h | ⟨_, h⟩)
      · exact h
      · cases h
    · rcases h with h | ⟨_, h⟩ <;> cases h
  queued _ := ⟨holds_create _, .nil, List.nodup_nil⟩
  crowded p k _ := by
    rintro ⟨_, h⟩
    exact absurd h id
  free _ := ⟨fun _ => rfl, fun _ => rfl⟩
  out := rfl
  loc _ := rfl

/-- What must not happen: no node, a node outside the array, a full list, an
entry without a task. -/
def Worker.fault : Worker τ → Bool
  | .nullNode | .outside | .insert _ _ _ .full | .release none _ _ => true
  | _ => false

omit [DecidableEq ι] [DecidableEq τ] [Fintype τ] in
theorem Worker.Ok.fault_eq {x : Worker τ} {y : Client τ} {g : Sched τ} {t : ℕ → ℕ}
    (hx : x.Ok z place g h t i y) : x.fault = false := by
  cases x with
  | nullNode => exact hx.elim
  | outside => exact hx.elim
  | insert task p id op =>
    cases op with
    | full => rcases hx.2 with ⟨hph, _⟩ | ⟨hph, _⟩ <;> cases hph
    | _ => rfl
  | release task p id =>
    cases task with
    | none =>
      obtain ⟨_, hu, _⟩ := hx
      cases hu
    | some u => rfl
  | _ => rfl

/-- Whatever the threads see of the scheduler they could have seen of one queue
for each priority, and nothing goes wrong on the way. -/
theorem sched_refines_queues (z : Sizes) (hz : z.Fits) (hcard : Fintype.card τ ≤ z.poolSize)
    {hist : List (ι × SchedEvent τ)}
    (hh : Hist (schedSystem z ι) (SchedFits z) schedLabel ⟨getPrioTaskArray, fun _ => .idle⟩
      hist d) :
    (∃ d', Hist (queueSystem z ι) (fun _ _ _ => True) queueLabel
      ⟨⟨fun _ => [], fun _ => false⟩, fun _ => .idle⟩ hist d') ∧ ∀ i, (d.loc i).fault = false := by
  have hstep : ∀ c i a d (c' : Config ι (Queues τ) (Client τ)),
      (∃ place h ids, SchedSim z place h ids c c') → SchedFits z c i a →
      (schedSystem z ι).move c i a = some d →
      ∃ d', Hist (queueSystem z ι) (fun _ _ _ => True) queueLabel c'
        (shown i (schedLabel a (c.loc i))) d' ∧ ∃ place h ids, SchedSim z place h ids d d' := by
    rintro c i a d c' ⟨place, h, ids, hS⟩ hfit hm
    obtain ⟨place', h', ids', d', hd', hS'⟩ := hS.step hz hcard hfit hm
    exact ⟨d', hd', place', h', ids', hS'⟩
  obtain ⟨d', hd', place, h, ids, hS⟩ := hh.simulate hstep ⟨_, _, _, schedSim_init z⟩
  exact ⟨⟨d', hd'⟩, fun i => (hS.loc i).fault_eq⟩

def onePair : Sizes := ⟨1, 1, 1, 2, Nat.one_pos, Nat.one_pos, Nat.one_pos, Nat.two_pos⟩

/-- One thread inserts a task and another takes it. -/
theorem sched_refines_queues_handover :
    ∃ d', Hist (queueSystem onePair (Fin 2)) (fun _ _ _ => True) queueLabel
      ⟨⟨fun _ => [], fun _ => false⟩, fun _ => .idle⟩
      [(0, .callInsert (1 : Fin 2) 0), (1, .callRemove), (0, .retInsert 0),
        (1, .retRemove (some 1))] d' := by
  have hrun : ((schedSystem onePair (Fin 2)).history (SchedFits onePair) schedLabel
      ((0, .insert (1 : Fin 2) 0) :: (1, .remove) :: List.replicate 9 (0, .go) ++
        List.replicate 11 (1, .go))
      ⟨getPrioTaskArray, fun _ => .idle⟩).any (fun r => decide (r.1 =
        [(0, .callInsert 1 0), (1, .callRemove), (0, .retInsert 0),
          (1, .retRemove (some 1))])) = true := by
    decide +kernel
  obtain ⟨⟨hist, d⟩, hr, hp⟩ := (Option.any_eq_true _ _).mp hrun
  have hh := hist_of_history _ hr
  rw [show hist = _ from of_decide_eq_true hp] at hh
  exact (sched_refines_queues onePair (by decide) (by decide) hh).1

end TinyStm.Nbb
