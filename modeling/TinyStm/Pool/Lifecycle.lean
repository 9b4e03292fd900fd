import TinyStm.Pool.Runs

/-!
# The life cycle of a task

The invariant holds after `TaskPoolInit` and so in every state of a run: each task is in
one place, `FreeTask` gets only tasks that are over, and the free list is what the
pool says while nobody works on it.
-/

namespace TinyStm.Pool

open Interleave

variable {ι : Type*} [DecidableEq ι] [Fintype ι] {size : ℕ} {i : ι}

section

variable {n : ℤ} {gcPeriod : ℕ}

theorem Inv.step {c d : Config ι (Store ι) Thread} {a : Act} (h : Inv size c.shared c.loc)
    (hm : (system n gcPeriod).move c i a = some d) : Inv size d.shared d.loc := by
  obtain ⟨l, q, place, h⟩ := h
  obtain ⟨g', x', hs, rfl⟩ := move_eq_some hm
  cases hi : c.loc i with
  | server s =>
    simp only [system, hi, Option.map_eq_some_iff] at hs
    obtain ⟨⟨g'', s'⟩, hs, he⟩ := hs
    cases he
    exact h.server_step hi hs
  | worker w =>
    simp only [system, hi, Option.map_eq_some_iff] at hs
    obtain ⟨⟨g'', w'⟩, hs, he⟩ := hs
    cases he
    exact h.worker_step hi hs

omit [DecidableEq ι] [Fintype ι] in
theorem chain_range' (k m : ℕ) :
    Chain (fun t => if t + 1 < k + (m + 1) then some (t + 1) else none) (some k)
      (List.range' k (m + 1)) := by
  induction m generalizing k with
  | zero => exact ⟨rfl, by simp⟩
  | succ m ih =>
    refine ⟨rfl, ?_⟩
    have hk : k + 1 < k + (m + 1 + 1) := by omega
    have hrest := ih (k + 1)
    rw [show k + 1 + (m + 1) = k + (m + 1 + 1) by omega] at hrest
    simpa only [if_pos hk] using hrest

omit [DecidableEq ι] in
theorem Inv.start (hsize : 0 < size) (role : ι → Role) :
    Inv size (.fresh size) fun i => (role i).start := by
  obtain ⟨m, rfl⟩ : ∃ m, size = m + 1 := ⟨size - 1, by omega⟩
  have hhand : ∀ i, ((role i).start).hand = none := fun i => by cases role i <;> rfl
  have hholds : ∀ i, ((role i).start).holds = false := fun i => by cases role i <;> rfl
  have hjob : ∀ i, ((role i).start).job = none := fun i => by cases role i <;> rfl
  have hgc : ∀ i, ((role i).start).gcHead = none := fun i => by cases role i <;> rfl
  have hearly : ∀ i, ((role i).start).early = 0 := fun i => by cases role i <;> rfl
  have hlate : ∀ i, ((role i).start).late = 0 := fun i => by cases role i <;> rfl
  refine ⟨List.range (m + 1), fun _ => [], fun t => if t < m + 1 then .free else .outside,
    ⟨⟨?_, ?_, ?_, ?_⟩, ⟨?_, ?_, ?_, ?_, ?_⟩, ?_, ?_, ⟨?_, ?_, ?_, ?_, ?_, ?_, ?_⟩, ?_⟩⟩
  · intro t
    by_cases ht : t < m + 1
    · rw [if_pos ht]
      exact iff_of_false (by simp) (by omega)
    · rw [if_neg ht]
      exact iff_of_true rfl (by omega)
  · intro t
    rw [List.mem_range]
    by_cases ht : t < m + 1
    · rw [if_pos ht]
      exact iff_of_true ht rfl
    · rw [if_neg ht]
      exact iff_of_false ht (by simp)
  · intro t i
    by_cases ht : t < m + 1 <;> simp [ht]
  · intro t i
    by_cases ht : t < m + 1 <;> simp [ht, hhand]
  · intro i
    simp [hholds, Store.fresh]
  · have hfresh := chain_range' 0 m
    rw [Nat.zero_add] at hfresh
    rw [List.range_eq_range']
    exact hfresh
  · exact List.nodup_range
  · intro _
    simp [Store.fresh, List.range_succ]
  · intro i hi
    cases hi
  · exact fun i => ⟨hgc i, List.nodup_nil⟩
  · intro i
    cases role i <;> trivial
  · exact List.nodup_nil
  · intro t
    simp [Store.fresh]
  · intro j t a hj
    simp [hjob] at hj
  · intro j k t hj
    simp [Thread.work, hjob] at hj
  · rintro t (ht | ⟨j, hj⟩)
    · cases ht
    · simp [Thread.work, hjob] at hj
  · intro t ht
    cases ht
  · exact fun _ _ => rfl
  · simp [CountOk, hearly, hlate, Store.fresh]

end

/-! ### What the invariant says -/

/-- Inside `GetTask` or `FreeTask`. -/
def Thread.inPool : Thread → Bool
  | .server s =>
    match s.pc with
    | .get _ _ | .clean _ (.free _ _ _) => true
    | _ => false
  | .worker _ => false

/-- The task that a server is about to put into the free list, from the call of `FreeTask`
to the write that links it. -/
def Thread.freeing : Thread → Option ℕ
  | .server s =>
    match s.pc with
    | .clean _ (.free _ t st) => if st.hands then some t else none
    | _ => none
  | .worker _ => none

/-- Task `t` is at the place `p`, when the free list is `l` and the lists of the servers
are `q`. -/
def Place.Has (size : ℕ) (loc : ι → Thread) (l : List ℕ) (q : ι → List ℕ) (t : ℕ) :
    Place ι → Prop
  | .outside => size ≤ t
  | .free => t ∈ l
  | .gc i => t ∈ q i
  | .hand i => (loc i).hand = some t

/-- A state of the server in which no task is lost, doubled or reused early. -/
structure LifeCycle (size : ℕ) (c : Config ι (Store ι) Thread) (l : List ℕ) (q : ι → List ℕ) :
    Prop where
  free : Chain c.shared.nextFree c.shared.head l ∧ l.Nodup
  gc : ∀ i, Chain c.shared.nextGc (c.loc i).gcHead (q i) ∧ (q i).Nodup
  place : ∀ t, ∃! p : Place ι, p.Has size c.loc l q t
  ended : ∀ i t, (c.loc i).freeing = some t →
    (c.shared.life t).ended ∧ t ∉ c.shared.queue ∧ ∀ j, (c.loc j).work ≠ some t
  count : (∀ i, (c.loc i).inPool = false) →
    c.shared.numFreeTasks = l.length ∧ c.shared.tail = l.getLast?

omit [DecidableEq ι] [Fintype ι] in
theorem Places.has_iff {loc : ι → Thread} {l : List ℕ} {q : ι → List ℕ} {place : ℕ → Place ι}
    (h : Places size loc l q place) (t : ℕ) (p : Place ι) : p.Has size loc l q t ↔ place t = p := by
  cases p with
  | outside => exact (h.outside t).symm
  | free => exact h.free t
  | gc i => exact h.gc t i
  | hand i => exact h.hand t i

theorem Thread.freeing_hand {x : Thread} {t : ℕ} (h : x.freeing = some t) : x.hand = some t := by
  cases x with
  | worker w => cases h
  | server s =>
    obtain ⟨conn, txs, period, gh, pc⟩ := s
    cases pc with
    | clean k st =>
      cases st with
      | free prev u st => exact h
      | _ => cases h
    | _ => cases h

omit [DecidableEq ι] [Fintype ι] in
theorem Thread.freeing_ended {x : Thread} {g : Store ι} {q : List ℕ} {t : ℕ} (h : x.Knows g q)
    (hf : x.freeing = some t) : (g.life t).ended := by
  cases x with
  | worker w => cases hf
  | server s =>
    obtain ⟨conn, txs, period, gh, pc⟩ := s
    cases pc with
    | clean k st =>
      cases st with
      | free prev u st =>
        simp only [Thread.freeing, Option.ite_none_right_eq_some, Option.some.injEq] at hf
        obtain ⟨hh, rfl⟩ := hf
        exact h.2.1 hh
      | _ => cases hf
    | _ => cases hf

theorem Thread.inPool_eq_false {x : Thread} (h : x.inPool = false) :
    x.holds = false ∧ x.early = 0 ∧ x.late = 0 := by
  cases x with
  | worker w => exact ⟨rfl, rfl, rfl⟩
  | server s =>
    obtain ⟨conn, txs, period, gh, pc⟩ := s
    cases pc with
    | get r st => cases h
    | clean k st =>
      cases st with
      | free prev u st => cases h
      | _ => exact ⟨rfl, rfl, rfl⟩
    | _ => exact ⟨rfl, rfl, rfl⟩

omit [DecidableEq ι] in
theorem Good.lifeCycle {c : Config ι (Store ι) Thread} {l : List ℕ} {q : ι → List ℕ}
    {place : ℕ → Place ι} (h : Good size c.shared c.loc l q place) : LifeCycle size c l q := by
  refine ⟨⟨h.free.chain, h.free.nodup⟩, h.gc, fun t => ⟨place t, ?_, fun p hp => ?_⟩,
    fun i t ht => ?_, fun hout => ⟨?_, h.free.tail ?_⟩⟩
  · exact (h.places.has_iff t _).mpr rfl
  · exact ((h.places.has_iff t p).mp hp).symm
  · have hp : place t = .hand i := (h.places.hand t i).mp (Thread.freeing_hand ht)
    obtain ⟨hnq, hnw⟩ := h.life.apart (t := t) (by simp [hp])
    exact ⟨Thread.freeing_ended (h.knows i) ht, fun hm => hnq ((h.life.queue t).mp hm), hnw⟩
  · have hcount := h.count
    have hlate : ∑ i, (c.loc i).late = 0 :=
      Finset.sum_eq_zero fun i _ => (Thread.inPool_eq_false (hout i)).2.2
    have hearly : ∑ i, (c.loc i).early = 0 :=
      Finset.sum_eq_zero fun i _ => (Thread.inPool_eq_false (hout i)).2.1
    rw [CountOk, hlate, hearly] at hcount
    simpa using hcount
  · cases hlock : c.shared.lock with
    | none => rfl
    | some i =>
      have hh := (h.free.lock i).mpr hlock
      rw [(Thread.inPool_eq_false (hout i)).1] at hh
      cases hh

/-- Any servers and workers, in any order of their steps. -/
theorem run_lifeCycle (numPriorities : ℤ) (gcPeriod : ℕ) (poolSize : ℤ) {g : Store ι}
    (hg : taskPoolInit poolSize = some g) (role : ι → Role) {c : Config ι (Store ι) Thread}
    (h : Run (system numPriorities gcPeriod) (fun _ _ _ => True) (initial g role) c) :
    ∃ l q, LifeCycle poolSize.toNat c l q := by
  simp only [taskPoolInit, Option.ite_none_left_eq_some, Option.some.injEq] at hg
  obtain ⟨hpos, rfl⟩ := hg
  have hstart : Inv poolSize.toNat (initial (.fresh poolSize.toNat) role).shared
      (initial (.fresh poolSize.toNat) role).loc := .start (by omega) role
  obtain ⟨l, q, place, hgood⟩ := h.invariant (P := fun c => Inv poolSize.toNat c.shared c.loc)
    (fun c i a d hc _ hm => hc.step hm) hstart
  exact ⟨l, q, hgood.lifeCycle⟩

/-- One server and one worker with a pool of one task: the request is served, and the
server is about to put the task back. -/
theorem run_lifeCycle_served : ∃ g : Store Bool, taskPoolInit 1 = some g ∧
    ∃ c, Run (system 3 50) (fun _ _ _ => True)
        (initial g fun i => if i then .worker else .server 4 1) c ∧
      ((c.loc false).freeing = some 0 ∧ c.shared.life 0 = .executed) ∧
      ∃ l q, LifeCycle 1 c l q := by
  refine ⟨_, rfl, ?_⟩
  obtain ⟨c, hc, hp⟩ := exists_run_of_exec (system 3 50) (fun _ _ _ => True)
    (initial (.fresh 1) fun i : Bool => if i then .worker else .server 4 1)
    ((false, .go) :: (false, .recv (some ⟨some 2, some 5⟩)) ::
      (List.replicate 21 (false, .go) ++ (false, .insert true) :: (true, .take (some 0)) ::
        (List.replicate 3 (true, .go) ++ List.replicate 7 (false, .go))))
    (fun c => (c.loc false).freeing = some 0 ∧ c.shared.life 0 = .executed) (by decide +kernel)
  exact ⟨c, hc, hp, run_lifeCycle 3 50 1 rfl _ hc⟩

end TinyStm.Pool
