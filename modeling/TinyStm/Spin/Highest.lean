import TinyStm.Spin.Safe
import Mathlib.Data.Fintype.Basic
import Mathlib.Logic.Relation

/-!
# The array at rest

What the invariant says when no operation is in progress, and what
`RemoveHighestPriorityTask` then returns.
-/

namespace TinyStm.Spin

open Interleave

variable {ι τ : Type*} [DecidableEq ι] [DecidableEq τ] {num : ℕ}

/-! ### Priorities in range -/

def Pc.within (num : ℕ) : Pc τ → Prop
  | .insert _ p _ | .remove p _ _ => p < num
  | _ => True

structure InRange (num : ℕ) (c : Config ι (PrioTaskArray ι τ) (Pc τ)) : Prop where
  within : ∀ i, (c.loc i).within num
  rest : ∀ p, num ≤ p → c.shared.list p = taskListInit

section

variable {c d : Config ι (PrioTaskArray ι τ) (Pc τ)} {i : ι} {a : Act τ} {g' : PrioTaskArray ι τ}
  {x' : Pc τ}

omit [DecidableEq τ] in
theorem InRange.step (h : InRange num c) (hx : x'.within num)
    (hl : ∀ p, num ≤ p → g'.list p = c.shared.list p) :
    InRange num ⟨g', Function.update c.loc i x'⟩ := by
  refine ⟨fun j => ?_, fun p hp => (hl p hp).trans (h.rest p hp)⟩
  by_cases hj : j = i
  · subst hj
    show (Function.update c.loc j x' j).within num
    rw [Function.update_self]
    exact hx
  · show (Function.update c.loc i x' j).within num
    rw [Function.update_of_ne hj]
    exact h.within j

omit [DecidableEq τ] in
theorem Pc.nextBit_within (byte bit : ℕ) : (Pc.nextBit byte bit : Pc τ).within num := by
  unfold Pc.nextBit
  split <;> trivial

theorem inRange_go (h : InRange num c) (hok : (c.loc i).ok)
    (hs : (c.loc i).go num i c.shared = some (g', x')) :
    InRange num ⟨g', Function.update c.loc i x'⟩ := by
  have hw := h.within i
  cases hi : c.loc i with
  | idle | inserted code | removed task | failed =>
    rw [hi] at hs
    cases hs
  | insert task p st =>
    rw [hi] at hok hw
    by_cases hrel : st = .rel []
    · subst hrel
      rw [hi] at hs
      cases hs
      exact h.step trivial fun _ _ => rfl
    · rw [hi, Pc.go.eq_6 _ _ _ _ _ _ (by simpa using hrel)] at hs
      split at hs <;> cases hs
      · next hstep =>
        obtain ⟨hlocking, -⟩ := Ins.step_locking hok hstep
        exact h.step hw fun r hr => hlocking.2 r (by have : p < num := hw; omega)
      · exact h.step trivial fun _ _ => rfl
  | remove p k st =>
    rw [hi] at hok hw
    by_cases hrel : ∃ task, st = .rel task []
    · obtain ⟨task, rfl⟩ := hrel
      rw [hi] at hs
      cases task <;> cases k <;> cases hs
      · exact h.step trivial fun _ _ => rfl
      · exact h.step (Pc.nextBit_within _ _) fun _ _ => rfl
      · exact h.step trivial fun _ _ => rfl
      · exact h.step trivial fun _ _ => rfl
    · rw [hi, Pc.go.eq_8 _ _ _ _ _ _ (by simpa using hrel)] at hs
      split at hs <;> cases hs
      · next hstep =>
        obtain ⟨hlocking, -⟩ := Rem.step_locking hok hstep
        exact h.step hw fun r hr => hlocking.2 r (by have : p < num := hw; omega)
      · exact h.step trivial fun _ _ => rfl
  | scan byte bit =>
    rw [hi] at hs
    simp only [Pc.go] at hs
    split at hs
    · split at hs <;> cases hs
      · next hlt => exact h.step hlt fun _ _ => rfl
      · exact h.step (Pc.nextBit_within _ _) fun _ _ => rfl
    · cases hs
      exact h.step (Pc.nextBit_within _ _) fun _ _ => rfl

theorem inRange_step (h : InRange num c) (hok : (c.loc i).ok)
    (hm : (system num).move c i a = some d) : InRange num d := by
  obtain ⟨g', x', hs, rfl⟩ := move_eq_some hm
  cases a with
  | go => exact inRange_go h hok hs
  | insert task prio =>
    simp only [system] at hs
    split at hs
    · cases task with
      | none =>
        cases hs
        exact h.step trivial fun _ _ => rfl
      | some task =>
        simp only at hs
        split at hs <;> cases hs
        · exact h.step trivial fun _ _ => rfl
        · exact h.step (show prio.toNat < num by omega) fun _ _ => rfl
    · cases hs
  | remove prio =>
    simp only [system] at hs
    split at hs
    · split at hs <;> cases hs
      · exact h.step trivial fun _ _ => rfl
      · exact h.step (show prio.toNat < num by omega) fun _ _ => rfl
    · cases hs
  | removeHighest =>
    simp only [system] at hs
    split at hs <;> cases hs
    exact h.step trivial fun _ _ => rfl

theorem inRange_run (h : Run (system num) SettledStep initial c) : InRange num c := by
  have hinit : InRange num (initial : Config ι (PrioTaskArray ι τ) (Pc τ)) :=
    ⟨fun _ => trivial, fun _ _ => rfl⟩
  refine (h.invariant (P := fun c => Inv c ∧ InRange num c) ?_ ⟨inv_initial, hinit⟩).2
  rintro c i a d ⟨hinv, hr⟩ ho hm
  refine ⟨inv_step hinv ho hm, ?_⟩
  obtain ⟨q, place, hgood⟩ := hinv
  exact inRange_step hr (hgood.ok i) hm

end

/-! ### No operation in progress -/

def Quiescent (c : Config ι (PrioTaskArray ι τ) (Pc τ)) : Prop := ∀ i, (c.loc i).ready = true

/-- The array holds the lists `q`. -/
structure Holds (num : ℕ) (g : PrioTaskArray ι τ) (q : ℕ → List τ) : Prop where
  chain : ∀ p, Chain g.nextQueue (g.list p).head (q p)
  tail : ∀ p, (g.list p).tail = (q p).getLast?
  count : ∀ p, (g.list p).count = (q p).length
  bit : ∀ p, q p ≠ [] → checkBit (g.bitmap (p / 8)) (p % 8) = true
  range : ∀ p, num ≤ p → q p = []
  /-- Every inserted task is in one list once, or was returned, as often as it was inserted. -/
  queued : ∀ p, ∀ t ∈ q p, g.inserted.count t = g.returned.count t + 1
  returned : ∀ t, (∀ p, t ∉ q p) → g.inserted.count t = g.returned.count t
  nodup : ∀ p, (q p).Nodup
  disjoint : ∀ p p' t, t ∈ q p → t ∈ q p' → p = p'

/-- No lock is held and no counter is raised. -/
structure Unlocked (g : PrioTaskArray ι τ) : Prop where
  lock : ∀ p s, (g.list p).lock s = none
  counter : ∀ p c, (g.list p).counter c = 0

theorem holds_of_quiescent {c : Config ι (PrioTaskArray ι τ) (Pc τ)}
    (h : Run (system num) SettledStep initial c) (hq : Quiescent c) :
    ∃ q, Holds num c.shared q ∧ Unlocked c.shared := by
  obtain ⟨q, place, hgood⟩ := inv_run h
  have hrange := inRange_run h
  have hlock : ∀ p s, (c.shared.list p).lock s = none := by
    intro p s
    by_contra hne
    obtain ⟨i, hi⟩ := Option.ne_none_iff_exists'.mp hne
    have hh := ((hgood.locks p).holds s i).mpr hi
    rw [(Pc.ready_free (hq i)).1] at hh
    cases hh
  have hlist : ∀ p, PrioOk c.shared.nextQueue (c.shared.list p) (c.shared.bit p) (q p) none none := by
    intro p
    have := hgood.lists p
    simpa [holder, hlock] using this
  have hhand : ∀ t i, place t ≠ .hand i := by
    intro t i he
    have hh := (hgood.tasks.hand t i).mpr he
    rw [(Pc.ready_free (hq i)).2.1] at hh
    cases hh
  refine ⟨q, ⟨fun p => (hlist p).chain, fun p => (hlist p).tail rfl, fun p => ?_, fun p hp => ?_,
    fun p hp => ?_, fun p t ht => ?_, fun t ht => ?_, fun p => (hlist p).nodup,
    fun p p' t ht ht' => ?_⟩, hlock, fun p k => (hgood.locks p).zero k (hlock p _)⟩
  · simpa using (hlist p).count
  · have hcount : (c.shared.list p).count = (q p).length := by simpa using (hlist p).count
    have hpos := List.length_pos_iff.mpr hp
    rcases (hlist p).bit (by omega) with hb | hb
    · exact hb
    · cases hb
  · refine (hlist p).chain.eq_nil_iff.mp ?_
    rw [hrange.rest p hp]
    rfl
  · have hist := hgood.tasks.hist t
    rwa [(hgood.tasks.queue t p).mp ht, if_neg (by simp)] at hist
  · have hist := hgood.tasks.hist t
    cases hp : place t with
    | free =>
      rwa [hp, if_pos rfl] at hist
    | hand i => exact absurd hp (hhand t i)
    | queue p => exact absurd ((hgood.tasks.queue t p).mpr hp) (ht p)
  · have h₁ := (hgood.tasks.queue t p).mp ht
    rw [(hgood.tasks.queue t p').mp ht'] at h₁
    exact (Place.queue.inj h₁).symm

/-! ### One thread alone -/

section

variable (num : ℕ) (i : ι)

/-- The steps of thread `i` while the others rest. -/
def Alone : PrioTaskArray ι τ × Pc τ → PrioTaskArray ι τ × Pc τ → Prop :=
  Relation.ReflTransGen fun a b => a.2.go num i a.1 = some b

variable {num i} {g g' : PrioTaskArray ι τ} {x : Pc τ} {p : ℕ} {k : From}

omit [DecidableEq ι] in
theorem Alone.exists_replicate {b : PrioTaskArray ι τ × Pc τ} (h : Alone num i (g, x) b) :
    ∃ n, (system num).solo i (List.replicate n .go) g x = some b := by
  suffices ∀ a : PrioTaskArray ι τ × Pc τ, Alone num i a b →
      ∃ n, (system num).solo i (List.replicate n .go) a.1 a.2 = some b from this (g, x) h
  intro a ha
  induction ha using Relation.ReflTransGen.head_induction_on with
  | refl => exact ⟨0, rfl⟩
  | head hstep _ ih =>
    obtain ⟨n, hn⟩ := ih
    refine ⟨n + 1, ?_⟩
    rw [List.replicate_succ, System.solo, Option.bind_eq_some_iff]
    exact ⟨_, hstep, hn⟩

omit [DecidableEq ι] in
/-- One step of a removal, then the others. -/
theorem Alone.remove {st st' : Rem τ} {b : PrioTaskArray ι τ × Pc τ}
    (hs : st.step i p g = some (g', st')) (hne : ∀ task, st ≠ .rel task [])
    (h : Alone num i (g', .remove p k st') b) : Alone num i (g, .remove p k st) b := by
  refine .head ?_ h
  show Pc.go num i g (.remove p k st) = _
  rw [Pc.go.eq_8 _ _ _ _ _ _ (by simpa using hne), hs]

omit [DecidableEq ι] in
/-- A removal from an empty list gives the lock back and returns `NULL`. -/
theorem remove_empty (hu : Unlocked g) (hh : (g.list p).head = none) (hc : (g.list p).count = 0) :
    Alone num i (g, .remove p k (.acq .trylock)) (g, .remove p k (.rel none [])) := by
  obtain ⟨l, hl⟩ : ∃ l, l = g.list p := ⟨_, rfl⟩
  have hfree : l.lock .head = none := hl ▸ hu.lock p .head
  have hzero : l.counter .ndeq = 0 := hl ▸ hu.counter p .ndeq
  rw [← hl] at hh hc
  have hback : g.setList p ((((l.setLock .head (some i)).addCounter .ndeq 1).addCounter .ndeq
      (-1)).setLock .head none) = g := by
    have h₁ : Function.update l.lock .head none = l.lock :=
      Function.update_eq_self_iff.mpr hfree.symm
    have h₂ : Function.update l.counter .ndeq 0 = l.counter :=
      Function.update_eq_self_iff.mpr hzero.symm
    have h₃ : (((l.setLock .head (some i)).addCounter .ndeq 1).addCounter .ndeq (-1)).setLock .head
        none = l := by
      simp [TaskList.setLock, TaskList.addCounter, h₁, hzero, h₂]
    rw [h₃, hl]
    simp [PrioTaskArray.setList]
  have s₁ : Rem.step i p g (.acq .trylock) =
      some (g.setList p (l.setLock .head (some i)), .acq .loadCount) := by
    simp [Rem.step, acqStep, ← hl, hfree]
  have s₂ : Rem.step i p (g.setList p (l.setLock .head (some i))) (.acq .loadCount) =
      some (g.setList p (l.setLock .head (some i)), .acq (.enter [.ndeq] 1)) := by
    simp [Rem.step, acqStep, TaskList.setLock, hc, Side.counters, Side.counter]
  have s₃ : Rem.step i p (g.setList p (l.setLock .head (some i))) (.acq (.enter [.ndeq] 1)) =
      some (g.setList p ((l.setLock .head (some i)).addCounter .ndeq 1), .acq (.enter [] 1)) := by
    simp [Rem.step, acqStep, TaskList.setLock, hzero]
  have s₅ : Rem.step i p (g.setList p ((l.setLock .head (some i)).addCounter .ndeq 1)) (.testHead 1) =
      some (g.setList p ((l.setLock .head (some i)).addCounter .ndeq 1),
        .rel none [.lower .ndeq, .unlock .head]) := by
    simp [Rem.step, TaskList.setLock, TaskList.addCounter, hh, Side.releases, Side.counter]
  have s₆ : Rem.step i p (g.setList p ((l.setLock .head (some i)).addCounter .ndeq 1))
      (.rel none [.lower .ndeq, .unlock .head]) =
      some (g.setList p (((l.setLock .head (some i)).addCounter .ndeq 1).addCounter .ndeq (-1)),
        .rel none [.unlock .head]) := by
    simp [Rem.step, relStep, TaskList.setLock, TaskList.addCounter, hzero]
  have s₇ : Rem.step i p
      (g.setList p (((l.setLock .head (some i)).addCounter .ndeq 1).addCounter .ndeq (-1)))
      (.rel none [.unlock .head]) = some (g, .rel none []) := by
    simp only [Rem.step, relStep, PrioTaskArray.setList_self, PrioTaskArray.setList_setList,
      Option.map_some, hback]
  exact .remove s₁ (by simp) (.remove s₂ (by simp) (.remove s₃ (by simp) (.remove rfl (by simp)
    (.remove s₅ (by simp) (.remove s₆ (by simp) (.remove s₇ (by simp) .refl))))))

omit [DecidableEq ι] in
/-- The counters are raised one after the other. -/
theorem enter_alone (num : ℕ) (i : ι) (k : From) (n : ℕ) (todo : List Counter) (hd : todo.Nodup)
    (hz : ∀ c ∈ todo, (g.list p).counter c = 0) :
    ∃ g', Alone num i (g, .remove p k (.acq (.enter todo n))) (g', .remove p k (.acq (.enter [] n))) ∧
      (g'.list p).head = (g.list p).head ∧ (∀ c ∈ todo, (g'.list p).counter c = 1) ∧
      ∀ c, c ∉ todo → (g'.list p).counter c = (g.list p).counter c := by
  induction todo generalizing g with
  | nil => exact ⟨g, .refl, rfl, by simp, fun _ _ => rfl⟩
  | cons c todo ih =>
    obtain ⟨hc, hd⟩ := List.nodup_cons.mp hd
    have hz₀ := hz c List.mem_cons_self
    have hs : Rem.step i p g (.acq (.enter (c :: todo) n)) =
        some (g.setList p ((g.list p).addCounter c 1), .acq (.enter todo n)) := by
      simp [Rem.step, acqStep, hz₀]
    have hother : ∀ d, d ≠ c → ((g.list p).addCounter c 1).counter d = (g.list p).counter d :=
      fun d hd => Function.update_of_ne hd _ _
    obtain ⟨g', ha, h₁, h₄, h₅⟩ := ih (g := g.setList p ((g.list p).addCounter c 1)) hd
      fun d hdm => by
        rw [PrioTaskArray.setList_self, hother d (ne_of_mem_of_not_mem hdm hc)]
        exact hz d (List.mem_cons_of_mem c hdm)
    rw [PrioTaskArray.setList_self] at h₁ h₅
    refine ⟨g', .remove hs (by simp) ha, h₁, fun d hdm => ?_, fun d hdn => ?_⟩
    · rcases List.mem_cons.mp hdm with rfl | hdm
      · rw [h₅ d hc]
        simp [TaskList.addCounter, hz₀]
      · exact h₄ d hdm
    · simp only [List.mem_cons, not_or] at hdn
      rw [h₅ d hdn.2, hother d hdn.1]

omit [DecidableEq ι] in
/-- The locks are given back one after the other. -/
theorem release_alone (num : ℕ) (i : ι) (k : From) (r : Option τ) (todo : List Release) (hok : relOk todo)
    (hr : ∀ c, Release.lower c ∈ todo → (g.list p).counter c = 1) :
    ∃ g', Alone num i (g, .remove p k (.rel r todo)) (g', .remove p k (.rel r [])) := by
  induction todo generalizing g with
  | nil => exact ⟨g, .refl⟩
  | cons a todo ih =>
    cases a with
    | lower c =>
      have hs : Rem.step i p g (.rel r (.lower c :: todo)) =
          some (g.setList p ((g.list p).addCounter c (-1)), .rel r todo) := by
        simp [Rem.step, relStep, hr c List.mem_cons_self]
      obtain ⟨g', ha⟩ := ih (g := g.setList p ((g.list p).addCounter c (-1))) hok.2.2 fun d hd => by
        have hne : d ≠ c := by
          rintro rfl
          exact hok.1 hd
        rw [PrioTaskArray.setList_self]
        exact (Function.update_of_ne hne _ _).trans (hr d (List.mem_cons_of_mem _ hd))
      exact ⟨g', .remove hs (by simp) ha⟩
    | unlock s =>
      have hs : Rem.step i p g (.rel r (.unlock s :: todo)) =
          some (g.setList p ((g.list p).setLock s none), .rel r todo) := rfl
      obtain ⟨g', ha⟩ := ih (g := g.setList p ((g.list p).setLock s none)) hok.2.2 fun d hd => by
        rw [PrioTaskArray.setList_self]
        exact hr d (List.mem_cons_of_mem _ hd)
      exact ⟨g', .remove hs (by simp) ha⟩

omit [DecidableEq ι] in
/-- With nobody else at the list, both lock functions succeed. -/
theorem acquire_alone (num : ℕ) (i : ι) (k : From) (hu : Unlocked g) : ∃ g' n,
    Alone num i (g, .remove p k (.acq .trylock)) (g', .remove p k (.testHead n)) ∧
      (g'.list p).head = (g.list p).head ∧
      ∀ c ∈ Side.head.counters n, (g'.list p).counter c = 1 := by
  set l₁ := (g.list p).setLock .head (some i) with hl₁
  have s₁ : Rem.step i p g (.acq .trylock) = some (g.setList p l₁, .acq .loadCount) := by
    simp [Rem.step, acqStep, hu.lock, hl₁]
  by_cases hc : (g.list p).count = 1
  · have s₂ : Rem.step i p (g.setList p l₁) (.acq .loadCount) =
        some (g.setList p l₁, .acq .trylockOther) := by
      simp [Rem.step, acqStep, hl₁, TaskList.setLock, hc]
    have s₃ : Rem.step i p (g.setList p l₁) (.acq .trylockOther) =
        some (g.setList p (l₁.setLock .tail (some i)), .acq (.enter (Side.head.counters 2) 2)) := by
      simp [Rem.step, acqStep, hl₁, TaskList.setLock, Side.other, hu.lock]
    obtain ⟨g', ha, h₁, h₄, -⟩ := enter_alone num i k 2
      (g := g.setList p (l₁.setLock .tail (some i))) (p := p) (Side.head.counters 2)
      (by decide) fun c _ => by
        rw [PrioTaskArray.setList_self]
        exact hu.counter p c
    rw [PrioTaskArray.setList_self] at h₁
    have hend : Alone num i (g', .remove p k (.acq (.enter [] 2))) (g', .remove p k (.testHead 2)) :=
      .remove rfl (by simp) .refl
    exact ⟨g', 2, .remove s₁ (by simp) (.remove s₂ (by simp) (.remove s₃ (by simp) (ha.trans hend))),
      h₁, h₄⟩
  · have s₂ : Rem.step i p (g.setList p l₁) (.acq .loadCount) =
        some (g.setList p l₁, .acq (.enter (Side.head.counters 1) 1)) := by
      simp [Rem.step, acqStep, hl₁, TaskList.setLock, hc]
    obtain ⟨g', ha, h₁, h₄, -⟩ := enter_alone num i k 1
      (g := g.setList p l₁) (p := p) (Side.head.counters 1) (by decide) fun c _ => by
        rw [PrioTaskArray.setList_self]
        exact hu.counter p c
    rw [PrioTaskArray.setList_self] at h₁
    have hend : Alone num i (g', .remove p k (.acq (.enter [] 1))) (g', .remove p k (.testHead 1)) :=
      .remove rfl (by simp) .refl
    exact ⟨g', 1, .remove s₁ (by simp) (.remove s₂ (by simp) (ha.trans hend)), h₁, h₄⟩

omit [DecidableEq ι] in
/-- The end of a removal: the counter and, for the last task, the bit. -/
theorem sub_alone (num : ℕ) (i : ι) (g : PrioTaskArray ι τ) (p : ℕ) (k : From) (a : τ) (n : ℕ) :
    ∃ g', Alone num i (g, .remove p k (.sub a n))
        (g', .remove p k (.rel (some a) (Side.head.releases n))) ∧
      (g'.list p).counter = (g.list p).counter := by
  set g₁ := g.setList p { g.list p with count := (g.list p).count - 1 } with hg₁
  have hc₁ : (g₁.list p).counter = (g.list p).counter := by rw [hg₁, PrioTaskArray.setList_self]
  by_cases hc : (g.list p).count = 1
  · set g₂ : PrioTaskArray ι τ :=
      { g₁ with bitmap := Function.update g₁.bitmap (p / 8) (resetBit (g₁.bitmap (p / 8)) (p % 8)) }
      with hg₂
    have s₁ : Rem.step i p g (.sub a n) = some (g₁, .loadByte a n) := by simp [Rem.step, hc, hg₁]
    have s₃ : Rem.step i p g₁ (.cas a (g₁.bitmap (p / 8)) n) =
        some (g₂, .rel (some a) (Side.head.releases n)) := by
      simp [Rem.step, PrioTaskArray.casByte, hg₂]
    exact ⟨g₂, .remove s₁ (by simp) (.remove rfl (by simp) (.remove s₃ (by simp) .refl)), hc₁⟩
  · have s₁ : Rem.step i p g (.sub a n) = some (g₁, .rel (some a) (Side.head.releases n)) := by
      simp [Rem.step, hc, hg₁]
    exact ⟨g₁, .remove s₁ (by simp) .refl, hc₁⟩

omit [DecidableEq ι] in
/-- What a removal does between the lock functions. -/
theorem work_alone (num : ℕ) (i : ι) (k : From) (n : ℕ) {a : τ} (hh : (g.list p).head = some a) :
    ∃ g', Alone num i (g, .remove p k (.testHead n))
        (g', .remove p k (.rel (some a) (Side.head.releases n))) ∧
      (g'.list p).counter = (g.list p).counter := by
  have s₁ : Rem.step i p g (.testHead n) = some (g, .loadHead n) := by simp [Rem.step, hh]
  have s₂ : Rem.step i p g (.loadHead n) = some (g, .loadNext a n) := by simp [Rem.step, hh]
  set g₁ := g.setList p { g.list p with head := g.nextQueue a } with hg₁
  have hc₁ : (g₁.list p).counter = (g.list p).counter := by rw [hg₁, PrioTaskArray.setList_self]
  have hstart : ∀ {b : PrioTaskArray ι τ × Pc τ},
      Alone num i (g, .remove p k (.setHead a (g.nextQueue a) n)) b →
      Alone num i (g, .remove p k (.testHead n)) b :=
    fun hb => .remove s₁ (by simp) (.remove s₂ (by simp) (.remove rfl (by simp) hb))
  cases hn : g.nextQueue a with
  | none =>
    have s₄ : Rem.step i p g (.setHead a (g.nextQueue a) n) = some (g₁, .setTail a n) := by
      simp [Rem.step, hg₁, hn]
    set g₂ := g₁.setList p { g₁.list p with tail := none } with hg₂
    have hc₂ : (g₂.list p).counter = (g₁.list p).counter := by rw [hg₂, PrioTaskArray.setList_self]
    obtain ⟨g', ha, hc⟩ := sub_alone num i
      { g₂ with nextQueue := Function.update g₂.nextQueue a none } p k a n
    exact ⟨g', hstart (.remove s₄ (by simp) (.remove rfl (by simp) (.remove rfl (by simp) ha))),
      hc.trans (hc₂.trans hc₁)⟩
  | some b =>
    have s₄ : Rem.step i p g (.setHead a (g.nextQueue a) n) = some (g₁, .clearNext a n) := by
      simp [Rem.step, hg₁, hn]
    obtain ⟨g', ha, hc⟩ := sub_alone num i
      { g₁ with nextQueue := Function.update g₁.nextQueue a none } p k a n
    exact ⟨g', hstart (.remove s₄ (by simp) (.remove rfl (by simp) ha)), hc.trans hc₁⟩

omit [DecidableEq ι] in
/-- A removal from a non-empty list returns its first task. -/
theorem remove_first (num : ℕ) (i : ι) (k : From) {a : τ} (hu : Unlocked g) (hh : (g.list p).head = some a) :
    ∃ g', Alone num i (g, .remove p k (.acq .trylock)) (g', .remove p k (.rel (some a) [])) := by
  obtain ⟨g₁, n, hacq, h₁, hcount⟩ := acquire_alone num i k hu (p := p)
  obtain ⟨g₂, hwork, hc⟩ := work_alone num i k n (h₁.trans hh)
  have hraised : ∀ c, Release.lower c ∈ Side.head.releases n → (g₂.list p).counter c = 1 := by
    intro c hmem
    have hfull : (Grip.leaving (Side.head.releases n)).raised c = true := decide_eq_true hmem
    rw [leaving_releases] at hfull
    rw [hc]
    exact hcount c (of_decide_eq_true hfull)
  obtain ⟨g₃, hrel⟩ := release_alone num i k (some a) _ (relOk_releases .head n) hraised
  exact ⟨g₃, hacq.trans (hwork.trans hrel)⟩

/-! ### The scan from the highest priority down -/

/-- `r` is the first task of the highest non-empty list below `n`. -/
def IsHighest (q : ℕ → List τ) (n : ℕ) (r : Option τ) : Prop :=
  (∀ p < n, q p = []) ∧ r = none ∨
    ∃ p < n, ∃ a, r = some a ∧ (q p).head? = some a ∧ ∀ p', p < p' → p' < n → q p' = []

omit [DecidableEq τ] in
theorem IsHighest.succ {q : ℕ → List τ} {n : ℕ} {r : Option τ} (h : IsHighest q n r)
    (hn : q n = []) : IsHighest q (n + 1) r := by
  have hlast : ∀ p, p < n + 1 → ¬p < n → q p = [] := by
    intro p h₁ h₂
    obtain rfl : p = n := by omega
    exact hn
  rcases h with ⟨he, hr⟩ | ⟨p, hp, a, hr, ha, he⟩
  · refine .inl ⟨fun p hp => ?_, hr⟩
    by_cases hlt : p < n
    · exact he p hlt
    · exact hlast p hp hlt
  · refine .inr ⟨p, by omega, a, hr, ha, fun p' h₁ h₂ => ?_⟩
    by_cases hlt : p' < n
    · exact he p' h₁ hlt
    · exact hlast p' h₂ hlt

omit [DecidableEq ι] in
/-- One bit of the scan. -/
theorem scan_step (num : ℕ) (i : ι) {q : ℕ → List τ} (hh : Holds num g q) (hu : Unlocked g)
    (byte : ℕ) {bit : ℕ} (hb : bit < 8)
    (hnext : ∃ g' r, Alone num i (g, .nextBit byte bit) (g', .removed r) ∧
      IsHighest q (byte * 8 + bit) r) :
    ∃ g' r, Alone num i (g, .scan byte bit) (g', .removed r) ∧
      IsHighest q (byte * 8 + bit + 1) r := by
  have hbyte : (byte * 8 + bit) / 8 = byte := by omega
  have hbit : (byte * 8 + bit) % 8 = bit := by omega
  have hchain := hh.chain (byte * 8 + bit)
  have hcount := hh.count (byte * 8 + bit)
  -- an empty list is passed over, with or without a look at it
  have hempty : q (byte * 8 + bit) = [] →
      Alone num i (g, .scan byte bit) (g, .nextBit byte bit) → ∃ g' r,
        Alone num i (g, .scan byte bit) (g', .removed r) ∧ IsHighest q (byte * 8 + bit + 1) r := by
    rintro hq ha
    obtain ⟨g', r, hr, hhigh⟩ := hnext
    exact ⟨g', r, ha.trans hr, hhigh.succ hq⟩
  by_cases hc : checkBit (g.bitmap byte) bit = true
  · by_cases hn : byte * 8 + bit < num
    · have hgo : Pc.go num i g (.scan byte bit) =
          some (g, .remove (byte * 8 + bit) (.scan byte bit) (.acq .trylock)) := by
        simp [Pc.go, hc, hn]
      cases hq : q (byte * 8 + bit) with
      | nil =>
        rw [hq] at hchain hcount
        have hleave : Pc.go num i g (.remove (byte * 8 + bit) (.scan byte bit) (.rel none [])) =
            some (g, .nextBit byte bit) := rfl
        exact hempty hq (.head hgo ((remove_empty hu hchain hcount).tail hleave))
      | cons a l =>
        rw [hq] at hchain
        obtain ⟨g', ha⟩ := remove_first num i (.scan byte bit) hu hchain.1
        have hleave : Pc.go num i g' (.remove (byte * 8 + bit) (.scan byte bit) (.rel (some a) [])) =
            some ({ g' with returned := a :: g'.returned }, .removed (some a)) := rfl
        refine ⟨_, _, .head hgo (ha.tail hleave), .inr ⟨byte * 8 + bit, by omega, a, rfl, ?_, ?_⟩⟩
        · rw [hq]
          rfl
        · intro p' h₁ h₂
          omega
    · exact hempty (hh.range _ (by omega)) (.single (by simp [Pc.go, hc, hn]))
  · refine hempty ?_ (.single (by simp [Pc.go, hc]))
    by_contra hne
    have hset := hh.bit _ hne
    rw [hbyte, hbit] at hset
    exact hc hset

omit [DecidableEq ι] in
/-- The rest of the scan below one bit. -/
theorem scan_alone (num : ℕ) (i : ι) {q : ℕ → List τ} (hh : Holds num g q) (hu : Unlocked g)
    (n : ℕ) : ∀ byte bit, bit < 8 → byte * 8 + bit = n →
    ∃ g' r, Alone num i (g, .nextBit byte bit) (g', .removed r) ∧ IsHighest q n r := by
  induction n with
  | zero =>
    intro byte bit _ hn
    obtain ⟨rfl, rfl⟩ : byte = 0 ∧ bit = 0 := by omega
    exact ⟨g, none, .refl, .inl ⟨by simp, rfl⟩⟩
  | succ n ih =>
    intro byte bit hb hn
    cases bit with
    | succ bit =>
      have hpos : byte * 8 + bit = n := by omega
      have hrest := scan_step num i hh hu byte (show bit < 8 by omega)
      rw [hpos] at hrest
      exact hrest (ih byte bit (by omega) hpos)
    | zero =>
      cases byte with
      | zero => omega
      | succ byte =>
        have hpos : byte * 8 + 7 = n := by omega
        have hrest := scan_step num i hh hu byte (show 7 < 8 by omega)
        rw [hpos] at hrest
        exact hrest (ih byte 7 (by omega) hpos)

omit [DecidableEq ι] in
/-- `RemoveHighestPriorityTask` alone returns the first task of the highest non-empty list. -/
theorem removeHighest_alone (num : ℕ) (i : ι) {q : ℕ → List τ} (hh : Holds num g q)
    (hu : Unlocked g) (hx : x.ready = true) :
    ∃ n g' r, (system num).solo i (.removeHighest :: List.replicate n .go) g x =
      some (g', .removed r) ∧ IsHighest q num r := by
  obtain ⟨g', r, ha, hhigh⟩ := scan_step num i hh hu _ (show 7 < 8 by omega)
    (scan_alone num i hh hu _ (numBytes num - 1) 7 (by omega) rfl)
  obtain ⟨n, hn⟩ := ha.exists_replicate
  refine ⟨n, g', r, ?_, ?_⟩
  · rw [System.solo, Option.bind_eq_some_iff]
    exact ⟨(g, .scan (numBytes num - 1) 7), by simp [system, hx], hn⟩
  · have hbound : num ≤ (numBytes num - 1) * 8 + 7 + 1 := by
      unfold numBytes
      omega
    rcases hhigh with ⟨he, hr⟩ | ⟨p, hp, a, hr, ha, he⟩
    · exact .inl ⟨fun p hp => he p (by omega), hr⟩
    · have hp' : p < num := by
        by_contra hle
        rw [hh.range p (by omega)] at ha
        cases ha
      exact .inr ⟨p, hp', a, hr, ha, fun p' h₁ h₂ => he p' h₁ (by omega)⟩

end

/-! ### Runs -/

/-- In every run whose removals with one lock find the list settled: when no operation is
in progress, the lists, counters, bits and tasks agree, and `RemoveHighestPriorityTask`
returns the first task of the highest non-empty priority. -/
theorem settled_lists_consistent {c : Config ι (PrioTaskArray ι τ) (Pc τ)}
    (h : Run (system num) SettledStep initial c) (hq : Quiescent c) :
    ∃ q, Holds num c.shared q ∧ ∀ i, ∃ n g' r,
      (system num).solo i (.removeHighest :: List.replicate n .go) c.shared (c.loc i) =
        some (g', .removed r) ∧ IsHighest q num r := by
  obtain ⟨q, hh, hu⟩ := holds_of_quiescent h hq
  exact ⟨q, hh, fun i => removeHighest_alone num i hh hu (hq i)⟩

instance (c : Config ι (PrioTaskArray ι τ) (Pc τ)) (i : ι) (a : Act τ) :
    Decidable (SettledStep c i a) :=
  inferInstanceAs (Decidable (Caller c i a ∧ Settled c i))

instance [Fintype ι] (c : Config ι (PrioTaskArray ι τ) (Pc τ)) : Decidable (Quiescent c) :=
  inferInstanceAs (Decidable (∀ i, (c.loc i).ready = true))

/-- A whole insertion into an empty list by a thread that meets nobody. -/
def insertAlone (i : ι) (task : τ) (prio : ℤ) : List (ι × Act τ) :=
  (i, .insert (some task) prio) :: List.replicate 13 (i, .go)

/-- Two insertions with one priority, and then a removal that takes the headlock alone. -/
theorem settled_lists_two_tasks : ∃ c : Config Bool (PrioTaskArray Bool Bool) (Pc Bool),
    Run (system 2) SettledStep initial c ∧ Quiescent c ∧ c.shared.returned = [false] ∧
    (c.shared.list 1).head = some true ∧
    ∃ q, Holds 2 c.shared q ∧ ∀ i, ∃ n g' r,
      (system 2).solo i (.removeHighest :: List.replicate n .go) c.shared (c.loc i) =
        some (g', .removed r) ∧ IsHighest q 2 r := by
  obtain ⟨c, hrun, hq, hret, hhead⟩ := exists_run_of_exec (system 2) SettledStep
    (initial : Config Bool (PrioTaskArray Bool Bool) (Pc Bool))
    (insertAlone false false 1 ++ (true, .insert (some true) 1) :: List.replicate 18 (true, .go) ++
      (false, .remove 1) :: List.replicate 13 (false, .go))
    (fun c => Quiescent c ∧ c.shared.returned = [false] ∧ (c.shared.list 1).head = some true)
    (by decide +kernel)
  exact ⟨c, hrun, hq, hret, hhead, settled_lists_consistent hrun hq⟩

/-- A removal reads the counter of the empty list and takes one lock. A task is inserted
meanwhile; the removal takes it and is about to reset the bit when a second task is
inserted. It resets the bit that the second insertion has set. -/
theorem lists_bit_lost : ∃ c : Config Bool (PrioTaskArray Bool Bool) (Pc Bool),
    Run (system 1) Caller initial c ∧ Quiescent c ∧ (¬∃ q, Holds 1 c.shared q) ∧
    (c.shared.list 0).head = some true ∧
    ∃ n, (((system 1).solo false (.removeHighest :: List.replicate n .go) c.shared
      (c.loc false)).any fun r => r.2 matches .removed none) = true := by
  obtain ⟨c, hrun, hq, hhead, hbit, hsolo⟩ := exists_run_of_exec (system 1) Caller
    (initial : Config Bool (PrioTaskArray Bool Bool) (Pc Bool))
    ((false, .remove 0) :: List.replicate 4 (false, .go) ++ insertAlone true false 0 ++
      List.replicate 7 (false, .go) ++ insertAlone true true 0 ++ List.replicate 5 (false, .go))
    (fun c => Quiescent c ∧ (c.shared.list 0).head = some true ∧
      checkBit (c.shared.bitmap 0) 0 = false ∧
      (((system 1).solo false (.removeHighest :: List.replicate 8 .go) c.shared
        (c.loc false)).any fun r => r.2 matches .removed none) = true) (by decide +kernel)
  refine ⟨c, hrun, hq, ?_, hhead, 8, hsolo⟩
  rintro ⟨q, hh⟩
  have hchain := hh.chain 0
  have hne : q 0 ≠ [] := by
    intro he
    rw [hchain.eq_nil_iff.mpr he] at hhead
    cases hhead
  have hset := hh.bit 0 hne
  rw [hbit] at hset
  cases hset

end TinyStm.Spin
