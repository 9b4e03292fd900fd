import TinyStm.Spin.Lists

/-!
# Where the tasks are

Every task is with the callers, in the hand of one thread or in one list. An
insertion and a removal carry it around this circle, and the tasks that were
inserted and not returned are those that are under way.
-/

namespace TinyStm.Spin

variable {ι τ : Type*}

inductive Place (ι : Type*) where
  | free
  | hand (i : ι)
  | queue (p : ℕ)
  deriving DecidableEq

/-- The task a thread carries. -/
def Pc.hand : Pc τ → Option τ
  | .insert task _ (.acq _) | .insert task _ (.testHead _) | .insert task _ (.setHead _)
  | .insert task _ (.loadTail _) | .insert task _ (.link _ _) => some task
  | .remove _ _ (.setTail task _) | .remove _ _ (.clearNext task _) | .remove _ _ (.sub task _)
  | .remove _ _ (.loadByte task _) | .remove _ _ (.cas task _ _) => some task
  | .remove _ _ (.rel task _) => task
  | _ => none

/-- The carried task still points into the list. -/
def Pc.dirty : Pc τ → Bool
  | .remove _ _ (.setTail _ _) | .remove _ _ (.clearNext _ _) => true
  | _ => false

section

variable [DecidableEq ι] [DecidableEq τ]

structure TasksOk (loc : ι → Pc τ) (g : PrioTaskArray ι τ) (q : ℕ → List τ)
    (place : τ → Place ι) : Prop where
  queue : ∀ t p, t ∈ q p ↔ place t = .queue p
  hand : ∀ t i, (loc i).hand = some t ↔ place t = .hand i
  free : ∀ t, place t = .free → g.nextQueue t = none
  held : ∀ t i, place t = .hand i → (loc i).dirty = false → g.nextQueue t = none
  hist : ∀ t, g.inserted.count t = g.returned.count t + if place t = .free then 0 else 1

variable {loc : ι → Pc τ} {g g' : PrioTaskArray ι τ} {q : ℕ → List τ} {place : τ → Place ι}
  {i : ι} {x' : Pc τ} {t : τ} {p : ℕ}

namespace TasksOk

/-- A step that moves no task. -/
theorem keep (h : TasksOk loc g q place) (hh : x'.hand = (loc i).hand)
    (hd : x'.dirty = false → (loc i).dirty = false) (hn : g'.nextQueue = g.nextQueue)
    (hi : g'.inserted = g.inserted) (hr : g'.returned = g.returned) :
    TasksOk (Function.update loc i x') g' q place := by
  refine ⟨h.queue, fun u j => ?_, fun u hu => ?_, fun u j hu hj => ?_, fun u => ?_⟩
  · by_cases hj : j = i
    · subst hj
      rw [Function.update_self, hh]
      exact h.hand u j
    · rw [Function.update_of_ne hj]
      exact h.hand u j
  · rw [hn]
    exact h.free u hu
  · rw [hn]
    refine h.held u j hu ?_
    by_cases hji : j = i
    · subst hji
      rw [Function.update_self] at hj
      exact hd hj
    · rwa [Function.update_of_ne hji] at hj
  · rw [hi, hr]
    exact h.hist u

/-- One task changes its place, from or to the hand of `i`. -/
theorem move (h : TasksOk loc g q place) {q' : ℕ → List τ} {w : Place ι}
    (hfrom : ∀ u, (loc i).hand = some u → u = t) (hfrom' : ∀ j, place t = .hand j → j = i)
    (hto : ∀ u, x'.hand = some u ↔ u = t ∧ w = .hand i) (hto' : ∀ j, w = .hand j → j = i)
    (hq : ∀ u r, u ≠ t → (u ∈ q' r ↔ u ∈ q r)) (hqt : ∀ r, t ∈ q' r ↔ w = .queue r)
    (hn : ∀ u, u ≠ t → (∀ r, u ∉ q r) → g'.nextQueue u = g.nextQueue u)
    (hnt : w = .free ∨ w = .hand i ∧ x'.dirty = false → g'.nextQueue t = none)
    (hi : ∀ u, u ≠ t → g'.inserted.count u = g.inserted.count u)
    (hr : ∀ u, u ≠ t → g'.returned.count u = g.returned.count u)
    (hct : g'.inserted.count t = g'.returned.count t + if w = .free then 0 else 1) :
    TasksOk (Function.update loc i x') g' q' (Function.update place t w) := by
  have hout : ∀ u, u ≠ t → (∀ r, place u ≠ .queue r) → g'.nextQueue u = g.nextQueue u :=
    fun u hu hnq => hn u hu fun r hm => hnq r ((h.queue u r).mp hm)
  refine ⟨fun u r => ?_, fun u j => ?_, fun u hu => ?_, fun u j hu hj => ?_, fun u => ?_⟩
  · by_cases hut : u = t
    · subst hut
      rw [Function.update_self]
      exact hqt r
    · rw [Function.update_of_ne hut, ← h.queue]
      exact hq u r hut
  · by_cases hj : j = i
    · subst hj
      rw [Function.update_self, hto]
      by_cases hut : u = t
      · subst hut
        simp
      · rw [Function.update_of_ne hut, ← h.hand]
        exact ⟨fun hh => absurd hh.1 hut, fun hh => absurd (hfrom u hh) hut⟩
    · rw [Function.update_of_ne hj, h.hand]
      by_cases hut : u = t
      · subst hut
        rw [Function.update_self]
        exact ⟨fun hh => absurd (hfrom' j hh) hj, fun hh => absurd (hto' j hh) hj⟩
      · rw [Function.update_of_ne hut]
  · by_cases hut : u = t
    · subst hut
      rw [Function.update_self] at hu
      exact hnt (.inl hu)
    · rw [Function.update_of_ne hut] at hu
      rw [hout u hut (by simp [hu])]
      exact h.free u hu
  · by_cases hut : u = t
    · subst hut
      rw [Function.update_self] at hu
      obtain rfl := hto' j hu
      rw [Function.update_self] at hj
      exact hnt (.inr ⟨hu, hj⟩)
    · rw [Function.update_of_ne hut] at hu
      rw [hout u hut (by simp [hu])]
      refine h.held u j hu ?_
      have hji : j ≠ i := by
        rintro rfl
        exact hut (hfrom u ((h.hand u j).mpr hu))
      rwa [Function.update_of_ne hji] at hj
  · by_cases hut : u = t
    · subst hut
      rw [Function.update_self]
      exact hct
    · rw [Function.update_of_ne hut, hi u hut, hr u hut]
      exact h.hist u

/-- The task in the hand of `i` goes to the end of a list. -/
theorem push (h : TasksOk loc g q place) {q' : List τ} (hh : (loc i).hand = some t)
    (hx : x'.hand = none) (hq : q' = q p ++ [t])
    (hn : ∀ u, u ≠ t → (∀ r, u ∉ q r) → g'.nextQueue u = g.nextQueue u)
    (hi : g'.inserted = g.inserted) (hr : g'.returned = g.returned) :
    TasksOk (Function.update loc i x') g' (Function.update q p q')
      (Function.update place t (.queue p)) := by
  have hplace : place t = .hand i := (h.hand t i).mp hh
  refine h.move (fun u hu => Option.some.inj (hu.symm.trans hh))
    (fun j hj => (Place.hand.inj (hplace.symm.trans hj)).symm) (by simp [hx]) (by simp)
    (fun u r hut => ?_) (fun r => ?_) hn (by simp) (by simp [hi]) (by simp [hr]) ?_
  · by_cases hrp : r = p
    · subst hrp
      simp [hq, hut]
    · rw [Function.update_of_ne hrp]
  · by_cases hrp : r = p
    · subst hrp
      simp [hq]
    · rw [Function.update_of_ne hrp, h.queue, hplace]
      simp [Ne.symm hrp]
  · rw [hi, hr, h.hist t, hplace]
    simp

/-- The first task of a list goes into the hand of `i`. -/
theorem pop (h : TasksOk loc g q place) {q' : List τ} (hh : (loc i).hand = none)
    (hx : x'.hand = some t) (hd : x'.dirty = true) (hq : q p = t :: q') (hnd : t ∉ q')
    (hn : g'.nextQueue = g.nextQueue) (hi : g'.inserted = g.inserted)
    (hr : g'.returned = g.returned) :
    TasksOk (Function.update loc i x') g' (Function.update q p q')
      (Function.update place t (.hand i)) := by
  have hplace : place t = .queue p := (h.queue t p).mp (by simp [hq])
  refine h.move (by simp [hh]) (by simp [hplace]) (by simp [hx, eq_comm]) (by simp [eq_comm])
    (fun u r hut => ?_) (fun r => ?_) (by simp [hn]) (by simp [hd]) (by simp [hi]) (by simp [hr]) ?_
  · by_cases hrp : r = p
    · subst hrp
      simp [hq, hut]
    · rw [Function.update_of_ne hrp]
  · by_cases hrp : r = p
    · subst hrp
      simp [hnd]
    · rw [Function.update_of_ne hrp, h.queue, hplace]
      simp [Ne.symm hrp]
  · rw [hi, hr, h.hist t, hplace]
    simp

/-- The pointer of the carried task is cleared. -/
theorem clear (h : TasksOk loc g q place) (hh : (loc i).hand = some t) (hx : x'.hand = some t)
    (hn : g'.nextQueue = Function.update g.nextQueue t none) (hi : g'.inserted = g.inserted)
    (hr : g'.returned = g.returned) : TasksOk (Function.update loc i x') g' q place := by
  have hplace : place t = .hand i := (h.hand t i).mp hh
  have hmove : TasksOk (Function.update loc i x') g' q (Function.update place t (.hand i)) := h.move
    (fun u hu => Option.some.inj (hu.symm.trans hh))
    (fun j hj => (Place.hand.inj (hplace.symm.trans hj)).symm) (by simp [hx, eq_comm])
    (by simp [eq_comm]) (fun _ _ _ => Iff.rfl) (fun r => by rw [h.queue, hplace])
    (fun u hut _ => by rw [hn, Function.update_of_ne hut]) (fun _ => by rw [hn, Function.update_self])
    (by simp [hi]) (by simp [hr]) (by rw [hi, hr, h.hist t, hplace])
  rwa [← hplace, Function.update_eq_self] at hmove

/-- A task is handed over to be inserted. -/
theorem call (h : TasksOk loc g q place) (hc : g.inserted.count t = g.returned.count t)
    (hh : (loc i).hand = none) (hx : x'.hand = some t) (hn : g'.nextQueue = g.nextQueue)
    (hi : g'.inserted = t :: g.inserted) (hr : g'.returned = g.returned) :
    TasksOk (Function.update loc i x') g' q (Function.update place t (.hand i)) := by
  have hplace : place t = .free := by
    have hist := h.hist t
    by_contra hne
    rw [if_neg hne] at hist
    omega
  refine h.move (by simp [hh]) (by simp [hplace]) (by simp [hx, eq_comm]) (by simp [eq_comm])
    (fun _ _ _ => Iff.rfl) (fun r => ?_) (by simp [hn]) (fun _ => ?_) (fun u hut => ?_)
    (by simp [hr]) ?_
  · rw [h.queue, hplace]
    simp
  · rw [hn]
    exact h.free t hplace
  · rw [hi, List.count_cons_of_ne (Ne.symm hut)]
  · rw [hi, hr, List.count_cons_self, hc]
    simp

/-- A carried task is returned to the caller. -/
theorem ret (h : TasksOk loc g q place) (hh : (loc i).hand = some t) (hd : (loc i).dirty = false)
    (hx : x'.hand = none) (hn : g'.nextQueue = g.nextQueue) (hi : g'.inserted = g.inserted)
    (hr : g'.returned = t :: g.returned) :
    TasksOk (Function.update loc i x') g' q (Function.update place t .free) := by
  have hplace : place t = .hand i := (h.hand t i).mp hh
  refine h.move (fun u hu => Option.some.inj (hu.symm.trans hh))
    (fun j hj => (Place.hand.inj (hplace.symm.trans hj)).symm) (by simp [hx]) (by simp)
    (fun _ _ _ => Iff.rfl) (fun r => ?_) (by simp [hn]) (fun _ => ?_) (by simp [hi])
    (fun u hut => ?_) ?_
  · rw [h.queue, hplace]
    simp
  · rw [hn]
    exact h.held t i hplace hd
  · rw [hr, List.count_cons_of_ne (Ne.symm hut)]
  · rw [hi, hr, List.count_cons_self, h.hist t, hplace]
    simp

end TasksOk

end

end TinyStm.Spin
