import TinyStm.Spin.Tasks

/-!
# The invariant of the array along runs

Locks, lists and tasks together. A step belongs to one list; the others see only
that none of their tasks is written.
-/

namespace TinyStm.Spin

open Interleave

variable {ι τ : Type*} [DecidableEq ι] [DecidableEq τ]

/-- Where the holder of a lock is. -/
def holder (l : TaskList ι τ) (loc : ι → Pc τ) (s : Side) : Option (Pc τ) := (l.lock s).map loc

structure Good (g : PrioTaskArray ι τ) (loc : ι → Pc τ) (q : ℕ → List τ) (place : τ → Place ι) :
    Prop where
  ok : ∀ i, (loc i).ok
  locks : ∀ p, LockOk (g.list p) fun i => (loc i).grip p
  lists : ∀ p, PrioOk g.nextQueue (g.list p) (g.bit p) (q p) (holder (g.list p) loc .tail)
    (holder (g.list p) loc .head)
  tasks : TasksOk loc g q place

/-- The invariant of the runs. -/
def Inv (c : Config ι (PrioTaskArray ι τ) (Pc τ)) : Prop :=
  ∃ q place, Good c.shared c.loc q place

theorem inv_initial : Inv (initial : Config ι (PrioTaskArray ι τ) (Pc τ)) := by
  refine ⟨fun _ => [], fun _ => .free, fun _ => trivial, fun p => ⟨?_, ?_, ?_⟩, fun p => ?_, ?_⟩
  · intro s i
    simp [initial, Pc.grip, Grip.free, getPrioTaskArray, taskListInit]
  · intro c i hi
    cases hi
  · intro c _
    rfl
  · refine ⟨rfl, List.nodup_nil, fun _ => rfl, rfl, fun h => ?_, fun x hx => ?_, fun x hx => ?_⟩
    · exact absurd h (show ¬(1 : ℤ) ≤ 0 by decide)
    · cases hx
    · cases hx
  · exact ⟨by simp, by simp [initial, Pc.hand], fun _ _ => rfl, by simp, fun _ => rfl⟩

section

variable {g g' : PrioTaskArray ι τ} {loc : ι → Pc τ} {q : ℕ → List τ} {place : τ → Place ι} {i : ι}
  {x' : Pc τ} {p : ℕ}

omit [DecidableEq τ] in
theorem grip_update (p : ℕ) : (fun j => (Function.update loc i x' j).grip p) =
    Function.update (fun j => (loc j).grip p) i (x'.grip p) := by
  funext j
  by_cases hj : j = i
  · subst hj
    simp
  · simp [Function.update_of_ne hj]

theorem Good.ok_step (h : Good g loc q place) (hx : x'.ok) (j : ι) :
    (Function.update loc i x' j).ok := by
  by_cases hj : j = i
  · subst hj
    rw [Function.update_self]
    exact hx
  · rw [Function.update_of_ne hj]
    exact h.ok j

theorem Good.locks_step (h : Good g loc q place) (hx : x'.ok)
    (hm : ∀ p, Moved i (g.list p) (g'.list p) ((loc i).grip p) (x'.grip p)) (p : ℕ) :
    LockOk (g'.list p) fun j => (Function.update loc i x' j).grip p := by
  rw [grip_update]
  exact (h.locks p).moved (fun _ => Pc.held (h.ok i)) (fun _ => Pc.held hx) (hm p)

omit [DecidableEq τ] in
/-- A thread without locks on a list is not among its holders. -/
theorem holder_update {l : TaskList ι τ} (hl : LockOk l fun j => (loc j).grip p)
    (hf : (loc i).grip p = .free) (s : Side) :
    holder l (Function.update loc i x') s = holder l loc s := by
  unfold holder
  cases hs : l.lock s with
  | none => rfl
  | some j =>
    have hj : j ≠ i := by
      rintro rfl
      have hh := (hl.holds s j).mpr hs
      rw [hf] at hh
      cases hh
    simp [Function.update_of_ne hj]

omit [DecidableEq τ] in
/-- Holders before and after a step of a quiet thread. -/
theorem holder_calm {l l' : TaskList ι τ} (hl : LockOk l fun j => (loc j).grip p)
    (hm : Moved i l l' ((loc i).grip p) (x'.grip p)) (hx : (loc i).quiet = true)
    (hx' : x'.quiet = true) (s : Side) : Calm (holder l loc s) (holder l' (Function.update loc i x') s) := by
  unfold holder
  have hown := hl.holds s i
  have hlock := hm.lock s
  have hquiet : ∀ x, Option.map loc (some i) = some x → x.quiet = true := by
    rintro x ⟨⟩
    exact hx
  have hquiet' : ∀ x, Option.map (Function.update loc i x') (some i) = some x → x.quiet = true := by
    intro x hh
    simp only [Option.map_some, Function.update_self, Option.some.injEq] at hh
    exact hh ▸ hx'
  split at hlock
  · rw [hlock]
    cases hs : l.lock s with
    | none => exact .inl rfl
    | some j =>
      by_cases hj : j = i
      · subst hj
        exact .inr ⟨hquiet, hquiet'⟩
      · left
        simp [Function.update_of_ne hj]
  · next hne =>
    cases hv : (x'.grip p).holds s
    · rw [hv, if_neg (by simp)] at hlock
      rw [hv] at hne
      have hs : l.lock s = some i := hown.mp (by simpa using Ne.symm hne)
      rw [hlock, hs]
      exact .inr ⟨hquiet, by simp⟩
    · rw [hv, if_pos rfl] at hlock
      have hs : l.lock s = none := by
        rcases hm.fresh s hv with hh | hn
        · exact absurd (hv.trans hh.symm) hne
        · exact hn
      rw [hlock, hs]
      exact .inr ⟨by simp, hquiet'⟩

/-- A step outside the list `p`. -/
theorem Good.lists_frame (h : Good g loc q place) (hl : g'.list p = g.list p)
    (hb : g'.bit p = g.bit p) (hn : ∀ t ∈ q p, g'.nextQueue t = g.nextQueue t)
    (hf : (loc i).grip p = .free) :
    PrioOk g'.nextQueue (g'.list p) (g'.bit p) (q p)
      (holder (g'.list p) (Function.update loc i x') .tail)
      (holder (g'.list p) (Function.update loc i x') .head) := by
  rw [hl, hb, holder_update (h.locks p) hf, holder_update (h.locks p) hf]
  have hp := h.lists p
  exact ⟨hp.chain.congr hn, hp.nodup, hp.tail, hp.count, hp.bit, hp.tailOk, hp.headOk⟩

/-- A step of a thread that works on no list. -/
theorem Good.outside (h : Good g loc q place) {place' : τ → Place ι} (hx : x'.ok)
    (hf : ∀ p, (loc i).grip p = .free) (hf' : ∀ p, x'.grip p = .free) (hl : g'.list = g.list)
    (hb : g'.bitmap = g.bitmap) (hn : g'.nextQueue = g.nextQueue)
    (ht : TasksOk (Function.update loc i x') g' q place') :
    Good g' (Function.update loc i x') q place' := by
  refine ⟨h.ok_step hx, h.locks_step hx fun p => ?_, fun p => ?_, ht⟩
  · rw [hf, hf', hl]
    exact .same rfl rfl
  · refine h.lists_frame (by rw [hl]) ?_ (fun t _ => by rw [hn]) (hf p)
    simp [PrioTaskArray.bit, hb]

/-- A step of a thread that works on the list `p`. -/
theorem Good.inside (h : Good g loc q place) {q' : List τ} {place' : τ → Place ι} (hx : x'.ok)
    (hf : ∀ r, r ≠ p → (loc i).grip r = .free) (hf' : ∀ r, r ≠ p → x'.grip r = .free)
    (hm : Locking i p g g' ((loc i).grip p) (x'.grip p)) (hb : ∀ r, r ≠ p → g'.bit r = g.bit r)
    (hn : ∀ r, r ≠ p → ∀ u ∈ q r, g'.nextQueue u = g.nextQueue u)
    (hp : PrioOk g'.nextQueue (g'.list p) (g'.bit p) q'
      (holder (g'.list p) (Function.update loc i x') .tail)
      (holder (g'.list p) (Function.update loc i x') .head))
    (ht : TasksOk (Function.update loc i x') g' (Function.update q p q') place') :
    Good g' (Function.update loc i x') (Function.update q p q') place' := by
  refine ⟨h.ok_step hx, h.locks_step hx fun r => ?_, fun r => ?_, ht⟩
  · by_cases hr : r = p
    · subst hr
      exact hm.1
    · rw [hf r hr, hf' r hr, hm.2 r hr]
      exact .same rfl rfl
  · by_cases hr : r = p
    · subst hr
      rw [Function.update_self]
      exact hp
    · rw [Function.update_of_ne hr]
      exact h.lists_frame (hm.2 r hr) (hb r hr) (hn r hr) (hf r hr)

omit [DecidableEq τ] in
/-- Holders before and after a step of a thread that holds `nlocks` locks, first that of
side `s`: it is the holder of side `s`, and of the other one too, or another thread is. -/
theorem holder_working {l l' : TaskList ι τ} {s : Side} {n : ℕ}
    (hl : LockOk l fun j => (loc j).grip p) (hg : (loc i).grip p = .full s n)
    (hg' : x'.grip p = .full s n) (hm : Moved i l l' ((loc i).grip p) (x'.grip p)) :
    holder l loc s = some (loc i) ∧ holder l' (Function.update loc i x') s = some x' ∧
    (n = 2 ∧ holder l loc s.other = some (loc i) ∧
        holder l' (Function.update loc i x') s.other = some x' ∨
      n ≠ 2 ∧ holder l' (Function.update loc i x') s.other = holder l loc s.other ∧
        ∀ y, holder l loc s.other = some y →
          (y.grip p).holds s.other = true ∧ (y.grip p).holds s = false) := by
  have hlock : ∀ r, l'.lock r = l.lock r := by
    intro r
    rw [hm.lock r, hg, hg', if_pos rfl]
  have hs : l.lock s = some i := (hl.holds s i).mp (by simp [hg, Grip.full])
  have hself : ∀ r, l.lock r = some i →
      holder l loc r = some (loc i) ∧ holder l' (Function.update loc i x') r = some x' := by
    intro r hr
    simp [holder, hlock, hr]
  refine ⟨(hself s hs).1, (hself s hs).2, ?_⟩
  by_cases hn : n = 2
  · exact .inl ⟨hn, hself _ ((hl.holds s.other i).mp (by simp [hg, Grip.full, hn]))⟩
  · have hne : l.lock s.other ≠ some i := by
      intro he
      have hh := (hl.holds s.other i).mpr he
      cases s <;> simp [hg, Grip.full, hn, Side.other] at hh
    refine .inr ⟨hn, ?_, ?_⟩
    · unfold holder
      rw [hlock]
      cases ho : l.lock s.other with
      | none => rfl
      | some j =>
        have hj : j ≠ i := by
          rintro rfl
          exact hne ho
        simp [Function.update_of_ne hj]
    · intro y hy
      simp only [holder, Option.map_eq_some_iff] at hy
      obtain ⟨j, hj, rfl⟩ := hy
      refine ⟨(hl.holds _ j).mpr hj, ?_⟩
      by_contra hh
      have hsj := (hl.holds s j).mp (by simpa using hh)
      obtain rfl : i = j := Option.some.inj (hs.symm.trans hsj)
      exact hne hj

end

/-! ### Insertion -/

section

variable {g g' : PrioTaskArray ι τ} {i : ι} {task : τ} {p : ℕ} {st st' : Ins τ}

omit [DecidableEq ι] in
theorem Ins.step_frame (hs : st.step i task p g = some (g', st')) :
    (∀ r, r ≠ p → g'.bit r = g.bit r) ∧
    (∀ u, (∀ n, st ≠ .link u n) → g'.nextQueue u = g.nextQueue u) ∧
    g'.inserted = g.inserted ∧ g'.returned = g.returned := by
  cases st with
  | acq a =>
    by_cases ha : ∃ n, a = .enter [] n
    · obtain ⟨n, rfl⟩ := ha
      cases hs
      exact ⟨fun _ _ => rfl, fun _ _ => rfl, rfl, rfl⟩
    · rw [Ins.step.eq_2 _ _ _ _ _ (by simpa using ha), Option.map_eq_some_iff] at hs
      obtain ⟨r, -, he⟩ := hs
      cases he
      exact ⟨fun _ _ => rfl, fun _ _ => rfl, rfl, rfl⟩
  | link last n =>
    cases hs
    refine ⟨fun _ _ => rfl, fun u hu => ?_, rfl, rfl⟩
    have hne : u ≠ last := by
      rintro rfl
      exact hu n rfl
    exact Function.update_of_ne hne _ _
  | cas part n =>
    simp only [Ins.step] at hs
    split at hs <;> cases hs
    · next hg =>
      refine ⟨fun r hr => by rw [bit_casSet hg r]; simp [hr], ?_⟩
      obtain ⟨-, rfl⟩ := PrioTaskArray.casByte_eq hg
      exact ⟨fun _ _ => rfl, rfl, rfl⟩
    · exact ⟨fun _ _ => rfl, fun _ _ => rfl, rfl, rfl⟩
  | loadTail n =>
    simp only [Ins.step, Option.map_eq_some_iff, Prod.mk.injEq] at hs
    obtain ⟨last, -, rfl, -⟩ := hs
    exact ⟨fun _ _ => rfl, fun _ _ => rfl, rfl, rfl⟩
  | rel todo =>
    cases todo with
    | nil =>
      cases hs
      exact ⟨fun _ _ => rfl, fun _ _ => rfl, rfl, rfl⟩
    | cons r todo =>
      simp only [Ins.step, Option.map_eq_some_iff, Prod.mk.injEq] at hs
      obtain ⟨l, -, rfl, -⟩ := hs
      exact ⟨fun _ _ => rfl, fun _ _ => rfl, rfl, rfl⟩
  | _ =>
    cases hs
    exact ⟨fun _ _ => rfl, fun _ _ => rfl, rfl, rfl⟩

omit [DecidableEq ι] in
/-- The lock functions leave the list alone. -/
theorem Ins.step_calm (hw : st.working = false) (hs : st.step i task p g = some (g', st')) :
    ((g'.list p).head = (g.list p).head ∧ (g'.list p).tail = (g.list p).tail ∧
      (g'.list p).count = (g.list p).count) ∧ g'.bit p = g.bit p ∧ g'.nextQueue = g.nextQueue ∧
    (Pc.insert task p st).quiet = true ∧ (Pc.insert task p st').quiet = true ∧
    (Pc.insert task p st').hand = (Pc.insert task p st).hand := by
  cases st with
  | acq a =>
    by_cases ha : ∃ n, a = .enter [] n
    · obtain ⟨n, rfl⟩ := ha
      cases hs
      exact ⟨⟨rfl, rfl, rfl⟩, rfl, rfl, rfl, rfl, rfl⟩
    · rw [Ins.step.eq_2 _ _ _ _ _ (by simpa using ha), Option.map_eq_some_iff] at hs
      obtain ⟨r, hr, he⟩ := hs
      cases he
      rw [PrioTaskArray.setList_self]
      exact ⟨acqStep_data hr, rfl, rfl, rfl, rfl, rfl⟩
  | rel todo =>
    cases todo with
    | nil =>
      cases hs
      exact ⟨⟨rfl, rfl, rfl⟩, rfl, rfl, rfl, rfl, rfl⟩
    | cons r todo =>
      simp only [Ins.step, Option.map_eq_some_iff, Prod.mk.injEq] at hs
      obtain ⟨l, hl, rfl, rfl⟩ := hs
      rw [PrioTaskArray.setList_self]
      exact ⟨relStep_data hl, rfl, rfl, rfl, rfl, rfl⟩
  | _ => cases hw

omit [DecidableEq ι] in
theorem Ins.step_grip (hw : st.working = true) (hs : st.step i task p g = some (g', st')) :
    ∃ n, st.grip = .full .tail n ∧ st'.grip = .full .tail n := by
  have hrel : ∀ n, Grip.leaving (Side.tail.releases n) = .full .tail n := leaving_releases .tail
  cases st with
  | acq a => cases hw
  | rel todo => cases hw
  | testHead n =>
    simp only [Ins.step, Option.some.injEq, Prod.mk.injEq] at hs
    obtain ⟨-, rfl⟩ := hs
    refine ⟨n, rfl, ?_⟩
    split <;> rfl
  | loadTail n =>
    simp only [Ins.step, Option.map_eq_some_iff, Prod.mk.injEq] at hs
    obtain ⟨last, -, -, rfl⟩ := hs
    exact ⟨n, rfl, rfl⟩
  | add n =>
    simp only [Ins.step, Option.some.injEq, Prod.mk.injEq] at hs
    obtain ⟨-, rfl⟩ := hs
    refine ⟨n, rfl, ?_⟩
    split
    · rfl
    · exact hrel n
  | cas part n =>
    simp only [Ins.step] at hs
    split at hs <;> cases hs
    · exact ⟨n, rfl, hrel n⟩
    · exact ⟨n, rfl, rfl⟩
  | setHead n | link last n | setTail n | loadByte n =>
    cases hs
    exact ⟨n, rfl, rfl⟩

variable {loc : ι → Pc τ} {q : ℕ → List τ} {place : τ → Place ι}

omit [DecidableEq ι] [DecidableEq τ] in
theorem Ins.hand_eq (hp : st.push task (q p) ≠ q p) : (Pc.insert task p st).hand = some task := by
  cases st with
  | setHead n | link last n => rfl
  | _ => exact absurd rfl hp

theorem Good.insert_tasks (h : Good g loc q place) (hi : loc i = .insert task p st)
    (hlast : ∀ last n, st = .link last n → last ∈ q p) (hs : st.step i task p g = some (g', st')) :
    ∃ place', TasksOk (Function.update loc i (.insert task p st')) g'
      (Function.update q p (st.push task (q p))) place' := by
  obtain ⟨-, hnext, hins, hret⟩ := Ins.step_frame hs
  have hkeep : st.push task (q p) = q p → (Pc.insert task p st').hand = (Pc.insert task p st).hand →
      (∀ u n, st ≠ .link u n) → ∃ place', TasksOk (Function.update loc i (.insert task p st')) g'
        (Function.update q p (st.push task (q p))) place' := by
    intro hp hh hl
    rw [hp, Function.update_eq_self]
    refine ⟨place, h.tasks.keep (by rw [hh, hi]) (fun _ => by rw [hi]; rfl) ?_ hins hret⟩
    funext u
    exact hnext u (hl u)
  cases st with
  | setHead n =>
    cases hs
    exact ⟨_, h.tasks.push (by rw [hi]; rfl) rfl rfl (fun _ _ _ => rfl) rfl rfl⟩
  | link last n =>
    cases hs
    refine ⟨_, h.tasks.push (by rw [hi]; rfl) rfl rfl (fun u _ hu => ?_) rfl rfl⟩
    refine Function.update_of_ne ?_ _ _
    rintro rfl
    exact hu p (hlast u n rfl)
  | testHead n =>
    simp only [Ins.step, Option.some.injEq, Prod.mk.injEq] at hs
    obtain ⟨-, rfl⟩ := hs
    refine hkeep rfl ?_ (by simp)
    split <;> rfl
  | loadTail n =>
    simp only [Ins.step, Option.map_eq_some_iff, Prod.mk.injEq] at hs
    obtain ⟨last, -, -, rfl⟩ := hs
    exact hkeep rfl rfl (by simp)
  | add n =>
    simp only [Ins.step, Option.some.injEq, Prod.mk.injEq] at hs
    obtain ⟨-, rfl⟩ := hs
    refine hkeep rfl ?_ (by simp)
    split <;> rfl
  | cas part n =>
    simp only [Ins.step] at hs
    split at hs <;> cases hs <;> exact hkeep rfl rfl (by simp)
  | setTail n | loadByte n =>
    cases hs
    exact hkeep rfl rfl (by simp)
  | acq a | rel todo =>
    obtain ⟨-, -, -, -, -, hh⟩ := Ins.step_calm rfl hs
    exact hkeep rfl hh (by simp)

theorem Good.insert_step (h : Good g loc q place) (hi : loc i = .insert task p st)
    (hs : st.step i task p g = some (g', st')) :
    ∃ q' place', Good g' (Function.update loc i (.insert task p st')) q' place' := by
  have hok : st.ok := by
    have := h.ok i
    rwa [hi] at this
  obtain ⟨hlocking, hok'⟩ := Ins.step_locking hok hs
  obtain ⟨hbit, hnext, -, -⟩ := Ins.step_frame hs
  have hgrip : (loc i).grip p = st.grip := by simp [hi, Pc.grip]
  have hgrip' : (Pc.insert task p st').grip p = st'.grip := by simp [Pc.grip]
  rw [← hgrip, ← hgrip'] at hlocking
  have hlast : ∀ last n, st = .link last n → last ∈ q p := by
    rintro last n rfl
    obtain ⟨m, hg, hg'⟩ := Ins.step_grip rfl hs
    have hwork := holder_working (h.locks p) (hgrip.trans hg) (hgrip'.trans hg') hlocking.1
    have htail := (h.lists p).tailOk (loc i) hwork.1
    rw [hi] at htail
    exact List.mem_of_getLast? htail
  obtain ⟨place', htasks⟩ := h.insert_tasks hi hlast hs
  refine ⟨_, place', h.inside hok' (fun r hr => by simp [hi, Pc.grip, hr.symm])
    (fun r hr => by simp [Pc.grip, hr.symm]) hlocking hbit (fun r hr u hu => ?_) ?_ htasks⟩
  · refine hnext u fun n hl => hr ?_
    have h₁ := (h.tasks.queue u p).mp (hlast u n hl)
    rw [(h.tasks.queue u r).mp hu] at h₁
    exact Place.queue.inj h₁
  · cases hw : st.working
    · -- the lock functions
      obtain ⟨hd, hb, hn, hq, hq', -⟩ := Ins.step_calm hw hs
      have hpush : st.push task (q p) = q p := by
        cases st with
        | acq a | rel todo => rfl
        | _ => cases hw
      have hqi : (loc i).quiet = true := by rw [hi]; exact hq
      rw [hb, hn, hpush]
      exact (h.lists p).calm hd (holder_calm (h.locks p) hlocking.1 hqi hq' _)
        (holder_calm (h.locks p) hlocking.1 hqi hq' _)
    · -- the work between them
      obtain ⟨n, hg, hg'⟩ := Ins.step_grip hw hs
      obtain ⟨ht, ht', hother⟩ := holder_working (h.locks p) (hgrip.trans hg) (hgrip'.trans hg')
        hlocking.1
      have hlist := h.lists p
      rw [ht, hi] at hlist
      rw [ht']
      refine hlist.insert ?_ (fun hp => ?_) hw hs
      · rcases hother with ⟨-, h₁, h₂⟩ | ⟨-, h₁, h₂⟩
        · exact .inl ⟨h₁.trans (by rw [hi]), h₂⟩
        · exact .inr ⟨h₁, fun y hy => h₂ y hy⟩
      · have hhand : place task = .hand i :=
          (h.tasks.hand task i).mp (by rw [hi]; exact Ins.hand_eq hp)
        refine ⟨fun hm => ?_, h.tasks.held task i hhand (by rw [hi]; rfl)⟩
        rw [h.tasks.queue, hhand] at hm
        cases hm

/-- No assertion of an insertion fails, and no `NULL` is dereferenced. -/
theorem Good.insert_isSome (h : Good g loc q place) (hi : loc i = .insert task p st) :
    (st.step i task p g).isSome = true := by
  have hok : st.ok := by
    have := h.ok i
    rwa [hi] at this
  have hgrip : (loc i).grip p = st.grip := by simp [hi, Pc.grip]
  cases st with
  | acq a =>
    by_cases ha : ∃ n, a = .enter [] n
    · obtain ⟨n, rfl⟩ := ha
      rfl
    · rw [Ins.step.eq_2 _ _ _ _ _ (by simpa using ha), Option.isSome_map]
      exact acqStep_isSome hok (h.locks p) hgrip
  | loadTail n =>
    have hlock : (g.list p).lock .tail = some i :=
      ((h.locks p).holds .tail i).mp (by simp [hgrip, Ins.grip, Grip.full])
    have hv : holder (g.list p) loc .tail = some (.insert task p (.loadTail n)) := by
      simp [holder, hlock, hi]
    have hne : q p ≠ [] := (h.lists p).tailOk _ hv
    have htail := (h.lists p).tail (by rw [hv]; rfl)
    rw [Ins.step, Option.isSome_map, htail, List.getLast?_eq_some_getLast hne]
    rfl
  | cas part n =>
    simp only [Ins.step]
    split <;> rfl
  | rel todo =>
    cases todo with
    | nil => rfl
    | cons r todo =>
      rw [Ins.step, Option.isSome_map]
      exact relStep_isSome hok (h.locks p) hgrip
  | _ => rfl

end

/-! ### Removal -/

section

variable {g g' : PrioTaskArray ι τ} {i : ι} {p : ℕ} {k : From} {st st' : Rem τ}

omit [DecidableEq ι] in
theorem Rem.step_frame (hs : st.step i p g = some (g', st')) :
    (∀ r, r ≠ p → g'.bit r = g.bit r) ∧
    (∀ u, (∀ n, st ≠ .clearNext u n) → g'.nextQueue u = g.nextQueue u) ∧
    g'.inserted = g.inserted ∧ g'.returned = g.returned := by
  cases st with
  | acq a =>
    by_cases ha : ∃ n, a = .enter [] n
    · obtain ⟨n, rfl⟩ := ha
      cases hs
      exact ⟨fun _ _ => rfl, fun _ _ => rfl, rfl, rfl⟩
    · rw [Rem.step.eq_2 _ _ _ _ (by simpa using ha), Option.map_eq_some_iff] at hs
      obtain ⟨r, -, he⟩ := hs
      cases he
      exact ⟨fun _ _ => rfl, fun _ _ => rfl, rfl, rfl⟩
  | clearNext task n =>
    cases hs
    refine ⟨fun _ _ => rfl, fun u hu => ?_, rfl, rfl⟩
    have hne : u ≠ task := by
      rintro rfl
      exact hu n rfl
    exact Function.update_of_ne hne _ _
  | cas task part n =>
    simp only [Rem.step] at hs
    split at hs <;> cases hs
    · next hg =>
      refine ⟨fun r hr => bit_casReset hg hr, ?_⟩
      obtain ⟨-, rfl⟩ := PrioTaskArray.casByte_eq hg
      exact ⟨fun _ _ => rfl, rfl, rfl⟩
    · exact ⟨fun _ _ => rfl, fun _ _ => rfl, rfl, rfl⟩
  | loadHead n =>
    simp only [Rem.step, Option.map_eq_some_iff, Prod.mk.injEq] at hs
    obtain ⟨task, -, rfl, -⟩ := hs
    exact ⟨fun _ _ => rfl, fun _ _ => rfl, rfl, rfl⟩
  | rel task todo =>
    cases todo with
    | nil =>
      cases hs
      exact ⟨fun _ _ => rfl, fun _ _ => rfl, rfl, rfl⟩
    | cons r todo =>
      simp only [Rem.step, Option.map_eq_some_iff, Prod.mk.injEq] at hs
      obtain ⟨l, -, rfl, -⟩ := hs
      exact ⟨fun _ _ => rfl, fun _ _ => rfl, rfl, rfl⟩
  | _ =>
    cases hs
    exact ⟨fun _ _ => rfl, fun _ _ => rfl, rfl, rfl⟩

omit [DecidableEq ι] in
theorem Rem.step_calm (hw : st.nlocks = none) (hs : st.step i p g = some (g', st')) :
    ((g'.list p).head = (g.list p).head ∧ (g'.list p).tail = (g.list p).tail ∧
      (g'.list p).count = (g.list p).count) ∧ g'.bit p = g.bit p ∧ g'.nextQueue = g.nextQueue ∧
    (Pc.remove p k st).quiet = true ∧ (Pc.remove p k st').quiet = true ∧
    (Pc.remove p k st').hand = (Pc.remove p k st).hand := by
  cases st with
  | acq a =>
    by_cases ha : ∃ n, a = .enter [] n
    · obtain ⟨n, rfl⟩ := ha
      cases hs
      exact ⟨⟨rfl, rfl, rfl⟩, rfl, rfl, rfl, rfl, rfl⟩
    · rw [Rem.step.eq_2 _ _ _ _ (by simpa using ha), Option.map_eq_some_iff] at hs
      obtain ⟨r, hr, he⟩ := hs
      cases he
      rw [PrioTaskArray.setList_self]
      exact ⟨acqStep_data hr, rfl, rfl, rfl, rfl, rfl⟩
  | rel task todo =>
    cases todo with
    | nil =>
      cases hs
      exact ⟨⟨rfl, rfl, rfl⟩, rfl, rfl, rfl, rfl, rfl⟩
    | cons r todo =>
      simp only [Rem.step, Option.map_eq_some_iff, Prod.mk.injEq] at hs
      obtain ⟨l, hl, rfl, rfl⟩ := hs
      rw [PrioTaskArray.setList_self]
      exact ⟨relStep_data hl, rfl, rfl, rfl, rfl, rfl⟩
  | _ => cases hw

omit [DecidableEq ι] in
theorem Rem.step_grip {n : ℕ} (hw : st.nlocks = some n) (hs : st.step i p g = some (g', st')) :
    st.grip = .full .head n ∧ st'.grip = .full .head n := by
  have hrel : ∀ n, Grip.leaving (Side.head.releases n) = .full .head n := leaving_releases .head
  cases st with
  | acq a => cases hw
  | rel task todo => cases hw
  | testHead m =>
    cases hw
    simp only [Rem.step, Option.some.injEq, Prod.mk.injEq] at hs
    obtain ⟨-, rfl⟩ := hs
    refine ⟨rfl, ?_⟩
    split
    · exact hrel n
    · rfl
  | loadHead m =>
    cases hw
    simp only [Rem.step, Option.map_eq_some_iff, Prod.mk.injEq] at hs
    obtain ⟨task, -, -, rfl⟩ := hs
    exact ⟨rfl, rfl⟩
  | setHead task next m =>
    cases hw
    simp only [Rem.step, Option.some.injEq, Prod.mk.injEq] at hs
    obtain ⟨-, rfl⟩ := hs
    refine ⟨rfl, ?_⟩
    split <;> rfl
  | sub task m =>
    cases hw
    simp only [Rem.step, Option.some.injEq, Prod.mk.injEq] at hs
    obtain ⟨-, rfl⟩ := hs
    refine ⟨rfl, ?_⟩
    split
    · rfl
    · exact hrel n
  | cas task part m =>
    cases hw
    simp only [Rem.step] at hs
    split at hs <;> cases hs
    · exact ⟨rfl, hrel n⟩
    · exact ⟨rfl, rfl⟩
  | loadNext task m | setTail task m | clearNext task m | loadByte task m =>
    cases hw
    cases hs
    exact ⟨rfl, rfl⟩

variable {loc : ι → Pc τ} {q : ℕ → List τ} {place : τ → Place ι}

theorem Good.remove_tasks (h : Good g loc q place) (hi : loc i = .remove p k st)
    (hhead : ∀ a y n, st = .setHead a y n → (q p).head? = some a)
    (hs : st.step i p g = some (g', st')) :
    ∃ place', TasksOk (Function.update loc i (.remove p k st')) g'
      (Function.update q p (st.pop (q p))) place' := by
  obtain ⟨-, hnext, hins, hret⟩ := Rem.step_frame hs
  have hkeep : st.pop (q p) = q p → (Pc.remove p k st').hand = (Pc.remove p k st).hand →
      ((Pc.remove p k st').dirty = false → (Pc.remove p k st).dirty = false) →
      (∀ u n, st ≠ .clearNext u n) → ∃ place', TasksOk (Function.update loc i (.remove p k st')) g'
        (Function.update q p (st.pop (q p))) place' := by
    intro hp hh hd hl
    rw [hp, Function.update_eq_self]
    refine ⟨place, h.tasks.keep (by rw [hh, hi]) (fun hf => by rw [hi]; exact hd hf) ?_ hins hret⟩
    funext u
    exact hnext u (hl u)
  cases st with
  | setHead a y n =>
    simp only [Rem.step, Option.some.injEq, Prod.mk.injEq] at hs
    obtain ⟨rfl, rfl⟩ := hs
    have ha := hhead a y n rfl
    have hq : q p = a :: (q p).tail := by
      cases hq : q p with
      | nil => simp [hq] at ha
      | cons b q' =>
        rw [hq] at ha
        rw [List.tail_cons, Option.some.inj ha]
    have hnd := (h.lists p).nodup
    rw [hq] at hnd
    refine ⟨_, h.tasks.pop (by rw [hi]; rfl) ?_ ?_ hq (List.nodup_cons.mp hnd).1 rfl rfl rfl⟩
    · split <;> rfl
    · split <;> rfl
  | clearNext a n =>
    cases hs
    show ∃ place', TasksOk _ _ (Function.update q p (q p)) place'
    rw [Function.update_eq_self]
    exact ⟨place, h.tasks.clear (t := a) (by rw [hi]; rfl) rfl rfl rfl rfl⟩
  | testHead n =>
    simp only [Rem.step, Option.some.injEq, Prod.mk.injEq] at hs
    obtain ⟨-, rfl⟩ := hs
    refine hkeep rfl ?_ (fun _ => rfl) (by simp)
    split <;> rfl
  | loadHead n =>
    simp only [Rem.step, Option.map_eq_some_iff, Prod.mk.injEq] at hs
    obtain ⟨task, -, -, rfl⟩ := hs
    exact hkeep rfl rfl (fun _ => rfl) (by simp)
  | sub a n =>
    simp only [Rem.step, Option.some.injEq, Prod.mk.injEq] at hs
    obtain ⟨-, rfl⟩ := hs
    refine hkeep rfl ?_ (fun _ => rfl) (by simp)
    split <;> rfl
  | cas a part n =>
    simp only [Rem.step] at hs
    split at hs <;> cases hs <;> exact hkeep rfl rfl (fun _ => rfl) (by simp)
  | loadNext a n | loadByte a n =>
    cases hs
    exact hkeep rfl rfl (fun _ => rfl) (by simp)
  | setTail a n =>
    cases hs
    exact hkeep rfl rfl (fun hf => by cases hf) (by simp)
  | acq a | rel task todo =>
    obtain ⟨-, -, -, -, -, hh⟩ := Rem.step_calm (k := k) rfl hs
    exact hkeep rfl hh (fun _ => rfl) (by simp)

theorem Good.remove_step (h : Good g loc q place) (hi : loc i = .remove p k st)
    (hsettled : ∀ n, st = .testHead n →
      n = 2 ∨ (g.list p).head = none ∨ 2 ≤ (g.list p).count)
    (hs : st.step i p g = some (g', st')) :
    ∃ q' place', Good g' (Function.update loc i (.remove p k st')) q' place' := by
  have hok : st.ok := by
    have := h.ok i
    rwa [hi] at this
  obtain ⟨hlocking, hok'⟩ := Rem.step_locking hok hs
  obtain ⟨hbit, hnext, -, -⟩ := Rem.step_frame hs
  have hgrip : (loc i).grip p = st.grip := by simp [hi, Pc.grip]
  have hgrip' : (Pc.remove p k st').grip p = st'.grip := by simp [Pc.grip]
  rw [← hgrip, ← hgrip'] at hlocking
  have hhead : ∀ a y n, st = .setHead a y n → (q p).head? = some a := by
    rintro a y n rfl
    obtain ⟨hg, hg'⟩ := Rem.step_grip rfl hs
    have hwork := holder_working (h.locks p) (hgrip.trans hg) (hgrip'.trans hg') hlocking.1
    have hknow := (h.lists p).headOk (loc i) hwork.1
    rw [hi] at hknow
    exact hknow.1
  have hhand : ∀ a n, st = .clearNext a n → ∀ r, a ∉ q r := by
    rintro a n rfl r hm
    have hplace : place a = .hand i := (h.tasks.hand a i).mp (by rw [hi]; rfl)
    rw [h.tasks.queue, hplace] at hm
    cases hm
  obtain ⟨place', htasks⟩ := h.remove_tasks hi hhead hs
  refine ⟨_, place', h.inside hok' (fun r hr => by simp [hi, Pc.grip, hr.symm])
    (fun r hr => by simp [Pc.grip, hr.symm]) hlocking hbit
    (fun r _ u hu => hnext u fun n hl => hhand u n hl r hu) ?_ htasks⟩
  cases hw : st.nlocks with
  | none =>
    obtain ⟨hd, hb, hn, hq, hq', -⟩ := Rem.step_calm (k := k) hw hs
    have hpop : st.pop (q p) = q p := by
      cases st with
      | acq a | rel task todo => rfl
      | _ => cases hw
    have hqi : (loc i).quiet = true := by rw [hi]; exact hq
    rw [hb, hn, hpop]
    exact (h.lists p).calm hd (holder_calm (h.locks p) hlocking.1 hqi hq' _)
      (holder_calm (h.locks p) hlocking.1 hqi hq' _)
  | some n =>
    obtain ⟨hg, hg'⟩ := Rem.step_grip hw hs
    obtain ⟨ht, ht', hother⟩ := holder_working (h.locks p) (hgrip.trans hg) (hgrip'.trans hg')
      hlocking.1
    have hlist := h.lists p
    rw [ht, hi] at hlist
    rw [ht']
    refine hlist.remove hw ?_ hsettled (fun a m hl => hhand a m hl p) hs
    rcases hother with ⟨h2, h₁, h₂⟩ | ⟨h2, h₁, -⟩
    · exact .inl ⟨h2, h₁.trans (by rw [hi]), h₂⟩
    · exact .inr ⟨h2, h₁⟩

theorem Good.remove_isSome (h : Good g loc q place) (hi : loc i = .remove p k st) :
    (st.step i p g).isSome = true := by
  have hok : st.ok := by
    have := h.ok i
    rwa [hi] at this
  have hgrip : (loc i).grip p = st.grip := by simp [hi, Pc.grip]
  cases st with
  | acq a =>
    by_cases ha : ∃ n, a = .enter [] n
    · obtain ⟨n, rfl⟩ := ha
      rfl
    · rw [Rem.step.eq_2 _ _ _ _ (by simpa using ha), Option.isSome_map]
      exact acqStep_isSome hok (h.locks p) hgrip
  | loadHead n =>
    have hlock : (g.list p).lock .head = some i :=
      ((h.locks p).holds .head i).mp (by simp [hgrip, Rem.grip, Grip.full])
    have hv : holder (g.list p) loc .head = some (.remove p k (.loadHead n)) := by
      simp [holder, hlock, hi]
    have hne : q p ≠ [] := ((h.lists p).headOk _ hv).1
    rw [Rem.step, Option.isSome_map, (h.lists p).chain.head_eq, List.isSome_head?]
    exact hne
  | cas task part n =>
    simp only [Rem.step]
    split <;> rfl
  | rel task todo =>
    cases todo with
    | nil => rfl
    | cons r todo =>
      rw [Rem.step, Option.isSome_map]
      exact relStep_isSome hok (h.locks p) hgrip
  | _ => rfl

end

/-! ### Threads -/

section

variable {num : ℕ} {g g' : PrioTaskArray ι τ} {loc : ι → Pc τ} {q : ℕ → List τ}
  {place : τ → Place ι} {i : ι} {x' : Pc τ}

omit [DecidableEq ι] [DecidableEq τ] in
theorem Pc.ready_free {x : Pc τ} (hx : x.ready = true) :
    (∀ p, x.grip p = .free) ∧ x.hand = none ∧ x.dirty = false := by
  cases x with
  | idle | inserted code | removed task => exact ⟨fun _ => rfl, rfl, rfl⟩
  | _ => cases hx

omit [DecidableEq τ] in
theorem Pc.nextBit_free (byte bit : ℕ) : (Pc.nextBit byte bit : Pc τ).ok ∧
    (∀ p, (Pc.nextBit byte bit : Pc τ).grip p = .free) ∧ (Pc.nextBit byte bit : Pc τ).hand = none ∧
    (Pc.nextBit byte bit : Pc τ).dirty = false := by
  unfold Pc.nextBit
  split <;> exact ⟨trivial, fun _ => rfl, rfl, rfl⟩

theorem leaving_nil : Grip.leaving [] = .free := by
  simp [Grip.leaving, Grip.free]

/-- A thread outside the lists goes on without a task. -/
theorem Good.pass (h : Good g loc q place) (hx : x'.ok) (hf : ∀ p, (loc i).grip p = .free)
    (hf' : ∀ p, x'.grip p = .free) (hh : (loc i).hand = none) (hh' : x'.hand = none)
    (hd : (loc i).dirty = false) : ∃ q' place', Good g (Function.update loc i x') q' place' :=
  ⟨q, place, h.outside hx hf hf' rfl rfl rfl
    (h.tasks.keep (hh'.trans hh.symm) (fun _ => hd) rfl rfl rfl)⟩

theorem Good.go_step (h : Good g loc q place) (hsettled : Settled ⟨g, loc⟩ i)
    (hs : (loc i).go num i g = some (g', x')) :
    ∃ q' place', Good g' (Function.update loc i x') q' place' := by
  cases hi : loc i with
  | idle | inserted code | removed task | failed =>
    rw [hi] at hs
    cases hs
  | insert task p st =>
    by_cases hrel : st = .rel []
    · subst hrel
      rw [hi] at hs
      cases hs
      refine h.pass trivial (fun r => ?_) (fun _ => rfl) (by rw [hi]; rfl) rfl (by rw [hi]; rfl)
      rw [hi, Pc.grip, Ins.grip, leaving_nil, ite_self]
    · rw [hi, Pc.go.eq_6 _ _ _ _ _ _ (by simpa using hrel)] at hs
      obtain ⟨⟨g₁, st'⟩, hstep⟩ := Option.isSome_iff_exists.mp (h.insert_isSome hi)
      rw [hstep] at hs
      cases hs
      exact h.insert_step hi hstep
  | remove p k st =>
    by_cases hrel : ∃ task, st = .rel task []
    · obtain ⟨task, rfl⟩ := hrel
      have hf : ∀ r, (loc i).grip r = .free := by
        intro r
        rw [hi, Pc.grip, Rem.grip, leaving_nil, ite_self]
      rw [hi] at hs
      cases task with
      | none =>
        have hh : (loc i).hand = none := by rw [hi]; rfl
        have hd : (loc i).dirty = false := by rw [hi]; rfl
        cases k with
        | thread =>
          cases hs
          exact h.pass trivial hf (fun _ => rfl) hh rfl hd
        | scan byte bit =>
          cases hs
          obtain ⟨h₁, h₂, h₃, h₄⟩ := Pc.nextBit_free (τ := τ) byte bit
          exact h.pass h₁ hf h₂ hh h₃ hd
      | some task =>
        have hret : TasksOk (Function.update loc i (.removed (some task)))
            { g with returned := task :: g.returned } q (Function.update place task .free) :=
          h.tasks.ret (by rw [hi]; rfl) (by rw [hi]; rfl) rfl rfl rfl rfl
        cases k with
        | thread | scan byte bit =>
          cases hs
          exact ⟨q, _, h.outside trivial hf (fun _ => rfl) rfl rfl rfl hret⟩
    · rw [hi, Pc.go.eq_8 _ _ _ _ _ _ (by simpa using hrel)] at hs
      obtain ⟨⟨g₁, st'⟩, hstep⟩ := Option.isSome_iff_exists.mp (h.remove_isSome hi)
      rw [hstep] at hs
      cases hs
      refine h.remove_step hi (fun n hn => ?_) hstep
      subst hn
      simpa [Settled, hi] using hsettled
  | scan byte bit =>
    rw [hi] at hs
    have hf : ∀ r, (loc i).grip r = .free := fun r => by rw [hi]; rfl
    have hh : (loc i).hand = none := by rw [hi]; rfl
    have hd : (loc i).dirty = false := by rw [hi]; rfl
    obtain ⟨h₁, h₂, h₃, h₄⟩ := Pc.nextBit_free (τ := τ) byte bit
    simp only [Pc.go] at hs
    split at hs
    · split at hs <;> cases hs
      · exact h.pass trivial hf (fun r => by simp [Pc.grip, Rem.grip, Acq.grip]) hh rfl hd
      · exact h.pass h₁ hf h₂ hh h₃ hd
    · cases hs
      exact h.pass h₁ hf h₂ hh h₃ hd

/-- The callers keep their promise, and removals with one lock
find the list settled. -/
def SettledStep (c : Config ι (PrioTaskArray ι τ) (Pc τ)) (i : ι) (a : Act τ) : Prop :=
  Caller c i a ∧ Settled c i

theorem inv_step {c d : Config ι (PrioTaskArray ι τ) (Pc τ)} {a : Act τ} (h : Inv c)
    (hok : SettledStep c i a) (hm : (system num).move c i a = some d) : Inv d := by
  obtain ⟨q, place, h⟩ := h
  obtain ⟨g', x', hs, rfl⟩ := move_eq_some hm
  obtain ⟨hcaller, hsettled⟩ := hok
  cases a with
  | go => exact h.go_step hsettled hs
  | insert task prio =>
    simp only [system] at hs
    split at hs
    · next hr =>
      obtain ⟨hf, hh, hd⟩ := Pc.ready_free hr
      cases task with
      | none =>
        cases hs
        exact h.pass trivial hf (fun _ => rfl) hh rfl hd
      | some task =>
        simp only at hs
        split at hs <;> cases hs
        · exact h.pass trivial hf (fun _ => rfl) hh rfl hd
        · exact ⟨q, _, h.outside trivial hf
            (fun r => by simp [Pc.grip, Ins.grip, Acq.grip]) rfl rfl rfl
            (h.tasks.call hcaller hh rfl rfl rfl rfl)⟩
    · cases hs
  | remove prio =>
    simp only [system] at hs
    split at hs
    · next hr =>
      obtain ⟨hf, hh, hd⟩ := Pc.ready_free hr
      split at hs <;> cases hs
      · exact h.pass trivial hf (fun _ => rfl) hh rfl hd
      · exact h.pass trivial hf (fun r => by simp [Pc.grip, Rem.grip, Acq.grip]) hh rfl hd
    · cases hs
  | removeHighest =>
    simp only [system] at hs
    split at hs
    · next hr =>
      obtain ⟨hf, hh, hd⟩ := Pc.ready_free hr
      cases hs
      exact h.pass trivial hf (fun _ => rfl) hh rfl hd
    · cases hs

theorem inv_run {c : Config ι (PrioTaskArray ι τ) (Pc τ)}
    (h : Run (system num) SettledStep initial c) : Inv c :=
  h.invariant (fun _ _ _ _ hc ho hm => inv_step hc ho hm) inv_initial

end

end TinyStm.Spin
