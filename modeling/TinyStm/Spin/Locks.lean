import TinyStm.Spin.Model
import Mathlib.Tactic.Common

/-!
# Who holds which lock

The grip of a thread on a list: the locks it holds and the counters it has raised.
A step changes the grip and the list together, and since a counter is raised only
under the lock of its side, the assertions of the lock functions never fail.
-/

namespace TinyStm.Spin

open Interleave

variable {ι τ : Type*}

/-- The lock under which a counter is raised; `neqx` is raised under both. -/
def Counter.side : Counter → Side
  | .nenq => .tail
  | .ndeq | .neqx => .head

structure Grip where
  holds : Side → Bool
  raised : Counter → Bool

def Grip.free : Grip := ⟨fun _ => false, fun _ => false⟩

/-- Between the two lock functions. -/
def Grip.full (s : Side) (nlocks : ℕ) : Grip :=
  ⟨fun r => r = s ∨ nlocks = 2, fun c => c ∈ s.counters nlocks⟩

def Grip.leaving (todo : List Release) : Grip :=
  ⟨fun r => .unlock r ∈ todo, fun c => .lower c ∈ todo⟩

def Acq.grip (s : Side) : Acq → Grip
  | .trylock => .free
  | .loadCount | .trylockOther | .unlock => ⟨fun r => r = s, fun _ => false⟩
  | .enter todo nlocks =>
    ⟨(Grip.full s nlocks).holds, fun c => c ∈ s.counters nlocks ∧ c ∉ todo⟩

def Ins.grip : Ins τ → Grip
  | .acq a => a.grip .tail
  | .testHead n | .setHead n | .loadTail n | .link _ n | .setTail n | .add n | .loadByte n
  | .cas _ n => .full .tail n
  | .rel todo => .leaving todo

def Rem.grip : Rem τ → Grip
  | .acq a => a.grip .head
  | .testHead n | .loadHead n | .loadNext _ n | .setHead _ _ n | .setTail _ n | .clearNext _ n
  | .sub _ n | .loadByte _ n | .cas _ _ n => .full .head n
  | .rel _ todo => .leaving todo

def Pc.grip (p : ℕ) : Pc τ → Grip
  | .insert _ q st => if q = p then st.grip else .free
  | .remove q _ st => if q = p then st.grip else .free
  | _ => .free

/-! ### What is left to do -/

def enterOk (s : Side) (nlocks : ℕ) : List Counter → Prop
  | [] => True
  | c :: todo => c ∉ todo ∧ c ∈ s.counters nlocks ∧ enterOk s nlocks todo

/-- A counter is lowered before the lock of its side is given back. -/
def relOk : List Release → Prop
  | [] => True
  | .lower c :: todo => .lower c ∉ todo ∧ .unlock c.side ∈ todo ∧ relOk todo
  | .unlock s :: todo => .unlock s ∉ todo ∧ (∀ c, c.side = s → .lower c ∉ todo) ∧ relOk todo

theorem enterOk_counters (s : Side) (nlocks : ℕ) : enterOk s nlocks (s.counters nlocks) := by
  by_cases h : nlocks = 2
  · cases s <;> simp [enterOk, Side.counters, h, Side.other, Side.counter]
  · cases s <;> simp [enterOk, Side.counters, h, Side.counter]

theorem relOk_releases (s : Side) (nlocks : ℕ) : relOk (s.releases nlocks) := by
  by_cases h : nlocks = 2
  · cases s <;> simp [relOk, Side.releases, h, Side.other, Side.counter, Counter.side] <;>
      intro c hc <;> cases c <;> simp_all
  · cases s <;> simp [relOk, Side.releases, h, Side.counter, Counter.side]

theorem leaving_releases (s : Side) (nlocks : ℕ) :
    Grip.leaving (s.releases nlocks) = .full s nlocks := by
  unfold Grip.leaving Grip.full
  congr 1 <;> funext r <;> by_cases h : nlocks = 2 <;> cases s <;> cases r <;>
    simp [Side.releases, Side.counters, h, Side.other, Side.counter]

theorem side_of_mem_counters {s : Side} {nlocks : ℕ} {c : Counter} (h : c ∈ s.counters nlocks) :
    (Grip.full s nlocks).holds c.side = true := by
  by_cases h2 : nlocks = 2
  · simp [Grip.full, h2]
  · cases s <;> simp_all [Grip.full, Side.counters, Side.counter, Counter.side]

theorem side_of_lower {todo : List Release} {c : Counter} (h : relOk todo)
    (hc : Release.lower c ∈ todo) : Release.unlock c.side ∈ todo := by
  induction todo with
  | nil => simp at hc
  | cons r todo ih =>
    cases r with
    | lower k =>
      rcases List.mem_cons.mp hc with he | hc
      · cases he
        exact List.mem_cons_of_mem _ h.2.1
      · exact List.mem_cons_of_mem _ (ih h.2.2 hc)
    | unlock s =>
      rcases List.mem_cons.mp hc with he | hc
      · cases he
      · exact List.mem_cons_of_mem _ (ih h.2.2 hc)

def Acq.ok (s : Side) : Acq → Prop
  | .enter todo nlocks => enterOk s nlocks todo
  | _ => True

theorem full_held {s : Side} {nlocks : ℕ} {c : Counter} (h : (Grip.full s nlocks).raised c = true) :
    (Grip.full s nlocks).holds c.side = true :=
  side_of_mem_counters (of_decide_eq_true h)

theorem Acq.held {s : Side} {a : Acq} {c : Counter} (h : (a.grip s).raised c = true) :
    (a.grip s).holds c.side = true := by
  cases a with
  | enter todo nlocks => exact side_of_mem_counters (of_decide_eq_true h).1
  | _ => cases h

def Ins.ok : Ins τ → Prop
  | .acq a => a.ok .tail
  | .rel todo => relOk todo
  | _ => True

def Rem.ok : Rem τ → Prop
  | .acq a => a.ok .head
  | .rel _ todo => relOk todo
  | _ => True

/-- No assertion has failed, and what is left of the lock functions is in their order. -/
def Pc.ok : Pc τ → Prop
  | .insert _ _ st => st.ok
  | .remove _ _ st => st.ok
  | .failed => False
  | _ => True

theorem Ins.held {st : Ins τ} (hst : st.ok) {c : Counter} (h : st.grip.raised c = true) :
    st.grip.holds c.side = true := by
  cases st with
  | acq a => exact Acq.held h
  | rel todo => exact decide_eq_true (side_of_lower hst (of_decide_eq_true h))
  | _ => exact full_held h

theorem Rem.held {st : Rem τ} (hst : st.ok) {c : Counter} (h : st.grip.raised c = true) :
    st.grip.holds c.side = true := by
  cases st with
  | acq a => exact Acq.held h
  | rel task todo => exact decide_eq_true (side_of_lower hst (of_decide_eq_true h))
  | _ => exact full_held h

theorem Pc.held {x : Pc τ} (hx : x.ok) {p : ℕ} {c : Counter} (h : (x.grip p).raised c = true) :
    (x.grip p).holds c.side = true := by
  cases x with
  | insert task q st =>
    by_cases hq : q = p
    · simp only [Pc.grip, if_pos hq] at h ⊢
      exact Ins.held hx h
    · simp [Pc.grip, if_neg hq, Grip.free] at h
  | remove q k st =>
    by_cases hq : q = p
    · simp only [Pc.grip, if_pos hq] at h ⊢
      exact Rem.held hx h
    · simp [Pc.grip, if_neg hq, Grip.free] at h
  | _ => cases h

/-! ### Steps -/

/-- The thread `i` goes from grip `u` to grip `u'` and the list from `l` to `l'`. -/
structure Moved (i : ι) (l l' : TaskList ι τ) (u u' : Grip) : Prop where
  lock : ∀ s, l'.lock s =
    if u'.holds s = u.holds s then l.lock s else if u'.holds s then some i else none
  fresh : ∀ s, u'.holds s = true → u.holds s = true ∨ l.lock s = none
  counter : ∀ c, l'.counter c = l.counter c + (u'.raised c).toNat - (u.raised c).toNat

theorem Moved.same {i : ι} {l l' : TaskList ι τ} {u : Grip} (hl : l'.lock = l.lock)
    (hc : l'.counter = l.counter) : Moved i l l' u u where
  lock s := by rw [hl, if_pos rfl]
  fresh _ h := .inl h
  counter c := by rw [hc]; omega

theorem Moved.take {i : ι} {l : TaskList ι τ} {u u' : Grip} {s : Side} (hl : l.lock s = none)
    (hu : u'.holds = Function.update u.holds s true) (hf : u.holds s = false)
    (hr : u'.raised = u.raised) : Moved i l (l.setLock s (some i)) u u' where
  lock r := by
    by_cases h : r = s
    · subst h
      simp [TaskList.setLock, hu, hf]
    · simp [TaskList.setLock, hu, Function.update_of_ne h]
  fresh r h := by
    by_cases he : r = s
    · exact .inr (he ▸ hl)
    · rw [hu, Function.update_of_ne he] at h
      exact .inl h
  counter c := by
    rw [hr]
    simp [TaskList.setLock]

theorem Moved.drop {i : ι} {l : TaskList ι τ} {u u' : Grip} {s : Side}
    (hu : u'.holds = Function.update u.holds s false) (hf : u.holds s = true)
    (hr : u'.raised = u.raised) : Moved i l (l.setLock s none) u u' where
  lock r := by
    by_cases h : r = s
    · subst h
      simp [TaskList.setLock, hu, hf]
    · simp [TaskList.setLock, hu, Function.update_of_ne h]
  fresh r h := by
    by_cases he : r = s
    · subst he
      exact .inl hf
    · rw [hu, Function.update_of_ne he] at h
      exact .inl h
  counter c := by
    rw [hr]
    simp [TaskList.setLock]

theorem Moved.count {i : ι} {l : TaskList ι τ} {u u' : Grip} {k : Counter} {b : Bool} {n : ℤ}
    (hu : u'.holds = u.holds) (hr : u'.raised = Function.update u.raised k b)
    (hn : (b.toNat : ℤ) = (u.raised k).toNat + n) : Moved i l (l.addCounter k n) u u' where
  lock s := by rw [hu, if_pos rfl]; rfl
  fresh s h := .inl (hu ▸ h)
  counter c := by
    by_cases h : c = k
    · subst h
      simp only [TaskList.addCounter, Function.update_self, hr]
      omega
    · simp [TaskList.addCounter, Function.update_of_ne h, hr]

/-- The locks and counters of a list agree with the grips of the threads on it. -/
structure LockOk (l : TaskList ι τ) (u : ι → Grip) : Prop where
  holds : ∀ s i, (u i).holds s = true ↔ l.lock s = some i
  counter : ∀ c i, l.lock c.side = some i → l.counter c = ((u i).raised c).toNat
  zero : ∀ c, l.lock c.side = none → l.counter c = 0

variable {l l' : TaskList ι τ} {u : ι → Grip} {i : ι} {v : Grip}

theorem LockOk.moved [DecidableEq ι] (h : LockOk l u)
    (hu : ∀ c, (u i).raised c = true → (u i).holds c.side = true)
    (hv : ∀ c, v.raised c = true → v.holds c.side = true) (hm : Moved i l l' (u i) v) :
    LockOk l' (Function.update u i v) := by
  have hnot : ∀ {w : Grip} {c : Counter}, (∀ c, w.raised c = true → w.holds c.side = true) →
      w.holds c.side = false → w.raised c = false := by
    intro w c hw hf
    cases hr : w.raised c
    · rfl
    · exact absurd (hw c hr) (by simp [hf])
  -- the four ways a lock can go, and what the counters under it are then
  have hkind : ∀ s, (l.lock s = some i ∧ l'.lock s = some i ∧ v.holds s = true) ∨
      (l.lock s = none ∧ (u i).holds s = false ∧ l'.lock s = some i ∧ v.holds s = true) ∨
      (l.lock s = some i ∧ l'.lock s = none ∧ v.holds s = false) ∨
      ((u i).holds s = false ∧ l'.lock s = l.lock s ∧ l.lock s ≠ some i ∧ v.holds s = false) := by
    intro s
    have hl := hm.lock s
    have hi := h.holds s i
    cases hvs : v.holds s <;> cases hus : (u i).holds s
    · rw [hvs, hus, if_pos rfl] at hl
      refine .inr (.inr (.inr ⟨rfl, hl, fun he => ?_, rfl⟩))
      simp [hi.mpr he] at hus
    · rw [hvs, hus, if_neg (by simp), if_neg (by simp)] at hl
      exact .inr (.inr (.inl ⟨hi.mp hus, hl, rfl⟩))
    · rw [hvs, hus, if_neg (by simp), if_pos rfl] at hl
      rcases hm.fresh s hvs with hh | hn
      · simp [hus] at hh
      · exact .inr (.inl ⟨hn, rfl, hl, rfl⟩)
    · rw [hvs, hus, if_pos rfl, hi.mp hus] at hl
      exact .inl ⟨hi.mp hus, hl, rfl⟩
  refine ⟨fun s j => ?_, fun c j hj => ?_, fun c hn => ?_⟩
  · by_cases hj : j = i
    · subst hj
      rw [Function.update_self]
      rcases hkind s with ⟨-, h₂, h₃⟩ | ⟨-, -, h₂, h₃⟩ | ⟨-, h₂, h₃⟩ | ⟨-, h₂, h₁, h₃⟩ <;>
        simp_all
    · rw [Function.update_of_ne hj, h.holds s j]
      rcases hkind s with ⟨h₁, h₂, -⟩ | ⟨h₁, -, h₂, -⟩ | ⟨h₁, h₂, -⟩ | ⟨-, h₂, -, -⟩
      · rw [h₁, h₂]
      · simp [h₁, h₂, Ne.symm hj]
      · simp [h₁, h₂, Ne.symm hj]
      · rw [h₂]
  · have hcount := hm.counter c
    rcases hkind c.side with ⟨h₁, h₂, -⟩ | ⟨h₁, hf, h₂, -⟩ | ⟨h₁, h₂, -⟩ | ⟨hf, h₂, hne, hf'⟩
    · obtain rfl : i = j := Option.some.inj (h₂.symm.trans hj)
      rw [Function.update_self, hcount, h.counter c i h₁]
      omega
    · obtain rfl : i = j := Option.some.inj (h₂.symm.trans hj)
      rw [Function.update_self, hcount, h.zero c h₁, hnot hu hf]
      simp
    · rw [h₂] at hj
      cases hj
    · rw [h₂] at hj
      have hji : j ≠ i := by
        rintro rfl
        exact hne hj
      rw [Function.update_of_ne hji, hcount, h.counter c j hj, hnot hu hf, hnot hv hf']
      simp
  · have hcount := hm.counter c
    rcases hkind c.side with ⟨-, h₂, -⟩ | ⟨-, -, h₂, -⟩ | ⟨h₁, h₂, hf⟩ | ⟨hf, h₂, -, hf'⟩
    · rw [h₂] at hn
      cases hn
    · rw [h₂] at hn
      cases hn
    · rw [hcount, h.counter c i h₁, hnot hv hf]
      simp
    · rw [hcount, h.zero c (h₂ ▸ hn), hnot hu hf, hnot hv hf']
      simp

/-! ### The lock functions -/

theorem acqStep_moved {s : Side} {a a' : Acq} (ha : a.ok s) (h : acqStep i s l a = some (l', a')) :
    Moved i l l' (a.grip s) (a'.grip s) ∧ a'.ok s := by
  have hother : s.other ≠ s := by cases s <;> decide
  cases a with
  | trylock =>
    simp only [acqStep] at h
    split at h <;> cases h
    · next hn =>
      refine ⟨.take (by simpa using hn) ?_ rfl rfl, trivial⟩
      funext r
      by_cases hr : r = s
      · simp [Acq.grip, hr]
      · simp [Acq.grip, hr, Grip.free]
    · exact ⟨.same rfl rfl, trivial⟩
  | loadCount =>
    simp only [acqStep, Option.some.injEq, Prod.mk.injEq] at h
    obtain ⟨rfl, rfl⟩ := h
    split
    · exact ⟨.same rfl rfl, trivial⟩
    · have hg : (Acq.enter (s.counters 1) 1).grip s = Acq.loadCount.grip s := by
        simp [Acq.grip, Grip.full]
      rw [hg]
      exact ⟨.same rfl rfl, enterOk_counters s 1⟩
  | trylockOther =>
    simp only [acqStep] at h
    split at h <;> cases h
    · next hn =>
      refine ⟨.take (by simpa using hn) ?_ (by simpa [Acq.grip] using hother) ?_,
        enterOk_counters s 2⟩
      · funext r
        by_cases hr : r = s.other
        · simp [Acq.grip, Grip.full, hr]
        · have hrs : r = s := by
            cases r <;> cases s <;> simp_all [Side.other]
          rw [Function.update_of_ne hr]
          simp [Acq.grip, Grip.full, hrs]
      · simp [Acq.grip]
    · exact ⟨.same rfl rfl, trivial⟩
  | unlock =>
    simp only [acqStep, Option.some.injEq, Prod.mk.injEq] at h
    obtain ⟨rfl, rfl⟩ := h
    refine ⟨.drop ?_ (by simp [Acq.grip]) rfl, trivial⟩
    funext r
    by_cases hr : r = s
    · simp [Acq.grip, Grip.free, hr]
    · simp [Acq.grip, Grip.free, hr]
  | enter todo nlocks =>
    cases todo with
    | nil =>
      cases h
      exact ⟨.same rfl rfl, trivial⟩
    | cons c todo =>
      simp only [acqStep] at h
      split at h <;> cases h
      refine ⟨.count (b := true) rfl ?_ (by simp [Acq.grip]), ha.2.2⟩
      funext k
      by_cases hk : k = c
      · simp [Acq.grip, hk, ha.1, ha.2.1]
      · simp [Acq.grip, hk]

theorem acqStep_isSome {s : Side} {a : Acq} (ha : a.ok s) (h : LockOk l u) (hu : u i = a.grip s) :
    (acqStep i s l a).isSome = true := by
  cases a with
  | enter todo nlocks =>
    cases todo with
    | nil => rfl
    | cons c todo =>
      have hlock : l.lock c.side = some i := by
        rw [← h.holds, hu]
        exact side_of_mem_counters ha.2.1
      have hzero : l.counter c = 0 := by
        rw [h.counter c i hlock, hu]
        simp [Acq.grip]
      simp [acqStep, hzero]
  | trylock | trylockOther =>
    simp only [acqStep]
    split <;> rfl
  | _ => rfl

theorem relStep_moved {r : Release} {todo : List Release} (hr : relOk (r :: todo))
    (h : relStep l r = some l') :
    Moved i l l' (.leaving (r :: todo)) (.leaving todo) := by
  cases r with
  | lower c =>
    simp only [relStep] at h
    split at h <;> cases h
    refine .count (b := false) ?_ ?_ (by simp [Grip.leaving])
    · simp [Grip.leaving]
    · funext k
      by_cases hk : k = c
      · simp [Grip.leaving, hk, hr.1]
      · simp [Grip.leaving, hk]
  | unlock s =>
    cases h
    refine .drop ?_ (by simp [Grip.leaving]) ?_
    · funext k
      by_cases hk : k = s
      · simp [Grip.leaving, hk, hr.1]
      · simp [Grip.leaving, hk]
    · simp [Grip.leaving]

theorem relOk_tail {r : Release} {todo : List Release} (hr : relOk (r :: todo)) : relOk todo := by
  cases r with
  | lower c => exact hr.2.2
  | unlock s => exact hr.2.2

theorem relStep_isSome {r : Release} {todo : List Release} (hr : relOk (r :: todo))
    (h : LockOk l u) (hu : u i = .leaving (r :: todo)) : (relStep l r).isSome = true := by
  cases r with
  | lower c =>
    have hlock : l.lock c.side = some i := by
      rw [← h.holds, hu]
      simp [Grip.leaving, hr.2.1]
    have hone : l.counter c = 1 := by
      rw [h.counter c i hlock, hu]
      simp [Grip.leaving]
    simp [relStep, hone]
  | unlock s => rfl

/-! ### One thread at one list -/

theorem acqStep_data {s : Side} {a a' : Acq} (h : acqStep i s l a = some (l', a')) :
    l'.head = l.head ∧ l'.tail = l.tail ∧ l'.count = l.count := by
  cases a with
  | enter todo nlocks =>
    cases todo with
    | nil =>
      cases h
      exact ⟨rfl, rfl, rfl⟩
    | cons c todo =>
      simp only [acqStep] at h
      split at h <;> cases h
      exact ⟨rfl, rfl, rfl⟩
  | loadCount | unlock =>
    cases h
    exact ⟨rfl, rfl, rfl⟩
  | trylock | trylockOther =>
    simp only [acqStep] at h
    split at h <;> cases h <;> exact ⟨rfl, rfl, rfl⟩

theorem relStep_data {r : Release} (h : relStep l r = some l') :
    l'.head = l.head ∧ l'.tail = l.tail ∧ l'.count = l.count := by
  cases r with
  | lower c =>
    simp only [relStep] at h
    split at h <;> cases h
    exact ⟨rfl, rfl, rfl⟩
  | unlock s =>
    cases h
    exact ⟨rfl, rfl, rfl⟩

section

variable [DecidableEq τ] {g g' : PrioTaskArray ι τ} {p : ℕ}

/-- What a step does to the locks: only those of its own list change, with its grip. -/
def Locking (i : ι) (p : ℕ) (g g' : PrioTaskArray ι τ) (u u' : Grip) : Prop :=
  Moved i (g.list p) (g'.list p) u u' ∧ ∀ q, q ≠ p → g'.list q = g.list q

omit [DecidableEq τ] in
theorem Locking.same {u u' : Grip} (hu : u' = u) (hg : g'.list = g.list) : Locking i p g g' u u' := by
  subst hu
  rw [Locking, hg]
  exact ⟨.same rfl rfl, fun _ _ => rfl⟩

omit [DecidableEq τ] in
theorem Locking.setList {u u' : Grip} {l : TaskList ι τ} (h : Moved i (g.list p) l u u') :
    Locking i p g (g.setList p l) u u' := by
  refine ⟨?_, fun q hq => g.setList_of_ne p l hq⟩
  rw [PrioTaskArray.setList_self]
  exact h

omit [DecidableEq τ] in
theorem Locking.setData {u u' : Grip} {l : TaskList ι τ} (hu : u' = u)
    (hl : l.lock = (g.list p).lock) (hc : l.counter = (g.list p).counter) :
    Locking i p g (g.setList p l) u u' := by
  subst hu
  exact .setList (.same hl hc)

omit [DecidableEq τ] in
theorem PrioTaskArray.casByte_list {part part' : BitVec 8} (h : g.casByte p part part' = some g') :
    g'.list = g.list := by
  simp only [PrioTaskArray.casByte] at h
  split at h <;> cases h
  rfl

theorem Ins.step_locking {task : τ} {st st' : Ins τ} (hst : st.ok)
    (h : st.step i task p g = some (g', st')) : Locking i p g g' st.grip st'.grip ∧ st'.ok := by
  have hrel : ∀ n, Grip.leaving (Side.tail.releases n) = .full .tail n := leaving_releases .tail
  cases st with
  | acq a =>
    by_cases ha : ∃ n, a = .enter [] n
    · obtain ⟨n, rfl⟩ := ha
      cases h
      exact ⟨.same (by simp [Ins.grip, Acq.grip, Grip.full]) rfl, trivial⟩
    · rw [Ins.step.eq_2 _ _ _ _ _ (by simpa using ha), Option.map_eq_some_iff] at h
      obtain ⟨⟨l, a'⟩, hs, he⟩ := h
      cases he
      obtain ⟨hm, hok⟩ := acqStep_moved hst hs
      exact ⟨.setList hm, hok⟩
  | testHead n =>
    simp only [Ins.step, Option.some.injEq, Prod.mk.injEq] at h
    obtain ⟨rfl, rfl⟩ := h
    split <;> exact ⟨.same rfl rfl, trivial⟩
  | setHead n | setTail n =>
    cases h
    exact ⟨.setData rfl rfl rfl, trivial⟩
  | loadTail n =>
    simp only [Ins.step, Option.map_eq_some_iff, Prod.mk.injEq] at h
    obtain ⟨last, -, rfl, rfl⟩ := h
    exact ⟨.same rfl rfl, trivial⟩
  | link last n | loadByte n =>
    cases h
    exact ⟨.same rfl rfl, trivial⟩
  | add n =>
    simp only [Ins.step, Option.some.injEq, Prod.mk.injEq] at h
    obtain ⟨rfl, rfl⟩ := h
    split
    · exact ⟨.setData rfl rfl rfl, trivial⟩
    · exact ⟨.setData (hrel n) rfl rfl, relOk_releases _ _⟩
  | cas part n =>
    simp only [Ins.step] at h
    split at h <;> cases h
    · next hg => exact ⟨.same (hrel n) (PrioTaskArray.casByte_list hg), relOk_releases _ _⟩
    · exact ⟨.same rfl rfl, trivial⟩
  | rel todo =>
    cases todo with
    | nil =>
      cases h
      exact ⟨.same rfl rfl, trivial⟩
    | cons r todo =>
      simp only [Ins.step, Option.map_eq_some_iff, Prod.mk.injEq] at h
      obtain ⟨l, hs, rfl, rfl⟩ := h
      exact ⟨.setList (relStep_moved hst hs), relOk_tail hst⟩

theorem Rem.step_locking {st st' : Rem τ} (hst : st.ok) (h : st.step i p g = some (g', st')) :
    Locking i p g g' st.grip st'.grip ∧ st'.ok := by
  have hrel : ∀ n, Grip.leaving (Side.head.releases n) = .full .head n := leaving_releases .head
  cases st with
  | acq a =>
    by_cases ha : ∃ n, a = .enter [] n
    · obtain ⟨n, rfl⟩ := ha
      cases h
      exact ⟨.same (by simp [Rem.grip, Acq.grip, Grip.full]) rfl, trivial⟩
    · rw [Rem.step.eq_2 _ _ _ _ (by simpa using ha), Option.map_eq_some_iff] at h
      obtain ⟨⟨l, a'⟩, hs, he⟩ := h
      cases he
      obtain ⟨hm, hok⟩ := acqStep_moved hst hs
      exact ⟨.setList hm, hok⟩
  | testHead n =>
    simp only [Rem.step, Option.some.injEq, Prod.mk.injEq] at h
    obtain ⟨rfl, rfl⟩ := h
    split
    · exact ⟨.same (hrel n) rfl, relOk_releases _ _⟩
    · exact ⟨.same rfl rfl, trivial⟩
  | loadHead n =>
    simp only [Rem.step, Option.map_eq_some_iff, Prod.mk.injEq] at h
    obtain ⟨task, -, rfl, rfl⟩ := h
    exact ⟨.same rfl rfl, trivial⟩
  | setHead task next n =>
    simp only [Rem.step, Option.some.injEq, Prod.mk.injEq] at h
    obtain ⟨rfl, rfl⟩ := h
    split <;> exact ⟨.setData rfl rfl rfl, trivial⟩
  | setTail task n =>
    cases h
    exact ⟨.setData rfl rfl rfl, trivial⟩
  | loadNext task n | clearNext task n | loadByte task n =>
    cases h
    exact ⟨.same rfl rfl, trivial⟩
  | sub task n =>
    simp only [Rem.step, Option.some.injEq, Prod.mk.injEq] at h
    obtain ⟨rfl, rfl⟩ := h
    split
    · exact ⟨.setData rfl rfl rfl, trivial⟩
    · exact ⟨.setData (hrel n) rfl rfl, relOk_releases _ _⟩
  | cas task part n =>
    simp only [Rem.step] at h
    split at h <;> cases h
    · next hg => exact ⟨.same (hrel n) (PrioTaskArray.casByte_list hg), relOk_releases _ _⟩
    · exact ⟨.same rfl rfl, trivial⟩
  | rel task todo =>
    cases todo with
    | nil =>
      cases h
      exact ⟨.same rfl rfl, trivial⟩
    | cons r todo =>
      simp only [Rem.step, Option.map_eq_some_iff, Prod.mk.injEq] at h
      obtain ⟨l, hs, rfl, rfl⟩ := h
      exact ⟨.setList (relStep_moved hst hs), relOk_tail hst⟩

end

end TinyStm.Spin
