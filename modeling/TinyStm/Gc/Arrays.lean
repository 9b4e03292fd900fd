import TinyStm.Gc.Effects
import TinyStm.Gc.WriteSets

/-!
# The invariant of the write sets

A lock word points into the array of its owner, never into a retired one, so no
attempt comes to hold a pointer into an array after it was retired. The attempts that
hold one have published their start, and are guards of the block as long as they last.
-/

namespace TinyStm.WriteSets

open Interleave Function Gc

variable {ι : Type*} {g g' : Shared ι} {loc : ι → Thread} {i j : ι} {x x' : Thread}
  {freq : Option ℕ}

/-! ## The collector underneath -/

/-- The collector is in a good state, and nobody is in `gc_cleanup_all`. -/
structure GcOk [Fintype ι] (g : Threads ι) (ys : ι → Gc.Local) : Prop where
  shared : SharedOk True g
  loc : ∀ j, LocalOk True j g (ys j)
  sweeping : ∀ j, (ys j).pc.sweeping = false

theorem collector_inv [DecidableEq ι] {a : Gc.Act} (h : collector freq i a g x = some (g', x')) :
    ∃ g₁ y, (gcSystem ι freq).step i a g.gc x.gc = some (g₁, y) ∧ g' = { g with gc := g₁ } ∧
      x' = { x with gc := y } := by
  obtain ⟨⟨g₁, y⟩, hs, he⟩ := Option.map_eq_some_iff.mp h
  cases he
  exact ⟨g₁, y, hs, rfl, rfl⟩

theorem GcOk.step [Fintype ι] [DecidableEq ι] {g g' : Threads ι} {ys : ι → Gc.Local} {y : Gc.Local}
    (h : GcOk g ys) {a : Gc.Act} (hexit : a ≠ .gcExit)
    (hs : (gcSystem ι freq).step i a g (ys i) = some (g', y)) (hy : y.pc.sweeping = false) :
    GcOk g' (update ys i y) ∧ ∀ j, j ≠ i → g'.gen j = g.gen j ∧ g'.pub j = g.pub j := by
  have hok : StepOk True ys i g g' y := by
    refine step_ok (c := ⟨g, ys⟩) h.shared h.loc ?_ (fun _ => ?_) hs
    · cases a with
      | gcExit => exact absurd rfl hexit
      | _ => trivial
    · cases a with
      | setEpoch epoch =>
        rintro ⟨j, hj⟩
        rw [h.sweeping j] at hj
        cases hj
      | _ => trivial
  refine ⟨⟨hok.shared, ?_, ?_⟩, fun j hj => ?_⟩
  · refine (forall_update_iff ys fun j y => LocalOk True j g' y).mpr ⟨hok.loc, fun j hj => ?_⟩
    exact (h.loc j).stable (hok.rely j hj) h.shared
  · exact (forall_update_iff ys fun _ y => y.pc.sweeping = false).mpr ⟨hy, fun j _ => h.sweeping j⟩
  · exact ⟨(hok.rely j hj).mine, (hok.rely j hj).pub j (hok.rely j hj).mine⟩

/-! ## Arrays and lock words -/

/-- The locks that may still point into the array of the thread. -/
def Thread.pending (x : Thread) : List ℕ :=
  match x.phase with
  | .run _ => x.locks
  | .grow _ _ todo | .drop _ todo | .release _ todo => todo
  | .out | .begin _ | .leave _ _ => []

/-- Lock `l` may point into array `a` of the thread. -/
def Thread.Points (x : Thread) (l a : ℕ) : Prop :=
  (∃ d, x.desc = some d ∧ d.wSet = a ∧ l ∈ x.pending) ∨
    ∃ s todo, x.phase = .grow s a todo ∧ l ∈ x.locks

/-- The arrays that the thread writes into lock words. -/
def Thread.Uses (x : Thread) (a : ℕ) : Prop :=
  (∃ d, x.desc = some d ∧ d.wSet = a ∧ ∀ e todo, x.phase ≠ .leave e todo) ∨
    ∃ s todo, x.phase = .grow s a todo

structure Arrays (g : Shared ι) (loc : ι → Thread) : Prop where
  lock : ∀ l a, g.lock l = some a → ∃ j, (loc j).Points l a
  uses : ∀ j a, (loc j).Uses a → g.tx a = some j ∧ a < g.next ∧ a ∉ g.retired
  grow : ∀ j s new todo, (loc j).phase = .grow s new todo →
    (∀ l ∈ todo, l ∈ (loc j).locks) ∧ ∀ d, (loc j).desc = some d → d.wSet ≠ new
  desc : ∀ j d, (loc j).desc = some d →
    g.tx d.rSet = none ∧ g.tx d.self = none ∧ d.rSet < g.next ∧ d.self < g.next
  retired : ∀ a ∈ g.retired, a < g.next
  fresh : ∀ a, g.next ≤ a → g.tx a = none

theorem Thread.Points.uses {l a : ℕ} (h : x.Points l a) : x.Uses a := by
  rcases h with ⟨d, hd, ha, hl⟩ | ⟨s, todo, hp, -⟩
  · refine .inl ⟨d, hd, ha, fun e todo he => ?_⟩
    rw [Thread.pending, he] at hl
    cases hl
  · exact .inr ⟨s, todo, hp⟩

/-- No lock word points into a retired array. -/
theorem Arrays.not_retired (h : Arrays g loc) {l a : ℕ} (hl : g.lock l = some a) :
    a ∉ g.retired := by
  obtain ⟨j, hj⟩ := h.lock l a hl
  exact (h.uses j a hj.uses).2.2

/-- A step of thread `i`: what the lock words point into is as before or accounted for
by the thread, and it retires none but its own arrays. -/
theorem Arrays.update [DecidableEq ι] (h : Arrays g loc)
    (hlock : ∀ l a, g'.lock l = some a →
      g.lock l = some a ∧ ((loc i).Points l a → x'.Points l a) ∨ x'.Points l a)
    (huses : ∀ a, x'.Uses a → g'.tx a = some i ∧ a < g'.next ∧ a ∉ g'.retired)
    (hgrow : ∀ s new todo, x'.phase = .grow s new todo →
      (∀ l ∈ todo, l ∈ x'.locks) ∧ ∀ d, x'.desc = some d → d.wSet ≠ new)
    (hdesc : ∀ d, x'.desc = some d →
      g'.tx d.rSet = none ∧ g'.tx d.self = none ∧ d.rSet < g'.next ∧ d.self < g'.next)
    (hnext : g.next ≤ g'.next) (htx : ∀ a, a < g.next → g'.tx a = g.tx a)
    (hfresh : ∀ a, g'.next ≤ a → g'.tx a = none)
    (hret : ∀ a ∈ g'.retired, a ∈ g.retired ∨ a < g.next ∧ ∀ j, j ≠ i → g.tx a ≠ some j) :
    Arrays g' (update loc i x') where
  lock l a hl := by
    rcases hlock l a hl with ⟨hl, hp⟩ | hp
    · obtain ⟨j, hj⟩ := h.lock l a hl
      by_cases hji : j = i
      · subst hji
        exact ⟨j, by rw [update_self]; exact hp hj⟩
      · exact ⟨j, by rw [update_of_ne hji]; exact hj⟩
    · exact ⟨i, by rw [update_self]; exact hp⟩
  uses := by
    refine (forall_update_iff loc fun j x => ∀ a, x.Uses a →
      g'.tx a = some j ∧ a < g'.next ∧ a ∉ g'.retired).mpr ⟨huses, fun j hj a ha => ?_⟩
    obtain ⟨ht, hlt, hr⟩ := h.uses j a ha
    refine ⟨(htx a hlt).trans ht, hlt.trans_le hnext, fun hr' => ?_⟩
    rcases hret a hr' with hr' | ⟨-, hne⟩
    · exact hr hr'
    · exact hne j hj ht
  grow := (forall_update_iff loc fun _ x => ∀ s new todo, x.phase = .grow s new todo →
    (∀ l ∈ todo, l ∈ x.locks) ∧ ∀ d, x.desc = some d → d.wSet ≠ new).mpr
    ⟨hgrow, fun j _ => h.grow j⟩
  desc := by
    refine (forall_update_iff loc fun _ x => ∀ d, x.desc = some d →
      g'.tx d.rSet = none ∧ g'.tx d.self = none ∧ d.rSet < g'.next ∧ d.self < g'.next).mpr
      ⟨hdesc, fun j _ d hd => ?_⟩
    obtain ⟨h₁, h₂, h₃, h₄⟩ := h.desc j d hd
    exact ⟨(htx _ h₃).trans h₁, (htx _ h₄).trans h₂, h₃.trans_le hnext, h₄.trans_le hnext⟩
  retired a ha := by
    rcases hret a ha with ha | ⟨hlt, -⟩
    · exact (h.retired a ha).trans_le hnext
    · exact hlt.trans_le hnext
  fresh := hfresh

theorem Arrays.gc (h : Arrays g loc) {t : Threads ι} : Arrays { g with gc := t } loc :=
  ⟨h.lock, h.uses, h.grow, h.desc, h.retired, h.fresh⟩

/-- A step that does not change what is recorded of the arrays. -/
theorem Arrays.same [DecidableEq ι] (h : Arrays g loc)
    (hg : g'.next = g.next ∧ g'.tx = g.tx ∧ g'.retired = g.retired)
    (hlock : ∀ l a, g'.lock l = some a → g.lock l = some a ∧ ((loc i).Points l a → x'.Points l a))
    (hd : x'.desc = (loc i).desc) (huses : ∀ a, x'.Uses a → (loc i).Uses a)
    (hgrow : ∀ s new todo, x'.phase = .grow s new todo → ∃ todo', (loc i).phase = .grow s new todo' ∧
      (∀ l ∈ todo, l ∈ todo') ∧ x'.locks = (loc i).locks) :
    Arrays g' (Function.update loc i x') := by
  obtain ⟨hn, ht, hr⟩ := hg
  refine h.update (fun l a hl => .inl (hlock l a hl)) (fun a ha => ?_) (fun s new todo hp => ?_)
    (fun d hd' => ?_) hn.ge (fun a _ => by rw [ht]) (fun a ha => ?_) (fun a ha => .inl (hr ▸ ha))
  · rw [hn, ht, hr]
    exact h.uses i a (huses a ha)
  · obtain ⟨todo', hp', hsub, hl⟩ := hgrow s new todo hp
    obtain ⟨h₁, h₂⟩ := h.grow i s new todo' hp'
    rw [hl, hd]
    exact ⟨fun l hl => h₁ l (hsub l hl), h₂⟩
  · rw [hn, ht]
    exact h.desc i d (hd ▸ hd')
  · rw [ht]
    exact h.fresh a (hn ▸ ha)

/-! ## Guards -/

/-- `gc_free(a, e)` is called, and the epoch covers the attempts with a pointer into
the array. -/
def Covered (g : Shared ι) (loc : ι → Thread) (a e : ℕ) : Prop :=
  a ∈ g.retired ∧ ∀ j s, (loc j).phase.start = some s → a ∈ (loc j).held → s ≤ e

structure Guarded (g : Shared ι) (loc : ι → Thread) : Prop where
  started : ∀ j s, (loc j).phase.start = some s → g.gc.pub j = some s ∧ s ≤ g.gc.clock
  begun : ∀ j s, (loc j).phase = .begin s → s ≤ g.gc.clock
  blocks : ∀ b, g.gc.Has b → b.addr ∈ g.retired ∧ ∀ j s, (loc j).phase.start = some s →
    b.addr ∈ (loc j).held → b.guards j = some (g.gc.gen j)
  calls : ∀ j a e, (loc j).gc.pc = .free a e → Covered g loc a e
  leaving : ∀ j e todo, (loc j).phase = .leave e todo → ∀ a ∈ todo, Covered g loc a e

/-- The attempt of the thread holds no pointer into a retired array that it did not
hold before. -/
def Keeps (g g' : Shared ι) (i : ι) (x x' : Thread) : Prop :=
  ∀ a ∈ g.retired, ∀ s, x'.phase.start = some s → a ∈ x'.held →
    x.phase.start = some s ∧ a ∈ x.held ∧ g'.gc.gen i = g.gc.gen i

section

variable [DecidableEq ι]

theorem Keeps.holds (hk : Keeps g g' i (loc i) x')
    (hgen : ∀ j, j ≠ i → g'.gc.gen j = g.gc.gen j) {a : ℕ} (ha : a ∈ g.retired) {s : ℕ}
    (hs : (update loc i x' j).phase.start = some s) (hj : a ∈ (update loc i x' j).held) :
    (loc j).phase.start = some s ∧ a ∈ (loc j).held ∧ g'.gc.gen j = g.gc.gen j := by
  by_cases hji : j = i
  · subst hji
    rw [update_self] at hs hj
    exact hk a ha s hs hj
  · rw [update_of_ne hji] at hs hj
    exact ⟨hs, hj, hgen j hji⟩

theorem Covered.step {a e : ℕ} (h : Covered g loc a e) (hk : Keeps g g' i (loc i) x')
    (hgen : ∀ j, j ≠ i → g'.gc.gen j = g.gc.gen j) (hret : ∀ a ∈ g.retired, a ∈ g'.retired) :
    Covered g' (update loc i x') a e := by
  refine ⟨hret a h.1, fun j s hs hj => ?_⟩
  obtain ⟨hs, hj, -⟩ := hk.holds hgen h.1 hs hj
  exact h.2 j s hs hj

theorem Guarded.update (h : Guarded g loc) (hk : Keeps g g' i (loc i) x')
    (hothers : ∀ j, j ≠ i → g'.gc.gen j = g.gc.gen j ∧ g'.gc.pub j = g.gc.pub j)
    (hclock : g.gc.clock ≤ g'.gc.clock) (hret : ∀ a ∈ g.retired, a ∈ g'.retired)
    (hstart : ∀ s, x'.phase.start = some s → g'.gc.pub i = some s ∧ s ≤ g'.gc.clock)
    (hbegin : ∀ s, x'.phase = .begin s → s ≤ g'.gc.clock)
    (hblocks : ∀ b, g'.gc.Has b → g.gc.Has b ∨
      ∃ a e, (loc i).gc.pc = .free a e ∧ b.addr = a ∧ b.guards = guardsFor g.gc e)
    (hcalls : ∀ a e, x'.gc.pc = .free a e →
      (loc i).gc.pc = .free a e ∨ Covered g' (update loc i x') a e)
    (hleave : ∀ e todo, x'.phase = .leave e todo → ∀ a ∈ todo,
      (∃ todo', (loc i).phase = .leave e todo' ∧ a ∈ todo') ∨ Covered g' (update loc i x') a e) :
    Guarded g' (Function.update loc i x') := by
  have hgen := fun j hj => (hothers j hj).1
  refine ⟨?_, ?_, fun b hb => ?_, ?_, ?_⟩
  · refine (forall_update_iff loc fun j x => ∀ s, x.phase.start = some s →
      g'.gc.pub j = some s ∧ s ≤ g'.gc.clock).mpr ⟨hstart, fun j hj s hs => ?_⟩
    obtain ⟨h₁, h₂⟩ := h.started j s hs
    exact ⟨(hothers j hj).2.trans h₁, h₂.trans hclock⟩
  · exact (forall_update_iff loc fun j x => ∀ s, x.phase = .begin s → s ≤ g'.gc.clock).mpr
      ⟨hbegin, fun j _ s hs => (h.begun j s hs).trans hclock⟩
  · rcases hblocks b hb with hb | ⟨a, e, hpc, rfl, hg⟩
    · obtain ⟨h₁, h₂⟩ := h.blocks b hb
      refine ⟨hret _ h₁, fun j s hs hj => ?_⟩
      obtain ⟨hs, hj, heq⟩ := hk.holds hgen h₁ hs hj
      rw [heq]
      exact h₂ j s hs hj
    · -- the block comes in: the attempts that hold a pointer into it are its guards
      obtain ⟨h₁, h₂⟩ := h.calls i _ e hpc
      refine ⟨hret _ h₁, fun j s hs hj => ?_⟩
      obtain ⟨hs, hj, heq⟩ := hk.holds hgen h₁ hs hj
      rw [heq, hg, guardsFor, (h.started j s hs).1]
      exact if_pos (h₂ j s hs hj)
  · refine (forall_update_iff loc fun j x => ∀ a e, x.gc.pc = .free a e →
      Covered g' (Function.update loc i x') a e).mpr ⟨fun a e hpc => ?_, fun j _ a e hpc => ?_⟩
    · rcases hcalls a e hpc with hpc | hc
      · exact (h.calls i a e hpc).step hk hgen hret
      · exact hc
    · exact (h.calls j a e hpc).step hk hgen hret
  · refine (forall_update_iff loc fun j x => ∀ e todo, x.phase = .leave e todo → ∀ a ∈ todo,
      Covered g' (Function.update loc i x') a e).mpr
      ⟨fun e todo hp a ha => ?_, fun j _ e todo hp a ha => ?_⟩
    · rcases hleave e todo hp a ha with ⟨todo', hp, ha⟩ | hc
      · exact (h.leaving i e todo' hp a ha).step hk hgen hret
      · exact hc
    · exact (h.leaving j e todo hp a ha).step hk hgen hret

/-! ## The steps -/

structure Inv [Fintype ι] (g : Shared ι) (loc : ι → Thread) : Prop where
  gc : GcOk g.gc fun j => (loc j).gc
  arrays : Arrays g loc
  guarded : Guarded g loc

theorem gc_update (loc : ι → Thread) (i : ι) (x : Thread) :
    (fun j => (update loc i x j).gc) = update (fun j => (loc j).gc) i x.gc := by
  funext j
  by_cases hj : j = i
  · subst hj
    simp
  · simp [hj]

omit [DecidableEq ι] in
theorem lock_setLock {l l' : ℕ} {p : Option ℕ} :
    (setLock g l p).lock l' = if l' = l then p else g.lock l' := by
  by_cases h : l' = l
  · subst h
    simp [setLock]
  · simp [setLock, h]

variable [Fintype ι]

/-- A step that is none of the collector's. -/
theorem Inv.quiet (h : Inv g loc) (hgc : g'.gc = g.gc) (hx : x'.gc = (loc i).gc)
    (hA : Arrays g' (update loc i x')) (hret : ∀ a ∈ g.retired, a ∈ g'.retired)
    (hheld : ∀ a ∈ g.retired, a ∈ x'.held → a ∈ (loc i).held)
    (hstart : ∀ s, x'.phase.start = some s → (loc i).phase.start = some s)
    (hbegin : ∀ s, x'.phase = .begin s → s ≤ g.gc.clock)
    (hleave : ∀ e todo, x'.phase = .leave e todo → ∀ a ∈ todo,
      Covered g' (update loc i x') a e) :
    Inv g' (Function.update loc i x') := by
  refine ⟨?_, hA, h.guarded.update ?_ (fun j _ => by rw [hgc]; exact ⟨rfl, rfl⟩) (by rw [hgc]) hret
    (fun s hs => ?_) (fun s hs => ?_) (fun b hb => ?_) (fun a e hpc => .inl (hx ▸ hpc))
    (fun e todo hp a ha => .inr (hleave e todo hp a ha))⟩
  · rw [gc_update, hgc, hx, update_eq_self_iff.mpr rfl]
    exact h.gc
  · exact fun a ha s hs hj => ⟨hstart s hs, hheld a ha hj, by rw [hgc]⟩
  · rw [hgc]
    exact h.guarded.started i s (hstart s hs)
  · rw [hgc]
    exact hbegin s hs
  · rw [hgc] at hb
    exact .inl hb

/-- A step of the collector that publishes nothing. -/
theorem Inv.gcStep (h : Inv g loc) {a : Gc.Act} (hexit : a ≠ .gcExit) {g₁ : Threads ι}
    {y : Gc.Local} (hs : (gcSystem ι freq).step i a g.gc (loc i).gc = some (g₁, y))
    (hsw : y.pc.sweeping = false) (hclock : g.gc.clock ≤ g₁.clock) (hgen : g₁.gen = g.gc.gen)
    (hpub : g₁.pub = g.gc.pub)
    (hblocks : ∀ b, g₁.Has b → g.gc.Has b ∨
      ∃ a e, (loc i).gc.pc = .free a e ∧ b.addr = a ∧ b.guards = guardsFor g.gc e)
    (hcalls : ∀ a e, y.pc = .free a e → (loc i).gc.pc = .free a e) :
    Inv { g with gc := g₁ } (update loc i { loc i with gc := y }) := by
  obtain ⟨hgc, hothers⟩ := h.gc.step hexit hs hsw
  refine ⟨?_, ?_, h.guarded.update ?_ hothers hclock (fun _ => id) (fun s hs => ?_)
    (fun s hs => ?_) hblocks (fun a e hpc => .inl (hcalls a e hpc))
    (fun e todo hp a ha => .inl ⟨todo, hp, ha⟩)⟩
  · rw [gc_update]
    exact hgc
  · exact h.arrays.same ⟨rfl, rfl, rfl⟩ (fun l a hl => ⟨hl, id⟩) rfl (fun a => id)
      fun s new todo hp => ⟨todo, hp, fun l hl => hl, rfl⟩
  · exact fun a ha s hs hj => ⟨hs, hj, congrFun hgen i⟩
  · obtain ⟨h₁, h₂⟩ := h.guarded.started i s hs
    exact ⟨(congrFun hpub i).trans h₁, h₂.trans hclock⟩
  · exact (h.guarded.begun i s hs).trans hclock

theorem Inv.tick (h : Inv g loc) (hc : collector freq i .tick g (loc i) = some (g', x')) :
    Inv g' (update loc i x') := by
  obtain ⟨g₁, y, hs, rfl, rfl⟩ := collector_inv hc
  obtain ⟨rfl, rfl⟩ := step_tick hs
  exact h.gcStep (by simp) hs (h.gc.sweeping i) (Nat.le_succ _) rfl rfl
    (fun b hb => .inl hb) (fun _ _ => id)

theorem Inv.go (h : Inv g loc) (hc : collector freq i .go g (loc i) = some (g', x')) :
    Inv g' (update loc i x') := by
  obtain ⟨g₁, y, hs, rfl, rfl⟩ := collector_inv hc
  have he := step_go hs
  exact h.gcStep (by simp) hs (he.sweeping (h.gc.sweeping i)) he.clock.ge he.gen he.pub he.has
    (fun a e hpc => absurd hpc (he.free a e))

theorem Inv.initThread (h : Inv g loc) (hc : collector freq i .init g (loc i) = some (g', x')) :
    Inv g' (update loc i x') := by
  obtain ⟨g₁, y, hs, rfl, rfl⟩ := collector_inv hc
  obtain ⟨rfl, rfl⟩ := step_init hs
  exact h.gcStep (by simp) hs rfl le_rfl rfl rfl (fun b hb => .inl hb) (by simp)

/-- `gc_free` is called for an array, with an epoch that covers it. -/
theorem Inv.free (h : Inv g loc) {t : Shared ι} {x₀ : Thread} {a e : ℕ} (hgc : t.gc = g.gc)
    (hx : x₀.gc = (loc i).gc) (hc : collector freq i (.free a e) t x₀ = some (g', x'))
    (hA : ∀ y, Arrays t (update loc i { x₀ with gc := y }))
    (hret : ∀ a ∈ g.retired, a ∈ t.retired)
    (hheld : ∀ a ∈ g.retired, a ∈ x₀.held → a ∈ (loc i).held)
    (hstart : ∀ s, x₀.phase.start = some s → (loc i).phase.start = some s)
    (hbegin : ∀ s, x₀.phase ≠ .begin s)
    (hleave : ∀ e todo, x₀.phase = .leave e todo → ∀ a ∈ todo,
      ∃ todo', (loc i).phase = .leave e todo' ∧ a ∈ todo')
    (hcov : ∀ y, Covered t (update loc i { x₀ with gc := y }) a e) : Inv g' (Function.update loc i x') := by
  obtain ⟨g₁, y, hs, rfl, rfl⟩ := collector_inv hc
  rw [hgc, hx] at hs
  obtain ⟨hgc', hothers⟩ := h.gc.step (by simp) hs (by rw [(step_free hs).2]; rfl)
  obtain ⟨rfl, rfl⟩ := step_free hs
  refine ⟨?_, ?_, h.guarded.update ?_ (fun _ _ => ⟨rfl, rfl⟩) le_rfl hret (fun s hs => ?_)
    (fun s hs => absurd hs (hbegin s)) (fun b hb => .inl hb) (fun a' e' hpc => ?_)
    (fun e todo hp a ha => .inl (hleave e todo hp a ha))⟩
  · rw [gc_update]
    exact hgc'
  · exact (hA _).gc
  · exact fun a ha s hs hj => ⟨hstart s hs, hheld a ha hj, rfl⟩
  · exact h.guarded.started i s (hstart s hs)
  · cases hpc
    exact .inr (hcov _)

end

end TinyStm.WriteSets
