import TinyStm.Gc.Arrays

/-!
# Retired write sets outlive their observers

No attempt that holds a pointer into a write set has it freed under its feet, as long
as a write set is retired with a start timestamp that is not before that of such an
attempt. `tx->start` need not be: the attempt may be younger than the owner.
-/

namespace TinyStm.WriteSets

open Interleave Function Gc

variable {ι : Type*} [DecidableEq ι] [Fintype ι] {g g' : Shared ι} {loc : ι → Thread} {i j : ι}
  {x x' : Thread} {freq : Option ℕ}

/-! ## The steps of a transaction -/

variable {y : Gc.Local} {d : Desc} {s : ℕ} {ph : Phase} {locks held : List ℕ}

omit [DecidableEq ι] [Fintype ι] in
theorem Arrays.own (h : Arrays g loc) (hi : loc i = ⟨y, some d, ph, locks, held⟩)
    (hp : ∀ e todo, ph ≠ .leave e todo) :
    g.tx d.wSet = some i ∧ d.wSet < g.next ∧ d.wSet ∉ g.retired := by
  refine h.uses i d.wSet (.inl ⟨d, by rw [hi], rfl, ?_⟩)
  rw [hi]
  exact hp

theorem Thread.points_iff {l a : ℕ} (hg : ∀ s new todo, ph ≠ .grow s new todo) :
    Thread.Points ⟨y, some d, ph, locks, held⟩ l a ↔
      d.wSet = a ∧ l ∈ Thread.pending ⟨y, some d, ph, locks, held⟩ := by
  constructor
  · rintro (⟨_, ⟨⟩, h⟩ | ⟨s, todo, hp, -⟩)
    · exact h
    · exact absurd hp (hg s a todo)
  · exact fun h => .inl ⟨d, rfl, h⟩

theorem Thread.uses_iff {a : ℕ} (hg : ∀ s new todo, ph ≠ .grow s new todo)
    (hl : ∀ e todo, ph ≠ .leave e todo) :
    Thread.Uses ⟨y, some d, ph, locks, held⟩ a ↔ d.wSet = a := by
  constructor
  · rintro (⟨_, ⟨⟩, h, -⟩ | ⟨s, todo, hp⟩)
    · exact h
    · exact absurd hp (hg s a todo)
  · exact fun h => .inl ⟨d, rfl, h, hl⟩

omit [Fintype ι] in
/-- The thread goes on to a phase in which it neither grows its write set nor leaves. -/
theorem Arrays.phase {t : Shared ι} {p : Phase} (h : Arrays g loc) (hi : loc i = ⟨y, some d, ph, locks, held⟩)
    (hgc : ∀ s new todo, p ≠ .grow s new todo) (hl : ∀ e todo, ph ≠ .leave e todo)
    (hl' : ∀ e todo, p ≠ .leave e todo)
    (hg : t.next = g.next ∧ t.tx = g.tx ∧ t.retired = g.retired) {y' : Gc.Local}
    {locks' held' : List ℕ}
    (hlock : ∀ l a, t.lock l = some a → g.lock l = some a ∧ ((loc i).Points l a →
      d.wSet = a ∧ l ∈ Thread.pending ⟨y', some d, p, locks', held'⟩)) :
    Arrays t (Function.update loc i ⟨y', some d, p, locks', held'⟩) := by
  refine h.same hg (fun l a hla => ⟨(hlock l a hla).1, fun hp => ?_⟩) (by rw [hi]) (fun a ha => ?_)
    (fun s new todo hp => absurd hp (hgc s new todo))
  · exact (Thread.points_iff hgc).mpr ((hlock l a hla).2 hp)
  · rw [hi]
    exact .inl ⟨d, rfl, (Thread.uses_iff hgc hl').mp ha, hl⟩

theorem Inv.acquire (h : Inv g loc) (hi : loc i = ⟨y, some d, .run s, locks, held⟩) (l : ℕ) :
    Inv (setLock g l (some d.wSet)) (update loc i ⟨y, some d, .run s, locks ++ [l], held⟩) := by
  have hown := h.arrays.own hi (by simp)
  refine h.quiet rfl (by rw [hi]) ?_ (fun _ => id) (fun a _ => by rw [hi]; exact id)
    (by simp [hi]) (by simp) (by simp)
  refine h.arrays.update (fun l' a hl => ?_) (fun a ha => ?_) (by simp) (fun d' hd => ?_) le_rfl
    (fun _ _ => rfl) h.arrays.fresh (fun a ha => .inl ha)
  · rw [hi, Thread.points_iff (by simp), Thread.points_iff (by simp)]
    rw [lock_setLock] at hl
    split at hl
    · next he =>
      cases hl
      exact .inr ⟨rfl, by simp [Thread.pending, he]⟩
    · refine .inl ⟨hl, fun hp => ⟨hp.1, ?_⟩⟩
      exact List.mem_append_left _ hp.2
  · obtain rfl := (Thread.uses_iff (by simp) (by simp)).mp ha
    exact hown
  · cases hd
    exact h.arrays.desc i d (by rw [hi])

theorem Inv.load (h : Inv g loc) (hi : loc i = ⟨y, some d, .run s, locks, held⟩) {l a : ℕ}
    (hl : g.lock l = some a) : Inv g (update loc i ⟨y, some d, .run s, locks, a :: held⟩) := by
  refine h.quiet rfl (by rw [hi]) ?_ (fun _ => id) (fun a' ha' hm => ?_) (by simp [hi]) (by simp)
    (by simp)
  · exact h.arrays.phase hi (by simp) (by simp) (by simp) ⟨rfl, rfl, rfl⟩ fun l' a' hla =>
      ⟨hla, by rw [hi]; exact (Thread.points_iff (by simp)).mp⟩
  · -- what a lock word points into is not retired
    rw [hi]
    rcases List.mem_cons.mp hm with rfl | hm
    · exact absurd ha' (h.arrays.not_retired hl)
    · exact hm

/-- A running attempt takes a lock word away, or changes the status of another. -/
theorem Inv.shared (h : Inv g loc) (hgc : g'.gc = g.gc)
    (hg : g'.next = g.next ∧ g'.tx = g.tx ∧ g'.retired = g.retired)
    (hlock : ∀ l a, g'.lock l = some a → g.lock l = some a) (hl : ∀ e todo, (loc i).phase ≠ .leave e todo)
    (hb : ∀ s, (loc i).phase ≠ .begin s) : Inv g' (update loc i (loc i)) := by
  refine h.quiet hgc rfl ?_ (fun a ha => hg.2.2 ▸ ha) (fun _ _ => id) (fun _ => id)
    (fun s hs => absurd hs (hb s)) (fun e todo hp => absurd hp (hl e todo))
  exact h.arrays.same hg (fun l a hla => ⟨hlock l a hla, id⟩) rfl (fun _ => id)
    fun s new todo hp => ⟨todo, hp, fun _ => id, rfl⟩

omit [DecidableEq ι] [Fintype ι] in
theorem lock_setLock_none {l l' a : ℕ} (h : (setLock g l none).lock l' = some a) :
    g.lock l' = some a ∧ l' ≠ l := by
  rw [lock_setLock] at h
  split at h
  · cases h
  · next hne => exact ⟨h, hne⟩

omit [DecidableEq ι] [Fintype ι] in
theorem tx_alloc {a : ℕ} (h : a < g.next) : (alloc g i).tx a = g.tx a := by
  simp [alloc, h.ne]

omit [DecidableEq ι] [Fintype ι] in
theorem Arrays.fresh_alloc (h : Arrays g loc) {a : ℕ} (ha : g.next + 1 ≤ a) :
    (alloc g i).tx a = none := by
  have hne : a ≠ g.next := by omega
  simp [alloc, hne, h.fresh a (by omega)]

theorem Inv.grow (h : Inv g loc) (hi : loc i = ⟨y, some d, .run s, locks, held⟩) :
    Inv (alloc g i) (update loc i ⟨y, some d, .grow s g.next locks, locks, held⟩) := by
  obtain ⟨ht, hlt, hr⟩ := h.arrays.own hi (by simp)
  obtain ⟨h₁, h₂, h₃, h₄⟩ := h.arrays.desc i d (by rw [hi])
  refine h.quiet rfl (by rw [hi]) ?_ (fun _ => id) (fun a _ => by rw [hi]; exact id)
    (by simp [hi, Phase.start]) (by simp) (by simp)
  refine h.arrays.update (fun l a hl => .inl ⟨hl, ?_⟩) (fun a ha => ?_) (fun s' new todo hp => ?_)
    (fun d' hd => ?_) (Nat.le_succ _) (fun a ha => tx_alloc ha) (fun a => h.arrays.fresh_alloc)
    (fun a ha => .inl ha)
  · rw [hi, Thread.points_iff (by simp)]
    exact fun hp => .inl ⟨d, rfl, hp⟩
  · rcases ha with ⟨_, ⟨⟩, rfl, -⟩ | ⟨_, _, ⟨⟩⟩
    · exact ⟨(tx_alloc hlt).trans ht, Nat.lt_succ_of_lt hlt, hr⟩
    · refine ⟨Function.update_self .., Nat.lt_succ_self _, fun hm => ?_⟩
      exact absurd (h.arrays.retired _ hm) (lt_irrefl _)
  · cases hp
    refine ⟨fun l hl => hl, fun d' hd => ?_⟩
    cases hd
    exact hlt.ne
  · cases hd
    exact ⟨(tx_alloc h₃).trans h₁, (tx_alloc h₄).trans h₂, Nat.lt_succ_of_lt h₃,
      Nat.lt_succ_of_lt h₄⟩

theorem Inv.move (h : Inv g loc) {new l : ℕ} {todo : List ℕ}
    (hi : loc i = ⟨y, some d, .grow s new (l :: todo), locks, held⟩) :
    Inv (setLock g l (some new)) (update loc i ⟨y, some d, .grow s new todo, locks, held⟩) := by
  obtain ⟨hsub, hne⟩ := h.arrays.grow i s new (l :: todo) (by rw [hi])
  rw [hi] at hsub
  refine h.quiet rfl (by rw [hi]) ?_ (fun _ => id) (fun a _ => by rw [hi]; exact id)
    (by simp [hi, Phase.start]) (by simp) (by simp)
  refine h.arrays.update (fun l' a hl => ?_) (fun a ha => ?_) (fun s' new' todo' hp => ?_)
    (fun d' hd => ?_) le_rfl (fun _ _ => rfl) h.arrays.fresh (fun a ha => .inl ha)
  · rw [lock_setLock] at hl
    split at hl
    · next he =>
      cases hl
      exact .inr (.inr ⟨s, todo, rfl, by rw [he]; exact hsub l List.mem_cons_self⟩)
    · next hll =>
      refine .inl ⟨hl, fun hp => ?_⟩
      rw [hi] at hp
      rcases hp with ⟨_, ⟨⟩, ha, hm⟩ | ⟨_, _, ⟨⟩, hm⟩
      · exact .inl ⟨d, rfl, ha, (List.mem_cons.mp hm).resolve_left hll⟩
      · exact .inr ⟨s, todo, rfl, hm⟩
  · refine h.arrays.uses i a ?_
    rw [hi]
    rcases ha with ⟨_, ⟨⟩, ha, -⟩ | ⟨_, _, ⟨⟩⟩
    · exact .inl ⟨d, rfl, ha, by simp⟩
    · exact .inr ⟨s, _, rfl⟩
  · cases hp
    refine ⟨fun l' hl => hsub l' (List.mem_cons_of_mem l hl), fun d' hd => hne d' ?_⟩
    rw [hi]
    exact hd
  · exact h.arrays.desc i d' (by rw [hi]; exact hd)

omit [Fintype ι] in
/-- The condition under which an array is retired makes its epoch cover it. -/
theorem covered_of_noYounger {g₀ : Shared ι} {a : ℕ} (ha : a ∈ g₀.retired)
    (hyoung : ∀ j, a ∈ (loc j).held → ∀ s' ∈ (loc j).phase.start, s' ≤ s)
    (hx : x'.phase.start = some s) : Covered g₀ (update loc i x') a s := by
  refine ⟨ha, (forall_update_iff loc fun _ x => ∀ s', x.phase.start = some s' → a ∈ x.held →
    s' ≤ s).mpr ⟨fun s' hs' _ => ?_, fun j _ s' hs' hj => hyoung j hj s' hs'⟩⟩
  rw [hx] at hs'
  exact (Option.some.inj hs').ge

theorem Inv.grown (h : Inv g loc) {new : ℕ}
    (hi : loc i = ⟨y, some d, .grow s new [], locks, held⟩)
    (hyoung : ∀ j, d.wSet ∈ (loc j).held → ∀ s' ∈ (loc j).phase.start, s' ≤ s)
    (hc : retire freq i d.wSet s g
      ⟨y, some { d with wSet := new }, .run s, locks, held⟩ = some (g', x')) :
    Inv g' (update loc i x') := by
  obtain ⟨ht, hlt, hr⟩ := h.arrays.own hi (by simp)
  obtain ⟨ht', hlt', hr'⟩ := h.arrays.uses i new (by rw [hi]; exact .inr ⟨s, [], rfl⟩)
  have hne := (h.arrays.grow i s new [] (by rw [hi])).2 d (by rw [hi])
  refine h.free (t := { g with retired := d.wSet :: g.retired }) rfl (by rw [hi]) hc (fun y' => ?_)
    (fun a ha => List.mem_cons_of_mem _ ha) (fun a _ => by rw [hi]; exact id)
    (by simp [hi, Phase.start]) (by simp) (by simp)
    (fun y' => covered_of_noYounger List.mem_cons_self hyoung rfl)
  refine h.arrays.update (fun l a hl => .inl ⟨hl, fun hp => ?_⟩) (fun a ha => ?_) (by simp)
    (fun d' hd => ?_) le_rfl (fun _ _ => rfl) h.arrays.fresh (fun a ha => ?_)
  · rw [hi] at hp
    rcases hp with ⟨_, ⟨⟩, -, hm⟩ | ⟨_, _, ⟨⟩, hm⟩
    · cases hm
    · exact .inl ⟨_, rfl, rfl, hm⟩
  · obtain rfl := (Thread.uses_iff (by simp) (by simp)).mp ha
    refine ⟨ht', hlt', fun hm => ?_⟩
    rcases List.mem_cons.mp hm with he | hm
    · exact hne he.symm
    · exact hr' hm
  · cases hd
    exact h.arrays.desc i d (by rw [hi])
  · rcases List.mem_cons.mp ha with rfl | ha
    · refine .inr ⟨hlt, fun j hj hjt => hj ?_⟩
      exact Option.some.inj (hjt.symm.trans ht)
    · exact .inl ha

theorem Inv.dropLock (h : Inv g loc) {l : ℕ} {todo : List ℕ}
    (hi : loc i = ⟨y, some d, .drop s (l :: todo), locks, held⟩) :
    Inv (if g.lock l = some d.wSet then setLock g l none else g)
      (update loc i ⟨y, some d, .drop s todo, locks, held⟩) := by
  have hg : ∀ g', g'.gc = g.gc → (g'.next = g.next ∧ g'.tx = g.tx ∧ g'.retired = g.retired) →
      (∀ l' a, g'.lock l' = some a → g.lock l' = some a ∧ (a = d.wSet → l' ≠ l)) →
      Inv g' (update loc i ⟨y, some d, .drop s todo, locks, held⟩) := by
    intro g' hgc hsame hlock
    refine h.quiet hgc (by rw [hi]) ?_ (fun a ha => hsame.2.2 ▸ ha)
      (fun a _ => by rw [hi]; exact id) (by simp [hi, Phase.start]) (by simp) (by simp)
    refine h.arrays.phase hi (by simp) (by simp) (by simp) hsame fun l' a hl => ?_
    refine ⟨(hlock l' a hl).1, fun hp => ?_⟩
    rw [hi, Thread.points_iff (by simp)] at hp
    exact ⟨hp.1, (List.mem_cons.mp hp.2).resolve_left ((hlock l' a hl).2 hp.1.symm)⟩
  split
  · refine hg _ rfl ⟨rfl, rfl, rfl⟩ fun l' a hl => ?_
    exact ⟨(lock_setLock_none hl).1, fun _ => (lock_setLock_none hl).2⟩
  · next hne =>
    refine hg g rfl ⟨rfl, rfl, rfl⟩ fun l' a hl => ⟨hl, ?_⟩
    rintro rfl rfl
    exact hne hl

/-- The thread goes on to a phase in which the same lock words may point into its array. -/
theorem Inv.goOn {p : Phase} (h : Inv g loc) (hi : loc i = ⟨y, some d, ph, locks, held⟩)
    (hpend : ∀ l ∈ (loc i).pending, l ∈ Thread.pending ⟨y, some d, p, locks, held⟩)
    (hph : ∀ s new todo, ph ≠ .grow s new todo) (hl : ∀ e todo, ph ≠ .leave e todo)
    (hph' : ∀ s new todo, p ≠ .grow s new todo) (hl' : ∀ e todo, p ≠ .leave e todo)
    (hstart : ∀ s, p.start = some s → ph.start = some s)
    (hbegin : ∀ s, p = .begin s → s ≤ g.gc.clock) (status : ι → Status) :
    Inv { g with status := status } (update loc i ⟨y, some d, p, locks, held⟩) := by
  refine h.quiet rfl (by rw [hi]) ?_ (fun _ => id) (fun a _ => by rw [hi]; exact id)
    (by rw [hi]; exact hstart) hbegin (fun e todo he => absurd he (hl' e todo))
  refine h.arrays.phase (t := { g with status := status }) hi hph' hl hl' ⟨rfl, rfl, rfl⟩
    fun l a hla => ⟨hla, fun hp => ?_⟩
  rw [hi] at hp hpend
  obtain ⟨h₁, h₂⟩ := (Thread.points_iff hph).mp hp
  exact ⟨h₁, hpend l h₂⟩

theorem Inv.dropped (h : Inv g loc) (hi : loc i = ⟨y, some d, .drop s [], locks, held⟩)
    (hyoung : ∀ j, d.wSet ∈ (loc j).held → ∀ s' ∈ (loc j).phase.start, s' ≤ s)
    (hc : retire freq i d.wSet s (alloc g i)
      ⟨y, some { d with wSet := g.next }, .release s [], locks, held⟩ = some (g', x')) :
    Inv g' (update loc i x') := by
  obtain ⟨ht, hlt, hr⟩ := h.arrays.own hi (by simp)
  obtain ⟨h₁, h₂, h₃, h₄⟩ := h.arrays.desc i d (by rw [hi])
  refine h.free (t := { alloc g i with retired := d.wSet :: g.retired }) rfl (by rw [hi]) hc
    (fun y' => ?_) (fun a ha => List.mem_cons_of_mem _ ha) (fun a _ => by rw [hi]; exact id)
    (by simp [hi, Phase.start]) (by simp) (by simp)
    (fun y' => covered_of_noYounger List.mem_cons_self hyoung rfl)
  refine h.arrays.update (fun l a hl => .inl ⟨hl, fun hp => ?_⟩) (fun a ha => ?_) (by simp)
    (fun d' hd => ?_) (Nat.le_succ _) (fun a ha => tx_alloc ha) (fun a => h.arrays.fresh_alloc)
    (fun a ha => ?_)
  · rw [hi, Thread.points_iff (by simp)] at hp
    cases hp.2
  · obtain rfl := (Thread.uses_iff (by simp) (by simp)).mp ha
    refine ⟨Function.update_self .., Nat.lt_succ_self _, fun hm => ?_⟩
    rcases List.mem_cons.mp hm with he | hm
    · exact hlt.ne he.symm
    · exact absurd (h.arrays.retired _ hm) (lt_irrefl _)
  · cases hd
    exact ⟨(tx_alloc h₃).trans h₁, (tx_alloc h₄).trans h₂, Nat.lt_succ_of_lt h₃,
      Nat.lt_succ_of_lt h₄⟩
  · rcases List.mem_cons.mp ha with rfl | ha
    · refine .inr ⟨hlt, fun j hj hjt => hj ?_⟩
      exact Option.some.inj (hjt.symm.trans ht)
    · exact .inl ha

theorem Inv.release (h : Inv g loc) {l : ℕ} {todo : List ℕ}
    (hi : loc i = ⟨y, some d, .release s (l :: todo), locks, held⟩) :
    Inv (setLock g l none) (update loc i ⟨y, some d, .release s todo, locks, held⟩) := by
  refine h.quiet rfl (by rw [hi]) ?_ (fun _ => id) (fun a _ => by rw [hi]; exact id)
    (by simp [hi, Phase.start]) (by simp) (by simp)
  refine h.arrays.phase (t := setLock g l none) (p := .release s todo) hi (by simp) (by simp)
    (by simp) ⟨rfl, rfl, rfl⟩ fun l' a hl => ?_
  refine ⟨(lock_setLock_none hl).1, fun hp => ?_⟩
  rw [hi, Thread.points_iff (by simp)] at hp
  exact ⟨hp.1, (List.mem_cons.mp hp.2).resolve_left (lock_setLock_none hl).2⟩

omit [DecidableEq ι] [Fintype ι] in
/-- A thread that leaves has no array any more. -/
theorem Thread.not_uses_leave {e a : ℕ} {todo : List ℕ} :
    ¬Thread.Uses ⟨y, some d, .leave e todo, locks, held⟩ a := by
  rintro (⟨_, -, -, hl⟩ | ⟨_, _, ⟨⟩⟩)
  exact hl e todo rfl

theorem Inv.leave (h : Inv g loc) {e a : ℕ} {todo : List ℕ}
    (hi : loc i = ⟨y, some d, .leave e (a :: todo), locks, held⟩)
    (hc : collector freq i (.free a e) g ⟨y, some d, .leave e todo, locks, held⟩ = some (g', x')) :
    Inv g' (update loc i x') := by
  have hcov := h.guarded.leaving i e (a :: todo) (by rw [hi]) a List.mem_cons_self
  refine h.free rfl (by rw [hi]) hc (fun y' => ?_) (fun _ => id) (fun a _ => by rw [hi]; exact id)
    (by simp [Phase.start]) (by simp) (fun e' todo' hp b hb => ?_) (fun y' => ⟨hcov.1, ?_⟩)
  · refine h.arrays.same ⟨rfl, rfl, rfl⟩ (fun l b hl => ⟨hl, fun hp => ?_⟩) (by rw [hi])
      (fun b hb => absurd hb Thread.not_uses_leave) (by simp)
    rw [hi] at hp
    exact absurd hp.uses Thread.not_uses_leave
  · cases hp
    exact ⟨a :: todo, by rw [hi], List.mem_cons_of_mem a hb⟩
  · refine (forall_update_iff loc fun _ x => ∀ s, x.phase.start = some s → a ∈ x.held →
      s ≤ e).mpr ⟨by simp [Phase.start], fun j _ => hcov.2 j⟩

theorem Inv.exit (h : Inv g loc) {e : ℕ} (hi : loc i = ⟨y, some d, .leave e [], locks, held⟩)
    (hc : collector freq i .exit g ⟨y, none, .out, locks, held⟩ = some (g', x')) :
    Inv g' (update loc i x') := by
  obtain ⟨g₁, y', hs, rfl, rfl⟩ := collector_inv hc
  have hs' : (gcSystem ι freq).step i .exit g.gc (loc i).gc = some (g₁, y') := by
    rw [hi]
    exact hs
  obtain ⟨k, rfl, rfl⟩ := step_exit hs
  obtain ⟨hgc, hothers⟩ := h.gc.step (by simp) hs' rfl
  refine ⟨?_, ?_, h.guarded.update ?_ hothers le_rfl (fun _ => id) (by simp [Phase.start]) (by simp)
    (fun b hb => .inl (has_leave hb)) (by simp) (by simp)⟩
  · rw [gc_update]
    exact hgc
  · refine h.arrays.update (fun l a hl => .inl ⟨hl, fun hp => ?_⟩) (fun a ha => ?_) (by simp)
      (by simp) le_rfl (fun _ _ => rfl) h.arrays.fresh (fun a ha => .inl ha)
    · rw [hi] at hp
      exact absurd hp.uses Thread.not_uses_leave
    · rcases ha with ⟨_, ⟨⟩, -⟩ | ⟨_, _, ⟨⟩⟩
  · exact fun a _ s hs => absurd hs (by simp [Phase.start])

theorem Inv.publish (h : Inv g loc) (hi : loc i = ⟨y, some d, .begin s, locks, held⟩)
    (hc : collector freq i (.setEpoch s) (setStatus g i .active) ⟨y, some d, .run s, [], []⟩ =
      some (g', x')) : Inv g' (update loc i x') := by
  obtain ⟨g₁, y', hs, rfl, rfl⟩ := collector_inv hc
  have hs' : (gcSystem ι freq).step i (.setEpoch s) g.gc (loc i).gc = some (g₁, y') := by
    rw [hi]
    exact hs
  obtain ⟨k, rfl, rfl⟩ := step_setEpoch hs
  obtain ⟨hgc, hothers⟩ := h.gc.step (by simp) hs' rfl
  refine ⟨?_, ?_, h.guarded.update ?_ hothers le_rfl (fun _ => id) ?_ (by simp)
    (fun b hb => .inl (has_setEpoch hb)) (by simp) (by simp)⟩
  · rw [gc_update]
    exact hgc
  · refine (h.arrays.phase (t := setStatus g i .active) (p := .run s) hi (by simp) (by simp)
      (by simp) ⟨rfl, rfl, rfl⟩ fun l a hl => ⟨hl, fun hp => ?_⟩).gc
    rw [hi, Thread.points_iff (by simp)] at hp
    cases hp.2
  · exact fun a _ s _ hj => absurd hj (by simp)
  · rintro s' ⟨⟩
    exact ⟨by simp [setStatus, setEpoch], h.guarded.begun i s (by rw [hi])⟩

theorem Inv.allocate (h : Inv g loc) (hi : loc i = ⟨y, none, .out, locks, held⟩) :
    Inv { alloc g i with next := g.next + 3 }
      (update loc i ⟨y, some ⟨g.next + 1, g.next + 2, g.next⟩, .out, locks, held⟩) := by
  have hfr : ∀ a, g.next + 1 ≤ a → (alloc g i).tx a = none := fun a => h.arrays.fresh_alloc
  refine h.quiet rfl (by rw [hi]) ?_ (fun _ => id) (fun a _ => by rw [hi]; exact id)
    (by simp [Phase.start]) (by simp) (by simp)
  refine h.arrays.update (fun l a hl => .inl ⟨hl, fun hp => ?_⟩) (fun a ha => ?_) (by simp)
    (fun d' hd => ?_) (Nat.le_add_right _ _) (fun a ha => tx_alloc ha)
    (fun a ha => hfr a (by dsimp only at ha; omega)) (fun a ha => .inl ha)
  · rw [hi] at hp
    rcases hp with ⟨_, ⟨⟩, -⟩ | ⟨_, _, ⟨⟩, -⟩
  · obtain rfl := (Thread.uses_iff (by simp) (by simp)).mp ha
    refine ⟨Function.update_self .., by simp, fun hm => ?_⟩
    exact absurd (h.arrays.retired _ hm) (lt_irrefl _)
  · cases hd
    exact ⟨hfr _ (by simp), hfr _ (by simp), by simp, by simp⟩

theorem Inv.exitThread (h : Inv g loc) (hi : loc i = ⟨y, some d, .out, locks, held⟩) :
    Inv { g with retired := [d.rSet, d.wSet, d.self] ++ g.retired }
      (update loc i ⟨y, some d, .leave g.gc.clock [d.rSet, d.wSet, d.self], locks, held⟩) := by
  obtain ⟨ht, hlt, hr⟩ := h.arrays.own hi (by simp)
  obtain ⟨h₁, h₂, h₃, h₄⟩ := h.arrays.desc i d (by rw [hi])
  refine h.quiet rfl (by rw [hi]) ?_ (fun a ha => List.mem_append_right _ ha)
    (fun a _ => by rw [hi]; exact id) (by simp [Phase.start]) (by simp) (fun e todo hp a ha => ?_)
  · refine h.arrays.update (fun l a hl => .inl ⟨hl, fun hp => ?_⟩)
      (fun a ha => absurd ha Thread.not_uses_leave) (by simp)
      (fun d' hd => h.arrays.desc i d' (by rw [hi]; exact hd)) le_rfl (fun _ _ => rfl)
      h.arrays.fresh (fun a ha => ?_)
    · rw [hi, Thread.points_iff (by simp)] at hp
      cases hp.2
    · simp only [List.cons_append, List.nil_append, List.mem_cons] at ha
      rcases ha with rfl | rfl | rfl | ha
      · exact .inr ⟨h₃, by simp [h₁]⟩
      · exact .inr ⟨hlt, fun j hj hjt => hj (Option.some.inj (hjt.symm.trans ht))⟩
      · exact .inr ⟨h₄, by simp [h₂]⟩
      · exact .inl ha
  · cases hp
    refine ⟨List.mem_append_left _ ha, ?_⟩
    exact (forall_update_iff loc fun _ x => ∀ s, x.phase.start = some s → a ∈ x.held →
      s ≤ g.gc.clock).mpr ⟨by simp [Phase.start], fun j _ s hs _ => (h.guarded.started j s hs).2⟩

/-! ## Runs -/

theorem Inv.access (h : Inv g loc) (hi : loc i = ⟨y, some d, .run s, locks, held⟩) {a : Act}
    (hs : access i g (loc i) d.wSet a = some (g', x')) : Inv g' (update loc i x') := by
  have hsh : ∀ g', g'.gc = g.gc → (g'.next = g.next ∧ g'.tx = g.tx ∧ g'.retired = g.retired) →
      (∀ l a, g'.lock l = some a → g.lock l = some a) → Inv g' (update loc i (loc i)) :=
    fun g' h₁ h₂ h₃ => h.shared h₁ h₂ h₃ (by simp [hi]) (by simp [hi])
  cases a with
  | acquire l =>
    simp only [WriteSets.access, Option.ite_none_right_eq_some, Option.some.injEq] at hs
    cases hs.2
    simpa only [hi] using h.acquire hi l
  | load l =>
    obtain ⟨a, hl, he⟩ := Option.map_eq_some_iff.mp hs
    cases he
    simpa only [hi] using h.load hi hl
  | kill l =>
    obtain ⟨a, hl, hs⟩ := Option.bind_eq_some_iff.mp hs
    obtain ⟨j, hj, hs⟩ := Option.bind_eq_some_iff.mp hs
    cases (Option.ite_none_right_eq_some.mp hs).2
    exact hsh _ rfl ⟨rfl, rfl, rfl⟩ fun _ _ => id
  | steal l =>
    obtain ⟨a, hl, hs⟩ := Option.bind_eq_some_iff.mp hs
    obtain ⟨j, hj, hs⟩ := Option.bind_eq_some_iff.mp hs
    cases (Option.ite_none_right_eq_some.mp hs).2
    exact hsh _ rfl ⟨rfl, rfl, rfl⟩ fun l' a' hl' => (lock_setLock_none hl').1
  | tick | go | initThread | allocate | start | publish | grow | finish | next | exitThread =>
    cases hs

theorem Inv.next (h : Inv g loc) (hi : loc i = ⟨y, some d, ph, locks, held⟩)
    (hyoung : ∀ p ∈ (loc i).retires, ∀ j, p.1 ∈ (loc j).held →
      ∀ s ∈ (loc j).phase.start, s ≤ p.2)
    (hs : nextStep freq i g ⟨y, some d, ph, locks, held⟩ d = some (g', x')) :
    Inv g' (update loc i x') := by
  cases ph with
  | out | begin _ | run _ => cases hs
  | grow s new todo =>
    cases todo with
    | nil => exact h.grown hi (hyoung (d.wSet, s) (by rw [hi]; rfl)) hs
    | cons l todo =>
      cases hs
      exact h.move hi
  | drop s todo =>
    cases todo with
    | nil =>
      simp only [nextStep] at hs
      split at hs
      · cases hs
        exact h.goOn (p := .release s []) hi (by simp [hi, Thread.pending]) (by simp) (by simp)
          (by simp) (by simp) (fun _ => id) (by simp) g.status
      · next hne =>
        exact h.dropped hi (hyoung (d.wSet, s) (by rw [hi]; exact if_neg hne)) hs
    | cons l todo =>
      cases hs
      exact h.dropLock hi
  | release s todo =>
    cases todo with
    | nil =>
      cases hs
      exact h.goOn (p := .out) hi (by simp [hi, Thread.pending]) (by simp) (by simp) (by simp)
        (by simp) (by simp [Phase.start]) (by simp) _
    | cons l todo =>
      cases hs
      exact h.release hi
  | leave e todo =>
    cases todo with
    | nil => exact h.exit hi hs
    | cons a todo => exact h.leave hi hs

theorem Inv.stepTx (h : Inv g loc) {a : Act}
    (hyoung : a = .next → ∀ p ∈ (loc i).retires, ∀ j, p.1 ∈ (loc j).held →
      ∀ s ∈ (loc j).phase.start, s ≤ p.2)
    (hs : stepTx freq i a g (loc i) = some (g', x')) : Inv g' (update loc i x') := by
  obtain ⟨y, desc, ph, locks, held, hi⟩ : ∃ y desc ph locks held,
    loc i = ⟨y, desc, ph, locks, held⟩ := ⟨_, _, _, _, _, rfl⟩
  rw [hi] at hs
  unfold WriteSets.stepTx at hs
  dsimp only at hs
  split at hs
  · rw [← hi] at hs
    exact h.initThread hs
  · simp only [WriteSets.allocate, Option.ite_none_right_eq_some, Option.some.injEq] at hs
    cases hs.2
    exact h.allocate hi
  · cases hs
    exact h.goOn (p := .begin g.gc.clock) hi (by simp [hi, Thread.pending]) (by simp) (by simp)
      (by simp) (by simp) (by simp [Phase.start]) (by simp) g.status
  · exact h.publish hi hs
  · cases hs
    exact h.grow hi
  · next s =>
    split at hs
    · cases hs
      exact h.goOn (p := .drop s locks) hi (by simp [hi, Thread.pending]) (by simp) (by simp)
        (by simp) (by simp) (fun _ => id) (by simp) g.status
    · cases hs
      exact h.goOn (p := .release s locks) hi (by simp [hi, Thread.pending]) (by simp) (by simp)
        (by simp) (by simp) (fun _ => id) (by simp) _
  · exact h.next hi (hyoung rfl) hs
  · cases hs
    exact h.exitThread hi
  · rw [← hi] at hs
    exact h.access hi hs
  · cases hs

theorem Inv.start : Inv (start ι).shared (start ι).loc := by
  have hgc := run_ok True (fun _ _ _ h => h.elim) (fun _ _ _ _ h => h.elim)
    (Run.refl : Run (gcSystem ι none) (fun _ _ _ => False) (Gc.start ι) (Gc.start ι))
  refine ⟨⟨hgc.1, hgc.2, fun _ => rfl⟩, ?_, ?_⟩
  · constructor <;> simp [WriteSets.start, Thread.Uses]
  · constructor <;> simp [WriteSets.start, Phase.start, Threads.Has, gcInit, Slot.blocks]

theorem run_inv {c : Config ι (Shared ι) Thread}
    (h : Run (txSystem ι freq) NoYounger (WriteSets.start ι) c) : Inv c.shared c.loc := by
  refine h.invariant (P := fun c => Inv c.shared c.loc) (fun c i a d hc ho hm => ?_) Inv.start
  obtain ⟨g', x', hs, rfl⟩ := move_eq_some hm
  simp only [txSystem] at hs
  split at hs
  · exact hc.tick hs
  · exact hc.go hs
  · split at hs
    · refine hc.stepTx (fun ha => ?_) hs
      subst ha
      exact ho
    · cases hs

/-- In every run in which a write set is retired only when no younger attempt has a
pointer into it, no attempt ever has a pointer into a block that was freed. -/
theorem retired_outlive {c : Config ι (Shared ι) Thread}
    (h : Run (txSystem ι freq) NoYounger (WriteSets.start ι) c) :
    ∀ b ∈ c.shared.gc.freed, ∀ j, (c.loc j).phase.start ≠ none → b.addr ∉ (c.loc j).held := by
  intro b hb j hj hm
  obtain ⟨s, hs⟩ := Option.ne_none_iff_exists'.mp hj
  have hinv := run_inv h
  have hg := (hinv.guarded.blocks b (.inl hb)).2 j s hs hm
  exact (hinv.gc.shared.freed trivial b hb j _ hg).ne rfl

instance (c : Config ι (Shared ι) Thread) (i : ι) (a : Act) : Decidable (NoYounger c i a) :=
  match a with
  | .next => inferInstanceAs (Decidable (∀ p ∈ (c.loc i).retires, ∀ j, p.1 ∈ (c.loc j).held →
      ∀ s ∈ (c.loc j).phase.start, s ≤ p.2))
  | .tick | .go | .initThread | .allocate | .start | .publish | .acquire _ | .load _ | .kill _
  | .steal _ | .grow | .finish | .exitThread => .isTrue trivial

/-- Thread 0 owns lock 7, and thread 1, which has started at clock value `n`, follows
the pointer in the lock word and kills the owner. -/
def killed (n : ℕ) : List (Fin 2 × Act) :=
  [[(0, .initThread)], List.replicate 4 (0, .go), [(0, .allocate), (1, .initThread)],
    List.replicate 5 (1, .go), [(1, .allocate), (0, .start), (0, .publish), (0, .acquire 7)],
    List.replicate n (0, .tick), [(1, .start), (1, .publish), (1, .load 7), (1, .kill 7)]].flatten

/-- Thread 0 drops its locks, retires the array, starts again and leaves. -/
def restart : List (Fin 2 × Act) :=
  [[(0, .finish), (0, .next), (0, .next)], List.replicate 8 (0, .go),
    [(0, .next), (0, .start), (0, .publish), (0, .finish), (0, .next), (0, .exitThread), (0, .next)],
    List.replicate 8 (0, .go)].flatten

theorem retired_outlive_same_start : ∃ c, Run (txSystem (Fin 2) (some 1)) NoYounger
      (WriteSets.start (Fin 2)) c ∧
    (0 ∈ c.shared.retired ∧ (c.loc 1).phase = .run 0 ∧ 0 ∈ (c.loc 1).held) ∧
    ∀ b ∈ c.shared.gc.freed, ∀ j, (c.loc j).phase.start ≠ none → b.addr ∉ (c.loc j).held := by
  obtain ⟨c, hrun, hc⟩ := exists_run_of_exec (txSystem (Fin 2) (some 1)) NoYounger
    (WriteSets.start (Fin 2)) (killed 0 ++ restart)
    (fun c => 0 ∈ c.shared.retired ∧ (c.loc 1).phase = .run 0 ∧ 0 ∈ (c.loc 1).held)
    (by decide +kernel)
  exact ⟨c, hrun, hc, retired_outlive hrun⟩

/-- Array 0 is retired with epoch 0 while thread 1, in an attempt that has started at
1, has a pointer into it; it is freed when its owner has started again at 1, and the
attempt of thread 1 is still the same. -/
theorem retired_freed_under_younger : ∃ c₁, Run (txSystem (Fin 2) (some 1)) (fun _ _ _ => True)
      (WriteSets.start (Fin 2)) c₁ ∧
    (0 ∉ c₁.shared.retired ∧ (c₁.loc 1).phase = .run 1 ∧ 0 ∈ (c₁.loc 1).held) ∧
    ∃ c₂, Run (txSystem (Fin 2) (some 1)) (fun _ _ _ => True) c₁ c₂ ∧
      (c₂.shared.gc.freed.any (fun b => b.addr = 0) = true ∧
        c₂.shared.gc.gen 1 = c₁.shared.gc.gen 1 ∧ (c₂.loc 1).phase = .run 1 ∧
        0 ∈ (c₂.loc 1).held) := by
  obtain ⟨c₁, hrun, hc, hfreed⟩ := exists_run_of_exec (txSystem (Fin 2) (some 1))
    (fun _ _ _ => True) (WriteSets.start (Fin 2)) (killed 1)
    (fun c₁ => (0 ∉ c₁.shared.retired ∧ (c₁.loc 1).phase = .run 1 ∧ 0 ∈ (c₁.loc 1).held) ∧
      (((txSystem (Fin 2) (some 1)).exec (fun _ _ _ => True) restart c₁).any fun c₂ =>
        decide (c₂.shared.gc.freed.any (fun b => b.addr = 0) = true ∧
          c₂.shared.gc.gen 1 = c₁.shared.gc.gen 1 ∧ (c₂.loc 1).phase = .run 1 ∧
          0 ∈ (c₂.loc 1).held)) = true)
    (by decide +kernel)
  exact ⟨c₁, hrun, hc, exists_run_of_exec _ _ c₁ restart _ hfreed⟩

end TinyStm.WriteSets
