import TinyStm.Pool.Places
import Mathlib.Tactic.Common

/-!
# How a step changes each part of the invariant

One task moves at most, only the holder of the lock touches the free list, and what a
thread does to the tasks it has to do with is no news to the other servers.
-/

namespace TinyStm.Pool

open Interleave

variable {ι : Type*} [DecidableEq ι] {size : ℕ} {g g' : Store ι} {loc : ι → Thread} {l l' : List ℕ}
  {q q' : ι → List ℕ} {place place' : ℕ → Place ι} {i : ι} {x' : Thread} {t : ℕ}

/-! ### Places -/

namespace Places

theorem keep (h : Places size loc l q place) (hh : x'.hand = (loc i).hand) :
    Places size (Function.update loc i x') l q place := by
  refine ⟨h.outside, h.free, h.gc, fun u j => ?_⟩
  rw [← h.hand u j]
  by_cases hj : j = i
  · subst hj
    rw [Function.update_self, hh]
  · rw [Function.update_of_ne hj]

/-- One task changes its place, from or to the hand of `i`. -/
theorem move (h : Places size loc l q place) {w : Place ι}
    (hfrom : ∀ u, (loc i).hand = some u → u = t) (hfrom' : ∀ j, place t = .hand j → j = i)
    (hto : ∀ u, x'.hand = some u ↔ u = t ∧ w = .hand i) (hto' : ∀ j, w = .hand j → j = i)
    (hin : place t ≠ .outside) (hin' : w ≠ .outside)
    (hl : ∀ u, u ≠ t → (u ∈ l' ↔ u ∈ l)) (hlt : t ∈ l' ↔ w = .free)
    (hq : ∀ u j, u ≠ t → (u ∈ q' j ↔ u ∈ q j)) (hqt : ∀ j, t ∈ q' j ↔ w = .gc j) :
    Places size (Function.update loc i x') l' q' (Function.update place t w) := by
  refine ⟨fun u => ?_, fun u => ?_, fun u j => ?_, fun u j => ?_⟩
  · by_cases hu : u = t
    · subst hu
      rw [Function.update_self, ← h.outside]
      exact ⟨fun he => absurd he hin', fun he => absurd he hin⟩
    · rw [Function.update_of_ne hu]
      exact h.outside u
  · by_cases hu : u = t
    · subst hu
      rw [Function.update_self]
      exact hlt
    · rw [Function.update_of_ne hu, ← h.free]
      exact hl u hu
  · by_cases hu : u = t
    · subst hu
      rw [Function.update_self]
      exact hqt j
    · rw [Function.update_of_ne hu, ← h.gc]
      exact hq u j hu
  · by_cases hj : j = i
    · subst hj
      rw [Function.update_self, hto]
      by_cases hu : u = t
      · subst hu
        simp
      · rw [Function.update_of_ne hu, ← h.hand]
        exact ⟨fun hh => absurd hh.1 hu, fun hh => absurd (hfrom u hh) hu⟩
    · rw [Function.update_of_ne hj, h.hand]
      by_cases hu : u = t
      · subst hu
        rw [Function.update_self]
        exact ⟨fun hh => absurd (hfrom' j hh) hj, fun hh => absurd (hto' j hh) hj⟩
      · rw [Function.update_of_ne hu]

/-- The first task of the free list goes into the hand of `i`. -/
theorem pop (h : Places size loc (t :: l) q place) (hh : (loc i).hand = none)
    (hx : x'.hand = some t) (hn : t ∉ l) :
    Places size (Function.update loc i x') l q (Function.update place t (.hand i)) := by
  have hp : place t = .free := (h.free t).mp List.mem_cons_self
  refine h.move (by simp [hh]) (by simp [hp]) (by simp [hx, eq_comm]) (by simp [eq_comm])
    (by simp [hp]) (by simp) (fun u hu => by simp [hu]) (by simp [hn]) (fun _ _ _ => Iff.rfl)
    (fun j => ?_)
  rw [h.gc, hp]
  simp

/-- The task in the hand of `i` goes to the end of the free list. -/
theorem push (h : Places size loc l q place) (hh : (loc i).hand = some t) (hx : x'.hand = none) :
    Places size (Function.update loc i x') (l ++ [t]) q (Function.update place t .free) := by
  have hp : place t = .hand i := (h.hand t i).mp hh
  refine h.move (fun u hu => Option.some.inj (hu.symm.trans hh)) (by simp [hp, eq_comm]) (by simp [hx])
    (by simp) (by simp [hp]) (by simp) (fun u hu => by simp [hu]) (by simp) (fun _ _ _ => Iff.rfl)
    (fun j => ?_)
  rw [h.gc, hp]
  simp

/-- The task in the hand of `i` goes into its list. -/
theorem gcInsert (h : Places size loc l q place) (hh : (loc i).hand = some t) (hx : x'.hand = none) :
    Places size (Function.update loc i x') l (Function.update q i (t :: q i))
      (Function.update place t (.gc i)) := by
  have hp : place t = .hand i := (h.hand t i).mp hh
  refine h.move (fun u hu => Option.some.inj (hu.symm.trans hh)) (by simp [hp, eq_comm]) (by simp [hx])
    (by simp) (by simp [hp]) (by simp) (fun _ _ => Iff.rfl) ?_ (fun u j hu => ?_) (fun j => ?_)
  · rw [h.free, hp]
    simp
  · by_cases hj : j = i
    · subst hj
      simp [hu]
    · rw [Function.update_of_ne hj]
  · by_cases hj : j = i
    · subst hj
      simp
    · rw [Function.update_of_ne hj, h.gc, hp]
      simp [Ne.symm hj]

/-- A task of the list of `i` goes into its hand. -/
theorem unlink (h : Places size loc l q place) {a b : List ℕ} (hq : q i = a ++ t :: b)
    (hd : (q i).Nodup) (hh : (loc i).hand = none) (hx : x'.hand = some t) :
    Places size (Function.update loc i x') l (Function.update q i (a ++ b))
      (Function.update place t (.hand i)) := by
  have hp : place t = .gc i := (h.gc t i).mp (by simp [hq])
  have hn : t ∉ a ++ b := by
    rw [hq, List.nodup_middle] at hd
    exact (List.nodup_cons.mp hd).1
  refine h.move (by simp [hh]) (by simp [hp]) (by simp [hx, eq_comm]) (by simp [eq_comm]) (by simp [hp])
    (by simp) (fun _ _ => Iff.rfl) ?_ (fun u j hu => ?_) (fun j => ?_)
  · rw [h.free, hp]
    simp
  · by_cases hj : j = i
    · subst hj
      simp [hq, hu]
    · rw [Function.update_of_ne hj]
  · by_cases hj : j = i
    · subst hj
      simpa using hn
    · rw [Function.update_of_ne hj, h.gc, hp]
      simp [Ne.symm hj]

end Places

/-! ### The free list -/

namespace FreeOk

theorem lock_update (h : FreeOk g loc l)
    (hl : g'.lock = if x'.holds = (loc i).holds then g.lock else if x'.holds then some i else none)
    (hfree : x'.holds = true → (loc i).holds = true ∨ g.lock = none) (j : ι) :
    (Function.update loc i x' j).holds = true ↔ g'.lock = some j := by
  have hi := h.lock i
  rw [hl]
  by_cases hj : j = i
  · subst hj
    rw [Function.update_self]
    split
    · rename_i he
      rw [he]
      exact hi
    · cases hx : x'.holds <;> simp
  · rw [Function.update_of_ne hj, h.lock j]
    split
    · rfl
    · rename_i hne
      cases hx : x'.holds
      · rw [hx] at hne
        have hlock : g.lock = some i := hi.mp (by simpa using Ne.symm hne)
        simp [hlock, Ne.symm hj]
      · rcases hfree hx with hh | hn
        · exact absurd (hx.trans hh.symm) hne
        · simp [hn, Ne.symm hj]

/-- A step of a thread without the lock. -/
theorem off (h : FreeOk g loc l) (hx : (loc i).holds = false) (hx' : x'.holds = false)
    (hl : g'.lock = g.lock) (hh : g'.head = g.head) (ht : g'.tail = g.tail)
    (hn : ∀ u ∈ l, g'.nextFree u = g.nextFree u) : FreeOk g' (Function.update loc i x') l := by
  have hne : g.lock ≠ some i := fun he => by simp [(h.lock i).mpr he] at hx
  refine ⟨h.lock_update (by rw [hx, hx', if_pos rfl, hl]) (by simp [hx']), ?_, h.nodup, ?_, ?_⟩
  · rw [hh]
    exact h.chain.congr hn
  · rw [hl, ht]
    exact h.tail
  · intro j hj
    rw [hl] at hj
    have hji : j ≠ i := by
      rintro rfl
      exact hne hj
    rw [Function.update_of_ne hji, ht]
    exact h.held j hj

/-- A step of the holder of the lock. -/
theorem on (h : FreeOk g loc l) (hx : (loc i).holds = true) (hx' : x'.holds = true)
    (hl : g'.lock = g.lock) (hc : Chain g'.nextFree g'.head l') (hd : l'.Nodup)
    (ht : x'.TailOk g'.tail l') : FreeOk g' (Function.update loc i x') l' := by
  have hlock : g.lock = some i := (h.lock i).mp hx
  refine ⟨h.lock_update (by rw [hx, hx', if_pos rfl, hl]) (fun _ => .inl hx), hc, hd, ?_, ?_⟩
  · rw [hl, hlock]
    intro hn
    cases hn
  · intro j hj
    rw [hl, hlock] at hj
    cases hj
    rw [Function.update_self]
    exact ht

theorem take (h : FreeOk g loc l) (hx : (loc i).holds = false) (hx' : x'.holds = true)
    (hn : g.lock = none) (hl : g' = { g with lock := some i })
    (ht : g.tail = l.getLast? → x'.TailOk g.tail l) : FreeOk g' (Function.update loc i x') l := by
  subst hl
  refine ⟨h.lock_update (by simp [hx, hx']) (fun _ => .inr hn), h.chain, h.nodup, ?_, ?_⟩
  · intro he
    cases he
  · rintro j ⟨⟩
    rw [Function.update_self]
    exact ht (h.tail hn)

theorem drop (h : FreeOk g loc l) (hx : (loc i).holds = true) (hx' : x'.holds = false)
    (hl : g' = { g with lock := none }) (ht : g.tail = l.getLast?) :
    FreeOk g' (Function.update loc i x') l := by
  subst hl
  refine ⟨h.lock_update (by simp [hx, hx']) (by simp [hx']), h.chain, h.nodup, fun _ => ht, ?_⟩
  rintro j ⟨⟩

end FreeOk

/-! ### What the other servers remember -/

/-- What a step of `i` leaves to the others. -/
def Others (i : ι) (place : ℕ → Place ι) (g g' : Store ι) : Prop :=
  ∀ j, j ≠ i → ∀ t,
    (place t = .gc j → g'.nextGc t = g.nextGc t ∧
      (g.life t = .received → g'.life t = .received) ∧ (g.freeGc t = true → g'.freeGc t = true)) ∧
    (place t = .hand j → g'.nextGc t = g.nextGc t ∧ g'.nextFree t = g.nextFree t ∧
      g'.freeGc t = g.freeGc t ∧ g'.life t = g.life t)

omit [DecidableEq ι] in
/-- A step that writes only to the tasks of `i` and to those in the free list. -/
theorem Others.of_own (h : ∀ t, place t ≠ .gc i → place t ≠ .hand i → place t ≠ .free →
    g'.nextGc t = g.nextGc t ∧ g'.nextFree t = g.nextFree t ∧ g'.freeGc t = g.freeGc t ∧
      g'.life t = g.life t) : Others i place g g' := by
  intro j hj t
  constructor
  · intro hp
    obtain ⟨h₁, -, h₃, h₄⟩ := h t (by simp [hp, hj]) (by simp [hp]) (by simp [hp])
    exact ⟨h₁, fun hr => h₄.trans hr, fun hr => h₃.trans hr⟩
  · intro hp
    exact h t (by simp [hp]) (by simp [hp, hj]) (by simp [hp])

omit [DecidableEq ι] in
theorem Others.refl (hn : g'.nextGc = g.nextGc) (hf : g'.nextFree = g.nextFree)
    (hg : g'.freeGc = g.freeGc) (hl : g'.life = g.life) : Others i place g g' :=
  .of_own fun t _ _ _ => ⟨by rw [hn], by rw [hf], by rw [hg], by rw [hl]⟩

omit [DecidableEq ι] in
theorem Cut.mem {b : List ℕ} {prev : Option ℕ} (h : Cut b prev (some t)) : t ∈ b := by
  obtain ⟨a, c, rfl, -, hc⟩ := h
  cases c with
  | nil => cases hc
  | cons u c =>
    cases hc
    simp

omit [DecidableEq ι] in
theorem Free.Knows.stable {st : Free} (h : st.Knows g t)
    (hs : st.hands = true → g'.nextFree t = g.nextFree t ∧ g'.freeGc t = g.freeGc t) :
    st.Knows g' t := by
  cases st with
  | setTail | unlock | inc => trivial
  | reset todo =>
    obtain ⟨h₁, h₂⟩ := hs rfl
    exact ⟨fun hn => h₁.trans (h.1 hn), fun hn => h₂.trans (h.2 hn)⟩
  | _ =>
    obtain ⟨h₁, h₂⟩ := hs rfl
    exact ⟨h₁.trans h.1, h₂.trans h.2⟩

omit [DecidableEq ι] in
theorem ServerPc.Knows.stable {pc : ServerPc} {b : List ℕ} {h : Option ℕ} (hk : pc.Knows g b h)
    (hq : ∀ t ∈ b, g'.nextGc t = g.nextGc t ∧ (g.life t = .received → g'.life t = .received) ∧
      (g.freeGc t = true → g'.freeGc t = true))
    (hh : ∀ t, pc.hand = some t → g'.nextGc t = g.nextGc t ∧ g'.nextFree t = g.nextFree t ∧
      g'.freeGc t = g.freeGc t ∧ g'.life t = g.life t) : pc.Knows g' b h := by
  cases pc with
  | get r st => exact fun t ht => (hh t ht).2.2.2.trans (hk t ht)
  | gcNext r t => exact (hh t rfl).2.2.2.trans hk
  | gcHead r t => exact ⟨(hh t rfl).2.2.2.trans hk.1, (hh t rfl).1.trans hk.2⟩
  | parsePrio r t | setPrio r t p | parseTx r t | setTx t x | insert t | reject t =>
    exact ⟨hk.1, (hq t hk.1).2.1 hk.2⟩
  | clean k st =>
    cases st with
    | stats prev t | loadNext prev t => exact ⟨hk.1, (hq t hk.1.mem).2.2 hk.2⟩
    | unlink prev t n =>
      exact ⟨hk.1, (hq t hk.1.mem).2.2 hk.2.1, (hq t hk.1.mem).1.trans hk.2.2⟩
    | free prev t st =>
      have hst : st.hands = true → g'.nextGc t = g.nextGc t ∧ g'.nextFree t = g.nextFree t ∧
          g'.freeGc t = g.freeGc t ∧ g'.life t = g.life t := fun hs => hh t (by simp [ServerPc.hand, hs])
      refine ⟨hk.1, fun hs => ?_, hk.2.2.stable fun hs => ⟨(hst hs).2.1, (hst hs).2.2.1⟩⟩
      rw [(hst hs).2.2.2]
      exact hk.2.1 hs
    | _ => exact hk
  | _ => trivial

omit [DecidableEq ι] in
theorem Thread.Knows.stable {x : Thread} {b : List ℕ} (hk : x.Knows g b)
    (hq : ∀ t ∈ b, g'.nextGc t = g.nextGc t ∧ (g.life t = .received → g'.life t = .received) ∧
      (g.freeGc t = true → g'.freeGc t = true))
    (hh : ∀ t, x.hand = some t → g'.nextGc t = g.nextGc t ∧ g'.nextFree t = g.nextFree t ∧
      g'.freeGc t = g.freeGc t ∧ g'.life t = g.life t) : x.Knows g' b := by
  cases x with
  | server s => exact ServerPc.Knows.stable hk hq hh
  | worker w => trivial

/-! ### The life of the tasks -/

namespace LifeOk

omit [DecidableEq ι] in
/-- A task outside the lists of the servers is neither queued nor run. -/
theorem apart (h : LifeOk g loc place) (hp : ∀ i, place t ≠ .gc i) :
    g.life t ≠ .queued ∧ ∀ j, (loc j).work ≠ some t :=
  ⟨fun hl => (h.shared t (.inl hl)).elim hp, fun j hj => (h.shared t (.inr ⟨j, hj⟩)).elim hp⟩

omit [DecidableEq ι] in
/-- A worker's task is running or executed. -/
theorem working (h : LifeOk g loc place) {j : ι} (hj : (loc j).work = some t) :
    g.life t = .running ∨ g.life t = .executed := by
  obtain ⟨⟨u, a⟩, hu, rfl⟩ := Option.map_eq_some_iff.mp hj
  have hl := h.job j u a hu
  cases hx : loc j with
  | server s => simp [hx, Thread.job] at hu
  | worker w => cases w <;> simp_all [Thread.job, Worker.job]

omit [DecidableEq ι] in
/-- A task that a server has just received is run by nobody. -/
theorem not_work (h : LifeOk g loc place) (hl : g.life t = .received) (j : ι) :
    (loc j).work ≠ some t := by
  intro hj
  rcases h.working hj with he | he <;> simp [hl] at he

theorem job_update (hw : x'.job = (loc i).job) (j : ι) :
    (Function.update loc i x' j).job = (loc j).job := by
  by_cases hj : j = i
  · subst hj
    rw [Function.update_self, hw]
  · rw [Function.update_of_ne hj]

theorem work_update (hw : x'.job = (loc i).job) (j : ι) :
    (Function.update loc i x' j).work = (loc j).work :=
  congrArg (Option.map Prod.fst) (job_update hw j)

/-- A step that changes the data of one task that is neither queued nor run. -/
theorem one (h : LifeOk g loc place) (t : ℕ) (hw : x'.job = (loc i).job)
    (hq : g'.queue = g.queue) (hne : g.life t ≠ .queued) (hne' : g'.life t ≠ .queued)
    (hnw : ∀ j, (loc j).work ≠ some t) (hl : ∀ u, u ≠ t → g'.life u = g.life u)
    (hf : ∀ u, u ≠ t → g'.freeGc u = g.freeGc u) (hp : ∀ u, u ≠ t → place' u = place u)
    (ho : g'.freeGc t = true → (g'.life t).ended) (hi : place' t = .free → g'.freeGc t = false) :
    LifeOk g' (Function.update loc i x') place' := by
  refine ⟨by rw [hq]; exact h.nodup, fun u => ?_, fun j u a hj => ?_, fun j k u hj hk => ?_,
    fun u hu => ?_, fun u hu => ?_, fun u hu => ?_⟩
  · rw [hq, h.queue]
    by_cases hut : u = t
    · subst hut
      exact ⟨fun he => absurd he hne, fun he => absurd he hne'⟩
    · rw [hl u hut]
  · rw [job_update hw] at hj
    have hut : u ≠ t := by
      rintro rfl
      exact hnw j (congrArg (Option.map Prod.fst) hj)
    rw [hl u hut]
    exact h.job j u a hj
  · rw [work_update hw] at hj hk
    exact h.unique j k u hj hk
  · have hut : u ≠ t := by
      rintro rfl
      rcases hu with hu | ⟨j, hj⟩
      · exact hne' hu
      · rw [work_update hw] at hj
        exact hnw j hj
    rw [hp u hut]
    refine h.shared u ?_
    rcases hu with hu | ⟨j, hj⟩
    · exact .inl (by rw [← hl u hut]; exact hu)
    · rw [work_update hw] at hj
      exact .inr ⟨j, hj⟩
  · by_cases hut : u = t
    · subst hut
      exact ⟨ho hu, fun j => by rw [work_update hw]; exact hnw j⟩
    · rw [hf u hut] at hu
      obtain ⟨h₁, h₂⟩ := h.ended u hu
      exact ⟨by rw [hl u hut]; exact h₁, fun j => by rw [work_update hw]; exact h₂ j⟩
  · by_cases hut : u = t
    · subst hut
      exact hi hu
    · rw [hp u hut] at hu
      rw [hf u hut]
      exact h.idle u hu

theorem keep (h : LifeOk g loc place) (hw : x'.job = (loc i).job) (hq : g'.queue = g.queue)
    (hl : g'.life = g.life) (hf : g'.freeGc = g.freeGc) :
    LifeOk g' (Function.update loc i x') place := by
  refine ⟨by rw [hq]; exact h.nodup, fun u => by rw [hq, hl]; exact h.queue u, fun j u a hj => ?_,
    fun j k u hj hk => ?_, fun u hu => ?_, fun u hu => ?_, fun u hu => by rw [hf]; exact h.idle u hu⟩
  · rw [job_update hw] at hj
    rw [hl]
    exact h.job j u a hj
  · rw [work_update hw] at hj hk
    exact h.unique j k u hj hk
  · simp only [work_update hw, hl] at hu
    exact h.shared u hu
  · rw [hf] at hu
    simp only [work_update hw, hl]
    exact h.ended u hu

end LifeOk

/-! ### The counter and the whole -/

variable [Fintype ι]

theorem CountOk.step (h : CountOk g loc l)
    (hn : g'.numFreeTasks + x'.late + l.length + (loc i).early =
      g.numFreeTasks + (loc i).late + l'.length + x'.early) :
    CountOk g' (Function.update loc i x') l' := by
  have hlate := sum_update_add Finset.univ Thread.late loc (Finset.mem_univ i) x'
  have hearly := sum_update_add Finset.univ Thread.early loc (Finset.mem_univ i) x'
  unfold CountOk at h ⊢
  omega

theorem Good.step (h : Good size g loc l q place) {b : List ℕ}
    (hp : Places size (Function.update loc i x') l' (Function.update q i b) place')
    (hf : FreeOk g' (Function.update loc i x') l') (ho : Others i place g g')
    (hg : Chain g'.nextGc x'.gcHead b ∧ b.Nodup) (hk : x'.Knows g' b)
    (hl : LifeOk g' (Function.update loc i x') place')
    (hn : g'.numFreeTasks + x'.late + l.length + (loc i).early =
      g.numFreeTasks + (loc i).late + l'.length + x'.early) :
    Good size g' (Function.update loc i x') l' (Function.update q i b) place' := by
  have hgc : ∀ j, j ≠ i → ∀ t ∈ q j, place t = .gc j := fun j _ t ht => (h.places.gc t j).mp ht
  refine ⟨hp, hf, fun j => ?_, fun j => ?_, hl, h.count.step hn⟩
  · by_cases hj : j = i
    · subst hj
      rw [Function.update_self, Function.update_self]
      exact hg
    · rw [Function.update_of_ne hj, Function.update_of_ne hj]
      exact ⟨(h.gc j).1.congr fun t ht => ((ho j hj t).1 (hgc j hj t ht)).1, (h.gc j).2⟩
  · by_cases hj : j = i
    · subst hj
      rw [Function.update_self, Function.update_self]
      exact hk
    · rw [Function.update_of_ne hj, Function.update_of_ne hj]
      exact (h.knows j).stable (fun t ht => (ho j hj t).1 (hgc j hj t ht))
        fun t ht => (ho j hj t).2 ((h.places.hand t j).mp ht)

/-- A step that moves no task. -/
theorem Good.stay (h : Good size g loc l q place) (hh : x'.hand = (loc i).hand)
    (hf : FreeOk g' (Function.update loc i x') l) (ho : Others i place g g')
    (hg : Chain g'.nextGc x'.gcHead (q i)) (hk : x'.Knows g' (q i))
    (hl : LifeOk g' (Function.update loc i x') place)
    (hn : g'.numFreeTasks + x'.late + (loc i).early = g.numFreeTasks + (loc i).late + x'.early) :
    Good size g' (Function.update loc i x') l q place := by
  have hp : Places size (Function.update loc i x') l (Function.update q i (q i)) place := by
    rw [Function.update_eq_self]
    exact h.places.keep hh
  have hs := h.step hp hf ho ⟨hg, (h.gc i).2⟩ hk hl (by omega)
  rwa [Function.update_eq_self] at hs

omit [DecidableEq ι] [Fintype ι] in
/-- A step that writes at most fields that no way depends on. -/
def Same (g g' : Store ι) : Prop :=
  g' = { g with
    priority := g'.priority
    transaction := g'.transaction
    statsValid := g'.statsValid }

/-- A step that changes nothing of the tasks and the pool. -/
theorem Good.quiet (h : Good size g loc l q place) (hg : Same g g')
    (hh : x'.hand = (loc i).hand) (hx : x'.holds = (loc i).holds)
    (ht : x'.holds = true → (loc i).TailOk g.tail l → x'.TailOk g.tail l)
    (hgh : x'.gcHead = (loc i).gcHead) (hw : x'.job = (loc i).job) (he : x'.early = (loc i).early)
    (hla : x'.late = (loc i).late) (hk : x'.Knows g (q i)) :
    Good size g' (Function.update loc i x') l q place := by
  have hlk : g'.lock = g.lock := by rw [hg]
  have hhd : g'.head = g.head := by rw [hg]
  have htl : g'.tail = g.tail := by rw [hg]
  have hnf : g'.nextFree = g.nextFree := by rw [hg]
  have hng : g'.nextGc = g.nextGc := by rw [hg]
  have hfg : g'.freeGc = g.freeGc := by rw [hg]
  have hqu : g'.queue = g.queue := by rw [hg]
  have hli : g'.life = g.life := by rw [hg]
  have hnm : g'.numFreeTasks = g.numFreeTasks := by rw [hg]
  have hk' : x'.Knows g' (q i) := Thread.Knows.stable hk
    (fun t _ => ⟨by rw [hng], by rw [hli]; exact id, by rw [hfg]; exact id⟩)
    (fun t _ => ⟨by rw [hng], by rw [hnf], by rw [hfg], by rw [hli]⟩)
  refine h.stay hh ?_ (.refl hng hnf hfg hli) (by rw [hng, hgh]; exact (h.gc i).1) hk'
    (h.life.keep hw hqu hli hfg) (by omega)
  cases hxi : (loc i).holds with
  | false =>
    exact h.free.off hxi (hx.trans hxi) hlk hhd htl fun u _ => by rw [hnf]
  | true =>
    have hlock := (h.free.lock i).mp hxi
    refine h.free.on hxi (hx.trans hxi) hlk (by rw [hnf, hhd]; exact h.free.chain) h.free.nodup ?_
    rw [htl]
    exact ht (hx.trans hxi) (h.free.held i hlock)

end TinyStm.Pool
