import TinyStm.Pool.Parts

/-!
# The steps of servers and workers

One lemma for each step of `GetTask`, `FreeTask`, `gc_clean`, `server_runMethod` and of
the loop of a worker.
-/

namespace TinyStm.Pool

open Interleave

variable {ι : Type*} [DecidableEq ι] [Fintype ι] {size : ℕ} {g g' : Store ι} {loc : ι → Thread}
  {l : List ℕ} {q : ι → List ℕ} {place : ℕ → Place ι} {i : ι} {x' : Thread} {t : ℕ}

/-- The invariant of the runs. -/
def Inv (size : ℕ) (g : Store ι) (loc : ι → Thread) : Prop :=
  ∃ l q place, Good size g loc l q place

omit [DecidableEq ι] in
theorem Good.inv (h : Good size g loc l q place) : Inv size g loc := ⟨l, q, place, h⟩

/-! ### Resetting a field of the task in hand -/

omit [DecidableEq ι] [Fintype ι] in
theorem Store.reset_pool (f : Field) : (g.reset t f).lock = g.lock ∧ (g.reset t f).head = g.head ∧
    (g.reset t f).tail = g.tail ∧ (g.reset t f).numFreeTasks = g.numFreeTasks ∧
    (g.reset t f).queue = g.queue ∧ (g.reset t f).life = g.life := by
  cases f <;> exact ⟨rfl, rfl, rfl, rfl, rfl, rfl⟩

omit [DecidableEq ι] [Fintype ι] in
theorem Store.reset_other (f : Field) {u : ℕ} (hu : u ≠ t) :
    (g.reset t f).nextGc u = g.nextGc u ∧ (g.reset t f).nextFree u = g.nextFree u ∧
    (g.reset t f).freeGc u = g.freeGc u := by
  cases f <;> simp [Store.reset, Function.update_of_ne hu]

omit [DecidableEq ι] [Fintype ι] in
theorem Store.reset_freeGc (f : Field) (h : (g.reset t f).freeGc t = true) : g.freeGc t = true := by
  cases f <;> simp_all [Store.reset]

theorem Good.reset (h : Good size g loc l q place) (f : Field) (hh : (loc i).hand = some t)
    (hh' : x'.hand = some t) (hx : (loc i).holds = false) (hx' : x'.holds = false)
    (hgh : x'.gcHead = (loc i).gcHead) (hw : x'.job = (loc i).job) (he : x'.early = (loc i).early)
    (hla : x'.late = (loc i).late) (hk : x'.Knows (g.reset t f) (q i)) :
    Inv size (g.reset t f) (Function.update loc i x') := by
  obtain ⟨h₁, h₂, h₃, h₄, h₅, h₆⟩ := Store.reset_pool (g := g) (t := t) f
  have hp : place t = .hand i := (h.places.hand t i).mp hh
  have hne : ∀ u, place u ≠ .hand i → u ≠ t := by
    rintro u hu rfl
    exact hu hp
  have hl : ∀ u ∈ l, u ≠ t := fun u hu => hne u (by simp [(h.places.free u).mp hu])
  have hq : ∀ u ∈ q i, u ≠ t := fun u hu => hne u (by simp [(h.places.gc u i).mp hu])
  obtain ⟨hnq, hnw⟩ := h.life.apart (t := t) (by simp [hp])
  refine (h.stay (hh'.trans hh.symm) ?_ ?_ ?_ hk ?_ (by omega)).inv
  · exact h.free.off hx hx' h₁ h₂ h₃ fun u hu => (Store.reset_other f (hl u hu)).2.1
  · refine .of_own fun u _ hu _ => ?_
    obtain ⟨e₁, e₂, e₃⟩ := Store.reset_other (g := g) f (hne u hu)
    exact ⟨e₁, e₂, e₃, by rw [h₆]⟩
  · rw [hgh]
    exact (h.gc i).1.congr fun u hu => (Store.reset_other f (hq u hu)).1
  · refine h.life.one t hw h₅ hnq (by rw [h₆]; exact hnq) hnw (fun u _ => by rw [h₆])
      (fun u hu => (Store.reset_other f hu).2.2) (fun _ _ => rfl) (fun hf => ?_) (by simp [hp])
    rw [h₆]
    exact (h.life.ended t (Store.reset_freeGc f hf)).1

/-! ### Steps of a server -/

section Server

variable {s s' : Server}

/-- A step of a server that changes nothing of the tasks and the pool. -/
theorem Good.quiet_server (h : Good size g loc l q place) (hi : loc i = .server s) (hg : Same g g')
    (hgh : s'.gcHead = s.gcHead) (hh : s'.pc.hand = s.pc.hand) (hx : s'.pc.holds = s.pc.holds)
    (ht : s'.pc.holds = true → s.pc.TailOk g.tail l → s'.pc.TailOk g.tail l)
    (he : s'.pc.early = s.pc.early) (hla : s'.pc.late = s.pc.late)
    (hk : s'.pc.Knows g (q i) s.gcHead) :
    Good size g' (Function.update loc i (.server s')) l q place := by
  refine h.quiet hg ?_ ?_ ?_ ?_ ?_ ?_ ?_ ?_
  · rw [hi]; exact hh
  · rw [hi]; exact hx
  · rw [hi]; exact ht
  · rw [hi]; exact hgh
  · rw [hi]; rfl
  · rw [hi]; exact he
  · rw [hi]; exact hla
  · show s'.pc.Knows g (q i) s'.gcHead
    rw [hgh]
    exact hk

/-- Outside the free list. -/
theorem Good.away (h : Good size g loc l q place) (hi : loc i = .server s) (hg : Same g g')
    (hgh : s'.gcHead = s.gcHead) (hh : s'.pc.hand = s.pc.hand) (hx : s.pc.holds = false)
    (hx' : s'.pc.holds = false) (he : s'.pc.early = s.pc.early) (hla : s'.pc.late = s.pc.late)
    (hk : s'.pc.Knows g (q i) s.gcHead) :
    Good size g' (Function.update loc i (.server s')) l q place :=
  h.quiet_server hi hg hgh hh (hx'.trans hx.symm) (fun hn => by simp [hx'] at hn) he hla hk

/-- A step that changes lock, tail and counter of the pool at most. -/
theorem Good.pool (h : Good size g loc l q place) (hi : loc i = .server s)
    (hg : g' = { g with lock := g'.lock, tail := g'.tail, numFreeTasks := g'.numFreeTasks })
    (hgh : s'.gcHead = s.gcHead) (hh : s'.pc.hand = s.pc.hand)
    (hf : FreeOk g' (Function.update loc i (.server s')) l)
    (hn : g'.numFreeTasks + s'.pc.late + s.pc.early = g.numFreeTasks + s.pc.late + s'.pc.early)
    (hk : s'.pc.Knows g (q i) s.gcHead) :
    Good size g' (Function.update loc i (.server s')) l q place := by
  have hnf : g'.nextFree = g.nextFree := by rw [hg]
  have hng : g'.nextGc = g.nextGc := by rw [hg]
  have hfg : g'.freeGc = g.freeGc := by rw [hg]
  have hqu : g'.queue = g.queue := by rw [hg]
  have hli : g'.life = g.life := by rw [hg]
  have hgc := (h.gc i).1
  rw [hi] at hgc
  have hk' : s'.pc.Knows g' (q i) s'.gcHead := by
    rw [hgh]
    exact hk.stable (fun t _ => ⟨by rw [hng], by rw [hli]; exact id, by rw [hfg]; exact id⟩)
      fun t _ => ⟨by rw [hng], by rw [hnf], by rw [hfg], by rw [hli]⟩
  refine h.stay ?_ hf (.refl hng hnf hfg hli) ?_ hk' (h.life.keep ?_ hqu hli hfg) ?_
  · rw [hi]; exact hh
  · show Chain g'.nextGc s'.gcHead (q i)
    rw [hng, hgh]
    exact hgc
  · rw [hi]; rfl
  · rw [hi]; exact hn

end Server

/-! ### `GetTask` -/

section

variable {conn txs : ℤ} {period : ℕ} {gh : Option ℕ} {r : Request} {st : Get}

theorem Good.get_pop (h : Good size g loc l q place) {n : Option ℕ}
    (hi : loc i = .server ⟨conn, txs, period, gh, .get r (.setHead t n)⟩) :
    Inv size { g.setLife t .received with head := n }
      (Function.update loc i (.server ⟨conn, txs, period, gh, .get r (.testEmpty t)⟩)) := by
  have hx : (loc i).holds = true := by rw [hi]; rfl
  have hlock := (h.free.lock i).mp hx
  have hknow := h.free.held i hlock
  rw [hi] at hknow
  obtain ⟨htail, hhead, hn⟩ := hknow
  obtain ⟨l, rfl⟩ : ∃ l', l = t :: l' := by
    cases l with
    | nil => cases hhead
    | cons u l => exact ⟨l, by rw [Option.some.inj hhead]⟩
  have hchain : Chain g.nextFree n l := by
    have hc := h.free.chain.2
    have hn' : l.head? = n := hn
    rwa [hc.head_eq, hn'] at hc
  obtain ⟨hnot, hnodup⟩ := List.nodup_cons.mp h.free.nodup
  have hp : place t = .free := (h.places.free t).mp List.mem_cons_self
  obtain ⟨hnq, hnw⟩ := h.life.apart (t := t) (by simp [hp])
  have hown : ∀ u, place u ≠ .free → u ≠ t := by
    rintro u hu rfl
    exact hu hp
  have hq : Function.update q i (q i) = q := Function.update_eq_self ..
  have hplaces : Places size
      (Function.update loc i (.server ⟨conn, txs, period, gh, .get r (.testEmpty t)⟩)) l
      (Function.update q i (q i)) (Function.update place t (.hand i)) := by
    rw [hq]
    exact h.places.pop (by rw [hi]; rfl) rfl hnot
  refine (h.step hplaces ?_ ?_ ⟨?_, (h.gc i).2⟩ ?_ ?_ ?_).inv
  · refine h.free.on hx rfl rfl hchain hnodup fun hne => ?_
    show g.tail = l.getLast?
    rw [htail, List.getLast?_cons_of_ne_nil hne]
  · refine .of_own fun u _ _ hu => ⟨rfl, rfl, rfl, ?_⟩
    exact Function.update_of_ne (hown u hu) _ _
  · have hgc := (h.gc i).1
    rw [hi] at hgc
    exact hgc
  · rintro u ⟨⟩
    exact Function.update_self ..
  · refine h.life.one t (by rw [hi]; rfl) rfl hnq ?_ hnw (fun u hu => Function.update_of_ne hu _ _)
      (fun _ _ => rfl) (fun u hu => Function.update_of_ne hu _ _) (fun hf => ?_) (by simp)
    · simp [Store.setLife]
    · have hidle : g.freeGc t = false := h.life.idle t hp
      exact absurd (hidle.symm.trans hf) (by simp)
  · rw [hi]
    simp [Thread.late, Thread.early, ServerPc.late, ServerPc.early, Get.early, Store.setLife]
    omega

theorem Cut.start {a : List ℕ} {n : ℕ → Option ℕ} {b : Option ℕ} (h : Chain n b a) : Cut a none b :=
  ⟨[], a, rfl, rfl, h.head_eq⟩

omit [DecidableEq ι] [Fintype ι] in
theorem Same.refl (g : Store ι) : Same g g := rfl

/-- Where the result of `GetTask` leads. -/
def getPc (r : Request) (gh : Option ℕ) : Get ⊕ Option ℕ → ServerPc
  | .inl st => .get r st
  | .inr none => .clean (.retry r) (.visit none gh)
  | .inr (some t) => .gcNext r t

theorem Good.get_step (h : Good size g loc l q place)
    (hi : loc i = .server ⟨conn, txs, period, gh, .get r st⟩) {o : Get ⊕ Option ℕ}
    (hs : st.step i g = some (g', o)) :
    Inv size g' (Function.update loc i (.server ⟨conn, txs, period, gh, getPc r gh o⟩)) := by
  have hgc := (h.gc i).1
  have hknow := h.knows i
  rw [hi] at hgc hknow
  have hchain := h.free.chain
  have hg := Same.refl g
  have hheld : (loc i).holds = true → (Get.TailOk g.tail l st) := fun hx => by
    have htail := h.free.held i ((h.free.lock i).mp hx)
    rw [hi] at htail
    exact htail
  have hnone : ∀ {t : ℕ} {p : Prop}, (none : Option ℕ) = some t → p := fun ht => by cases ht
  cases st with
  | testHead =>
    simp only [Get.step, Option.some.injEq, Prod.mk.injEq] at hs
    obtain ⟨rfl, rfl⟩ := hs
    by_cases hn : g.head.isNone = true
    · rw [if_pos hn]
      exact ⟨l, q, place, h.away hi hg rfl rfl rfl rfl rfl rfl (Cut.start hgc)⟩
    · rw [if_neg hn]
      exact ⟨l, q, place, h.away hi hg rfl rfl rfl rfl rfl rfl fun _ => hnone⟩
  | trylock =>
    simp only [Get.step, Option.some.injEq] at hs
    by_cases hn : g.lock.isNone = true
    · rw [if_pos hn] at hs
      cases hs
      have hlock : FreeOk { g with lock := some i }
          (Function.update loc i (.server ⟨conn, txs, period, gh, .get r .recheck⟩)) l :=
        h.free.take (by rw [hi]; rfl) rfl (by simpa using hn) rfl id
      exact ⟨l, q, place, h.pool hi rfl rfl rfl hlock rfl fun _ => hnone⟩
    · rw [if_neg hn] at hs
      cases hs
      exact ⟨l, q, place, h.away hi hg rfl rfl rfl rfl rfl rfl fun _ => hnone⟩
  | recheck =>
    simp only [Get.step, Option.some.injEq, Prod.mk.injEq] at hs
    obtain ⟨rfl, rfl⟩ := hs
    by_cases hn : g.head.isNone = true
    · rw [if_pos hn]
      exact ⟨l, q, place, h.quiet_server hi hg rfl rfl rfl (fun _ ht => ht) rfl rfl fun _ => hnone⟩
    · rw [if_neg hn]
      refine ⟨l, q, place, h.quiet_server hi hg rfl rfl rfl (fun _ ht => ⟨ht, fun he => hn ?_⟩) rfl rfl
        fun _ => hnone⟩
      simp [hchain.eq_nil_iff.mpr he]
  | loadHead =>
    simp only [Get.step, Option.map_eq_some_iff, Prod.mk.injEq] at hs
    obtain ⟨t, ht, rfl, rfl⟩ := hs
    exact ⟨l, q, place, h.quiet_server hi hg rfl rfl rfl
      (fun _ htail => ⟨htail.1, hchain.head_eq.symm.trans ht⟩) rfl rfl fun _ => hnone⟩
  | loadNext t =>
    cases hs
    refine ⟨l, q, place, h.quiet_server hi hg rfl rfl rfl (fun _ htail => ⟨htail.1, htail.2, ?_⟩) rfl rfl
      fun _ => hnone⟩
    match l, htail.2, hchain with
    | _ :: l, rfl, hc => exact hc.2.head_eq.symm
  | setHead t n =>
    cases hs
    exact h.get_pop hi
  | testEmpty t =>
    simp only [Get.step, Option.some.injEq, Prod.mk.injEq] at hs
    obtain ⟨rfl, rfl⟩ := hs
    by_cases hn : g.head.isNone = true
    · rw [if_pos hn]
      exact ⟨l, q, place, h.quiet_server hi hg rfl rfl rfl
        (fun _ _ => hchain.eq_nil_iff.mp (by simpa using hn)) rfl rfl hknow⟩
    · rw [if_neg hn]
      exact ⟨l, q, place, h.quiet_server hi hg rfl rfl rfl
        (fun _ htail => htail fun he => hn (by simp [hchain.eq_nil_iff.mpr he])) rfl rfl hknow⟩
  | clearTail t =>
    cases hs
    have hx : (loc i).holds = true := by rw [hi]; rfl
    have hnil : l = [] := hheld hx
    have hfree : FreeOk { g with tail := none }
        (Function.update loc i (.server ⟨conn, txs, period, gh, .get r (.unlock (some t))⟩)) l :=
      h.free.on hx rfl rfl hchain h.free.nodup (by rw [hnil]; rfl)
    exact ⟨l, q, place, h.pool hi rfl rfl rfl hfree rfl hknow⟩
  | unlock t =>
    have hx : (loc i).holds = true := by rw [hi]; rfl
    have htail : g.tail = l.getLast? := hheld hx
    cases t with
    | none =>
      cases hs
      exact ⟨l, q, place, h.pool hi rfl rfl rfl (h.free.drop hx rfl rfl htail) rfl fun _ => hnone⟩
    | some t =>
      cases hs
      exact ⟨l, q, place, h.pool hi rfl rfl rfl (h.free.drop hx rfl rfl htail) rfl hknow⟩
  | dec t =>
    cases hs
    have hfree : FreeOk { g with numFreeTasks := g.numFreeTasks - 1 }
        (Function.update loc i (.server ⟨conn, txs, period, gh, .get r (.reset t getFields)⟩)) l :=
      h.free.off (by rw [hi]; rfl) rfl rfl rfl rfl fun _ _ => rfl
    refine ⟨l, q, place, h.pool hi rfl rfl rfl hfree ?_ hknow⟩
    show g.numFreeTasks - 1 + 0 + 1 = g.numFreeTasks + 0 + 0
    omega
  | reset t todo =>
    cases todo with
    | nil =>
      cases hs
      exact ⟨l, q, place, h.away hi hg rfl rfl rfl rfl rfl rfl (hknow t rfl)⟩
    | cons f todo =>
      cases hs
      refine h.reset f ?_ rfl ?_ rfl ?_ ?_ ?_ ?_ fun u hu => ?_
      all_goals first | (rw [hi]; rfl) | skip
      have hlife : (g.reset t f).life = g.life := (Store.reset_pool f).2.2.2.2.2
      rw [hlife]
      exact hknow u hu

end

/-! ### `FreeTask` -/

section

variable {conn txs : ℤ} {period : ℕ} {gh prev : Option ℕ} {k : CleanFrom} {st st' : Free}

/-- The task goes to the end of the free list. -/
theorem Good.free_push (h : Good size g loc l q place)
    (hi : loc i = .server ⟨conn, txs, period, gh, .clean k (.free prev t st)⟩)
    {nf : ℕ → Option ℕ} {hd : Option ℕ} (hs : st.hands = true ∧ st.holds = true ∧ st.late = 0)
    (hs' : st'.hands = false ∧ st'.holds = true ∧ st'.late = 1) (hfg : g.freeGc t = false)
    (hnf : ∀ u, u ∉ l → nf u = g.nextFree u) (hchain : Chain nf hd (l ++ [t]))
    (htail : st'.TailOk t g.tail (l ++ [t])) :
    Inv size { g.setLife t .free with nextFree := nf, head := hd }
      (Function.update loc i (.server ⟨conn, txs, period, gh, .clean k (.free prev t st')⟩)) := by
  have hknow := h.knows i
  have hgc := (h.gc i).1
  rw [hi] at hknow hgc
  have hhand : (loc i).hand = some t := by
    rw [hi]
    exact if_pos hs.1
  have hhand' : (Thread.server ⟨conn, txs, period, gh, .clean k (.free prev t st')⟩).hand = none :=
    if_neg (by simp [hs'.1])
  have hx : (loc i).holds = true := by
    rw [hi]
    exact hs.2.1
  have hp : place t = .hand i := (h.places.hand t i).mp hhand
  have hnl : t ∉ l := fun hm => by simp [(h.places.free t).mp hm] at hp
  obtain ⟨hnq, hnw⟩ := h.life.apart (t := t) (by simp [hp])
  have hq : Function.update q i (q i) = q := Function.update_eq_self ..
  have hplaces : Places size (Function.update loc i (.server ⟨conn, txs, period, gh,
      .clean k (.free prev t st')⟩)) (l ++ [t]) (Function.update q i (q i))
      (Function.update place t .free) := by
    rw [hq]
    exact h.places.push hhand hhand'
  have hst : ∀ g'' : Store ι, st'.Knows g'' t := fun g'' => by
    cases st' <;> trivial
  refine ⟨l ++ [t], _, _, h.step hplaces ?_ ?_ ⟨hgc, (h.gc i).2⟩ ?_ ?_ ?_⟩
  · refine h.free.on hx hs'.2.1 rfl hchain ?_ htail
    rw [List.nodup_append]
    exact ⟨h.free.nodup, List.nodup_singleton t, fun u hu v hv => by
      rw [List.mem_singleton.mp hv]
      exact ne_of_mem_of_not_mem hu hnl⟩
  · refine .of_own fun u _ hu hu' => ?_
    have hut : u ≠ t := by
      rintro rfl
      exact hu hp
    exact ⟨rfl, hnf u fun hm => hu' ((h.places.free u).mp hm), rfl, Function.update_of_ne hut _ _⟩
  · exact ⟨hknow.1, fun hn => by simp [hs'.1] at hn, hst _⟩
  · refine h.life.one t (by rw [hi]; rfl) rfl hnq ?_ hnw (fun u hu => Function.update_of_ne hu _ _)
      (fun _ _ => rfl) (fun u hu => Function.update_of_ne hu _ _) (fun hf => ?_) fun _ => hfg
    · simp [Store.setLife]
    · exact absurd (hfg.symm.trans hf) (by simp)
  · rw [hi]
    simp only [Thread.late, Thread.early, ServerPc.late, ServerPc.early, Store.setLife, hs.2.2,
      hs'.2.2, List.length_append, List.length_singleton]
    omega

theorem Good.free_step (h : Good size g loc l q place)
    (hi : loc i = .server ⟨conn, txs, period, gh, .clean k (.free prev t st)⟩) {o : Option Free}
    (hs : st.step i t g = some (g', o)) :
    Inv size g' (Function.update loc i (.server ⟨conn, txs, period, gh,
      .clean k (o.elim (.next prev) (.free prev t))⟩)) := by
  have hgc := (h.gc i).1
  have hknow := h.knows i
  rw [hi] at hgc hknow
  obtain ⟨hcut, hended, hst⟩ := hknow
  have hchain := h.free.chain
  have hg := Same.refl g
  have hheld : (loc i).holds = true → st.TailOk t g.tail l := fun hx => by
    have htail := h.free.held i ((h.free.lock i).mp hx)
    rw [hi] at htail
    exact htail
  cases st with
  | reset todo =>
    cases todo with
    | nil =>
      cases hs
      exact ⟨l, q, place, h.away hi hg rfl rfl rfl rfl rfl rfl
        ⟨hcut, hended, hst.1 (by simp), hst.2 (by simp)⟩⟩
    | cons f todo =>
      cases hs
      have hlife : (g.reset t f).life = g.life := (Store.reset_pool f).2.2.2.2.2
      refine h.reset f ?_ rfl ?_ rfl ?_ ?_ ?_ ?_ ⟨hcut, fun _ => ?_, fun hn => ?_, fun hn => ?_⟩
      all_goals first | (rw [hi]; rfl) | skip
      · rw [hlife]
        exact hended rfl
      · by_cases hf : f = .nextFree
        · subst hf
          exact Function.update_self ..
        · have hold := hst.1 (by simp [Ne.symm hf, hn])
          cases f <;> first | exact hold | exact absurd rfl hf
      · by_cases hf : f = .freeGc
        · subst hf
          exact Function.update_self ..
        · have hold := hst.2 (by simp [Ne.symm hf, hn])
          cases f <;> first | exact hold | exact absurd rfl hf
  | lock =>
    simp only [Free.step, Option.some.injEq] at hs
    by_cases hn : g.lock.isNone = true
    · rw [if_pos hn] at hs
      cases hs
      have hlock : FreeOk { g with lock := some i }
          (Function.update loc i
            (.server ⟨conn, txs, period, gh, .clean k (.free prev t .testTail)⟩)) l :=
        h.free.take (by rw [hi]; rfl) rfl (by simpa using hn) rfl id
      exact ⟨l, q, place, h.pool hi rfl rfl rfl hlock rfl ⟨hcut, hended, hst⟩⟩
    · rw [if_neg hn] at hs
      cases hs
      exact ⟨l, q, place, h.away hi hg rfl rfl rfl rfl rfl rfl ⟨hcut, hended, hst⟩⟩
  | testTail =>
    simp only [Free.step, Option.some.injEq, Prod.mk.injEq] at hs
    obtain ⟨rfl, rfl⟩ := hs
    by_cases hn : g.tail.isNone = true
    · rw [if_pos hn]
      refine ⟨l, q, place, h.quiet_server hi hg rfl rfl rfl (fun _ ht => ?_) rfl rfl
        ⟨hcut, hended, hst⟩⟩
      have he : g.tail = l.getLast? := ht
      rw [Option.isNone_iff_eq_none.mp hn] at he
      exact List.getLast?_eq_none_iff.mp he.symm
    · rw [if_neg hn]
      refine ⟨l, q, place, h.quiet_server hi hg rfl rfl rfl (fun _ ht => ⟨ht, ?_⟩) rfl rfl
        ⟨hcut, hended, hst⟩⟩
      have he : g.tail = l.getLast? := ht
      rintro rfl
      exact hn (by simp [he])
  | loadTail =>
    simp only [Free.step, Option.map_eq_some_iff, Prod.mk.injEq] at hs
    obtain ⟨last, hlast, rfl, rfl⟩ := hs
    exact ⟨l, q, place, h.quiet_server hi hg rfl rfl rfl
      (fun _ htail => htail.1.symm.trans hlast) rfl rfl ⟨hcut, hended, hst⟩⟩
  | link last =>
    cases hs
    have hlast : l.getLast? = some last := hheld (by rw [hi]; rfl)
    have hhand : (loc i).hand = some t := by rw [hi]; rfl
    have hp : place t = .hand i := (h.places.hand t i).mp hhand
    have hnl : t ∉ l := fun hm => by simp [(h.places.free t).mp hm] at hp
    have hmem : last ∈ l := List.mem_of_getLast? hlast
    refine h.free_push hi ⟨rfl, rfl, rfl⟩ ⟨rfl, rfl, rfl⟩ hst.2 (fun u hu => ?_)
      (hchain.link h.free.nodup hlast hnl hst.1) ?_
    · exact Function.update_of_ne (ne_of_mem_of_not_mem hmem hu).symm _ _
    · exact List.getLast?_concat
  | setTail =>
    cases hs
    have hx : (loc i).holds = true := by rw [hi]; rfl
    have hlast : l.getLast? = some t := hheld hx
    have hfree : FreeOk { g with tail := some t }
        (Function.update loc i (.server ⟨conn, txs, period, gh, .clean k (.free prev t .unlock)⟩)) l :=
      h.free.on hx rfl rfl hchain h.free.nodup hlast.symm
    exact ⟨l, q, place, h.pool hi rfl rfl rfl hfree rfl ⟨hcut, hended, trivial⟩⟩
  | setFirst =>
    cases hs
    have hx : (loc i).holds = true := by rw [hi]; rfl
    have hnil : l = [] := hheld hx
    have hfree : FreeOk { g with tail := some t }
        (Function.update loc i (.server ⟨conn, txs, period, gh, .clean k (.free prev t .setHead)⟩)) l :=
      h.free.on hx rfl rfl hchain h.free.nodup ⟨hnil, rfl⟩
    exact ⟨l, q, place, h.pool hi rfl rfl rfl hfree rfl ⟨hcut, hended, hst⟩⟩
  | setHead =>
    cases hs
    obtain ⟨rfl, htail⟩ : l = [] ∧ g.tail = some t := hheld (by rw [hi]; rfl)
    exact h.free_push hi ⟨rfl, rfl, rfl⟩ ⟨rfl, rfl, rfl⟩ hst.2 (fun _ _ => rfl) ⟨rfl, hst.1⟩ htail
  | unlock =>
    cases hs
    have hx : (loc i).holds = true := by rw [hi]; rfl
    have htail : g.tail = l.getLast? := hheld hx
    exact ⟨l, q, place, h.pool hi rfl rfl rfl (h.free.drop hx rfl rfl htail) rfl
      ⟨hcut, hended, trivial⟩⟩
  | inc =>
    cases hs
    have hfree : FreeOk { g with numFreeTasks := g.numFreeTasks + 1 }
        (Function.update loc i (.server ⟨conn, txs, period, gh, .clean k (.next prev)⟩)) l :=
      h.free.off (by rw [hi]; rfl) rfl rfl rfl rfl fun _ _ => rfl
    refine ⟨l, q, place, h.pool hi rfl rfl rfl hfree ?_ hcut⟩
    show g.numFreeTasks + 1 + 0 + 0 = g.numFreeTasks + 1 + 0
    omega

end

/-! ### `gc_clean` -/

omit [DecidableEq ι] [Fintype ι] in
theorem Cut.after {n : ℕ → Option ℕ} {b : Option ℕ} {a : List ℕ} (h : Chain n b a) (ht : t ∈ a) :
    Cut a (some t) (n t) := by
  induction a generalizing b with
  | nil => cases ht
  | cons u a ih =>
    rcases List.mem_cons.mp ht with rfl | hm
    · exact ⟨[t], a, rfl, rfl, h.2.head_eq⟩
    · obtain ⟨c, d, he, hprev, hcur⟩ := ih h.2 hm
      refine ⟨u :: c, d, by rw [he]; rfl, ?_, hcur⟩
      have hne : c ≠ [] := by
        rintro rfl
        cases hprev
      rw [List.getLast?_cons_of_ne_nil hne]
      exact hprev

omit [DecidableEq ι] [Fintype ι] in
theorem Cut.mem_prev {a : List ℕ} {cur : Option ℕ} (h : Cut a (some t) cur) : t ∈ a := by
  obtain ⟨c, d, rfl, hprev, -⟩ := h
  exact List.mem_append_left _ (List.mem_of_getLast? hprev.symm)

section

variable {conn txs : ℤ} {period : ℕ} {gh prev : Option ℕ} {k : CleanFrom} {a b : List ℕ}

/-- The task leaves the list of the server. -/
theorem Good.unlink (h : Good size g loc l q place) {n : Option ℕ}
    (hi : loc i = .server ⟨conn, txs, period, gh, .clean k (.unlink prev t n)⟩)
    (hq : q i = a ++ t :: b) {ng : ℕ → Option ℕ} {h' : Option ℕ}
    (hng : ∀ u, u ∉ q i → ng u = g.nextGc u) (hchain : Chain ng h' (a ++ b))
    (hcut : ∃ cur, Cut (a ++ b) prev cur) :
    Inv size { g with nextGc := ng } (Function.update loc i
      (.server ⟨conn, txs, period, h', .clean k (.free prev t (.reset freeFields))⟩)) := by
  have hknow := h.knows i
  rw [hi] at hknow
  obtain ⟨-, hfg, -⟩ := hknow
  obtain ⟨hended, hnw⟩ := h.life.ended t hfg
  have hd := (h.gc i).2
  have hd' : (a ++ b).Nodup := by
    rw [hq, List.nodup_middle] at hd
    exact (List.nodup_cons.mp hd).2
  have hnq : g.life t ≠ .queued := by
    intro hl
    rcases hended with ho | ho <;> simp [hl] at ho
  refine ⟨l, _, _, h.step (h.places.unlink hq (h.gc i).2 (by rw [hi]; rfl) rfl) ?_ ?_
    ⟨hchain, hd'⟩ ⟨hcut, fun _ => hended, ?_, ?_⟩ ?_ ?_⟩
  · exact h.free.off (by rw [hi]; rfl) rfl rfl rfl rfl fun _ _ => rfl
  · exact .of_own fun u hu _ _ => ⟨hng u fun hm => hu ((h.places.gc u i).mp hm), rfl, rfl, rfl⟩
  · exact fun hn => absurd (by decide : Field.nextFree ∈ freeFields) hn
  · exact fun hn => absurd (by decide : Field.freeGc ∈ freeFields) hn
  · exact h.life.one t (by rw [hi]; rfl) rfl hnq hnq hnw (fun _ _ => rfl) (fun _ _ => rfl)
      (fun u hu => Function.update_of_ne hu _ _) (fun _ => hended) (by simp)
  · rw [hi]
    rfl

theorem Good.clean_step (h : Good size g loc l q place) {st : Clean} {s' : Server}
    (hi : loc i = .server ⟨conn, txs, period, gh, .clean k st⟩)
    (hs : st.step i g ⟨conn, txs, period, gh, .clean k st⟩ k = some (g', s')) :
    Inv size g' (Function.update loc i (.server s')) := by
  have hgc : Chain g.nextGc gh (q i) := by
    have := (h.gc i).1
    rwa [hi] at this
  have hknow := h.knows i
  rw [hi] at hknow
  have hg := Same.refl g
  cases st with
  | visit prev cur =>
    cases cur with
    | none =>
      cases hs
      refine ⟨l, q, place, ?_⟩
      cases k with
      | retry r => exact h.away hi hg rfl rfl rfl rfl rfl rfl fun t ht => by cases ht
      | period => exact h.away hi hg rfl rfl rfl rfl rfl rfl trivial
      | drain => exact h.away hi hg rfl rfl rfl rfl rfl rfl trivial
    | some t =>
      simp only [Clean.step, Option.some.injEq, Prod.mk.injEq] at hs
      obtain ⟨rfl, rfl⟩ := hs
      refine ⟨l, q, place, ?_⟩
      have hcut : Cut (q i) prev (some t) := hknow
      by_cases hf : g.freeGc t = true
      · simp only [if_pos hf]
        exact h.away hi hg rfl rfl rfl rfl rfl rfl ⟨hcut, hf⟩
      · simp only [if_neg hf]
        exact h.away hi hg rfl rfl rfl rfl rfl rfl hcut.mem
  | skip t =>
    cases hs
    exact ⟨l, q, place, h.away hi hg rfl rfl rfl rfl rfl rfl (Cut.after hgc hknow)⟩
  | stats prev t =>
    cases hs
    exact ⟨l, q, place, h.away hi hg rfl rfl rfl rfl rfl rfl hknow⟩
  | loadNext prev t =>
    cases hs
    exact ⟨l, q, place, h.away hi hg rfl rfl rfl rfl rfl rfl ⟨hknow.1, hknow.2, rfl⟩⟩
  | unlink prev t n =>
    obtain ⟨⟨a, c, hq, hprev, hcur⟩, hfg, hn⟩ := hknow
    obtain ⟨b, rfl⟩ : ∃ b, c = t :: b := by
      cases c with
      | nil => cases hcur
      | cons u b => exact ⟨b, by rw [Option.some.inj hcur]⟩
    cases prev with
    | none =>
      cases hs
      obtain rfl : a = [] := List.getLast?_eq_none_iff.mp hprev.symm
      have hchain : Chain g.nextGc n b := by
        have hc := hgc
        rw [hq] at hc
        exact hn ▸ hc.2
      exact h.unlink hi hq (fun _ _ => rfl) hchain ⟨b.head?, [], b, rfl, rfl, rfl⟩
    | some p =>
      cases hs
      obtain ⟨a, rfl⟩ : ∃ a', a = a' ++ [p] := by
        obtain ⟨a', ha⟩ := List.getLast?_eq_some_iff.mp hprev.symm
        exact ⟨a', ha⟩
      have hq' : q i = a ++ p :: t :: b := by rw [hq, List.append_assoc]; rfl
      have hchain := hgc
      have hd := (h.gc i).2
      rw [hq'] at hchain hd
      have hun := hchain.unlink hd
      rw [hn] at hun
      refine h.unlink hi hq (fun u hu => ?_) ?_ ⟨b.head?, a ++ [p], b, rfl, hprev, rfl⟩
      · refine Function.update_of_ne (fun he => hu ?_) _ _
        rw [hq', he]
        simp
      · rw [List.append_assoc]
        exact hun
  | free prev t st =>
    simp only [Clean.step, Option.map_eq_some_iff] at hs
    obtain ⟨⟨g'', o⟩, hf, he⟩ := hs
    cases he
    exact h.free_step hi hf
  | next prev =>
    obtain ⟨cur, hcut⟩ := hknow
    cases prev with
    | none =>
      cases hs
      exact ⟨l, q, place, h.away hi hg rfl rfl rfl rfl rfl rfl (Cut.start hgc)⟩
    | some p =>
      cases hs
      exact ⟨l, q, place, h.away hi hg rfl rfl rfl rfl rfl rfl (Cut.after hgc hcut.mem_prev)⟩

end

end TinyStm.Pool
