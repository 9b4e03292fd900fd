import TinyStm.Pool.Steps

/-!
# The loops of servers and workers

The remaining steps of `server_runMethod`, of the loop of a server and of the workers
keep the invariant.
-/

namespace TinyStm.Pool

open Interleave

variable {ι : Type*} [DecidableEq ι] [Fintype ι] {size : ℕ} {g g' : Store ι} {loc : ι → Thread}
  {l : List ℕ} {q : ι → List ℕ} {place : ℕ → Place ι} {i : ι} {t : ℕ}

/-! ### `server_runMethod` -/

section

variable {conn txs : ℤ} {period : ℕ} {gh : Option ℕ} {r : Request}

theorem Good.setNextGc (h : Good size g loc l q place)
    (hi : loc i = .server ⟨conn, txs, period, gh, .gcNext r t⟩) :
    Inv size { g with nextGc := Function.update g.nextGc t gh }
      (Function.update loc i (.server ⟨conn, txs, period, gh, .gcHead r t⟩)) := by
  have hgc := (h.gc i).1
  have hknow := h.knows i
  rw [hi] at hgc hknow
  have hp : place t = .hand i := (h.places.hand t i).mp (by rw [hi]; rfl)
  have hnq : t ∉ q i := fun hm => by simp [(h.places.gc t i).mp hm] at hp
  refine ⟨l, q, place, h.stay (by rw [hi]; rfl) ?_ ?_ (hgc.update hnq _) ?_
    (h.life.keep (by rw [hi]; rfl) rfl rfl rfl) (by rw [hi]; rfl)⟩
  · exact h.free.off (by rw [hi]; rfl) rfl rfl rfl rfl fun _ _ => rfl
  · refine .of_own fun u _ hu _ => ⟨Function.update_of_ne ?_ _ _, rfl, rfl, rfl⟩
    rintro rfl
    exact hu hp
  · exact ⟨hknow, Function.update_self ..⟩

theorem Good.setGcHead (h : Good size g loc l q place)
    (hi : loc i = .server ⟨conn, txs, period, gh, .gcHead r t⟩) :
    Inv size g (Function.update loc i (.server ⟨conn, txs, period, some t, .parsePrio r t⟩)) := by
  have hgc := h.gc i
  have hknow := h.knows i
  rw [hi] at hgc hknow
  obtain ⟨hlife, hnext⟩ := hknow
  have hhand : (loc i).hand = some t := by rw [hi]; rfl
  have hp : place t = .hand i := (h.places.hand t i).mp hhand
  have hnq : t ∉ q i := fun hm => by simp [(h.places.gc t i).mp hm] at hp
  obtain ⟨hne, hnw⟩ := h.life.apart (t := t) (by simp [hp])
  have hchain : Chain g.nextGc (some t) (t :: q i) := ⟨rfl, by rw [hnext]; exact hgc.1⟩
  refine ⟨l, _, _, h.step (h.places.gcInsert hhand rfl) ?_ (.refl rfl rfl rfl rfl)
    ⟨hchain, List.nodup_cons.mpr ⟨hnq, hgc.2⟩⟩ ⟨List.mem_cons_self, hlife⟩ ?_ (by rw [hi]; rfl)⟩
  · exact h.free.off (by rw [hi]; rfl) rfl rfl rfl rfl fun _ _ => rfl
  · exact h.life.one t (by rw [hi]; rfl) rfl hne hne hnw (fun _ _ => rfl) (fun _ _ => rfl)
      (fun u hu => Function.update_of_ne hu _ _) (fun hf => (h.life.ended t hf).1) (by simp)

theorem Good.reject (h : Good size g loc l q place)
    (hi : loc i = .server ⟨conn, txs, period, gh, .reject t⟩) :
    Inv size { g.setLife t .rejected with freeGc := Function.update g.freeGc t true }
      (Function.update loc i (.server ⟨conn, txs, period, gh, .count⟩)) := by
  have hgc := (h.gc i).1
  have hknow := h.knows i
  rw [hi] at hgc hknow
  obtain ⟨hmem, hlife⟩ := hknow
  have hp : place t = .gc i := (h.places.gc t i).mp hmem
  have hne : g.life t ≠ .queued := by simp [hlife]
  refine ⟨l, q, place, h.stay (by rw [hi]; rfl) ?_ ?_ hgc trivial ?_ (by rw [hi]; rfl)⟩
  · exact h.free.off (by rw [hi]; rfl) rfl rfl rfl rfl fun _ _ => rfl
  · refine .of_own fun u hu _ _ => ?_
    have hut : u ≠ t := by
      rintro rfl
      exact hu hp
    exact ⟨rfl, rfl, Function.update_of_ne hut _ _, Function.update_of_ne hut _ _⟩
  · refine h.life.one t (by rw [hi]; rfl) rfl hne ?_ (h.life.not_work hlife)
      (fun u hu => Function.update_of_ne hu _ _) (fun u hu => Function.update_of_ne hu _ _)
      (fun _ _ => rfl) (fun _ => .inr ?_) (by simp [hp])
    · simp [Store.setLife]
    · simp [Store.setLife]

omit [Fintype ι] in
/-- `InsertTask` succeeds. -/
theorem LifeOk.insert (h : LifeOk g loc place) {x' : Thread} (hw : x'.job = (loc i).job)
    (hlife : g.life t = .received) (hp : place t = .gc i) :
    LifeOk { g.setLife t .queued with queue := t :: g.queue } (Function.update loc i x') place := by
  have hnq : t ∉ g.queue := fun hm => by
    have := (h.queue t).mp hm
    simp [hlife] at this
  have hother : ∀ u, u ≠ t → (g.setLife t .queued).life u = g.life u := fun u hu =>
    Function.update_of_ne hu _ _
  have hself : (g.setLife t .queued).life t = .queued := Function.update_self ..
  have hnw := h.not_work hlife
  refine ⟨List.nodup_cons.mpr ⟨hnq, h.nodup⟩, fun u => ?_, fun j u a hj => ?_, fun j k u hj hk => ?_,
    fun u hu => ?_, fun u hu => ?_, h.idle⟩
  · show u ∈ t :: g.queue ↔ (g.setLife t .queued).life u = .queued
    by_cases hut : u = t
    · subst hut
      exact iff_of_true List.mem_cons_self hself
    · rw [hother u hut, List.mem_cons]
      exact ⟨fun hm => (h.queue u).mp (hm.resolve_left hut), fun hl => .inr ((h.queue u).mpr hl)⟩
  · rw [job_update hw] at hj
    have hut : u ≠ t := by
      rintro rfl
      exact hnw j (congrArg (Option.map Prod.fst) hj)
    exact (hother u hut).trans (h.job j u a hj)
  · rw [work_update hw] at hj hk
    exact h.unique j k u hj hk
  · by_cases hut : u = t
    · rw [hut]
      exact ⟨i, hp⟩
    · refine h.shared u (hu.imp (fun hl => ?_) fun ⟨j, hj⟩ => ⟨j, ?_⟩)
      · exact (hother u hut).symm.trans hl
      · rwa [work_update hw] at hj
  · have hut : u ≠ t := by
      rintro rfl
      rcases (h.ended u hu).1 with ho | ho <;> simp [hlife] at ho
    show ((g.setLife t .queued).life u).ended ∧ _
    rw [hother u hut]
    exact ⟨(h.ended u hu).1, fun j => by rw [work_update hw]; exact (h.ended u hu).2 j⟩

theorem Good.insert (h : Good size g loc l q place)
    (hi : loc i = .server ⟨conn, txs, period, gh, .insert t⟩) :
    Inv size { g.setLife t .queued with queue := t :: g.queue }
      (Function.update loc i (.server ⟨conn, txs, period, gh, .count⟩)) := by
  have hgc := (h.gc i).1
  have hknow := h.knows i
  rw [hi] at hgc hknow
  obtain ⟨hmem, hlife⟩ := hknow
  have hp : place t = .gc i := (h.places.gc t i).mp hmem
  refine ⟨l, q, place, h.stay (by rw [hi]; rfl) ?_ ?_ hgc trivial
    (h.life.insert (by rw [hi]; rfl) hlife hp) (by rw [hi]; rfl)⟩
  · exact h.free.off (by rw [hi]; rfl) rfl rfl rfl rfl fun _ _ => rfl
  · refine .of_own fun u hu _ _ => ⟨rfl, rfl, rfl, Function.update_of_ne ?_ _ _⟩
    rintro rfl
    exact hu hp

end

section

variable {n : ℤ} {gcPeriod : ℕ}

theorem Good.server_go (h : Good size g loc l q place) {s s' : Server} (hi : loc i = .server s)
    (hs : s.go n gcPeriod i g = some (g', s')) :
    Inv size g' (Function.update loc i (.server s')) := by
  obtain ⟨conn, txs, period, gh, pc⟩ := s
  have hgc : Chain g.nextGc gh (q i) := by
    have := (h.gc i).1
    rwa [hi] at this
  have hknow := h.knows i
  rw [hi] at hknow
  have hg := Same.refl g
  cases pc with
  | loop =>
    simp only [Server.go, Option.some.injEq, Prod.mk.injEq] at hs
    obtain ⟨rfl, rfl⟩ := hs
    refine ⟨l, q, place, ?_⟩
    by_cases hz : txs = 0
    · simp only [if_pos hz]
      exact h.away hi hg rfl rfl rfl rfl rfl rfl trivial
    · simp only [if_neg hz]
      exact h.away hi hg rfl rfl rfl rfl rfl rfl trivial
  | get r st =>
    simp only [Server.go, Option.map_eq_some_iff] at hs
    obtain ⟨⟨g'', o⟩, hst, he⟩ := hs
    cases he
    have hget := h.get_step hi hst
    rcases o with st' | _ | t <;> exact hget
  | gcNext r t =>
    cases hs
    exact h.setNextGc hi
  | gcHead r t =>
    cases hs
    exact h.setGcHead hi
  | parsePrio r t =>
    obtain ⟨prio, txId⟩ := r
    cases prio with
    | none =>
      cases hs
      exact ⟨l, q, place, h.away hi hg rfl rfl rfl rfl rfl rfl hknow⟩
    | some prio =>
      cases hs
      exact ⟨l, q, place, h.away hi hg rfl rfl rfl rfl rfl rfl hknow⟩
  | setPrio r t prio =>
    cases hs
    have hsame : Same g { g with priority := Function.update g.priority t prio } := rfl
    exact ⟨l, q, place, h.away hi hsame rfl rfl rfl rfl rfl rfl hknow⟩
  | parseTx r t =>
    obtain ⟨prio, txId⟩ := r
    cases txId with
    | none =>
      cases hs
      exact ⟨l, q, place, h.away hi hg rfl rfl rfl rfl rfl rfl hknow⟩
    | some txId =>
      cases hs
      exact ⟨l, q, place, h.away hi hg rfl rfl rfl rfl rfl rfl hknow⟩
  | setTx t txId =>
    cases hs
    have hsame : Same g { g with transaction := Function.update g.transaction t txId } := rfl
    exact ⟨l, q, place, h.away hi hsame rfl rfl rfl rfl rfl rfl hknow⟩
  | reject t =>
    cases hs
    exact h.reject hi
  | count =>
    simp only [Server.go, Option.some.injEq, Prod.mk.injEq] at hs
    obtain ⟨rfl, rfl⟩ := hs
    refine ⟨l, q, place, ?_⟩
    by_cases hz : gcPeriod ≤ period
    · simp only [if_pos hz]
      exact h.away hi hg rfl rfl rfl rfl rfl rfl (Cut.start hgc)
    · simp only [if_neg hz]
      exact h.away hi hg rfl rfl rfl rfl rfl rfl trivial
  | clean k st => exact h.clean_step hi hs
  | drain =>
    simp only [Server.go, Option.some.injEq, Prod.mk.injEq] at hs
    obtain ⟨rfl, rfl⟩ := hs
    refine ⟨l, q, place, ?_⟩
    by_cases hz : gh.isNone = true
    · simp only [if_pos hz]
      exact h.away hi hg rfl rfl rfl rfl rfl rfl trivial
    · simp only [if_neg hz]
      exact h.away hi hg rfl rfl rfl rfl rfl rfl (Cut.start hgc)
  | recv | insert _ | exited => cases hs

theorem Good.server_step (h : Good size g loc l q place) {s s' : Server} (hi : loc i = .server s)
    {a : Act} (hs : s.step n gcPeriod i g a = some (g', s')) :
    Inv size g' (Function.update loc i (.server s')) := by
  have hg := Same.refl g
  cases a with
  | go => exact h.server_go hi hs
  | recv r =>
    obtain ⟨conn, txs, period, gh, pc⟩ := s
    cases pc with
    | recv =>
      simp only [Server.step, Option.some.injEq, Prod.mk.injEq] at hs
      obtain ⟨rfl, rfl⟩ := hs
      refine ⟨l, q, place, ?_⟩
      by_cases hz : conn < 0
      · simp only [if_pos hz]
        exact h.away hi hg rfl rfl rfl rfl rfl rfl trivial
      · simp only [if_neg hz]
        cases r with
        | none => exact h.away hi hg rfl rfl rfl rfl rfl rfl trivial
        | some r => exact h.away hi hg rfl rfl rfl rfl rfl rfl fun t ht => by cases ht
    | _ => cases hs
  | insert ok =>
    obtain ⟨conn, txs, period, gh, pc⟩ := s
    cases pc with
    | insert t =>
      cases ok with
      | true =>
        cases hs
        exact h.insert hi
      | false =>
        cases hs
        have hknow := h.knows i
        rw [hi] at hknow
        exact ⟨l, q, place, h.away hi hg rfl rfl rfl rfl rfl rfl hknow⟩
    | _ => cases hs
  | take _ => cases hs
  | shutdown => cases hs

end

/-! ### Workers -/

namespace LifeOk

variable {x' : Thread}

omit [Fintype ι] in
theorem job_of_ne {j : ι} (hj : j ≠ i) : (Function.update loc i x' j).job = (loc j).job := by
  rw [Function.update_of_ne hj]

omit [Fintype ι] in
theorem work_of_ne {j : ι} (hj : j ≠ i) : (Function.update loc i x' j).work = (loc j).work := by
  rw [Function.update_of_ne hj]

omit [Fintype ι] in
/-- A worker is given a task of the queue. -/
theorem take (h : LifeOk g loc place) (hx : (loc i).job = none) (hm : t ∈ g.queue)
    (hx' : x'.job = some (t, .running)) :
    LifeOk { g.setLife t .running with queue := g.queue.erase t } (Function.update loc i x')
      place := by
  have hq : g.life t = .queued := (h.queue t).mp hm
  have hnw : ∀ j, (loc j).work ≠ some t := by
    intro j hj
    rcases h.working hj with he | he <;> simp [hq] at he
  have hself : (g.setLife t .running).life t = .running := Function.update_self ..
  have hother : ∀ u, u ≠ t → (g.setLife t .running).life u = g.life u := fun u hu =>
    Function.update_of_ne hu _ _
  have hwork : ∀ u, x'.work = some u ↔ u = t := fun u => by
    simp [Thread.work, hx', eq_comm]
  refine ⟨h.nodup.erase t, fun u => ?_, fun j u a hj => ?_, fun j k u hj hk => ?_, fun u hu => ?_,
    fun u hu => ?_, h.idle⟩
  · show u ∈ g.queue.erase t ↔ (g.setLife t .running).life u = .queued
    by_cases hut : u = t
    · subst hut
      rw [hself]
      exact iff_of_false (fun hmem => h.nodup.not_mem_erase hmem) (by simp)
    · rw [hother u hut, List.mem_erase_of_ne hut]
      exact h.queue u
  · show (g.setLife t .running).life u = a
    by_cases hji : j = i
    · subst hji
      rw [Function.update_self, hx'] at hj
      cases hj
      exact hself
    · rw [job_of_ne hji] at hj
      have hut : u ≠ t := by
        rintro rfl
        exact hnw j (congrArg (Option.map Prod.fst) hj)
      rw [hother u hut]
      exact h.job j u a hj
  · by_cases hji : j = i
    · by_cases hki : k = i
      · rw [hji, hki]
      · subst hji
        rw [Function.update_self, hwork] at hj
        rw [work_of_ne hki, hj] at hk
        exact absurd hk (hnw k)
    · rw [work_of_ne hji] at hj
      by_cases hki : k = i
      · subst hki
        rw [Function.update_self, hwork] at hk
        rw [hk] at hj
        exact absurd hj (hnw j)
      · rw [work_of_ne hki] at hk
        exact h.unique j k u hj hk
  · by_cases hut : u = t
    · rw [hut]
      exact h.shared t (.inl hq)
    · refine h.shared u (hu.imp (fun hl => (hother u hut).symm.trans hl) fun ⟨j, hj⟩ => ?_)
      by_cases hji : j = i
      · subst hji
        rw [Function.update_self, hwork] at hj
        exact absurd hj hut
      · exact ⟨j, by rwa [work_of_ne hji] at hj⟩
  · obtain ⟨ho, hw⟩ := h.ended u hu
    have hut : u ≠ t := by
      rintro rfl
      rcases ho with ho | ho <;> simp [hq] at ho
    refine ⟨by
      show ((g.setLife t .running).life u).ended
      rw [hother u hut]
      exact ho, fun j => ?_⟩
    by_cases hji : j = i
    · subst hji
      rw [Function.update_self, Ne, hwork]
      exact hut
    · rw [work_of_ne hji]
      exact hw j

omit [Fintype ι] in
/-- A worker has executed its task. -/
theorem executed (h : LifeOk g loc place) (hx : (loc i).job = some (t, .running))
    (hx' : x'.job = some (t, .executed)) :
    LifeOk (g.setLife t .executed) (Function.update loc i x') place := by
  have hl : g.life t = .running := h.job i t _ hx
  have hself : (g.setLife t .executed).life t = .executed := Function.update_self ..
  have hother : ∀ u, u ≠ t → (g.setLife t .executed).life u = g.life u := fun u hu =>
    Function.update_of_ne hu _ _
  have hwi : (loc i).work = some t := congrArg (Option.map Prod.fst) hx
  have hwork : ∀ j, (Function.update loc i x' j).work = (loc j).work := fun j => by
    by_cases hji : j = i
    · subst hji
      rw [Function.update_self, hwi]
      exact congrArg (Option.map Prod.fst) hx'
    · exact work_of_ne hji
  refine ⟨h.nodup, fun u => ?_, fun j u a hj => ?_, fun j k u hj hk => ?_, fun u hu => ?_,
    fun u hu => ?_, h.idle⟩
  · show u ∈ g.queue ↔ _
    rw [h.queue]
    by_cases hut : u = t
    · subst hut
      rw [hself, hl]
      simp
    · rw [hother u hut]
  · by_cases hji : j = i
    · subst hji
      rw [Function.update_self, hx'] at hj
      cases hj
      exact hself
    · rw [job_of_ne hji] at hj
      have hut : u ≠ t := by
        rintro rfl
        exact hji (h.unique j i u (congrArg (Option.map Prod.fst) hj) hwi)
      rw [hother u hut]
      exact h.job j u a hj
  · rw [hwork] at hj hk
    exact h.unique j k u hj hk
  · simp only [hwork] at hu
    by_cases hut : u = t
    · rw [hut]
      exact h.shared t (.inr ⟨i, hwi⟩)
    · rw [hother u hut] at hu
      exact h.shared u hu
  · obtain ⟨ho, hw⟩ := h.ended u hu
    have hut : u ≠ t := by
      rintro rfl
      exact hw i hwi
    simp only [hwork, hother u hut]
    exact ⟨ho, hw⟩

omit [Fintype ι] in
/-- A worker gives its executed task back. -/
theorem giveBack (h : LifeOk g loc place) (hx : (loc i).job = some (t, .executed))
    (hx' : x'.job = none) :
    LifeOk { g with freeGc := Function.update g.freeGc t true } (Function.update loc i x')
      place := by
  have hl : g.life t = .executed := h.job i t _ hx
  have hwi : (loc i).work = some t := congrArg (Option.map Prod.fst) hx
  have hwi' : x'.work = none := congrArg (Option.map Prod.fst) hx'
  have hsub : ∀ j u, (Function.update loc i x' j).work = some u → j ≠ i ∧ (loc j).work = some u := by
    intro j u hj
    by_cases hji : j = i
    · subst hji
      rw [Function.update_self, hwi'] at hj
      cases hj
    · exact ⟨hji, by rwa [work_of_ne hji] at hj⟩
  refine ⟨h.nodup, h.queue, fun j u a hj => ?_, fun j k u hj hk => ?_, fun u hu => ?_,
    fun u hu => ?_, fun u hu => ?_⟩
  · by_cases hji : j = i
    · subst hji
      rw [Function.update_self, hx'] at hj
      cases hj
    · rw [job_of_ne hji] at hj
      exact h.job j u a hj
  · exact h.unique j k u (hsub j u hj).2 (hsub k u hk).2
  · exact h.shared u (hu.imp id fun ⟨j, hj⟩ => ⟨j, (hsub j u hj).2⟩)
  · by_cases hut : u = t
    · subst hut
      exact ⟨.inl hl, fun j hj => (hsub j u hj).1 (h.unique j i u (hsub j u hj).2 hwi)⟩
    · have hu' : g.freeGc u = true := by
        have : Function.update g.freeGc t true u = true := hu
        rwa [Function.update_of_ne hut] at this
      exact ⟨(h.ended u hu').1, fun j hj => (h.ended u hu').2 j (hsub j u hj).2⟩
  · have hut : u ≠ t := by
      rintro rfl
      obtain ⟨k, hk⟩ := h.shared u (.inr ⟨i, hwi⟩)
      simp [hu] at hk
    show Function.update g.freeGc t true u = false
    rw [Function.update_of_ne hut]
    exact h.idle u hu

end LifeOk

section Worker

variable {w w' : Worker}

/-- A step of a worker changes the life of a task at most. -/
theorem Good.work_step (h : Good size g loc l q place) (hi : loc i = .worker w)
    (hg : g' = { g with
      life := g'.life, queue := g'.queue, freeGc := g'.freeGc, statsValid := g'.statsValid })
    (hlife : ∀ u, g.life u = .received → g'.life u = .received)
    (hfg : ∀ u, g.freeGc u = true → g'.freeGc u = true)
    (hhand : ∀ u j, place u = .hand j → g'.life u = g.life u ∧ g'.freeGc u = g.freeGc u)
    (hl : LifeOk g' (Function.update loc i (.worker w')) place) :
    Inv size g' (Function.update loc i (.worker w')) := by
  have hnf : g'.nextFree = g.nextFree := by rw [hg]
  have hng : g'.nextGc = g.nextGc := by rw [hg]
  have hlk : g'.lock = g.lock := by rw [hg]
  have hhd : g'.head = g.head := by rw [hg]
  have htl : g'.tail = g.tail := by rw [hg]
  have hnm : g'.numFreeTasks = g.numFreeTasks := by rw [hg]
  refine ⟨l, q, place, h.stay (by rw [hi]; rfl) ?_ ?_ ?_ trivial hl ?_⟩
  · exact h.free.off (by rw [hi]; rfl) rfl hlk hhd htl fun _ _ => by rw [hnf]
  · refine fun j _ u => ⟨fun _ => ⟨by rw [hng], hlife u, hfg u⟩, fun hp => ?_⟩
    obtain ⟨h₁, h₂⟩ := hhand u j hp
    exact ⟨by rw [hng], by rw [hnf], h₂, h₁⟩
  · have hgc := (h.gc i).1
    rw [hi] at hgc
    rw [hng]
    exact hgc
  · rw [hi, hnm]
    rfl

theorem Good.worker_step (h : Good size g loc l q place) (hi : loc i = .worker w) {a : Act}
    (hs : w.step g a = some (g', w')) : Inv size g' (Function.update loc i (.worker w')) := by
  have hquiet : ∀ {g'' : Store ι} {w' : Worker}, Same g g'' → w'.job = w.job →
      Inv size g'' (Function.update loc i (.worker w')) := fun hg hj =>
    ⟨l, q, place, h.quiet hg (by rw [hi]; rfl) (by rw [hi]; rfl) (fun _ _ => trivial)
      (by rw [hi]; rfl) (by rw [hi]; exact hj) (by rw [hi]; rfl) (by rw [hi]; rfl) trivial⟩
  cases w with
  | schedule =>
    cases a with
    | take o =>
      cases o with
      | none =>
        cases hs
        exact hquiet rfl rfl
      | some t =>
        simp only [Worker.step] at hs
        split at hs
        · next hm =>
          cases hs
          have hq : g.life t = .queued := (h.life.queue t).mp hm
          obtain ⟨k, hp⟩ := h.life.shared t (.inl hq)
          refine h.work_step hi rfl (fun u hu => ?_) (fun _ hu => hu) (fun u j hu => ⟨?_, rfl⟩)
            (h.life.take (by rw [hi]; rfl) hm rfl)
          · refine (Function.update_of_ne ?_ _ _).trans hu
            rintro rfl
            simp [hq] at hu
          · refine Function.update_of_ne ?_ _ _
            rintro rfl
            simp [hp] at hu
        · cases hs
    | shutdown =>
      cases hs
      exact hquiet rfl rfl
    | _ => cases hs
  | run t =>
    cases a with
    | go =>
      cases hs
      have hjob : (loc i).job = some (t, .running) := by rw [hi]; rfl
      have hl : g.life t = .running := h.life.job i t _ hjob
      obtain ⟨k, hp⟩ := h.life.shared t (.inr ⟨i, congrArg (Option.map Prod.fst) hjob⟩)
      refine h.work_step hi rfl (fun u hu => ?_) (fun _ hu => hu) (fun u j hu => ⟨?_, rfl⟩)
        (h.life.executed hjob rfl)
      · refine (Function.update_of_ne ?_ _ _).trans hu
        rintro rfl
        simp [hl] at hu
      · refine Function.update_of_ne ?_ _ _
        rintro rfl
        simp [hp] at hu
    | take o => cases o <;> cases hs
    | _ => cases hs
  | setStats t =>
    cases a with
    | go =>
      cases hs
      exact hquiet rfl rfl
    | take o => cases o <;> cases hs
    | _ => cases hs
  | setFree t =>
    cases a with
    | go =>
      cases hs
      have hjob : (loc i).job = some (t, .executed) := by rw [hi]; rfl
      obtain ⟨k, hp⟩ := h.life.shared t (.inr ⟨i, congrArg (Option.map Prod.fst) hjob⟩)
      refine h.work_step hi rfl (fun _ hu => hu) (fun u hu => ?_) (fun u j hu => ⟨rfl, ?_⟩)
        (h.life.giveBack hjob rfl)
      · show Function.update g.freeGc t true u = true
        by_cases hut : u = t
        · rw [hut, Function.update_self]
        · rw [Function.update_of_ne hut]
          exact hu
      · refine Function.update_of_ne ?_ _ _
        rintro rfl
        simp [hp] at hu
    | take o => cases o <;> cases hs
    | _ => cases hs
  | exited =>
    cases a with
    | take o => cases o <;> cases hs
    | _ => cases hs

end Worker

end TinyStm.Pool
