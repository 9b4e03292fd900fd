import TinyStm.Nbb.SchedInv

/-!
# The steps of the scheduler keep every task in its place
-/

namespace TinyStm.Nbb

open Interleave

variable {ι τ : Type*} {z : Sizes} {place place' : τ → Place ι} {h h' t t' : ℕ → ℕ}
  {ids ids' : ℕ → List (BitVec 64)} {g g' : Sched τ} {i j : ι}

/-- What thread `j` knows survives the steps of the others. -/
theorem Worker.Ok.mono {x : Worker τ} {y : Client τ} (hx : x.Ok z place g h t j y)
    (hplace : ∀ u, (place u).owner = some j → place' u = place u)
    (hpay : ∀ u p id, place u = .inserting j p id → (g.prios p).payload id = some u →
      (g'.prios p).payload id = some u)
    (hh : ∀ p, h p ≤ h' p) (ht : ∀ p, t p ≤ t' p) : x.Ok z place' g' h' t' j y := by
  have hkeep : ∀ {u P}, place u = P → P.owner = some j → place' u = P := by
    intro u P hu hP
    rw [hplace u (by rw [hu]; exact hP), hu]
  cases x with
  | idle => exact hx
  | acquire task p b => exact ⟨hkeep hx.1 rfl, hx.2⟩
  | acquireCas task p b w => exact ⟨hkeep hx.1 rfl, hx.2⟩
  | nullNode => exact hx
  | outside => exact hx
  | store task p id => exact ⟨hkeep hx.1 rfl, hx.2⟩
  | insert task p id op =>
    obtain ⟨hop, hx⟩ := hx
    refine ⟨hop.mono (ht p), ?_⟩
    rcases hx with ⟨hph, hpl, hpy, hy⟩ | hx
    · exact .inl ⟨hph, hkeep hpl rfl, hpay _ _ _ hpl hpy, hy⟩
    · exact .inr hx
  | inserted code => exact hx
  | remove p op =>
    obtain ⟨hop, hx⟩ := hx
    refine ⟨hop.mono (hh p), ?_⟩
    rcases hx with hx | ⟨v, u, hph, hpl, hy⟩ | hx
    · exact .inl hx
    · exact .inr (.inl ⟨v, u, hph, hkeep hpl rfl, hy⟩)
    · exact .inr (.inr hx)
  | load p id =>
    obtain ⟨u, hpl, hy⟩ := hx
    exact ⟨u, hkeep hpl rfl, hy⟩
  | release task p id =>
    obtain ⟨u, hu, hpl, hy⟩ := hx
    exact ⟨u, hu, hkeep hpl rfl, hy⟩
  | releasePayload task p id w =>
    obtain ⟨u, hu, hpl, hy⟩ := hx
    exact ⟨u, hu, hkeep hpl rfl, hy⟩
  | releaseCas task p id w pay =>
    obtain ⟨u, hu, hp, hpl, hy⟩ := hx
    exact ⟨u, hu, hp, hkeep hpl rfl, hy⟩
  | releaseClear task p id pay =>
    obtain ⟨u, hu, hp, hpl, hy⟩ := hx
    exact ⟨u, hu, hp, hkeep hpl rfl, hy⟩
  | removed task =>
    cases task with
    | none => exact hx
    | some u => exact ⟨hkeep hx.1 rfl, hx.2⟩

variable [DecidableEq ι] [Fintype τ] {c : Config ι (Sched τ) (Worker τ)}
  {c' : Config ι (Queues τ) (Client τ)}

/-- The invariant after a step of thread `i` to `x'`. -/
theorem SchedSim.move (hS : SchedSim z place h ids c c') {x' : Worker τ} {Q' : Queues τ}
    {y' : Client τ} (hnodes : ∀ p, Nodes z place' p (g'.prios p))
    (hqueued : ∀ p, Queued z place' p (g'.prios p).ring (h' p) (ids' p) (Q'.queue p))
    (hcrowded : ∀ p k, 0 < k → Crowded place' p k)
    (hfree : ∀ u, g'.out u = false ↔ place' u = .free) (hout : Q'.out = g'.out)
    (hplace : ∀ u j, j ≠ i → (place u).owner = some j → place' u = place u)
    (hpay : ∀ u j p id, j ≠ i → place u = .inserting j p id →
      (c.shared.prios p).payload id = some u → (g'.prios p).payload id = some u)
    (hh : ∀ p, h p ≤ h' p) (ht : ∀ p, h p + (ids p).length ≤ h' p + (ids' p).length)
    (hx : x'.Ok z place' g' h' (fun p => h' p + (ids' p).length) i y') :
    SchedSim z place' h' ids' ⟨g', Function.update c.loc i x'⟩ ⟨Q', Function.update c'.loc i y'⟩ := by
  refine ⟨hnodes, hqueued, hcrowded, hfree, hout, fun j => ?_⟩
  by_cases hj : j = i
  · subst hj
    simpa using hx
  · dsimp only
    rw [Function.update_of_ne hj, Function.update_of_ne hj]
    exact (hS.loc j).mono (hplace · j hj) (fun u p id => hpay u j p id hj) hh ht

/-- A step that leaves the shared state alone. -/
theorem SchedSim.stay (hS : SchedSim z place h ids c c') {x' : Worker τ} {y' : Client τ}
    (hx : x'.Ok z place c.shared h (fun p => h p + (ids p).length) i y') :
    SchedSim z place h ids ⟨c.shared, Function.update c.loc i x'⟩
      ⟨c'.shared, Function.update c'.loc i y'⟩ :=
  hS.move hS.nodes hS.queued hS.crowded hS.free hS.out (fun _ _ _ _ => rfl)
    (fun _ _ _ _ _ _ hp => hp) (fun _ => le_rfl) (fun _ => le_rfl) hx

/-! ### The sizes -/

/-- `MEM_ALLOC_LEN` does not overflow an `int`. -/
def Sizes.Fits (z : Sizes) : Prop := z.numServers * (z.numWorkers * z.poolSize) + 1 < 2 ^ 31

instance (z : Sizes) : Decidable z.Fits := inferInstanceAs (Decidable (_ < _))

theorem Sizes.Fits.length (hz : z.Fits) :
    z.allocLength = z.numServers * (z.numWorkers * z.poolSize) + 1 := memAllocLen_eq hz

theorem Sizes.Fits.length_lt (hz : z.Fits) : z.allocLength < 2 ^ 63 := by
  rw [hz.length]
  exact lt_trans hz (by decide)

theorem Sizes.pool_lt_length (z : Sizes) :
    z.poolSize < z.numServers * (z.numWorkers * z.poolSize) + 1 := by
  have h1 : z.poolSize ≤ z.numWorkers * z.poolSize := Nat.le_mul_of_pos_left _ z.numWorkers_pos
  have h2 := Nat.le_mul_of_pos_left (z.numWorkers * z.poolSize) z.numServers_pos
  omega

theorem Sizes.Fits.pool_lt (hz : z.Fits) : z.poolSize < z.nodes := by
  have h1 := z.pool_lt_length
  have h2 : z.allocLength < z.nodes := lt_lengthPow2 hz.length_lt
  rw [hz.length] at h2
  omega

theorem Sizes.Fits.nodes_lt (hz : z.Fits) : z.nodes < 2 ^ 32 := by
  have h2 : z.nodes ≤ 2 * z.allocLength :=
    lengthPow2_le (by rw [hz.length]; omega) hz.length_lt
  rw [hz.length] at h2
  unfold Sizes.Fits at hz
  omega

theorem Sizes.Fits.chunks_spec (hz : z.Fits) :
    64 * z.chunks = z.nodes ∨ z.nodes < 64 ∧ z.chunks = 1 :=
  busymapLength_spec hz.length_lt

/-! ### One step -/

/-- The queues can follow a step of thread `i` to `x'` that shows `ev`. -/
def Matched (z : Sizes) (c : Config ι (Sched τ) (Worker τ)) (c' : Config ι (Queues τ) (Client τ))
    [DecidableEq τ] (i : ι) (g' : Sched τ) (x' : Worker τ) (ev : Option (SchedEvent τ)) : Prop :=
  ∃ place' h' ids' d', Hist (queueSystem z ι) (fun _ _ _ => True) queueLabel c' (shown i ev) d' ∧
    SchedSim z place' h' ids' ⟨g', Function.update c.loc i x'⟩ d'

variable [DecidableEq τ]

/-- A step that changes nothing but what thread `i` knows. -/
theorem SchedSim.quiet (hS : SchedSim z place h ids c c') {x' : Worker τ}
    (hx : x'.Ok z place c.shared h (fun p => h p + (ids p).length) i (c'.loc i)) :
    Matched z c c' i c.shared x' none := by
  refine ⟨place, h, ids, c', .refl, ?_⟩
  have := hS.stay hx
  rwa [Function.update_eq_self] at this

/-- A step of thread `i` on its own task. -/
theorem SchedSim.move_task (hS : SchedSim z place h ids c c') {task : τ} {P : Place ι}
    {x' : Worker τ} {Q' : Queues τ} {y' : Client τ} (howner : ∀ j, j ≠ i → (place task).owner ≠ some j)
    (hnodes : ∀ p, Nodes z (Function.update place task P) p (g'.prios p))
    (hqueued : ∀ p, Queued z (Function.update place task P) p (g'.prios p).ring (h' p) (ids' p)
      (Q'.queue p))
    (hcrowded : ∀ p k, 0 < k → Crowded (Function.update place task P) p k)
    (hfree : ∀ u, g'.out u = false ↔ Function.update place task P u = .free)
    (hout : Q'.out = g'.out)
    (hpay : ∀ u j p id, j ≠ i → place u = .inserting j p id →
      (c.shared.prios p).payload id = some u → (g'.prios p).payload id = some u)
    (hh : ∀ p, h p ≤ h' p) (ht : ∀ p, h p + (ids p).length ≤ h' p + (ids' p).length)
    (hx : x'.Ok z (Function.update place task P) g' h' (fun p => h' p + (ids' p).length) i y') :
    SchedSim z (Function.update place task P) h' ids' ⟨g', Function.update c.loc i x'⟩
      ⟨Q', Function.update c'.loc i y'⟩ := by
  refine hS.move hnodes hqueued hcrowded hfree hout (fun u j hj hu => ?_) hpay hh ht hx
  rw [Function.update_of_ne]
  rintro rfl
  exact howner j hj hu

omit [DecidableEq ι] [Fintype τ] in
theorem free_update {task : τ} {P : Place ι} {out : τ → Bool}
    (hfree : ∀ u, out u = false ↔ place u = .free) (hold : place task ≠ .free) (hnew : P ≠ .free)
    (u : τ) : out u = false ↔ Function.update place task P u = .free := by
  rw [hfree u]
  by_cases hu : u = task
  · subst hu
    rw [Function.update_self]
    exact ⟨fun h => absurd h hold, fun h => absurd h hnew⟩
  · rw [Function.update_of_ne hu]

/-- `mem_node_acquire` goes on to another chunk. -/
theorem SchedSim.reacquire (hS : SchedSim z place h ids c c') {task : τ} {p b b' : ℕ}
    (hpl : place task = .acquire i p b) (hb : b' ≤ z.chunks) (hy : c'.loc i = .insert task p)
    (hcrowded : ∀ k, 0 < k → Crowded (Function.update place task (.acquire i p b')) p k) :
    Matched z c c' i c.shared (.acquire task p b') none := by
  refine ⟨Function.update place task (.acquire i p b'), h, ids, c', .refl, ?_⟩
  have hsim : SchedSim z (Function.update place task (.acquire i p b')) h ids
      ⟨c.shared, Function.update c.loc i (.acquire task p b')⟩
      ⟨c'.shared, Function.update c'.loc i (c'.loc i)⟩ := by
    refine hS.move_task (fun j hj => ?_) (fun p' => ?_) (fun p' => ?_) (fun p' k hk => ?_)
      (free_update hS.free (by rw [hpl]; nofun) nofun) hS.out (fun _ _ _ _ _ _ hp => hp)
      (fun _ => le_rfl) (fun _ => le_rfl) ⟨Function.update_self .., hb, hy⟩
    · rw [hpl]
      exact fun h => hj (Option.some.inj h).symm
    · exact (hS.nodes p').other (by rw [hpl]; nofun) nofun
    · exact (hS.queued p').keep (by rw [hpl]; nofun)
    · by_cases hp : p' = p
      · subst hp
        exact hcrowded k hk
      · refine (hS.crowded p' k hk).mono fun u hu => ?_
        by_cases hut : u = task
        · subst hut
          rw [Function.update_self] at hu
          exact absurd hu.1.symm hp
        · rwa [Function.update_of_ne hut] at hu
  rwa [Function.update_eq_self] at hsim

theorem SchedSim.step_acquire (hS : SchedSim z place h ids c c') (hz : z.Fits)
    (hcard : Fintype.card τ ≤ z.poolSize) {task : τ} {p b : ℕ}
    (hpl : place task = .acquire i p b) (hb : b ≤ z.chunks) (hy : c'.loc i = .insert task p)
    {x' : Worker τ} (hs : (Worker.acquire task p b).step z c.shared = some (g', x')) :
    Matched z c c' i g' x' none := by
  have hN := hS.nodes p
  have hpast : (place task).Past p b := by
    rw [hpl]
    exact ⟨rfl, le_rfl⟩
  -- the chunks passed so far hold `64 * b - 1` other tasks
  have hroom : 64 * b ≤ z.poolSize := by
    rcases Nat.eq_zero_or_pos b with rfl | hpos
    · exact Nat.zero_le _
    · have hc := hS.crowded p b hpos ⟨task, hpast⟩
      have hmem : task ∈ Finset.univ.filter fun u => (place u).Past p b :=
        Finset.mem_filter.mpr ⟨Finset.mem_univ _, hpast⟩
      have := Finset.card_pos.mpr ⟨task, hmem⟩
      omega
  have hlt : b < z.chunks := by
    have h1 := hz.pool_lt
    rcases hz.chunks_spec with h2 | ⟨h2, h3⟩ <;> omega
  have h0 : ((c.shared.prios p).busymap 0).getLsbD 0 = true := (hN.bits 0).mpr (.inl rfl)
  simp only [Worker.step, hlt, if_true] at hs
  split at hs
  · rename_i hfull
    cases hs
    have hfull : (c.shared.prios p).busymap b = BitVec.allOnes 64 := by
      rcases hfull with hfull | ⟨rfl, hpos⟩
      · exact hfull
      · by_contra hne
        have hbit := (freePos_spec hne).2.1
        rw [hpos, h0] at hbit
        cases hbit
    refine hS.reacquire hpl hlt hy fun k hk => ?_
    by_cases hkb : k = b + 1
    · subst hkb
      refine Crowded.pass (fun hpos => hS.crowded p b hpos) hpl fun id hid hne => ?_
      have hbit : busy (c.shared.prios p).busymap id = true := by
        rw [busy, hid, hfull, BitVec.getLsbD_allOnes]
        exact decide_eq_true (Nat.mod_lt _ (by decide))
      rcases (hN.bits id).mp hbit with h | h
      · exact absurd h hne
      · exact h
    · refine (hS.crowded p k hk).mono fun u hu => ?_
      by_cases hut : u = task
      · subst hut
        rw [Function.update_self] at hu
        rw [hpl]
        exact ⟨rfl, by have := hu.2; omega⟩
      · rwa [Function.update_of_ne hut] at hu
  · rename_i hfree
    cases hs
    obtain ⟨hne, hpos⟩ := not_or.mp hfree
    exact hS.quiet ⟨hpl, hlt, hne, hpos, hy⟩

omit [DecidableEq ι] in
/-- The node found is inside the array. -/
theorem SchedSim.id_lt (hS : SchedSim z place h ids c c') (hz : z.Fits)
    (hcard : Fintype.card τ ≤ z.poolSize) {task : τ} {p b : ℕ}
    (hpl : place task = .acquire i p b) (hb : b < z.chunks)
    (hne : (c.shared.prios p).busymap b ≠ BitVec.allOnes 64) :
    b * 64 + freePos ((c.shared.prios p).busymap b) < z.nodes := by
  obtain ⟨hpos, _, hlow⟩ := freePos_spec hne
  have hpool := hz.pool_lt
  rcases hz.chunks_spec with h1 | ⟨h1, h2⟩
  · omega
  -- one chunk: the ids below the first free one are held by other tasks
  have hb0 : b = 0 := by omega
  subst hb0
  set pos := freePos ((c.shared.prios p).busymap 0) with hposdef
  have hheld : ∀ id ∈ Finset.Ico 1 pos, ∃ u, (place u).node = some (p, id) := by
    intro id hid
    obtain ⟨h3, h4⟩ := Finset.mem_Ico.mp hid
    have hbit : busy (c.shared.prios p).busymap id = true := by
      have hdiv : id / 64 = 0 := by omega
      have hmod : id % 64 = id := by omega
      rw [busy, hdiv, hmod]
      exact hlow id h4
    rcases ((hS.nodes p).bits id).mp hbit with h | h
    · omega
    · exact h
  have hle := card_le_holders _ hheld (Finset.univ.erase task) fun u id _ hu => by
    refine Finset.mem_erase.mpr ⟨?_, Finset.mem_univ u⟩
    rintro rfl
    rw [hpl] at hu
    cases hu
  rw [Nat.card_Ico, Finset.card_erase_of_mem (Finset.mem_univ task), Finset.card_univ] at hle
  have hone : 0 < Fintype.card τ := Fintype.card_pos_iff.mpr ⟨task⟩
  omega

omit [Fintype τ] [DecidableEq ι] [DecidableEq τ] in
theorem forall_setPrio {R : ℕ → Prio τ → Prop} {p : ℕ} {x : Prio τ}
    (hne : ∀ p', p' ≠ p → R p' (g.prios p')) (heq : R p x) (p' : ℕ) :
    R p' ((g.setPrio p x).prios p') := by
  show R p' (Function.update g.prios p x p')
  by_cases hp : p' = p
  · subst hp
    rw [Function.update_self]
    exact heq
  · rw [Function.update_of_ne hp]
    exact hne p' hp

/-- A step of thread `i` on priority `p` and on its own task. -/
theorem SchedSim.prio_step (hS : SchedSim z place h ids c c') (task : τ) (P : Place ι) {p : ℕ}
    {x : Prio τ} {x' : Worker τ} {Q' : Queues τ} {y' : Client τ} {ev : Option (SchedEvent τ)}
    {hp : ℕ} {idsp : List (BitVec 64)}
    (hhist : Hist (queueSystem z ι) (fun _ _ _ => True) queueLabel c' (shown i ev)
      ⟨Q', Function.update c'.loc i y'⟩)
    (howner : ∀ j, j ≠ i → (place task).owner ≠ some j)
    (hold : place task ≠ .free) (hnew : P ≠ .free)
    (hoff : ∀ p', p' ≠ p → ∀ id, (place task).node ≠ some (p', id) ∧ P.node ≠ some (p', id))
    (hnodes : Nodes z (Function.update place task P) p x)
    (hqueued : Queued z (Function.update place task P) p x.ring hp idsp (Q'.queue p))
    (hqueue : ∀ p', p' ≠ p → Q'.queue p' = c'.shared.queue p')
    (hpast : ∀ p' k, P.Past p' k → (place task).Past p' k)
    (hout : Q'.out = c'.shared.out)
    (hpay : ∀ u j id, j ≠ i → place u = .inserting j p id →
      (c.shared.prios p).payload id = some u → x.payload id = some u)
    (hh : h p ≤ hp) (ht : h p + (ids p).length ≤ hp + idsp.length)
    (hx : x'.Ok z (Function.update place task P) (c.shared.setPrio p x) (Function.update h p hp)
      (fun p' => Function.update h p hp p' + (Function.update ids p idsp p').length) i y') :
    Matched z c c' i (c.shared.setPrio p x) x' ev := by
  have hle : ∀ {n m : ℕ → ℕ}, (∀ p', p' ≠ p → n p' ≤ m p') → n p ≤ m p → ∀ p', n p' ≤ m p' := by
    intro n m hne heq p'
    by_cases hp : p' = p
    · exact hp ▸ heq
    · exact hne p' hp
  refine ⟨_, _, _, _, hhist, hS.move_task howner ?_ ?_ ?_ (free_update hS.free hold hnew) ?_ ?_ ?_ ?_ hx⟩
  · exact forall_setPrio
      (fun p' hp => (hS.nodes p').other (fun id => (hoff p' hp id).1) fun id => (hoff p' hp id).2)
      hnodes
  · intro p'
    by_cases hp' : p' = p
    · subst hp'
      simpa [Sched.setPrio] using hqueued
    · simp only [Sched.setPrio, Function.update_of_ne hp', hqueue p' hp']
      refine (hS.queued p').keep fun id hid => ?_
      exact (hoff p' hp' id).1 (by rw [hid]; rfl)
  · intro p' k hk
    refine (hS.crowded p' k hk).mono fun u hu => ?_
    by_cases hut : u = task
    · subst hut
      rw [Function.update_self] at hu
      exact hpast p' k hu
    · rwa [Function.update_of_ne hut] at hu
  · exact hout.trans hS.out
  · intro u j p' id hj hu hpu
    by_cases hp' : p' = p
    · subst hp'
      simpa [Sched.setPrio] using hpay u j id hj hu hpu
    · simpa [Sched.setPrio, Function.update_of_ne hp'] using hpu
  · refine hle (fun p' hp' => ?_) ?_
    · rw [Function.update_of_ne hp']
    · rwa [Function.update_self]
  · refine hle (fun p' hp' => ?_) ?_
    · rw [Function.update_of_ne hp', Function.update_of_ne hp']
    · rwa [Function.update_self, Function.update_self]

omit [Fintype τ] in
/-- The queues do not move. -/
theorem hist_idle : Hist (queueSystem z ι) (fun _ _ _ => True) queueLabel c' (shown i none)
    ⟨c'.shared, Function.update c'.loc i (c'.loc i)⟩ := by
  rw [Function.update_eq_self]
  exact .refl

omit [Fintype τ] in
theorem queue_hist (a : SchedAct τ) {y y' : Client τ} {Q : Queues τ} (hy : c'.loc i = y)
    (hs : (queueSystem z ι).step i a c'.shared y = some (Q, y')) :
    Hist (queueSystem z ι) (fun _ _ _ => True) queueLabel c' (shown i (queueLabel a y))
      ⟨Q, Function.update c'.loc i y'⟩ := by
  subst hy
  exact .single trivial hs

theorem SchedSim.step_acquireCas (hS : SchedSim z place h ids c c') (hz : z.Fits)
    (hcard : Fintype.card τ ≤ z.poolSize) {task : τ} {p b : ℕ} {w : BitVec 64}
    (hx : (Worker.acquireCas task p b w).Ok z place c.shared h (fun p => h p + (ids p).length) i
      (c'.loc i))
    {x' : Worker τ} (hs : (Worker.acquireCas task p b w).step z c.shared = some (g', x')) :
    Matched z c c' i g' x' none := by
  obtain ⟨hpl, hb, hne, _, hy⟩ := hx
  simp only [Worker.step] at hs
  split at hs
  · rename_i hw
    cases hs
    subst hw
    obtain ⟨hpos, hbit, _⟩ := freePos_spec hne
    have hlt := hS.id_lt hz hcard hpl hb hne
    set pos := freePos ((c.shared.prios p).busymap b) with hposdef
    have hdiv : (b * 64 + pos) / 64 = b := by omega
    have hmod : (b * 64 + pos) % 64 = pos := by omega
    have hbusy : busy (c.shared.prios p).busymap (b * 64 + pos) = false := by
      rw [busy, hdiv, hmod]
      exact hbit
    refine hS.prio_step task (.inserting i p (b * 64 + pos)) hist_idle ?_ (by simp [hpl])
      (by simp) ?_ ((hS.nodes p).take (by rw [hpl]; rfl) hpos hbusy hlt)
      ((hS.queued p).keep (by simp [hpl])) (fun _ _ => rfl) ?_ rfl
      (fun _ _ _ _ _ hp => hp) le_rfl le_rfl ⟨Function.update_self .., hy⟩
    · rw [hpl]
      exact fun j hj h => hj (Option.some.inj h).symm
    · intro p' hp' id
      rw [hpl]
      refine ⟨by simp [Place.node], fun hid => ?_⟩
      cases hid
      exact hp' rfl
    · rintro p' k ⟨rfl, hk⟩
      rw [hpl]
      exact ⟨rfl, by omega⟩
  · cases hs
    refine hS.reacquire hpl (Nat.zero_le _) hy fun k hk => ?_
    refine (hS.crowded p k hk).mono fun u hu => ?_
    by_cases hut : u = task
    · subst hut
      rw [Function.update_self] at hu
      exact absurd hu.2 (by omega)
    · rwa [Function.update_of_ne hut] at hu

omit [DecidableEq ι] [Fintype τ] [DecidableEq τ] in
/-- The task of a thread that inserts or removes it is nobody else's, and its
node belongs to one priority. -/
theorem owner_ne {u : τ} {P : Place ι} (hu : place u = P) (hP : P.owner = some i) :
    ∀ j, j ≠ i → (place u).owner ≠ some j := by
  intro j hj hown
  rw [hu, hP] at hown
  exact hj (Option.some.inj hown).symm

omit [DecidableEq ι] [Fintype τ] [DecidableEq τ] in
theorem node_ne {u : τ} {P P' : Place ι} {p id : ℕ} (hu : place u = P)
    (hP : P.node = some (p, id) ∨ P.node = none) (hP' : P'.node = some (p, id) ∨ P'.node = none) :
    ∀ p', p' ≠ p → ∀ id', (place u).node ≠ some (p', id') ∧ P'.node ≠ some (p', id') := by
  intro p' hp' id'
  rw [hu]
  refine ⟨fun h => ?_, fun h => ?_⟩
  · rcases hP with hP | hP <;> rw [hP] at h <;> cases h
    exact hp' rfl
  · rcases hP' with hP' | hP' <;> rw [hP'] at h <;> cases h
    exact hp' rfl

/-- The task goes into its node. -/
theorem SchedSim.step_store (hS : SchedSim z place h ids c c') (hz : z.Fits) {task : τ} {p id : ℕ}
    (hpl : place task = .inserting i p id) (hy : c'.loc i = .insert task p)
    {x' : Worker τ} (hs : (Worker.store task p id).step z c.shared = some (g', x')) :
    Matched z c c' i g' x' none := by
  have hnode : (place task).node = some (p, id) := by
    rw [hpl]
    rfl
  have hN := hS.nodes p
  have hlt := hN.id_lt task id hnode
  have hnodes := hz.nodes_lt
  have hpos := hN.id_pos task id hnode
  simp only [Worker.step, hlt, if_true, Option.some.injEq, Prod.mk.injEq] at hs
  obtain ⟨rfl, rfl⟩ := hs
  -- no other task has this node
  have hother : ∀ u id', (place u).node = some (p, id') → u ≠ task → id' ≠ id := by
    rintro u id' hu hne rfl
    exact hne (hN.inj u task id' hu hnode)
  have hval : ValOk z.shape (BitVec.ofNat 64 id) := by
    have hid : (BitVec.ofNat 64 id).toNat = id := Nat.mod_eq_of_lt (by omega)
    refine ⟨fun h0 => hpos ?_, ?_⟩
    · rw [← hid, h0]
      rfl
    · rw [hid]
      exact hlt.trans hnodes
  have hplace : Function.update place task (.inserting i p id) = place := by
    rw [← hpl, Function.update_eq_self]
  refine hS.prio_step task (.inserting i p id) hist_idle (owner_ne hpl rfl)
    (by simp [hpl]) (by simp) (node_ne hpl (.inl rfl) (.inl rfl)) ?_ ?_ (fun _ _ => rfl)
    (by rw [hpl]; exact fun _ _ h => h) rfl ?_ le_rfl le_rfl ?_
  · rw [hplace]
    refine ⟨hN.bits, hN.id_pos, hN.id_lt, hN.inj, fun u id' hu => ?_⟩
    have hne : u ≠ task := by
      rintro rfl
      rw [hpl] at hu
      rcases hu with hu | ⟨_, hu⟩ <;> cases hu
    have hunode : (place u).node = some (p, id') := by
      rcases hu with hu | ⟨_, hu⟩ <;> rw [hu] <;> rfl
    dsimp only
    rw [Function.update_of_ne (hother u id' hunode hne)]
    exact hN.payload u id' hu
  · rw [hplace]
    exact hS.queued p
  · intro u j id' hj hu hpay
    have hne : u ≠ task := by
      rintro rfl
      rw [hpl] at hu
      cases hu
      exact hj rfl
    have hunode : (place u).node = some (p, id') := by
      rw [hu]
      rfl
    dsimp only
    rw [Function.update_of_ne (hother u id' hunode hne)]
    exact hpay
  · refine ⟨hval, .inl ⟨rfl, Function.update_self .., ?_, hy⟩⟩
    simp [Sched.setPrio]

/-! ### The steps of the two list operations -/

omit [DecidableEq ι] [Fintype τ] [DecidableEq τ] in
theorem Nodes.ring {p : ℕ} {x : Prio τ} (hN : Nodes z place p x) (r : Ring) :
    Nodes z place p { x with ring := r } :=
  ⟨hN.bits, hN.id_pos, hN.id_lt, hN.inj, hN.payload⟩

/-- A step on the list that takes no effect on its queue. -/
theorem SchedSim.ring_step (hS : SchedSim z place h ids c c') {p : ℕ} {r : Ring} {x' : Worker τ}
    (hH : Holds z.shape r (h p) (ids p))
    (hx : x'.Ok z place (c.shared.setPrio p { c.shared.prios p with ring := r }) h
      (fun p => h p + (ids p).length) i (c'.loc i)) :
    Matched z c c' i (c.shared.setPrio p { c.shared.prios p with ring := r }) x' none := by
  refine ⟨place, h, ids, _, hist_idle, hS.move ?_ ?_ hS.crowded hS.free hS.out
    (fun _ _ _ _ => rfl) ?_ (fun _ => le_rfl) (fun _ => le_rfl) hx⟩
  · exact forall_setPrio (fun p' _ => hS.nodes p') ((hS.nodes p).ring r)
  · intro p'
    by_cases hp' : p' = p
    · subst hp'
      have hQ := hS.queued p'
      simpa [Sched.setPrio] using (⟨hH, hQ.tasks, hQ.nodup⟩ : Queued z place p' r _ _ _)
    · simpa [Sched.setPrio, Function.update_of_ne hp'] using hS.queued p'
  · intro u j p' id _ _ hpay
    by_cases hp' : p' = p
    · subst hp'
      simpa [Sched.setPrio] using hpay
    · simpa [Sched.setPrio, Function.update_of_ne hp'] using hpay

omit [DecidableEq ι] [DecidableEq τ] in
/-- A task that is being inserted leaves room for itself. -/
theorem SchedSim.not_full (hS : SchedSim z place h ids c c') (hcard : Fintype.card τ ≤ z.poolSize)
    {task : τ} {p id : ℕ} (hpl : place task = .inserting i p id) :
    (ids p).length < z.poolSize := by
  have hQ := hS.queued p
  have hmem : task ∉ c'.shared.queue p := by
    intro ht
    obtain ⟨id', ht⟩ := hQ.mem ht
    rw [hpl] at ht
    cases ht
  have hnodup : (task :: c'.shared.queue p).Nodup := List.nodup_cons.mpr ⟨hmem, hQ.nodup⟩
  have hlen := hnodup.length_le_card
  rw [List.length_cons, ← hQ.tasks.length_eq] at hlen
  omega

theorem SchedSim.step_insert (hS : SchedSim z place h ids c c') (hz : z.Fits)
    (hcard : Fintype.card τ ≤ z.poolSize) {task : τ} {p id : ℕ} {op : Insert}
    (hfit : op.VerFits z.shape)
    (hx : (Worker.insert task p id op).Ok z place c.shared h (fun p => h p + (ids p).length) i
      (c'.loc i)) :
    Matched z c c' i
      (c.shared.setPrio p { c.shared.prios p with
        ring := (op.step z.shape (c.shared.prios p).ring).1 })
      (.insert task p id (op.step z.shape (c.shared.prios p).ring).2) none := by
  obtain ⟨hop, hx⟩ := hx
  obtain ⟨q', hH', hop', hlen, hadv⟩ := Insert.step_spec (hS.queued p).holds hop hfit
  rcases hadv with ⟨rfl, hph'⟩ | ⟨o, ho, rfl, hph'⟩
  · refine hS.ring_step hH' ⟨hop', ?_⟩
    rw [hph']
    rcases hx with ⟨hph, hpl, hpay, hy⟩ | hx
    · exact .inl ⟨hph, hpl, by simpa [Sched.setPrio] using hpay, hy⟩
    · exact .inr hx
  · rcases hx with ⟨hph, hpl, hpay, hy⟩ | ⟨hph, _⟩
    · have hfull := hS.not_full hcard hpl
      rw [hph] at ho
      cases ho
      have hfifo : fifo z.shape.length (.insert (BitVec.ofNat 64 id)) (ids p) =
          (ids p ++ [BitVec.ofNat 64 id], .inserted) := if_pos hfull
      rw [hfifo] at hH' hop' hph' hlen
      have hnode : (place task).node = some (p, id) := by
        rw [hpl]
        rfl
      have hid : id < 2 ^ 64 := by
        have h1 := (hS.nodes p).id_lt task id hnode
        have h2 := hz.nodes_lt
        omega
      have hhist : Hist (queueSystem z ι) (fun _ _ _ => True) queueLabel c' (shown i none)
          ⟨{ c'.shared with
              queue := Function.update c'.shared.queue p (c'.shared.queue p ++ [task]) },
            Function.update c'.loc i (.inserted 0)⟩ := queue_hist .go hy rfl
      refine hS.prio_step task (.queued p id) hhist (owner_ne hpl rfl) (by simp [hpl]) (by simp)
        (node_ne hpl (.inl rfl) (.inl rfl)) (((hS.nodes p).keep hnode rfl hpay).ring _) ?_ ?_ ?_
        rfl (fun _ _ _ _ _ hp => hp) le_rfl (Nat.add_le_add_left hlen _) ?_
      · dsimp only
        rw [Function.update_self]
        exact (hS.queued p).enqueue (by simp [hpl]) hid hH'
      · intro p' hp'
        exact Function.update_of_ne hp' ..
      · rw [hpl]
        exact fun _ _ hk => hk
      · refine ⟨?_, .inr ⟨hph', rfl⟩⟩
        simpa using hop'
    · rw [hph] at ho
      cases ho

omit [DecidableEq ι] [Fintype τ] [DecidableEq τ] in
theorem Queued.eq_nil {p : ℕ} {r : Ring} {n : ℕ} {q : List τ} (hQ : Queued z place p r n [] q) :
    q = [] := by
  have := hQ.tasks
  cases this
  rfl

theorem SchedSim.step_remove (hS : SchedSim z place h ids c c') {p : ℕ} {op : Remove}
    (hx : (Worker.remove p op).Ok z place c.shared h (fun p => h p + (ids p).length) i (c'.loc i)) :
    Matched z c c' i
      (c.shared.setPrio p { c.shared.prios p with
        ring := (op.step z.shape (c.shared.prios p).ring).1 })
      (.remove p (op.step z.shape (c.shared.prios p).ring).2) none := by
  obtain ⟨hop, hx⟩ := hx
  have hQ := hS.queued p
  obtain ⟨h', q', hH', hop', hle, heq, hadv⟩ := Remove.step_spec hQ.holds hop
  rcases hadv with ⟨rfl, hph'⟩ | ⟨o, ho, rfl, hph'⟩
  · obtain rfl : h' = h p := by omega
    refine hS.ring_step hH' ⟨hop', ?_⟩
    rw [hph']
    exact hx
  · rcases hx with ⟨hph, hy⟩ | ⟨v, task, hph, _⟩ | ⟨hph, _⟩
    · rw [hph] at ho
      cases ho
      cases hids : ids p with
      | nil =>
        rw [hids] at hH' hph' heq hQ
        have hempty := hQ.eq_nil
        obtain rfl : h' = h p := by
          simp only [fifo, List.length_nil] at heq
          omega
        have hhist : Hist (queueSystem z ι) (fun _ _ _ => True) queueLabel c' (shown i none)
            ⟨c'.shared, Function.update c'.loc i (Client.next p)⟩ := by
          refine queue_hist .go hy ?_
          simp only [queueSystem]
          rw [hempty]
        refine ⟨place, h, ids, _, hhist, hS.move ?_ ?_ hS.crowded hS.free hS.out
          (fun _ _ _ _ => rfl) ?_ (fun _ => le_rfl) (fun _ => le_rfl)
          ⟨hop', .inr (.inr ⟨hph', rfl⟩)⟩⟩
        · exact forall_setPrio (fun p' _ => hS.nodes p') ((hS.nodes p).ring _)
        · intro p'
          by_cases hp' : p' = p
          · subst hp'
            have hQ' := hS.queued p'
            rw [hids] at hQ'
            simpa [Sched.setPrio, hids, fifo] using
              (⟨hH', hQ'.tasks, hQ'.nodup⟩ : Queued z place p' _ _ _ _)
          · simpa [Sched.setPrio, Function.update_of_ne hp'] using hS.queued p'
        · intro u j p' id _ _ hpay
          by_cases hp' : p' = p
          · subst hp'
            simpa [Sched.setPrio] using hpay
          · simpa [Sched.setPrio, Function.update_of_ne hp'] using hpay
      | cons v tl =>
        rw [hids] at hH' hph' heq hQ
        obtain ⟨task, qtl, hq, hpl, hQ'⟩ := hQ.dequeue hH' i
        have hhist : Hist (queueSystem z ι) (fun _ _ _ => True) queueLabel c' (shown i none)
            ⟨{ c'.shared with queue := Function.update c'.shared.queue p qtl },
              Function.update c'.loc i (.removed (some task))⟩ := by
          refine queue_hist .go hy ?_
          simp only [queueSystem]
          rw [hq]
        have hnode : (place task).node = some (p, v.toNat) := by
          rw [hpl]
          rfl
        have hpay := (hS.nodes p).payload task v.toNat (.inl hpl)
        have hqueue : Function.update c'.shared.queue p qtl p = qtl := Function.update_self ..
        refine hS.prio_step task (.removing i p v.toNat) hhist
          (by rw [hpl]; exact fun _ _ ho => by cases ho) (by rw [hpl]; simp) (by simp) (node_ne hpl (.inl rfl) (.inl rfl))
          (((hS.nodes p).keep hnode rfl hpay).ring _) (hqueue.symm ▸ hQ') ?_ ?_ rfl
          (fun _ _ _ _ _ hp => hp) hle ?_ ?_
        · intro p' hp'
          exact Function.update_of_ne hp' ..
        · rw [hpl]
          exact fun _ _ hk => hk
        · rw [hids, heq]
          rfl
        · refine ⟨?_, .inr (.inl ⟨v, task, hph', Function.update_self .., rfl⟩)⟩
          simpa using hop'
    · rw [hph] at ho
      cases ho
    · rw [hph] at ho
      cases ho

/-! ### The release of a node and the return -/

theorem SchedSim.step_load (hS : SchedSim z place h ids c c') {p id : ℕ}
    (hx : (Worker.load p id).Ok z place c.shared h (fun p => h p + (ids p).length) i (c'.loc i))
    {x' : Worker τ} (hs : (Worker.load p id : Worker τ).step z c.shared = some (g', x')) :
    Matched z c c' i g' x' none := by
  obtain ⟨task, hpl, hy⟩ := hx
  have hlt := (hS.nodes p).id_lt task id (by rw [hpl]; rfl)
  have hpay := (hS.nodes p).payload task id (.inr ⟨i, hpl⟩)
  simp only [Worker.step, hlt, if_true, Option.some.injEq, Prod.mk.injEq] at hs
  obtain ⟨rfl, rfl⟩ := hs
  exact hS.quiet ⟨task, hpay, hpl, hy⟩

theorem SchedSim.step_release (hS : SchedSim z place h ids c c') {task : Option τ} {p id : ℕ}
    (hx : (Worker.release task p id).Ok z place c.shared h (fun p => h p + (ids p).length) i
      (c'.loc i))
    {x' : Worker τ} (hs : (Worker.release task p id).step z c.shared = some (g', x')) :
    Matched z c c' i g' x' none := by
  obtain ⟨u, hu, hpl, hy⟩ := hx
  have hbit : busy (c.shared.prios p).busymap id = true :=
    ((hS.nodes p).bits id).mpr (.inr ⟨u, by rw [hpl]; rfl⟩)
  rw [busy] at hbit
  simp only [Worker.step, hbit, if_true, Option.some.injEq, Prod.mk.injEq] at hs
  obtain ⟨rfl, rfl⟩ := hs
  exact hS.quiet ⟨u, hu, hpl, hy⟩

theorem SchedSim.step_releaseCas (hS : SchedSim z place h ids c c') {task pay : Option τ}
    {p id : ℕ} {w : BitVec 64}
    (hx : (Worker.releaseCas task p id w pay).Ok z place c.shared h
      (fun p => h p + (ids p).length) i (c'.loc i))
    {x' : Worker τ} (hs : (Worker.releaseCas task p id w pay).step z c.shared = some (g', x')) :
    Matched z c c' i g' x' none := by
  obtain ⟨u, hu, hpu, hpl, hy⟩ := hx
  simp only [Worker.step] at hs
  split at hs
  · rename_i hw
    cases hs
    subst hw
    have hnode : (place u).node = some (p, id) := by
      rw [hpl]
      rfl
    refine hS.prio_step u (.leaving i) hist_idle (owner_ne hpl rfl) (by simp [hpl]) (by simp)
      (node_ne hpl (.inl rfl) (.inr rfl)) ((hS.nodes p).drop hnode rfl)
      ((hS.queued p).keep (by simp [hpl])) (fun _ _ => rfl) (fun _ _ h => h.elim) rfl
      (fun _ _ _ _ _ hp => hp) le_rfl le_rfl ⟨u, hu, hpu, Function.update_self .., hy⟩
  · cases hs
    exact hS.quiet ⟨u, hu, hpl, hy⟩

theorem SchedSim.step_releaseClear (hS : SchedSim z place h ids c c') {task pay : Option τ}
    {p id : ℕ}
    (hx : (Worker.releaseClear task p id pay).Ok z place c.shared h
      (fun p => h p + (ids p).length) i (c'.loc i))
    {x' : Worker τ} (hs : (Worker.releaseClear task p id pay).step z c.shared = some (g', x')) :
    Matched z c c' i g' x' none := by
  obtain ⟨u, rfl, rfl, hpl, hy⟩ := hx
  simp only [Worker.step, Worker.leave, Option.isSome_some, if_true] at hs
  split at hs
  · rename_i hpay
    cases hs
    -- the payload still names the task that leaves, so no other task uses the node
    have hplace : Function.update place u (.leaving i) = place := by
      rw [← hpl, Function.update_eq_self]
    have hne : ∀ u' id', (c.shared.prios p).payload id' = some u' → place u' ≠ .leaving i →
        id' ≠ id := by
      rintro u' id' hu' hne rfl
      rw [hpay] at hu'
      cases hu'
      exact hne hpl
    have hN := hS.nodes p
    refine hS.prio_step u (.leaving i) hist_idle (owner_ne hpl rfl) (by simp [hpl]) (by simp)
      (node_ne hpl (.inr rfl : _ = some (p, id) ∨ _) (.inr rfl)) ?_ ?_ (fun _ _ => rfl)
      (fun _ _ h => h.elim) rfl ?_ le_rfl le_rfl ⟨Function.update_self .., hy⟩
    · rw [hplace]
      refine ⟨hN.bits, hN.id_pos, hN.id_lt, hN.inj, fun u' id' hu' => ?_⟩
      have hpu := hN.payload u' id' hu'
      have hnot : place u' ≠ .leaving i := by
        rcases hu' with hu' | ⟨_, hu'⟩ <;> simp [hu']
      dsimp only
      rw [Function.update_of_ne (hne u' id' hpu hnot)]
      exact hpu
    · rw [hplace]
      exact hS.queued p
    · intro u' j id' _ hu' hpu
      dsimp only
      rw [Function.update_of_ne (hne u' id' hpu (by simp [hu']))]
      exact hpu
  · cases hs
    exact hS.quiet ⟨hpl, hy⟩

end TinyStm.Nbb
