import Mathlib.Data.Fintype.Card
import TinyStm.Nbb.Sched

/-!
# Where every task is

The invariant behind the scheduler: a map from tasks to places, with the holder
of every task and node. A taken bit of a bitmap belongs to one task, so a full
chunk is full of tasks, and the tasks that an acquisition has left behind in the
chunks it passed bound how far it can get.
-/

namespace TinyStm.Nbb

open Interleave

inductive Place (ι : Type*) where
  | free
  | acquire (i : ι) (p b : ℕ)
  | inserting (i : ι) (p id : ℕ)
  | queued (p id : ℕ)
  | removing (i : ι) (p id : ℕ)
  | leaving (i : ι)

variable {ι τ : Type*}

/-- The thread that works on a task. -/
def Place.owner : Place ι → Option ι
  | .free | .queued _ _ => none
  | .acquire i _ _ | .inserting i _ _ | .removing i _ _ | .leaving i => some i

/-- The priority and the node of a task. -/
def Place.node : Place ι → Option (ℕ × ℕ)
  | .inserting _ p id | .queued p id | .removing _ p id => some (p, id)
  | .free | .acquire _ _ _ | .leaving _ => none

/-- The task is past the first `k` chunks of priority `p`: it looks for a node or
has one there. -/
def Place.Past (p k : ℕ) : Place ι → Prop
  | .acquire _ p' b => p' = p ∧ k ≤ b
  | .inserting _ p' id | .queued p' id | .removing _ p' id => p' = p ∧ k ≤ id / 64
  | .free | .leaving _ => False

instance (p k : ℕ) : DecidablePred (Place.Past (ι := ι) p k)
  | .acquire _ _ _ | .inserting _ _ _ | .queued _ _ | .removing _ _ _ =>
    inferInstanceAs (Decidable (_ ∧ _))
  | .free | .leaving _ => .isFalse id

/-- The bitmap of one priority and the tasks that hold its nodes. -/
structure Nodes (z : Sizes) (place : τ → Place ι) (p : ℕ) (x : Prio τ) : Prop where
  bits : ∀ id, busy x.busymap id = true ↔ id = 0 ∨ ∃ t, (place t).node = some (p, id)
  id_pos : ∀ t id, (place t).node = some (p, id) → id ≠ 0
  id_lt : ∀ t id, (place t).node = some (p, id) → id < z.nodes
  inj : ∀ t t' id, (place t).node = some (p, id) → (place t').node = some (p, id) → t = t'
  payload : ∀ t id, (place t = .queued p id ∨ ∃ i, place t = .removing i p id) →
    x.payload id = some t

/-- The list of one priority and the queue of tasks it stands for. -/
structure Queued (z : Sizes) (place : τ → Place ι) (p : ℕ) (r : Ring) (h : ℕ)
    (ids : List (BitVec 64)) (q : List τ) : Prop where
  holds : Holds z.shape r h ids
  tasks : List.Forall₂ (fun id t => place t = .queued p id.toNat) ids q
  nodup : q.Nodup

/-- Every chunk that is left behind was full of tasks. -/
def Crowded [Fintype τ] (place : τ → Place ι) (p k : ℕ) : Prop :=
  (∃ t, (place t).Past p k) →
    (Finset.univ.filter fun t => (place t).Past p k).card + (64 * k - 1) ≤ Fintype.card τ

/-- What thread `i` at `x` knows, and where it stands in the queues. -/
def Worker.Ok (z : Sizes) (place : τ → Place ι) (g : Sched τ) (h t : ℕ → ℕ) (i : ι) :
    Worker τ → Client τ → Prop
  | .idle, y => y = .idle
  | .acquire task p b, y => place task = .acquire i p b ∧ b ≤ z.chunks ∧ y = .insert task p
  | .acquireCas task p b oldchunk, y => place task = .acquire i p b ∧ b < z.chunks ∧
      oldchunk ≠ BitVec.allOnes 64 ∧ ¬ (b = 0 ∧ freePos oldchunk = 0) ∧ y = .insert task p
  | .nullNode, _ | .outside, _ => False
  | .store task p id, y => place task = .inserting i p id ∧ y = .insert task p
  | .insert task p id op, y => op.Ok z.shape (t p) ∧
      (op.phase = .called (.insert (BitVec.ofNat 64 id)) ∧ place task = .inserting i p id ∧
          (g.prios p).payload id = some task ∧ y = .insert task p ∨
        op.phase = .done .inserted ∧ y = .inserted 0)
  | .inserted code, y => y = .inserted code
  | .remove p op, y => op.Ok z.shape (h p) ∧
      (op.phase = .called .remove ∧ y = .remove p ∨
        (∃ v task, op.phase = .done (.removed v) ∧ place task = .removing i p v.toNat ∧
          y = .removed (some task)) ∨
        op.phase = .done .empty ∧ y = Client.next p)
  | .load p id, y => ∃ task, place task = .removing i p id ∧ y = .removed (some task)
  | .release task p id, y | .releasePayload task p id _, y =>
      ∃ t, task = some t ∧ place t = .removing i p id ∧ y = .removed (some t)
  | .releaseCas task p id _ payload, y =>
      ∃ t, task = some t ∧ payload = some t ∧ place t = .removing i p id ∧ y = .removed (some t)
  | .releaseClear task _ _ payload, y =>
      ∃ t, task = some t ∧ payload = some t ∧ place t = .leaving i ∧ y = .removed (some t)
  | .removed (some t), y => place t = .leaving i ∧ y = .removed (some t)
  | .removed none, y => y = .removed none

/-- The scheduler and the queues it stands for. -/
structure SchedSim [Fintype τ] (z : Sizes) (place : τ → Place ι) (h : ℕ → ℕ)
    (ids : ℕ → List (BitVec 64)) (c : Config ι (Sched τ) (Worker τ))
    (c' : Config ι (Queues τ) (Client τ)) : Prop where
  nodes : ∀ p, Nodes z place p (c.shared.prios p)
  queued : ∀ p, Queued z place p (c.shared.prios p).ring (h p) (ids p) (c'.shared.queue p)
  crowded : ∀ p k, 0 < k → Crowded place p k
  free : ∀ t, c.shared.out t = false ↔ place t = .free
  out : c'.shared.out = c.shared.out
  loc : ∀ i, (c.loc i).Ok z place c.shared h (fun p => h p + (ids p).length) i (c'.loc i)

section

variable {z : Sizes} {place place' : τ → Place ι} {p : ℕ} {x : Prio τ} {task : τ} {P : Place ι}

/-! ### A task that moves -/

variable [DecidableEq τ]

/-- A task that had no node of this priority and gets none. -/
theorem Nodes.other (hN : Nodes z place p x) (hold : ∀ id, (place task).node ≠ some (p, id))
    (hnew : ∀ id, P.node ≠ some (p, id)) : Nodes z (Function.update place task P) p x := by
  have hiff : ∀ t id, ((Function.update place task P) t).node = some (p, id) ↔
      (place t).node = some (p, id) := by
    intro t id
    by_cases ht : t = task
    · subst ht
      rw [Function.update_self]
      exact ⟨fun h => absurd h (hnew id), fun h => absurd h (hold id)⟩
    · rw [Function.update_of_ne ht]
  refine ⟨fun id => ?_, fun t id h => hN.id_pos t id ((hiff t id).mp h),
    fun t id h => hN.id_lt t id ((hiff t id).mp h),
    fun t t' id h h' => hN.inj t t' id ((hiff t id).mp h) ((hiff t' id).mp h'), fun t id h => ?_⟩
  · rw [hN.bits id]
    simp only [hiff]
  · have hnode : ((Function.update place task P) t).node = some (p, id) := by
      rcases h with h | ⟨i, h⟩ <;> rw [h] <;> rfl
    by_cases ht : t = task
    · subst ht
      rw [Function.update_self] at hnode
      exact absurd hnode (hnew id)
    · rw [Function.update_of_ne ht] at h
      exact hN.payload t id h

/-- A task that keeps its node and whose payload is there. -/
theorem Nodes.keep (hN : Nodes z place p x) {id : ℕ} (hold : (place task).node = some (p, id))
    (hnew : P.node = some (p, id)) (hpay : x.payload id = some task) :
    Nodes z (Function.update place task P) p x := by
  have hiff : ∀ t, ((Function.update place task P) t).node = (place t).node := by
    intro t
    by_cases ht : t = task
    · subst ht
      rw [Function.update_self, hold, hnew]
    · rw [Function.update_of_ne ht]
  refine ⟨fun id => ?_, fun t id h => hN.id_pos t id (by rwa [hiff] at h),
    fun t id h => hN.id_lt t id (by rwa [hiff] at h),
    fun t t' id h h' => hN.inj t t' id (by rwa [hiff] at h) (by rwa [hiff] at h'),
    fun t id' h => ?_⟩
  · rw [hN.bits id]
    simp only [hiff]
  · by_cases ht : t = task
    · subst ht
      have hnode : ((Function.update place t P) t).node = some (p, id') := by
        rcases h with h | ⟨i, h⟩ <;> rw [h] <;> rfl
      rw [Function.update_self, hnew] at hnode
      cases hnode
      exact hpay
    · rw [Function.update_of_ne ht] at h
      exact hN.payload t id' h

/-- `mem_node_acquire` gives a free node to a task that had none. -/
theorem Nodes.take (hN : Nodes z place p x) (hold : (place task).node = none) {i : ι} {b pos : ℕ}
    (hpos : pos < 64) (hfree : busy x.busymap (b * 64 + pos) = false)
    (hlt : b * 64 + pos < z.nodes) :
    Nodes z (Function.update place task (.inserting i p (b * 64 + pos))) p
      { x with busymap := Function.update x.busymap b (setBit (x.busymap b) pos) } := by
  have hnone : ∀ t, (place t).node ≠ some (p, b * 64 + pos) := by
    intro t ht
    have := (hN.bits _).mpr (.inr ⟨t, ht⟩)
    rw [hfree] at this
    cases this
  have hzero : b * 64 + pos ≠ 0 := by
    intro h0
    have := (hN.bits (b * 64 + pos)).mpr (.inl h0)
    rw [hfree] at this
    cases this
  have hiff : ∀ t id, ((Function.update place task (.inserting i p (b * 64 + pos))) t).node =
      some (p, id) ↔ (place t).node = some (p, id) ∨ t = task ∧ id = b * 64 + pos := by
    intro t id
    by_cases ht : t = task
    · subst ht
      rw [Function.update_self, hold]
      simp [Place.node, eq_comm]
    · rw [Function.update_of_ne ht]
      simp [ht]
  refine ⟨fun id => ?_, fun t id h => ?_, fun t id h => ?_, fun t t' id h h' => ?_, fun t id h => ?_⟩
  · dsimp only
    rw [busy_setBit hpos, hN.bits id]
    simp only [hiff]
    constructor
    · rintro ((h | ⟨t, h⟩) | rfl)
      · exact .inl h
      · exact .inr ⟨t, .inl h⟩
      · exact .inr ⟨task, .inr ⟨rfl, rfl⟩⟩
    · rintro (h | ⟨t, h | ⟨_, h⟩⟩)
      · exact .inl (.inl h)
      · exact .inl (.inr ⟨t, h⟩)
      · exact .inr h
  · rcases (hiff t id).mp h with h | ⟨_, rfl⟩
    · exact hN.id_pos t id h
    · exact hzero
  · rcases (hiff t id).mp h with h | ⟨_, rfl⟩
    · exact hN.id_lt t id h
    · exact hlt
  · rcases (hiff t id).mp h with ht | ⟨ht, hid⟩
    · rcases (hiff t' id).mp h' with ht' | ⟨_, hid⟩
      · exact hN.inj t t' id ht ht'
      · rw [hid] at ht
        exact absurd ht (hnone t)
    · rcases (hiff t' id).mp h' with ht' | ⟨ht', _⟩
      · rw [hid] at ht'
        exact absurd ht' (hnone t')
      · rw [ht, ht']
  · have ht : t ≠ task := by
      rintro rfl
      rw [Function.update_self] at h
      rcases h with h | ⟨_, h⟩ <;> cases h
    rw [Function.update_of_ne ht] at h
    exact hN.payload t id h

/-- `mem_node_release` takes the node of a task back. -/
theorem Nodes.drop (hN : Nodes z place p x) {id : ℕ} (hold : (place task).node = some (p, id))
    (hnew : P.node = none) :
    Nodes z (Function.update place task P) p
      { x with
        busymap := Function.update x.busymap (id / 64) (clearBit (x.busymap (id / 64)) (id % 64)) } := by
  have hmod : id % 64 < 64 := Nat.mod_lt _ (by decide)
  have hid : id / 64 * 64 + id % 64 = id := by omega
  have hiff : ∀ t id', ((Function.update place task P) t).node = some (p, id') ↔
      (place t).node = some (p, id') ∧ t ≠ task := by
    intro t id'
    by_cases ht : t = task
    · subst ht
      rw [Function.update_self, hnew]
      simp
    · rw [Function.update_of_ne ht]
      simp [ht]
  refine ⟨fun id' => ?_, fun t id' h => hN.id_pos t id' ((hiff t id').mp h).1,
    fun t id' h => hN.id_lt t id' ((hiff t id').mp h).1,
    fun t t' id' h h' => hN.inj t t' id' ((hiff t id').mp h).1 ((hiff t' id').mp h').1,
    fun t id' h => ?_⟩
  · dsimp only
    rw [busy_clearBit hmod, hid, hN.bits id']
    simp only [hiff]
    constructor
    · rintro ⟨h | ⟨t, h⟩, hne⟩
      · exact .inl h
      · refine .inr ⟨t, h, ?_⟩
        rintro rfl
        rw [hold] at h
        cases h
        exact hne rfl
    · rintro (h | ⟨t, h, hne⟩)
      · exact ⟨.inl h, h ▸ (hN.id_pos task id hold).symm⟩
      · refine ⟨.inr ⟨t, h⟩, ?_⟩
        rintro rfl
        exact hne (hN.inj t task id' h hold)
  · have ht : t ≠ task := by
      rintro rfl
      rw [Function.update_self] at h
      rcases h with h | ⟨_, h⟩ <;> rw [h] at hnew <;> cases hnew
    rw [Function.update_of_ne ht] at h
    exact hN.payload t id' h

omit [DecidableEq τ] in
theorem Queued.mem {r : Ring} {h : ℕ} {ids : List (BitVec 64)} {q : List τ}
    (hQ : Queued z place p r h ids q) {t : τ} (ht : t ∈ q) : ∃ id, place t = .queued p id := by
  have htasks := hQ.tasks
  clear hQ
  induction htasks with
  | nil => cases ht
  | cons hd _ ih =>
    rcases List.mem_cons.mp ht with rfl | ht
    · exact ⟨_, hd⟩
    · exact ih ht

theorem tasks_update {ids : List (BitVec 64)} {q : List τ}
    (htasks : List.Forall₂ (fun id t => place t = .queued p id.toNat) ids q) (hmem : task ∉ q) :
    List.Forall₂ (fun id t => Function.update place task P t = .queued p id.toNat) ids q := by
  induction htasks with
  | nil => exact .nil
  | cons hd _ ih =>
    obtain ⟨hne, hmem⟩ := List.ne_and_not_mem_of_not_mem_cons hmem
    refine .cons ?_ (ih hmem)
    rw [Function.update_of_ne (Ne.symm hne)]
    exact hd

theorem Queued.keep {r : Ring} {h : ℕ} {ids : List (BitVec 64)} {q : List τ}
    (hQ : Queued z place p r h ids q) (hold : ∀ id, place task ≠ .queued p id) :
    Queued z (Function.update place task P) p r h ids q := by
  refine ⟨hQ.holds, tasks_update hQ.tasks fun ht => ?_, hQ.nodup⟩
  obtain ⟨id, ht⟩ := hQ.mem ht
  exact hold id ht

theorem Queued.enqueue {r r' : Ring} {h : ℕ} {ids : List (BitVec 64)} {q : List τ}
    (hQ : Queued z place p r h ids q) (hold : ∀ id, place task ≠ .queued p id) {id : ℕ}
    (hid : id < 2 ^ 64) (hH : Holds z.shape r' h (ids ++ [BitVec.ofNat 64 id])) :
    Queued z (Function.update place task (.queued p id)) p r' h (ids ++ [BitVec.ofNat 64 id])
      (q ++ [task]) := by
  have hmem : task ∉ q := by
    intro ht
    obtain ⟨id', ht⟩ := hQ.mem ht
    exact hold id' ht
  refine ⟨hH, List.rel_append (hQ.keep hold).tasks (.cons ?_ .nil), ?_⟩
  · rw [Function.update_self, BitVec.toNat_ofNat, Nat.mod_eq_of_lt hid]
  · rw [List.nodup_append]
    refine ⟨hQ.nodup, List.nodup_singleton _, fun a ha b hb => ?_⟩
    rw [List.mem_singleton.mp hb]
    rintro rfl
    exact hmem ha

theorem Queued.dequeue {r r' : Ring} {h h' : ℕ} {v : BitVec 64} {ids : List (BitVec 64)}
    {q : List τ} (hQ : Queued z place p r h (v :: ids) q) (hH : Holds z.shape r' h' ids) (i : ι) :
    ∃ t q', q = t :: q' ∧ place t = .queued p v.toNat ∧
      Queued z (Function.update place t (.removing i p v.toNat)) p r' h' ids q' := by
  obtain ⟨_, htasks, hnodup⟩ := hQ
  cases htasks with
  | cons hd htl =>
    rename_i t q'
    obtain ⟨hmem, hnodup⟩ := List.nodup_cons.mp hnodup
    exact ⟨t, q', rfl, hd, hH, tasks_update htl hmem, hnodup⟩

/-! ### Counting tasks -/

omit [DecidableEq τ] in
theorem Crowded.mono [Fintype τ] {k : ℕ} (hC : Crowded place p k)
    (hsub : ∀ t, (place' t).Past p k → (place t).Past p k) : Crowded place' p k := by
  rintro ⟨t, ht⟩
  have hle : (Finset.univ.filter fun t => (place' t).Past p k).card ≤
      (Finset.univ.filter fun t => (place t).Past p k).card := by
    apply Finset.card_le_card
    intro u hu
    rw [Finset.mem_filter] at hu ⊢
    exact ⟨hu.1, hsub u hu.2⟩
  have := hC ⟨t, hsub t ht⟩
  omega

omit [DecidableEq τ] in
/-- Nodes that are taken are held by as many tasks. -/
theorem card_le_holders (I : Finset ℕ) (hI : ∀ id ∈ I, ∃ t, (place t).node = some (p, id))
    (A : Finset τ) (hA : ∀ t id, id ∈ I → (place t).node = some (p, id) → t ∈ A) :
    I.card ≤ A.card := by
  have hsub : I ⊆ A.image fun t => ((place t).node.map Prod.snd).getD 0 := by
    intro id hid
    obtain ⟨t, ht⟩ := hI id hid
    exact Finset.mem_image.mpr ⟨t, hA t id hid ht, by rw [ht]; rfl⟩
  exact (Finset.card_le_card hsub).trans Finset.card_image_le

theorem Place.past_le_of_node {P : Place ι} {id k : ℕ} (hP : P.node = some (p, id))
    (hk : P.Past p k) : k ≤ id / 64 := by
  cases P <;> simp only [Place.node, Option.some.injEq, Prod.mk.injEq, reduceCtorEq] at hP
  all_goals exact hP.2 ▸ hk.2

theorem Place.Past.mono {P : Place ι} {k k' : ℕ} (hP : P.Past p k) (hk : k' ≤ k) :
    P.Past p k' := by
  cases P with
  | free => exact hP
  | leaving i => exact hP
  | acquire i p' b => exact ⟨hP.1, hk.trans hP.2⟩
  | inserting i p' id => exact ⟨hP.1, hk.trans hP.2⟩
  | queued p' id => exact ⟨hP.1, hk.trans hP.2⟩
  | removing i p' id => exact ⟨hP.1, hk.trans hP.2⟩

theorem Place.past_of_node {P : Place ι} {id k : ℕ} (hP : P.node = some (p, id))
    (hk : k ≤ id / 64) : P.Past p k := by
  cases P <;> simp only [Place.node, Option.some.injEq, Prod.mk.injEq, reduceCtorEq] at hP
  all_goals exact ⟨hP.1, hP.2 ▸ hk⟩

/-- The ids of chunk `b` that can be given out. -/
def chunkIds (b : ℕ) : Finset ℕ := (Finset.Ico (64 * b) (64 * b + 64)).erase 0

theorem mem_chunkIds {b id : ℕ} : id ∈ chunkIds b ↔ id / 64 = b ∧ id ≠ 0 := by
  unfold chunkIds
  rw [Finset.mem_erase, Finset.mem_Ico]
  omega

theorem card_chunkIds (b : ℕ) : (chunkIds b).card + (64 * b - 1) = 64 * (b + 1) - 1 := by
  unfold chunkIds
  rcases Nat.eq_zero_or_pos b with rfl | hb
  · rfl
  · rw [Finset.erase_eq_of_notMem, Nat.card_Ico]
    · omega
    · rw [Finset.mem_Ico]
      omega

/-- An acquisition goes past chunk `b` that it found full. -/
theorem Crowded.pass [Fintype τ] {i : ι} {b : ℕ} (hC : 0 < b → Crowded place p b)
    (hold : place task = .acquire i p b)
    (hfull : ∀ id, id / 64 = b → id ≠ 0 → ∃ t, (place t).node = some (p, id)) :
    Crowded (Function.update place task (.acquire i p (b + 1))) p (b + 1) := by
  classical
  intro _
  set place' := Function.update place task (.acquire i p (b + 1)) with hplace'
  have hne : ∀ t id, (place t).node = some (p, id) → place' t = place t := by
    intro t id ht
    rw [hplace', Function.update_of_ne]
    rintro rfl
    rw [hold] at ht
    cases ht
  set W := Finset.univ.filter fun t => (place' t).Past p (b + 1) with hW
  set H := Finset.univ.filter fun t => ∃ id ∈ chunkIds b, (place t).node = some (p, id) with hH
  have hheld : ∀ id ∈ chunkIds b, ∃ t, (place t).node = some (p, id) := fun id hid =>
    hfull id (mem_chunkIds.mp hid).1 (mem_chunkIds.mp hid).2
  have hcard : (chunkIds b).card ≤ H.card :=
    card_le_holders _ hheld H fun t id hid ht =>
      Finset.mem_filter.mpr ⟨Finset.mem_univ t, id, hid, ht⟩
  have hdisj : Disjoint W H := by
    rw [Finset.disjoint_left]
    intro t htW htH
    obtain ⟨id, hid, ht⟩ := (Finset.mem_filter.mp htH).2
    have hpast := (Finset.mem_filter.mp htW).2
    rw [hne t id ht] at hpast
    have := Place.past_le_of_node ht hpast
    have := (mem_chunkIds.mp hid).1
    omega
  have hunion : (W ∪ H).card = W.card + H.card := Finset.card_union_of_disjoint hdisj
  have hsum := card_chunkIds b
  rcases Nat.eq_zero_or_pos b with rfl | hb
  · have : (W ∪ H).card ≤ Fintype.card τ := Finset.card_le_univ _
    omega
  · have hpast : (place task).Past p b := by
      rw [hold]
      exact ⟨rfl, le_rfl⟩
    have hsub : W ∪ H ⊆ Finset.univ.filter fun t => (place t).Past p b := by
      intro t ht
      refine Finset.mem_filter.mpr ⟨Finset.mem_univ t, ?_⟩
      rcases Finset.mem_union.mp ht with ht | ht
      · have ht := (Finset.mem_filter.mp ht).2
        by_cases hte : t = task
        · rw [hte]
          exact hpast
        · rw [hplace', Function.update_of_ne hte] at ht
          exact ht.mono (Nat.le_succ b)
      · obtain ⟨id, hid, ht⟩ := (Finset.mem_filter.mp ht).2
        exact Place.past_of_node ht (mem_chunkIds.mp hid).1.ge
    have h1 := Finset.card_le_card hsub
    have h2 := hC hb ⟨task, hpast⟩
    omega

end

end TinyStm.Nbb
