import TinyStm.Nbb.Acquire
import TinyStm.Nbb.Fifo

/-!
# The priority scheduler over bounded lists (core/priority.c, `USE_NBBLIST`)

Every priority has a node allocator and a list of node ids. `InsertTask` takes a
node, stores the task in it and inserts the id; `RemoveHighestPriorityTask` goes
through the priorities from the highest down, removes an id, reads the task and
releases the node. The counter `nalloc` is left out: nobody reads it. But for its
steps a thread takes and gives back nodes as the holders of the allocator do.
-/

namespace TinyStm.Nbb

open Interleave

/-- The arguments of `GetPrioTaskArray`, all positive `int`s. -/
structure Sizes where
  numPrio : ℕ
  numServers : ℕ
  numWorkers : ℕ
  poolSize : ℕ
  numPrio_pos : 0 < numPrio
  numServers_pos : 0 < numServers
  numWorkers_pos : 0 < numWorkers
  poolSize_pos : 0 < poolSize

/-- `nbb_list_create(pool_size, 32)`. -/
def Sizes.shape (z : Sizes) : Shape := ⟨z.poolSize, 32, z.poolSize_pos, by decide, by decide⟩

def Sizes.allocLength (z : Sizes) : ℕ := memAllocLen z.numServers z.numWorkers z.poolSize

def Sizes.nodes (z : Sizes) : ℕ := lengthPow2 z.allocLength

def Sizes.chunks (z : Sizes) : ℕ := busymapLength z.allocLength

variable {τ : Type*}

structure Prio (τ : Type*) where
  busymap : ℕ → BitVec 64
  payload : ℕ → Option τ
  ring : Ring

/-- `out` is auxiliary: the tasks that are being inserted, queued or being handed
to a worker. -/
structure Sched (τ : Type*) where
  prios : ℕ → Prio τ
  out : τ → Bool

def getPrioTaskArray : Sched τ where
  prios _ := ⟨fun b => if b = 0 then 1#64 else 0#64, fun _ => none, nbbListCreate⟩
  out _ := false

inductive SchedAct (τ : Type*) where
  | insert (task : τ) (prio : ℤ)
  | remove
  | go

/-- The places of a thread between its atomic operations. -/
inductive Worker (τ : Type*) where
  | idle
  | acquire (task : τ) (p b : ℕ)
  | acquireCas (task : τ) (p b : ℕ) (oldchunk : BitVec 64)
  | nullNode
  | outside
  | store (task : τ) (p id : ℕ)
  | insert (task : τ) (p id : ℕ) (op : Insert)
  | inserted (code : ℤ)
  | remove (p : ℕ) (op : Remove)
  | load (p id : ℕ)
  | release (task : Option τ) (p id : ℕ)
  | releasePayload (task : Option τ) (p id : ℕ) (oldchunk : BitVec 64)
  | releaseCas (task : Option τ) (p id : ℕ) (oldchunk : BitVec 64) (payload : Option τ)
  | releaseClear (task : Option τ) (p id : ℕ) (payload : Option τ)
  | removed (task : Option τ)

variable (z : Sizes)

/-- After priority `p`: the next lower one, or no task at all. -/
def Worker.next : ℕ → Worker τ
  | 0 => .removed none
  | p + 1 => .remove p .start

/-- `RemoveTaskFromPriority` returns `task`. -/
def Worker.leave (task : Option τ) (p : ℕ) : Worker τ :=
  if task.isSome then .removed task else Worker.next p

def Sched.setPrio (g : Sched τ) (p : ℕ) (x : Prio τ) : Sched τ :=
  { g with prios := Function.update g.prios p x }

/-- The allocator of a priority, with the tasks as pointers and any `nalloc`. -/
def Prio.alloc (e : Option τ → BitVec 64) (n : BitVec 64) (x : Prio τ) : AllocMem :=
  ⟨x.busymap, fun id => e (x.payload id), n⟩

/-- Where a thread is in `mem_node_acquire` or `mem_node_release`, and of which priority. -/
def Worker.holder (e : Option τ → BitVec 64) : Worker τ → Option (ℕ × Holder)
  | .acquire task p b => some (p, .load (e (some task)) b)
  | .acquireCas task p b oldchunk => some (p, .swap (e (some task)) b oldchunk)
  | .store task p id => some (p, .store (e (some task)) id)
  | .release task p id => some (p, .relLoad (e task) id)
  | .releasePayload task p id oldchunk => some (p, .relRead (e task) id oldchunk)
  | .releaseCas task p id oldchunk payload => some (p, .relSwap (e task) id oldchunk (e payload))
  | .releaseClear _ p id payload => some (p, .relClear id (e payload))
  | _ => none

/-- What is left of a call but for the step on `nalloc`. -/
def Holder.over : Holder → Bool
  | .failed | .count _ _ | .relCount _ | .released _ => true
  | _ => false

theorem alloc_setPrio_map (e : Option τ → BitVec 64) (n : BitVec 64) (g : Sched τ) (p : ℕ)
    (m : ℕ → BitVec 64) : ((g.setPrio p { g.prios p with busymap := m }).prios p).alloc e n =
      { (g.prios p).alloc e n with busymap := m } := by
  simp [Sched.setPrio, Prio.alloc]

theorem alloc_setPrio_payload (e : Option τ → BitVec 64) (n : BitVec 64) (g : Sched τ) (p id : ℕ)
    (task : Option τ) :
    ((g.setPrio p { g.prios p with
        payload := Function.update (g.prios p).payload id task }).prios p).alloc e n =
      { (g.prios p).alloc e n with
        payload := Function.update ((g.prios p).alloc e n).payload id (e task) } := by
  simp only [Sched.setPrio, Prio.alloc, Function.update_self, AllocMem.mk.injEq, and_true, true_and]
  funext i
  by_cases hi : i = id
  · subst hi
    rw [Function.update_self, Function.update_self]
  · rw [Function.update_of_ne hi, Function.update_of_ne hi]

/-- A step on one priority leaves the others and the tasks that are out alone. -/
theorem setPrio_others (g : Sched τ) (p : ℕ) (x : Prio τ) :
    (g.setPrio p x).out = g.out ∧ ∀ q, q ≠ p → (g.setPrio p x).prios q = g.prios q :=
  ⟨rfl, fun _ hq => Function.update_of_ne hq ..⟩

theorem leave_holder (e : Option τ → BitVec 64) (task : Option τ) (p : ℕ) :
    (Worker.leave task p).holder e = none := by
  unfold Worker.leave
  split
  · rfl
  · cases p <;> rfl

section

variable [DecidableEq τ]

def Worker.step (g : Sched τ) : Worker τ → Option (Sched τ × Worker τ)
  | .idle | .nullNode | .outside | .inserted _ | .removed _ => none
  | .acquire task p b =>
    if b < z.chunks then
      let oldchunk := (g.prios p).busymap b
      if oldchunk = BitVec.allOnes 64 ∨ (b = 0 ∧ freePos oldchunk = 0) then
        some (g, .acquire task p (b + 1))
      else some (g, .acquireCas task p b oldchunk)
    else some (g, .nullNode)
  | .acquireCas task p b oldchunk =>
    let x := g.prios p
    if x.busymap b = oldchunk then
      some (g.setPrio p { x with
          busymap := Function.update x.busymap b (setBit oldchunk (freePos oldchunk)) },
        .store task p (b * 64 + freePos oldchunk))
    else some (g, .acquire task p 0)
  | .store task p id =>
    let x := g.prios p
    if id < z.nodes then
      some (g.setPrio p { x with payload := Function.update x.payload id (some task) },
        .insert task p id (.start (BitVec.ofNat 64 id)))
    else some (g, .outside)
  | .insert _ _ _ .done => some (g, .inserted 0)
  | .insert task p id .full => some (g, .insert task p id (.start (BitVec.ofNat 64 id)))
  | .insert task p id op =>
    let x := g.prios p
    some (g.setPrio p { x with ring := (op.step z.shape x.ring).1 },
      .insert task p id (op.step z.shape x.ring).2)
  | .remove p .empty => some (g, Worker.next p)
  | .remove p (.done val) => some (g, .load p val.toNat)
  | .remove p op =>
    let x := g.prios p
    some (g.setPrio p { x with ring := (op.step z.shape x.ring).1 },
      .remove p (op.step z.shape x.ring).2)
  | .load p id =>
    if id < z.nodes then some (g, .release ((g.prios p).payload id) p id) else some (g, .outside)
  | .release task p id =>
    let oldchunk := (g.prios p).busymap (id / 64)
    if oldchunk.getLsbD (id % 64) then some (g, .releasePayload task p id oldchunk)
    else some (g, Worker.leave task p)
  | .releasePayload task p id oldchunk =>
    some (g, .releaseCas task p id oldchunk ((g.prios p).payload id))
  | .releaseCas task p id oldchunk payload =>
    let x := g.prios p
    if x.busymap (id / 64) = oldchunk then
      some (g.setPrio p { x with
          busymap := Function.update x.busymap (id / 64) (clearBit oldchunk (id % 64)) },
        .releaseClear task p id payload)
    else some (g, .release task p id)
  | .releaseClear task p id payload =>
    let x := g.prios p
    if x.payload id = payload then
      some (g.setPrio p { x with payload := Function.update x.payload id none },
        Worker.leave task p)
    else some (g, Worker.leave task p)

/-- A thread takes and gives back nodes in the steps of `Holder.go`, on the allocator of its
priority alone. -/
theorem Worker.step_holder {e : Option τ → BitVec 64} (he : Function.Injective e)
    (hnull : e none = 0) (n : BitVec 64) {g g' : Sched τ} {x x' : Worker τ} {p : ℕ} {y : Holder}
    (hx : x.holder e = some (p, y)) (hs : x.step z g = some (g', x')) (hin : x' ≠ .outside) :
    (∃ y', y.go z.allocLength ((g.prios p).alloc e n) = some ((g'.prios p).alloc e n, y') ∧
      (x'.holder e = some (p, y') ∨ x'.holder e = none ∧ y'.over = true)) ∧
    g'.out = g.out ∧ ∀ q, q ≠ p → g'.prios q = g.prios q := by
  cases x with
  | acquire task p b =>
    cases hx
    simp only [Worker.step] at hs
    split at hs
    · next hb =>
      split at hs
      · next hskip =>
        cases hs
        exact ⟨⟨_, (if_pos hb).trans (if_pos hskip), .inl rfl⟩, rfl, fun _ _ => rfl⟩
      · next htake =>
        cases hs
        exact ⟨⟨_, (if_pos hb).trans (if_neg htake), .inl rfl⟩, rfl, fun _ _ => rfl⟩
    · next hb =>
      cases hs
      exact ⟨⟨_, if_neg hb, .inr ⟨rfl, rfl⟩⟩, rfl, fun _ _ => rfl⟩
  | acquireCas task p b oldchunk =>
    cases hx
    simp only [Worker.step] at hs
    split at hs
    · next hcas =>
      cases hs
      refine ⟨⟨_, ?_, .inl rfl⟩, setPrio_others ..⟩
      rw [alloc_setPrio_map, Holder.go]
      exact if_pos hcas
    · next hcas =>
      cases hs
      exact ⟨⟨_, if_neg hcas, .inl rfl⟩, rfl, fun _ _ => rfl⟩
  | store task p id =>
    cases hx
    simp only [Worker.step] at hs
    split at hs
    · cases hs
      refine ⟨⟨.count (e (some task)) id, ?_, .inr ⟨rfl, rfl⟩⟩, setPrio_others ..⟩
      rw [alloc_setPrio_payload, Holder.go]
    · cases hs
      exact absurd rfl hin
  | release task p id =>
    cases hx
    simp only [Worker.step] at hs
    split at hs
    · next hbit =>
      cases hs
      exact ⟨⟨_, if_pos hbit, .inl rfl⟩, rfl, fun _ _ => rfl⟩
    · next hbit =>
      cases hs
      exact ⟨⟨_, if_neg hbit, .inr ⟨leave_holder .., rfl⟩⟩, rfl, fun _ _ => rfl⟩
  | releasePayload task p id oldchunk =>
    cases hx
    cases hs
    exact ⟨⟨_, rfl, .inl rfl⟩, rfl, fun _ _ => rfl⟩
  | releaseCas task p id oldchunk payload =>
    cases hx
    simp only [Worker.step] at hs
    split at hs
    · next hcas =>
      cases hs
      refine ⟨⟨_, ?_, .inl rfl⟩, setPrio_others ..⟩
      rw [alloc_setPrio_map, Holder.go]
      exact if_pos hcas
    · next hcas =>
      cases hs
      exact ⟨⟨_, if_neg hcas, .inl rfl⟩, rfl, fun _ _ => rfl⟩
  | releaseClear task p id payload =>
    cases hx
    simp only [Worker.step] at hs
    split at hs
    · next hcas =>
      cases hs
      refine ⟨⟨.relCount (e payload), ?_, .inr ⟨leave_holder .., rfl⟩⟩, setPrio_others ..⟩
      rw [alloc_setPrio_payload, Holder.go, hnull]
      exact if_pos (congrArg e hcas)
    · next hcas =>
      cases hs
      exact ⟨⟨_, if_neg fun h => hcas (he h), .inr ⟨leave_holder .., rfl⟩⟩, rfl, fun _ _ => rfl⟩
  | _ => cases hx

/-- A task is only inserted when it is not out already. -/
def schedSystem (ι : Type*) : System ι (Sched τ) (Worker τ) (SchedAct τ) where
  step _ a g x :=
    match a, x with
    | .insert task prio, .idle =>
      if g.out task then none
      else if prio < 0 ∨ z.numPrio ≤ prio then some (g, .inserted (-1))
      else some ({ g with out := Function.update g.out task true }, .acquire task prio.toNat 0)
    | .remove, .idle => some (g, .remove (z.numPrio - 1) .start)
    | .go, .inserted _ => some (g, .idle)
    | .go, .removed (some task) =>
      some ({ g with out := Function.update g.out task false }, .idle)
    | .go, .removed none => some (g, .idle)
    | .go, x => x.step z g
    | _, _ => none

end

inductive SchedEvent (τ : Type*) where
  | callInsert (task : τ) (prio : ℤ)
  | callRemove
  | retInsert (code : ℤ)
  | retRemove (task : Option τ)
  deriving DecidableEq

def schedLabel : SchedAct τ → Worker τ → Option (SchedEvent τ)
  | .insert task prio, .idle => some (.callInsert task prio)
  | .remove, .idle => some .callRemove
  | .go, .inserted code => some (.retInsert code)
  | .go, .removed task => some (.retRemove task)
  | _, _ => none

/-! ### What the scheduler is for -/

/-- One queue of tasks for each priority. -/
structure Queues (τ : Type*) where
  queue : ℕ → List τ
  out : τ → Bool

inductive Client (τ : Type*) where
  | idle
  | insert (task : τ) (p : ℕ)
  | inserted (code : ℤ)
  | remove (p : ℕ)
  | removed (task : Option τ)

def Client.next : ℕ → Client τ
  | 0 => .removed none
  | p + 1 => .remove p

/-- An insertion appends its task in one step; a removal takes, in one step for
each priority from the highest down, the first task it finds. -/
def queueSystem [DecidableEq τ] (ι : Type*) : System ι (Queues τ) (Client τ) (SchedAct τ) where
  step _ a g x :=
    match a, x with
    | .insert task prio, .idle =>
      if g.out task then none
      else if prio < 0 ∨ z.numPrio ≤ prio then some (g, .inserted (-1))
      else some ({ g with out := Function.update g.out task true }, .insert task prio.toNat)
    | .remove, .idle => some (g, .remove (z.numPrio - 1))
    | .go, .insert task p =>
      some ({ g with queue := Function.update g.queue p (g.queue p ++ [task]) }, .inserted 0)
    | .go, .inserted _ => some (g, .idle)
    | .go, .remove p =>
      match g.queue p with
      | [] => some (g, Client.next p)
      | task :: q => some ({ g with queue := Function.update g.queue p q }, .removed (some task))
    | .go, .removed (some task) =>
      some ({ g with out := Function.update g.out task false }, .idle)
    | .go, .removed none => some (g, .idle)
    | _, _ => none

def queueLabel : SchedAct τ → Client τ → Option (SchedEvent τ)
  | .insert task prio, .idle => some (.callInsert task prio)
  | .remove, .idle => some .callRemove
  | .go, .inserted code => some (.retInsert code)
  | .go, .removed task => some (.retRemove task)
  | _, _ => none

end TinyStm.Nbb
