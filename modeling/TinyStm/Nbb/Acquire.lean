import TinyStm.Lib.Interleave
import TinyStm.Nbb.Alloc

/-!
# Taking and giving back nodes (core/nbblist.c)

`mem_node_acquire` and `mem_node_release` in atomic steps, with any payload pointers. A process
is whoever asks for one node, holds it and gives it back: a thread that holds several nodes, or
passes them on, is several processes.
-/

namespace TinyStm.Nbb

open Interleave

/-- What `mem_alloc_t` refers to: `busymap`, the payloads of `base` and `nalloc`. -/
structure AllocMem where
  busymap : ℕ → BitVec 64
  payload : ℕ → BitVec 64
  nalloc : BitVec 64

/-- The places of a process between its atomic operations. `p` is the pointer passed to
`mem_node_acquire`, `seen` the variable `payload` of `mem_node_release`. -/
inductive Holder where
  | idle
  | failed
  | load (p : BitVec 64) (b : ℕ)
  | swap (p : BitVec 64) (b : ℕ) (oldchunk : BitVec 64)
  | store (p : BitVec 64) (id : ℕ)
  | count (p : BitVec 64) (id : ℕ)
  | holding (p : BitVec 64) (id : ℕ)
  | relLoad (p : BitVec 64) (id : ℕ)
  | relRead (p : BitVec 64) (id : ℕ) (oldchunk : BitVec 64)
  | relSwap (p : BitVec 64) (id : ℕ) (oldchunk seen : BitVec 64)
  | relClear (id : ℕ) (seen : BitVec 64)
  | relCount (seen : BitVec 64)
  | released (seen : BitVec 64)
  deriving DecidableEq

inductive HolderAct where
  | acquire (p : BitVec 64)
  | release
  | go

variable (length : ℕ)

/-- The next atomic operation of a call. -/
def Holder.go (g : AllocMem) : Holder → Option (AllocMem × Holder)
  | .idle | .failed | .holding _ _ | .released _ => none
  | .load p b =>
    if b < busymapLength length then
      let oldchunk := g.busymap b
      if oldchunk = BitVec.allOnes 64 ∨ (b = 0 ∧ freePos oldchunk = 0) then some (g, .load p (b + 1))
      else some (g, .swap p b oldchunk)
    else some (g, .failed)
  | .swap p b oldchunk =>
    if g.busymap b = oldchunk then
      let newchunk := setBit oldchunk (freePos oldchunk)
      some ({ g with busymap := Function.update g.busymap b newchunk },
        .store p (b * 64 + freePos oldchunk))
    else some (g, .load p 0)
  | .store p id => some ({ g with payload := Function.update g.payload id p }, .count p id)
  | .count p id => some ({ g with nalloc := g.nalloc + 1 }, .holding p id)
  | .relLoad p id =>
    let oldchunk := g.busymap (id / 64)
    if oldchunk.getLsbD (id % 64) then some (g, .relRead p id oldchunk) else some (g, .released 0)
  | .relRead p id oldchunk => some (g, .relSwap p id oldchunk (g.payload id))
  | .relSwap p id oldchunk seen =>
    if g.busymap (id / 64) = oldchunk then
      let newchunk := clearBit oldchunk (id % 64)
      some ({ g with busymap := Function.update g.busymap (id / 64) newchunk }, .relClear id seen)
    else some (g, .relLoad p id)
  | .relClear id seen =>
    if g.payload id = seen then
      some ({ g with payload := Function.update g.payload id 0 }, .relCount seen)
    -- the failed compare-and-swap writes the payload it found into the variable
    else some (g, .relCount (g.payload id))
  | .relCount seen => some ({ g with nalloc := g.nalloc - 1 }, .released seen)

/-- A call starts: `mem_node_acquire` of a process without a node, `mem_node_release` of the
node that a process holds. -/
def Holder.call : HolderAct → Holder → Option Holder
  | .acquire p, .idle | .acquire p, .failed | .acquire p, .released _ => some (.load p 0)
  | .release, .holding p id =>
    -- `assert(id < alloc->length_pow2 && id != 0)`
    if id < lengthPow2 length ∧ id ≠ 0 then some (.relLoad p id) else none
  | _, _ => none

/-- Any number of processes on one allocator. -/
def allocSystem (ι : Type*) : System ι AllocMem Holder HolderAct where
  step _ a g x :=
    match a with
    | .go => x.go length g
    | a => (x.call length a).map fun y => (g, y)

/-- After `mem_alloc_init`. -/
def allocInit (ι : Type*) : Config ι AllocMem Holder where
  shared := ⟨fun b => if b = 0 then 1#64 else 0#64, fun _ => 0, 0⟩
  loc _ := .idle

/-- The node whose bit the process has set and not cleared. -/
def Holder.node : Holder → Option ℕ
  | .store _ id | .count _ id | .holding _ id | .relLoad _ id | .relRead _ id _
  | .relSwap _ id _ _ => some id
  | _ => none

/-- The pointer that the process has stored in its node, and the node. -/
def Holder.stored : Holder → Option (BitVec 64 × ℕ)
  | .count p id | .holding p id | .relLoad p id | .relRead p id _ | .relSwap p id _ _ => some (p, id)
  | _ => none

/-- `mem_node_acquire` is looking for a node. -/
def Holder.acquiring : Holder → Bool
  | .load _ _ | .swap _ _ _ => true
  | _ => false

/-- All nodes are in use. -/
def Full (m : ℕ → BitVec 64) : Prop := ∀ id, 1 ≤ id → id < lengthPow2 length → busy m id = true

variable {ι : Type*}

/-- What the holders rely on: ids inside the array, no id twice, and every holder reads the
pointer it stored, also when `mem_node_release` reads it before it gives the node back. -/
structure AllocSafe (c : Config ι AllocMem Holder) : Prop where
  range : ∀ i id, (c.loc i).node = some id → 1 ≤ id ∧ id < lengthPow2 length
  unique : ∀ i j id, (c.loc i).node = some id → (c.loc j).node = some id → i = j
  payload : ∀ i p id, (c.loc i).stored = some (p, id) → c.shared.payload id = p
  seen : ∀ i p id oldchunk seen, c.loc i = .relSwap p id oldchunk seen → seen = p

/-- No `mem_node_acquire` of a bitmap shorter than one chunk looks while all nodes are in use, and
none stores a pointer (not NULL) in a node that a release still expects there. -/
def Careful (c : Config ι AllocMem Holder) (i : ι) : HolderAct → Prop
  | .go =>
    match c.loc i with
    | .load _ _ => 32 ≤ length ∨ ¬ Full length c.shared.busymap
    | .store p id => ∀ j seen, c.loc j = .relClear id seen → seen = p → p = 0
    | _ => True
  | _ => True

/-! ### The invariant -/

/-- What one process knows of the memory. -/
structure Holder.Ok (g : AllocMem) (x : Holder) : Prop where
  swap : ∀ p b oldchunk, x = .swap p b oldchunk →
    oldchunk ≠ BitVec.allOnes 64 ∧ 1 ≤ b * 64 + freePos oldchunk ∧
      b * 64 + freePos oldchunk < lengthPow2 length
  node : ∀ id, x.node = some id → busy g.busymap id = true ∧ 1 ≤ id ∧ id < lengthPow2 length
  stored : ∀ p id, x.stored = some (p, id) → g.payload id = p
  seen : ∀ p id oldchunk seen, x = .relSwap p id oldchunk seen → seen = p

structure AllocInv (c : Config ι AllocMem Holder) : Prop where
  reserved : busy c.shared.busymap 0 = true
  ok : ∀ i, (c.loc i).Ok length c.shared
  unique : ∀ i j id, (c.loc i).node = some id → (c.loc j).node = some id → i = j
  pending : ∀ i j id seen p, c.loc i = .relClear id seen → (c.loc j).stored = some (p, id) →
    seen = p → p = 0

variable {length} {c : Config ι AllocMem Holder}

theorem Holder.node_of_stored {x : Holder} {p : BitVec 64} {id : ℕ} (h : x.stored = some (p, id)) :
    x.node = some id := by
  cases x <;> cases h <;> rfl

theorem AllocInv.safe (h : AllocInv length c) : AllocSafe length c where
  range i id hi := ((h.ok i).node id hi).2
  unique := h.unique
  payload i := (h.ok i).stored
  seen i := (h.ok i).seen

theorem allocInit_inv : AllocInv length (allocInit ι) where
  reserved := by
    change busy (fun b => if b = 0 then 1#64 else 0#64) 0 = true
    decide
  ok _ := ⟨fun _ _ _ hx => (nomatch hx), fun _ hx => (nomatch hx), fun _ _ hx => (nomatch hx),
    fun _ _ _ _ hx => (nomatch hx)⟩
  unique _ _ _ hi := nomatch hi
  pending _ _ _ _ _ hi := nomatch hi

variable [DecidableEq ι] {i : ι}

/-- What a step has to show: of its own process, and for what it does to the others. -/
theorem AllocInv.of_step {g : AllocMem} {x : Holder} (h : AllocInv length c)
    (hres : busy g.busymap 0 = true) (hx : x.Ok length g)
    (hbusy : ∀ j id, j ≠ i → (c.loc j).node = some id → busy g.busymap id = true)
    (hpay : ∀ j p id, j ≠ i → (c.loc j).stored = some (p, id) → g.payload id = p)
    (huniq : ∀ j id, j ≠ i → x.node = some id → (c.loc j).node ≠ some id)
    (hleft : ∀ j id seen p, j ≠ i → x = .relClear id seen → (c.loc j).stored = some (p, id) →
      seen = p → p = 0)
    (hright : ∀ j id seen p, j ≠ i → c.loc j = .relClear id seen → x.stored = some (p, id) →
      seen = p → p = 0) :
    AllocInv length ⟨g, Function.update c.loc i x⟩ := by
  refine ⟨hres, fun j => ?_, fun j k id hj hk => ?_, fun j k id seen p hj hk hp => ?_⟩
  · by_cases hji : j = i
    · subst hji
      simpa using hx
    · have hok := h.ok j
      dsimp only
      rw [Function.update_of_ne hji]
      exact ⟨hok.swap, fun id hn => ⟨hbusy j id hji hn, (hok.node id hn).2⟩,
        fun p id hs => hpay j p id hji hs, hok.seen⟩
  · dsimp only at hj hk
    by_cases hji : j = i
    · subst hji
      rw [Function.update_self] at hj
      by_contra hne
      rw [Function.update_of_ne (Ne.symm hne)] at hk
      exact huniq k id (Ne.symm hne) hj hk
    · rw [Function.update_of_ne hji] at hj
      by_cases hki : k = i
      · subst hki
        rw [Function.update_self] at hk
        exact absurd hj (huniq j id hji hk)
      · rw [Function.update_of_ne hki] at hk
        exact h.unique j k id hj hk
  · dsimp only at hj hk
    by_cases hji : j = i
    · subst hji
      rw [Function.update_self] at hj
      by_cases hkj : k = j
      · subst hkj
        rw [Function.update_self, hj] at hk
        cases hk
      · rw [Function.update_of_ne hkj] at hk
        exact hleft k id seen p hkj hj hk hp
    · rw [Function.update_of_ne hji] at hj
      by_cases hki : k = i
      · subst hki
        rw [Function.update_self] at hk
        exact hright j id seen p hji hj hk hp
      · rw [Function.update_of_ne hki] at hk
        exact h.pending j k id seen p hj hk hp

/-- A step that leaves bitmap and payloads as they are and takes no node. -/
theorem AllocInv.of_quiet {g : AllocMem} {x : Holder} (h : AllocInv length c)
    (hmap : g.busymap = c.shared.busymap) (hpay : g.payload = c.shared.payload)
    (hnode : ∀ id, x.node = some id → (c.loc i).node = some id)
    (hstored : ∀ p id, x.stored = some (p, id) → (c.loc i).stored = some (p, id))
    (hswap : ∀ p b oldchunk, x = .swap p b oldchunk →
      oldchunk ≠ BitVec.allOnes 64 ∧ 1 ≤ b * 64 + freePos oldchunk ∧
        b * 64 + freePos oldchunk < lengthPow2 length)
    (hseen : ∀ p id oldchunk seen, x = .relSwap p id oldchunk seen → seen = p)
    (hclear : ∀ id seen, x ≠ .relClear id seen) :
    AllocInv length ⟨g, Function.update c.loc i x⟩ := by
  have hok := h.ok i
  apply h.of_step
  · rw [hmap]
    exact h.reserved
  · refine ⟨hswap, fun id hn => ?_, fun p id hs => ?_, hseen⟩
    · rw [hmap]
      exact hok.node id (hnode id hn)
    · rw [hpay]
      exact hok.stored p id (hstored p id hs)
  · intro j id _ hn
    rw [hmap]
    exact ((h.ok j).node id hn).1
  · intro j p id _ hs
    rw [hpay]
    exact (h.ok j).stored p id hs
  · intro j id hji hn hj
    exact hji (h.unique j i id hj (hnode id hn))
  · intro j id seen p _ hx
    exact absurd hx (hclear id seen)
  · intro j id seen p _ hj hs
    exact h.pending j i id seen p hj (hstored p id hs)

/-- The process is where it has no node and nothing to do to the memory. -/
def Holder.away : Holder → Bool
  | .idle | .failed | .load _ _ | .relCount _ | .released _ => true
  | _ => false

/-- The process has its node with the pointer in it. -/
def Holder.settled : Holder → Bool
  | .holding _ _ | .relLoad _ _ | .relRead _ _ _ => true
  | _ => false

theorem AllocInv.of_away {g : AllocMem} {x : Holder} (h : AllocInv length c)
    (hmap : g.busymap = c.shared.busymap) (hpay : g.payload = c.shared.payload)
    (hx : x.away = true) : AllocInv length ⟨g, Function.update c.loc i x⟩ := by
  apply h.of_quiet hmap hpay
  · rintro id hn
    cases x <;> simp_all [Holder.away, Holder.node]
  · rintro p id hn
    cases x <;> simp_all [Holder.away, Holder.stored]
  · rintro p b oldchunk rfl
    cases hx
  · rintro p id oldchunk seen rfl
    cases hx
  · rintro id seen rfl
    cases hx

theorem AllocInv.of_settled {g : AllocMem} {x : Holder} (h : AllocInv length c)
    (hmap : g.busymap = c.shared.busymap) (hpay : g.payload = c.shared.payload)
    (hx : x.settled = true) (hnode : (c.loc i).node = x.node) (hstored : (c.loc i).stored = x.stored) :
    AllocInv length ⟨g, Function.update c.loc i x⟩ := by
  apply h.of_quiet hmap hpay
  · intro id hn
    rwa [hnode]
  · intro p id hn
    rwa [hstored]
  · rintro p b oldchunk rfl
    cases hx
  · rintro p id oldchunk seen rfl
    cases hx
  · rintro id seen rfl
    cases hx

/-! ### One lemma for each step that changes the memory -/

theorem busy_at (m : ℕ → BitVec 64) (b : ℕ) {pos : ℕ} (hpos : pos < 64) :
    busy m (b * 64 + pos) = (m b).getLsbD pos := by
  have hdiv : (b * 64 + pos) / 64 = b := by omega
  have hmod : (b * 64 + pos) % 64 = pos := by omega
  rw [busy, hdiv, hmod]

theorem AllocInv.take {p oldchunk : BitVec 64} {b : ℕ} (h : AllocInv length c)
    (hloc : c.loc i = .swap p b oldchunk) (hcas : c.shared.busymap b = oldchunk) :
    AllocInv length ⟨{ c.shared with
        busymap := Function.update c.shared.busymap b (setBit oldchunk (freePos oldchunk)) },
      Function.update c.loc i (.store p (b * 64 + freePos oldchunk))⟩ := by
  obtain ⟨hones, hlow, hhigh⟩ := (h.ok i).swap p b oldchunk hloc
  obtain ⟨hpos, hfree, -⟩ := freePos_spec hones
  subst hcas
  have hnew : ¬ busy c.shared.busymap (b * 64 + freePos (c.shared.busymap b)) = true := by
    rw [busy_at _ _ hpos, hfree]
    exact Bool.false_ne_true
  apply h.of_step
  · exact (busy_setBit hpos 0).mpr (.inl h.reserved)
  · refine ⟨fun _ _ _ hx => (nomatch hx), fun id hn => ?_, fun _ _ hs => (nomatch hs),
      fun _ _ _ _ hx => (nomatch hx)⟩
    cases hn
    exact ⟨(busy_setBit hpos _).mpr (.inr rfl), hlow, hhigh⟩
  · intro j id _ hn
    exact (busy_setBit hpos id).mpr (.inl ((h.ok j).node id hn).1)
  · intro j p id _ hs
    exact (h.ok j).stored p id hs
  · intro j id _ hn hj
    cases hn
    exact hnew ((h.ok j).node _ hj).1
  · intro j id seen p _ hx
    exact nomatch hx
  · intro j id seen p _ _ hs
    exact nomatch hs

theorem AllocInv.put {p : BitVec 64} {id : ℕ} (h : AllocInv length c)
    (hloc : c.loc i = .store p id)
    (hcare : ∀ j seen, c.loc j = .relClear id seen → seen = p → p = 0) :
    AllocInv length ⟨{ c.shared with payload := Function.update c.shared.payload id p },
      Function.update c.loc i (.count p id)⟩ := by
  have hnode : (c.loc i).node = some id := by
    rw [hloc]
    rfl
  apply h.of_step
  · exact h.reserved
  · refine ⟨fun _ _ _ hx => (nomatch hx), fun id' hn => ?_, fun p' id' hs => ?_,
      fun _ _ _ _ hx => (nomatch hx)⟩
    · cases hn
      exact (h.ok i).node id hnode
    · cases hs
      exact Function.update_self ..
  · intro j id' _ hn
    exact ((h.ok j).node id' hn).1
  · intro j p' id' hji hs
    have hne : id' ≠ id := by
      rintro rfl
      exact hji (h.unique j i id' (Holder.node_of_stored hs) hnode)
    exact (Function.update_of_ne hne ..).trans ((h.ok j).stored p' id' hs)
  · intro j id' hji hn hj
    cases hn
    exact hji (h.unique j i id hj hnode)
  · intro j id' seen p' _ hx
    exact nomatch hx
  · intro j id' seen p' _ hj hs
    cases hs
    exact hcare j seen hj

theorem AllocInv.free {p oldchunk seen : BitVec 64} {id : ℕ} (h : AllocInv length c)
    (hloc : c.loc i = .relSwap p id oldchunk seen) (hcas : c.shared.busymap (id / 64) = oldchunk) :
    AllocInv length ⟨{ c.shared with
        busymap := Function.update c.shared.busymap (id / 64) (clearBit oldchunk (id % 64)) },
      Function.update c.loc i (.relClear id seen)⟩ := by
  have hnode : (c.loc i).node = some id := by
    rw [hloc]
    rfl
  have hpos : id % 64 < 64 := Nat.mod_lt id (by decide)
  have hid : id / 64 * 64 + id % 64 = id := by omega
  have hrange := ((h.ok i).node id hnode).2
  have hother : ∀ j, j ≠ i → (c.loc j).node ≠ some id :=
    fun j hji hj => hji (h.unique j i id hj hnode)
  subst hcas
  apply h.of_step
  · refine (busy_clearBit hpos 0).mpr ⟨h.reserved, ?_⟩
    omega
  · exact ⟨fun _ _ _ hx => (nomatch hx), fun _ hx => (nomatch hx), fun _ _ hx => (nomatch hx),
      fun _ _ _ _ hx => (nomatch hx)⟩
  · intro j id' hji hn
    refine (busy_clearBit hpos id').mpr ⟨((h.ok j).node id' hn).1, ?_⟩
    rw [hid]
    rintro rfl
    exact hother j hji hn
  · intro j p' id' _ hs
    exact (h.ok j).stored p' id' hs
  · intro j id' _ hn
    exact nomatch hn
  · intro j id' seen' p' hji hx hs
    cases hx
    exact absurd (Holder.node_of_stored hs) (hother j hji)
  · intro j id' seen' p' _ _ hs
    exact nomatch hs

/-- The late compare-and-swap of a release finds nothing to clear but NULL. -/
theorem AllocInv.clear {seen : BitVec 64} {id : ℕ} (h : AllocInv length c)
    (hloc : c.loc i = .relClear id seen) (hcas : c.shared.payload id = seen) :
    AllocInv length ⟨{ c.shared with payload := Function.update c.shared.payload id 0 },
      Function.update c.loc i (.relCount seen)⟩ := by
  apply h.of_step
  · exact h.reserved
  · exact ⟨fun _ _ _ hx => (nomatch hx), fun _ hx => (nomatch hx), fun _ _ hx => (nomatch hx),
      fun _ _ _ _ hx => (nomatch hx)⟩
  · intro j id' _ hn
    exact ((h.ok j).node id' hn).1
  · intro j p' id' hji hs
    have hold := (h.ok j).stored p' id' hs
    by_cases hne : id' = id
    · subst hne
      dsimp only
      rw [Function.update_self]
      exact (h.pending i j id' seen p' hloc hs (hcas.symm.trans hold)).symm
    · exact (Function.update_of_ne hne ..).trans hold
  · intro j id' _ hn
    exact nomatch hn
  · intro j id' seen' p' _ hx
    exact nomatch hx
  · intro j id' seen' p' _ _ hs
    exact nomatch hs

end TinyStm.Nbb
