import Mathlib.Data.Nat.Notation
import TinyStm.Lib.Interleave

/-!
# The epoch-based collector (gc.c)

Every thread has a slot with the epoch it has published and a list of regions of
blocks to free. `gc_compute_min` scans the slots, up to the first one that was
never used, for a lower bound on the published epochs, and regions below it are
freed. One step is one atomic load, store or compare-and-swap, or the work on a
region list that the thread has for itself. `gc_current_epoch` reads `clock`.
-/

namespace TinyStm.Gc

open Interleave

def maxGcThreads : ℕ := 1024

def epochMax : ℕ := 2 ^ 64 - 1

inductive Used where
  | null
  | busy
  | freeEmpty
  | freeFull
  deriving DecidableEq

/-- A block handed to `gc_free`. All but `addr` is auxiliary: which call of
`gc_free` it was, its epoch, and for each thread that had published an epoch not
above it how often that thread had changed its epoch. -/
structure Block (ι : Type*) where
  addr : ℕ
  call : ℕ
  epoch : ℕ
  guards : ι → Option ℕ

structure Region (ι : Type*) where
  ts : ℕ
  blocks : List (Block ι)

/-- `regions` is the list from `head` to `tail`. Auxiliary: the thread that has the
slot for itself and, once it is initialised, the epoch that its next call of
`gc_set_epoch` should not go below. -/
structure Slot (ι : Type*) where
  used : Used
  ts : ℕ
  regions : List (Region ι)
  frees : ℕ
  owner : Option ι
  floor : Option ℕ

/-- `gc_threads` and the current epoch. The rest is auxiliary: `pub`, the epoch of a
thread's last `gc_set_epoch` unless it has left since, `gen`, how often it called
`gc_set_epoch` or left, `active`, whether `nb_active` counts it, `calls`, the number
of calls of `gc_free`, the blocks freed so far, and the thread that is in `gc_exit`. -/
structure Threads (ι : Type*) where
  slots : ℕ → Slot ι
  nbActive : ℕ
  clock : ℕ
  pub : ι → Option ℕ
  gen : ι → ℕ
  active : ι → Bool
  calls : ℕ
  freed : List (Block ι)
  closing : Option ι
  closed : Bool

def gcInit (ι : Type*) : Threads ι where
  slots _ := ⟨.null, epochMax, [], 0, none, none⟩
  nbActive := 0
  clock := 0
  pub _ := none
  gen _ := 0
  active _ := false
  calls := 0
  freed := []
  closing := none
  closed := false

/-- Whose list a minimum is computed for: the thread's own slot, or one that
`gc_cleanup_all` has taken. -/
inductive Work where
  | own (k : ℕ)
  | all (k : ℕ)
  deriving DecidableEq

def Work.slot : Work → ℕ
  | .own k | .all k => k

inductive Pc where
  | rest
  | initLoad (k : ℕ)
  | initCas (k : ℕ) (used : Used)
  | initEpoch (k : ℕ)
  | initStore (k ts : ℕ)
  | free (addr epoch : ℕ)
  | cleanup
  | scanUsed (w : Work) (pos min : ℕ)
  | scanTs (w : Work) (pos min : ℕ)
  | clean (w : Work) (min : ℕ)
  | allNull (k min : ℕ)
  | allFull (k min : ℕ)
  | allCas (k min : ℕ)
  | allEpoch (k : ℕ)
  | allRel (k min : ℕ)
  | exitRel (k : ℕ)
  | exitDec
  | gcExit (k : ℕ)
  deriving DecidableEq

/-- `home` is `gc_thread_idx` between `gc_init_thread` and `gc_exit_thread`. -/
structure Local where
  home : Option ℕ
  pc : Pc
  deriving DecidableEq

inductive Act where
  | init
  | setEpoch (epoch : ℕ)
  | free (addr epoch : ℕ)
  | cleanup
  | cleanupAll
  | exit
  | gcExit
  | go
  | tick

variable {ι : Type*}

def Threads.setSlot (g : Threads ι) (k : ℕ) (s : Slot ι) : Threads ι :=
  { g with slots := Function.update g.slots k s }

def released (s : Slot ι) : Used := if s.regions.isEmpty then .freeEmpty else .freeFull

/-- The block goes into the first region, unless that one is older. -/
def addBlock (b : Block ι) (epoch : ℕ) : List (Region ι) → List (Region ι)
  | [] => [⟨epoch, [b]⟩]
  | r :: rs =>
    if r.ts < epoch then r :: rs ++ [⟨epoch, [b]⟩] else { r with blocks := b :: r.blocks } :: rs

def guardsFor (g : Threads ι) (epoch : ℕ) (j : ι) : Option ℕ :=
  match g.pub j with
  | some s => if s ≤ epoch then some (g.gen j) else none
  | none => none

def initNext (k : ℕ) : Pc := .initLoad (if k + 1 < maxGcThreads then k + 1 else 0)

section

variable [DecidableEq ι]

def setEpoch (g : Threads ι) (i : ι) (k epoch : ℕ) : Threads ι :=
  let s := g.slots k
  { g.setSlot k { s with
      ts := if epochMax ≤ epoch then s.ts else epoch
      floor := some epoch } with
    pub := Function.update g.pub i (some epoch)
    gen := Function.update g.gen i (g.gen i + 1) }

def leave (g : Threads ι) (i : ι) (k : ℕ) : Threads ι :=
  { g.setSlot k { g.slots k with ts := epochMax, floor := none } with
    pub := Function.update g.pub i none
    gen := Function.update g.gen i (g.gen i + 1) }

/-- The slot is taken by compare-and-swap. -/
def take (g : Threads ι) (i : ι) (k : ℕ) : Threads ι :=
  g.setSlot k { g.slots k with used := .busy, owner := some i }

def release (g : Threads ι) (k : ℕ) : Threads ι :=
  g.setSlot k { g.slots k with used := released (g.slots k), owner := none }

/-- `freq` is `CLEANUP_FREQUENCY`, or `none` with `NO_PERIODIC_CLEANUP`. -/
def gcFree (freq : Option ℕ) (g : Threads ι) (k addr epoch : ℕ) : Threads ι × Pc :=
  let s := g.slots k
  let b : Block ι := ⟨addr, g.calls, epoch, guardsFor g epoch⟩
  let frees := (s.frees + 1) % 2 ^ 32
  ({ g.setSlot k { s with regions := addBlock b epoch s.regions, frees := frees } with
      calls := g.calls + 1 },
    if freq.any fun n => frees % n = 0 then .cleanup else .rest)

/-- After `gc_cleanup_thread`, `gc_cleanup` returns and `gc_cleanup_all` releases the
slot. -/
def Work.done (min : ℕ) : Work → Pc
  | .own _ => .rest
  | .all k => .allRel k min

/-- One round of the loop of `gc_cleanup_thread`. -/
def cleanStep (g : Threads ι) (w : Work) (min : ℕ) : Threads ι × Pc :=
  let s := g.slots w.slot
  match s.regions with
  | [] => (g, w.done min)
  | r :: rs =>
    if r.ts < min then
      ({ g.setSlot w.slot { s with regions := rs } with freed := g.freed ++ r.blocks },
        .clean w min)
    else (g, w.done min)

def goStep (freq : Option ℕ) (i : ι) (g : Threads ι) (home : Option ℕ) :
    Pc → Option (Threads ι × Option ℕ × Pc)
  | .rest => none
  | .initLoad k =>
    if (g.slots k).used = .busy then some (g, home, initNext k)
    else some (g, home, .initCas k (g.slots k).used)
  | .initCas k used =>
    if (g.slots k).used = used then
      some (take g i k, home, .initEpoch k)
    else some (g, home, initNext k)
  | .initEpoch k => some (g, home, .initStore k g.clock)
  | .initStore k ts =>
    some (g.setSlot k { g.slots k with ts := ts, floor := some g.clock }, some k, .rest)
  | .free addr epoch =>
    home.map fun k => ((gcFree freq g k addr epoch).1, home, (gcFree freq g k addr epoch).2)
  | .cleanup =>
    home.map fun k =>
      if (g.slots k).regions.isEmpty then (g, home, .rest)
      else (g, home, .scanUsed (.own k) 0 g.clock)
  | .scanUsed w pos min =>
    if pos < maxGcThreads then
      match (g.slots pos).used with
      | .null => some (g, home, .clean w min)
      | .busy => some (g, home, .scanTs w pos min)
      | .freeEmpty | .freeFull => some (g, home, .scanUsed w (pos + 1) min)
    else some (g, home, .clean w min)
  | .scanTs w pos min =>
    let ts := (g.slots pos).ts
    some (g, home, .scanUsed w (pos + 1) (if ts < min then ts else min))
  | .clean w min => some ((cleanStep g w min).1, home, (cleanStep g w min).2)
  | .allNull k min =>
    if k < maxGcThreads ∧ (g.slots k).used ≠ .null then some (g, home, .allFull k min)
    else some (g, home, .rest)
  | .allFull k min =>
    if (g.slots k).used = .freeFull then some (g, home, .allCas k min)
    else some (g, home, .allNull (k + 1) min)
  | .allCas k min =>
    if (g.slots k).used = .freeFull then
      some (take g i k, home, if min = epochMax then .allEpoch k else .clean (.all k) min)
    else some (g, home, .allNull (k + 1) min)
  | .allEpoch k => some (g, home, .scanUsed (.all k) 0 g.clock)
  | .allRel k min =>
    some (release g k, home, .allNull (k + 1) min)
  | .exitRel k => some (release g k, home, .exitDec)
  | .exitDec =>
    some ({ g with
      nbActive := g.nbActive - 1
      active := Function.update g.active i false }, home, .rest)
  | .gcExit k =>
    if k < maxGcThreads then
      let s := g.slots k
      some ({ g.setSlot k { s with regions := [] } with
        freed := g.freed ++ s.regions.flatMap Region.blocks }, home, .gcExit (k + 1))
    else some ({ g with closed := true }, home, .rest)

/-- What a thread that is in no call may call. -/
def callStep (i : ι) (g : Threads ι) : Act → Option ℕ → Option (Threads ι × Option ℕ × Pc)
  | .init, none =>
    if maxGcThreads ≤ g.nbActive then none
    else some ({ g with
      nbActive := g.nbActive + 1
      active := Function.update g.active i true }, none, .initLoad 0)
  | .setEpoch epoch, some k => some (setEpoch g i k epoch, some k, .rest)
  | .free addr epoch, some k => some (g, some k, .free addr epoch)
  | .cleanup, some k => some (g, some k, .cleanup)
  | .cleanupAll, home => some (g, home, .allNull 0 epochMax)
  | .exit, some k => some (leave g i k, none, .exitRel k)
  | .gcExit, home =>
    if g.nbActive = 0 then some ({ g with closing := some i }, home, .gcExit 0) else none
  | _, _ => none

/-- Once a thread is in `gc_exit`, only that thread moves, and nothing is called
any more. -/
def gcSystem (ι : Type*) [DecidableEq ι] (freq : Option ℕ) : System ι (Threads ι) Local Act where
  step i a g x :=
    if g.closing = none ∨ g.closing = some i then
      match a with
      | .tick => if g.clock < epochMax then some ({ g with clock := g.clock + 1 }, x) else none
      | .go => (goStep freq i g x.home x.pc).map fun r => (r.1, ⟨r.2.1, r.2.2⟩)
      | a =>
        if x.pc = .rest ∧ g.closing = none then
          (callStep i g a x.home).map fun r => (r.1, ⟨r.2.1, r.2.2⟩)
        else none
    else none

end

def start (ι : Type*) : Config ι (Threads ι) Local := ⟨gcInit ι, fun _ => ⟨none, .rest⟩⟩

/-- `gc_exit` is called last, when no other call is in progress. -/
def ExitLast (c : Config ι (Threads ι) Local) (i : ι) : Act → Prop
  | .gcExit => ∀ j, j ≠ i → (c.loc j).pc = .rest
  | _ => True

/-- The thread is in `gc_cleanup_all`. -/
def Pc.sweeping : Pc → Bool
  | .scanUsed (.all _) _ _ | .scanTs (.all _) _ _ | .clean (.all _) _ => true
  | .allNull _ _ | .allFull _ _ | .allCas _ _ | .allEpoch _ | .allRel _ _ => true
  | _ => false

/-- While a thread is in `gc_cleanup_all`, none goes back in the epochs it publishes:
not below its last one, and not below the current epoch at the time it was
initialised. -/
def EpochsForward (c : Config ι (Threads ι) Local) (i : ι) : Act → Prop
  | .setEpoch epoch => (∃ j, (c.loc j).pc.sweeping = true) →
    ∀ k ∈ (c.loc i).home, ∀ f ∈ (c.shared.slots k).floor, f ≤ epoch
  | _ => True

end TinyStm.Gc
