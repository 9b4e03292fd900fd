import TinyStm.Pool.Model
import Mathlib.Algebra.BigOperators.Group.Finset.Basic
import Mathlib.Data.Fintype.Basic

/-!
# Where a task is and what each thread knows

Every task of the pool is in the free list, in the list of one server, or on the way
between the two in the hand of one server. The invariant of a run has one part for
each kind of data: the places, the free list under its lock, the lists of the
servers, what a server remembers of them, the life of the tasks, and the counter.
-/

namespace TinyStm.Pool

variable {ι : Type*}

/-! ### Reading a thread -/

/-- The task that `GetTask` has taken from the free list. -/
def Get.hand : Get → Option ℕ
  | .testEmpty t | .clearTail t | .dec t | .reset t _ => some t
  | .unlock t => t
  | _ => none

def Get.holds : Get → Bool
  | .recheck | .loadHead | .loadNext _ | .setHead _ _ | .testEmpty _ | .clearTail _ | .unlock _ => true
  | _ => false

/-- A task has left the free list and is still counted. -/
def Get.early : Get → ℕ
  | .testEmpty _ | .clearTail _ | .unlock (some _) | .dec _ => 1
  | _ => 0

/-- `FreeTask` has not put the task into the free list yet. -/
def Free.hands : Free → Bool
  | .setTail | .unlock | .inc => false
  | _ => true

def Free.holds : Free → Bool
  | .reset _ | .lock | .inc => false
  | _ => true

/-- A task is in the free list and not counted yet. -/
def Free.late : Free → ℕ
  | .setTail | .unlock | .inc => 1
  | _ => 0

def ServerPc.hand : ServerPc → Option ℕ
  | .get _ st => st.hand
  | .gcNext _ t | .gcHead _ t => some t
  | .clean _ (.free _ t st) => if st.hands then some t else none
  | _ => none

def ServerPc.holds : ServerPc → Bool
  | .get _ st => st.holds
  | .clean _ (.free _ _ st) => st.holds
  | _ => false

def ServerPc.early : ServerPc → ℕ
  | .get _ st => st.early
  | _ => 0

def ServerPc.late : ServerPc → ℕ
  | .clean _ (.free _ _ st) => st.late
  | _ => 0

/-- The task a worker runs, up to its last write to it, and what became of it. -/
def Worker.job : Worker → Option (ℕ × Life)
  | .run t => some (t, .running)
  | .setStats t | .setFree t => some (t, .executed)
  | _ => none

def Thread.hand : Thread → Option ℕ
  | .server s => s.pc.hand
  | .worker _ => none

def Thread.holds : Thread → Bool
  | .server s => s.pc.holds
  | .worker _ => false

def Thread.early : Thread → ℕ
  | .server s => s.pc.early
  | .worker _ => 0

def Thread.late : Thread → ℕ
  | .server s => s.pc.late
  | .worker _ => 0

def Thread.job : Thread → Option (ℕ × Life)
  | .server _ => none
  | .worker w => w.job

def Thread.work (x : Thread) : Option ℕ := x.job.map Prod.fst

def Thread.gcHead : Thread → Option ℕ
  | .server s => s.gcHead
  | .worker _ => none

/-! ### The parts of the invariant -/

inductive Place (ι : Type*) where
  | outside
  | free
  | gc (i : ι)
  | hand (i : ι)

structure Places (size : ℕ) (loc : ι → Thread) (l : List ℕ) (q : ι → List ℕ)
    (place : ℕ → Place ι) : Prop where
  outside : ∀ t, place t = .outside ↔ size ≤ t
  free : ∀ t, t ∈ l ↔ place t = .free
  gc : ∀ t i, t ∈ q i ↔ place t = .gc i
  hand : ∀ t i, (loc i).hand = some t ↔ place t = .hand i

/-- What the holder of the lock knows of the free list `l` and its tail. -/
def Get.TailOk (tail : Option ℕ) (l : List ℕ) : Get → Prop
  | .loadHead => tail = l.getLast? ∧ l ≠ []
  | .loadNext t => tail = l.getLast? ∧ l.head? = some t
  | .setHead t n => tail = l.getLast? ∧ l.head? = some t ∧ l.tail.head? = n
  | .testEmpty _ => l ≠ [] → tail = l.getLast?
  | .clearTail _ => l = []
  | _ => tail = l.getLast?

def Free.TailOk (t : ℕ) (tail : Option ℕ) (l : List ℕ) : Free → Prop
  | .loadTail => tail = l.getLast? ∧ l ≠ []
  | .link last => l.getLast? = some last
  | .setTail => l.getLast? = some t
  | .setFirst => l = []
  | .setHead => l = [] ∧ tail = some t
  | _ => tail = l.getLast?

def ServerPc.TailOk (tail : Option ℕ) (l : List ℕ) : ServerPc → Prop
  | .get _ st => st.TailOk tail l
  | .clean _ (.free _ t st) => st.TailOk t tail l
  | _ => True

def Thread.TailOk (tail : Option ℕ) (l : List ℕ) : Thread → Prop
  | .server s => s.pc.TailOk tail l
  | .worker _ => True

structure FreeOk (g : Store ι) (loc : ι → Thread) (l : List ℕ) : Prop where
  lock : ∀ i, (loc i).holds = true ↔ g.lock = some i
  chain : Chain g.nextFree g.head l
  nodup : l.Nodup
  tail : g.lock = none → g.tail = l.getLast?
  held : ∀ i, g.lock = some i → (loc i).TailOk g.tail l

/-- The fields of a task in `FreeTask` that are reset already. -/
def Free.Knows (g : Store ι) (t : ℕ) : Free → Prop
  | .reset todo =>
    (.nextFree ∉ todo → g.nextFree t = none) ∧ (.freeGc ∉ todo → g.freeGc t = false)
  | .setTail | .unlock | .inc => True
  | _ => g.nextFree t = none ∧ g.freeGc t = false

/-- A place in the list `q` of a server: before it `prev`, behind it `cur`. -/
def Cut (q : List ℕ) (prev cur : Option ℕ) : Prop :=
  ∃ a b, q = a ++ b ∧ prev = a.getLast? ∧ cur = b.head?

/-- A task is over: it was executed, or rejected before it was queued. -/
def Life.ended (l : Life) : Prop := l = .executed ∨ l = .rejected

/-- What a server with the list `q` that starts at `h` remembers. -/
def ServerPc.Knows (g : Store ι) (q : List ℕ) (h : Option ℕ) : ServerPc → Prop
  | .get _ st => ∀ t, st.hand = some t → g.life t = .received
  | .gcNext _ t => g.life t = .received
  | .gcHead _ t => g.life t = .received ∧ g.nextGc t = h
  | .parsePrio _ t | .setPrio _ t _ | .parseTx _ t | .setTx t _ | .insert t | .reject t =>
    t ∈ q ∧ g.life t = .received
  | .clean _ (.visit prev cur) => Cut q prev cur
  | .clean _ (.skip t) => t ∈ q
  | .clean _ (.stats prev t) | .clean _ (.loadNext prev t) =>
    Cut q prev (some t) ∧ g.freeGc t = true
  | .clean _ (.unlink prev t n) => Cut q prev (some t) ∧ g.freeGc t = true ∧ g.nextGc t = n
  | .clean _ (.free prev t st) =>
    (∃ cur, Cut q prev cur) ∧ (st.hands = true → (g.life t).ended) ∧ st.Knows g t
  | .clean _ (.next prev) => ∃ cur, Cut q prev cur
  | _ => True

def Thread.Knows (g : Store ι) (q : List ℕ) : Thread → Prop
  | .server s => s.pc.Knows g q s.gcHead
  | .worker _ => True

structure LifeOk (g : Store ι) (loc : ι → Thread) (place : ℕ → Place ι) : Prop where
  nodup : g.queue.Nodup
  queue : ∀ t, t ∈ g.queue ↔ g.life t = .queued
  job : ∀ j t a, (loc j).job = some (t, a) → g.life t = a
  unique : ∀ j k t, (loc j).work = some t → (loc k).work = some t → j = k
  shared : ∀ t, (g.life t = .queued ∨ ∃ j, (loc j).work = some t) → ∃ i, place t = .gc i
  ended : ∀ t, g.freeGc t = true → (g.life t).ended ∧ ∀ j, (loc j).work ≠ some t
  idle : ∀ t, place t = .free → g.freeGc t = false

/-- Tasks that left the free list are counted until `dec`, those that came back from
`inc` on. -/
def CountOk [Fintype ι] (g : Store ι) (loc : ι → Thread) (l : List ℕ) : Prop :=
  g.numFreeTasks + (∑ i, (loc i).late : ℕ) = l.length + (∑ i, (loc i).early : ℕ)

structure Good [Fintype ι] (size : ℕ) (g : Store ι) (loc : ι → Thread) (l : List ℕ)
    (q : ι → List ℕ) (place : ℕ → Place ι) : Prop where
  places : Places size loc l q place
  free : FreeOk g loc l
  gc : ∀ i, Chain g.nextGc (loc i).gcHead (q i) ∧ (q i).Nodup
  knows : ∀ i, (loc i).Knows g (q i)
  life : LifeOk g loc place
  count : CountOk g loc l

end TinyStm.Pool
