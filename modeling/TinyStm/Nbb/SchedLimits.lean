import TinyStm.Nbb.SchedRefine

/-!
# The limits of the scheduler

`MEM_ALLOC_LEN` is computed in `int`, and versions have 32 bits while the code
compares them with whole rounds. Beyond either limit the scheduler goes wrong: it
hands out a node outside its array, or it does not find a task that is queued.
-/

namespace TinyStm.Nbb

open Interleave

/-- What the scheduler should do for every run of `ι` threads on the tasks `τ`. -/
def KeepsTasks (z : Sizes) (ι τ : Type) [DecidableEq ι] [DecidableEq τ] : Prop :=
  ∀ (hist : List (ι × SchedEvent τ)) (d : Config ι (Sched τ) (Worker τ)),
    Hist (schedSystem z ι) (fun _ _ _ => True) schedLabel ⟨getPrioTaskArray, fun _ => .idle⟩
      hist d →
    (∃ d', Hist (queueSystem z ι) (fun _ _ _ => True) queueLabel
      ⟨⟨fun _ => [], fun _ => false⟩, fun _ => .idle⟩ hist d') ∧ ∀ i, (d.loc i).fault = false

/-! ### The allocator is too short -/

def manyThreads : Sizes :=
  ⟨1, 65536, 65536, 2, Nat.one_pos, by decide, by decide, Nat.two_pos⟩

theorem many_threads_outside : ¬ KeepsTasks manyThreads (Fin 2) (Fin 2) := by
  intro hkeep
  have hrun : ((schedSystem manyThreads (Fin 2)).history (fun _ _ _ => True) schedLabel
      [(0, .insert 0 0), (0, .go), (0, .go), (0, .go), (1, .insert 1 0), (1, .go), (1, .go),
        (1, .go)]
      ⟨getPrioTaskArray, fun _ => .idle⟩).any
        (fun r => (r.2.loc (1 : Fin 2) : Worker (Fin 2)).fault) = true := by
    decide +kernel
  obtain ⟨⟨hist, d⟩, hr, hout⟩ := (Option.any_eq_true _ _).mp hrun
  have hnot := (hkeep hist d (hist_of_history _ hr)).2 1
  rw [hnot] at hout
  cases hout

/-! ### Versions wrap -/

theorem onePair_chunks : onePair.chunks = 1 := by decide +kernel

theorem onePair_nodes : onePair.nodes = 4 := by decide +kernel

/-- The scheduler with one thread. -/
abbrev solo (g : Sched (Fin 2)) (x : Worker (Fin 2)) :
    Config Unit (Sched (Fin 2)) (Worker (Fin 2)) := ⟨g, fun _ => x⟩

abbrev SoloHist : Config Unit (Sched (Fin 2)) (Worker (Fin 2)) →
    List (Unit × SchedEvent (Fin 2)) → Config Unit (Sched (Fin 2)) (Worker (Fin 2)) → Prop :=
  Hist (schedSystem onePair Unit) (fun _ _ _ => True) schedLabel

theorem solo_step {g g' : Sched (Fin 2)} {x x' : Worker (Fin 2)} (a : SchedAct (Fin 2))
    (hs : (schedSystem onePair Unit).step () a g x = some (g', x')) :
    SoloHist (solo g x) (shown () (schedLabel a x)) (solo g' x') := by
  have hstep : SoloHist (solo g x) (shown () (schedLabel a x))
      ⟨g', Function.update (fun _ => x) () x'⟩ := .single trivial hs
  have heq : Function.update (fun _ : Unit => x) () x' = fun _ => x' := by
    funext u
    exact Function.update_self ..
  rwa [heq] at hstep

/-- Nothing is queued, after `n` insertions and removals. -/
structure Quiet (n : ℕ) (g : Sched (Fin 2)) : Prop where
  chunk : (g.prios 0).busymap 0 = 1#64
  holds : Holds onePair.shape (g.prios 0).ring n []
  head : (g.prios 0).ring.head = n
  tail : (g.prios 0).ring.tail = n
  out : g.out 0 = false

/-- Task 0 is in node 1, and the id of node 1 was written at index `n`. -/
structure Inserted (n : ℕ) (g g' : Sched (Fin 2)) : Prop where
  chunk : (g'.prios 0).busymap 0 = 3#64
  payload : (g'.prios 0).payload 1 = some 0
  ring : (g'.prios 0).ring =
    { (g.prios 0).ring.setEntry onePair.shape n
        (nbbListMask onePair.shape (round onePair.shape n 1) 1#64) with tail := n + 1 }

@[simp] theorem setPrio_prios (g : Sched (Fin 2)) (x : Prio (Fin 2)) :
    (g.setPrio 0 x).prios 0 = x := by
  simp [Sched.setPrio]

@[simp] theorem setPrio_setPrio (g : Sched (Fin 2)) (x y : Prio (Fin 2)) :
    (g.setPrio 0 x).setPrio 0 y = g.setPrio 0 y := by
  simp [Sched.setPrio]

theorem solo_insert {n : ℕ} {g : Sched (Fin 2)} (hq : Quiet n g) (hn : n + 1 < 2 ^ 64) :
    ∃ g', SoloHist (solo g .idle) [((), .callInsert 0 0), ((), .retInsert 0)] (solo g' .idle) ∧
      Inserted n g g' := by
  have hfree := hq.holds.load_free (i := n) (by simp) (by simp [Sizes.shape, onePair])
  have hver : nbbListVer onePair.shape ((g.prios 0).ring.entry onePair.shape n) =
      round onePair.shape n 0 := Holds.ver_of_toNat hfree.2
  have hcell : (g.prios 0).ring.entry onePair.shape n =
      nbbListMask onePair.shape (round onePair.shape n 0) 0#64 := by
    rw [hq.holds.cells n le_rfl (by simp [Sizes.shape, onePair]), Holds.cell_of_le (by simp)]
  have hwrap : wrap (n + 1) = n + 1 := Nat.mod_eq_of_lt hn
  have hpos : freePos 1#64 = 1 := by decide +kernel
  have hset : setBit 1#64 1 = 3#64 := by decide
  set g0 : Sched (Fin 2) := { g with out := Function.update g.out 0 true } with hg0
  have h0 : (schedSystem onePair Unit).step () (.insert 0 0) g .idle =
      some (g0, .acquire 0 0 0) := by
    simp [schedSystem, hq.out, onePair, hg0]
  have hx0 : g0.prios 0 = g.prios 0 := rfl
  set bm := (g.prios 0).busymap with hbm
  set pay := (g.prios 0).payload with hpay
  set r := (g.prios 0).ring with hr
  set bm' := Function.update bm 0 3#64 with hbm'
  set pay' := Function.update pay 1 (some (0 : Fin 2)) with hpay'
  set m := nbbListMask onePair.shape (round onePair.shape n 1) 1#64 with hm
  have htail : r.tail = n := hq.tail
  have h1 : (schedSystem onePair Unit).step () .go g0 (.acquire 0 0 0) =
      some (g0, .acquireCas 0 0 0 1#64) := by
    simp [schedSystem, Worker.step, onePair_chunks, hx0, hq.chunk, hpos]
  have h2 : (schedSystem onePair Unit).step () .go g0 (.acquireCas 0 0 0 1#64) =
      some (g0.setPrio 0 ⟨bm', pay, r⟩, .store 0 0 1) := by
    simp [schedSystem, Worker.step, hx0, hq.chunk, hpos, hset, hbm', hbm, hpay, hr]
  have h3 : (schedSystem onePair Unit).step () .go (g0.setPrio 0 ⟨bm', pay, r⟩) (.store 0 0 1) =
      some (g0.setPrio 0 ⟨bm', pay', r⟩, .insert 0 0 1 (.start 1#64)) := by
    simp [schedSystem, Worker.step, onePair_nodes, hpay']
  have h4 : (schedSystem onePair Unit).step () .go (g0.setPrio 0 ⟨bm', pay', r⟩)
      (.insert 0 0 1 (.start 1#64)) =
      some (g0.setPrio 0 ⟨bm', pay', r⟩, .insert 0 0 1 (.scan 1#64 n n)) := by
    simp [schedSystem, Worker.step, Insert.step, htail]
  have h5 : (schedSystem onePair Unit).step () .go (g0.setPrio 0 ⟨bm', pay', r⟩)
      (.insert 0 0 1 (.scan 1#64 n n)) =
      some (g0.setPrio 0 ⟨bm', pay', r⟩, .insert 0 0 1 (.cas 1#64 n n)) := by
    simp [schedSystem, Worker.step, Insert.step, hfree.1, hver]
  have h6 : (schedSystem onePair Unit).step () .go (g0.setPrio 0 ⟨bm', pay', r⟩)
      (.insert 0 0 1 (.cas 1#64 n n)) =
      some (g0.setPrio 0 ⟨bm', pay', r.setEntry onePair.shape n m⟩,
        .insert 0 0 1 (.publish n n)) := by
    simp [schedSystem, Worker.step, Insert.step, hcell, hm]
  have h7 : (schedSystem onePair Unit).step () .go
      (g0.setPrio 0 ⟨bm', pay', r.setEntry onePair.shape n m⟩) (.insert 0 0 1 (.publish n n)) =
      some (g0.setPrio 0 ⟨bm', pay', { r.setEntry onePair.shape n m with tail := n + 1 }⟩,
        .insert 0 0 1 .done) := by
    simp [schedSystem, Worker.step, Insert.step, hwrap, Ring.setEntry, htail]
  refine ⟨g0.setPrio 0 ⟨bm', pay', { r.setEntry onePair.shape n m with tail := n + 1 }⟩, ?_, ?_⟩
  · exact (solo_step _ h0).trans <| (solo_step _ h1).trans <| (solo_step _ h2).trans <|
      (solo_step _ h3).trans <| (solo_step _ h4).trans <| (solo_step _ h5).trans <|
      (solo_step _ h6).trans <| (solo_step _ h7).trans <| (solo_step .go rfl).trans <|
      solo_step .go rfl
  · exact ⟨by simp [hbm'], by simp [hpay'], by rw [setPrio_prios]⟩

theorem solo_remove {n : ℕ} {g g' : Sched (Fin 2)} (hq : Quiet n g) (hi : Inserted n g g')
    (hver : n / 2 < 2 ^ 32 - 1) (hn : n + 1 < 2 ^ 64) :
    ∃ g'', SoloHist (solo g' .idle) [((), .callRemove), ((), .retRemove (some 0))]
      (solo g'' .idle) ∧ Quiet (n + 1) g'' := by
  obtain ⟨hchunk, hpay1, hring⟩ := hi
  have hH : Holds onePair.shape (g'.prios 0).ring n [1#64] := by
    have henq := hq.holds.enqueue (v := 1#64) (by simp [Sizes.shape, onePair]) (by decide)
      (by decide) hver (by simpa using by omega)
    have htail := henq.setTail (t := n) (by simp)
    rw [show wrap (n + 1) = n + 1 from Nat.mod_eq_of_lt hn] at htail
    rw [hring]
    exact htail
  have hhead : (g'.prios 0).ring.head = n := by
    rw [hring]
    exact hq.head
  have htail : (g'.prios 0).ring.tail = n + 1 := by
    rw [hring]
  obtain ⟨bm, pay, r, hx⟩ : ∃ bm pay r, g'.prios 0 = ⟨bm, pay, r⟩ := ⟨_, _, _, rfl⟩
  rw [hx] at hchunk hpay1 hH hhead htail
  dsimp only at hchunk hpay1 hH hhead htail
  set w := nbbListMask onePair.shape (round onePair.shape n 1) 1#64 with hw
  have hcell : r.entry onePair.shape n = w := by
    rw [hH.cells n le_rfl (by simp [Sizes.shape, onePair])]
    simp [cell, hw]
  have hload := hH.load_queued (i := n) le_rfl (by simp)
  rw [hcell] at hload
  have hval : nbbListVal onePair.shape w = 1#64 := by simpa using hload.1.symm
  have hver : nbbListVer onePair.shape w = round onePair.shape n 1 := Holds.ver_of_toNat hload.2.2
  have hwrap : wrap (n + 1) = n + 1 := Nat.mod_eq_of_lt hn
  have hclear : clearBit 3#64 1 = 1#64 := by decide
  set m := nbbListMask onePair.shape (round onePair.shape n 1) 0#64 with hm
  set r' : Ring := { r.setEntry onePair.shape n m with head := n + 1 } with hr'
  set bm' := Function.update bm 0 1#64 with hbm'
  set pay' := Function.update pay 1 none with hpay'
  have h1 : (schedSystem onePair Unit).step () .go g' (.remove 0 .start) =
      some (g'.setPrio 0 ⟨bm, pay, r⟩, .remove 0 (.scan n n)) := by
    simp [schedSystem, Worker.step, Remove.step, hhead, hx]
  have h2 : (schedSystem onePair Unit).step () .go (g'.setPrio 0 ⟨bm, pay, r⟩)
      (.remove 0 (.scan n n)) = some (g'.setPrio 0 ⟨bm, pay, r⟩, .remove 0 (.cas w n n)) := by
    simp [schedSystem, Worker.step, Remove.step, hcell, hval, hver]
  have h3 : (schedSystem onePair Unit).step () .go (g'.setPrio 0 ⟨bm, pay, r⟩)
      (.remove 0 (.cas w n n)) =
      some (g'.setPrio 0 ⟨bm, pay, r.setEntry onePair.shape n m⟩,
        .remove 0 (.publish 1#64 n n)) := by
    simp [schedSystem, Worker.step, Remove.step, hcell, hval, ← hw, ← hm]
  have h4 : (schedSystem onePair Unit).step () .go
      (g'.setPrio 0 ⟨bm, pay, r.setEntry onePair.shape n m⟩) (.remove 0 (.publish 1#64 n n)) =
      some (g'.setPrio 0 ⟨bm, pay, r'⟩, .remove 0 (.done 1#64)) := by
    simp [schedSystem, Worker.step, Remove.step, hwrap, Ring.setEntry, hhead, hr']
  have h5 : (schedSystem onePair Unit).step () .go (g'.setPrio 0 ⟨bm, pay, r'⟩)
      (.remove 0 (.done 1#64)) = some (g'.setPrio 0 ⟨bm, pay, r'⟩, .load 0 1) := rfl
  have h6 : (schedSystem onePair Unit).step () .go (g'.setPrio 0 ⟨bm, pay, r'⟩) (.load 0 1) =
      some (g'.setPrio 0 ⟨bm, pay, r'⟩, .release (some 0) 0 1) := by
    simp [schedSystem, Worker.step, onePair_nodes, hpay1]
  have h7 : (schedSystem onePair Unit).step () .go (g'.setPrio 0 ⟨bm, pay, r'⟩)
      (.release (some 0) 0 1) =
      some (g'.setPrio 0 ⟨bm, pay, r'⟩, .releasePayload (some 0) 0 1 3#64) := by
    simp [schedSystem, Worker.step, hchunk]
  have h8 : (schedSystem onePair Unit).step () .go (g'.setPrio 0 ⟨bm, pay, r'⟩)
      (.releasePayload (some 0) 0 1 3#64) =
      some (g'.setPrio 0 ⟨bm, pay, r'⟩, .releaseCas (some 0) 0 1 3#64 (some 0)) := by
    simp [schedSystem, Worker.step, hpay1]
  have h9 : (schedSystem onePair Unit).step () .go (g'.setPrio 0 ⟨bm, pay, r'⟩)
      (.releaseCas (some 0) 0 1 3#64 (some 0)) =
      some (g'.setPrio 0 ⟨bm', pay, r'⟩, .releaseClear (some 0) 0 1 (some 0)) := by
    simp [schedSystem, Worker.step, hchunk, hclear, hbm']
  have h10 : (schedSystem onePair Unit).step () .go (g'.setPrio 0 ⟨bm', pay, r'⟩)
      (.releaseClear (some 0) 0 1 (some 0)) =
      some (g'.setPrio 0 ⟨bm', pay', r'⟩, .removed (some 0)) := by
    simp [schedSystem, Worker.step, hpay1, Worker.leave, hpay']
  refine ⟨{ g'.setPrio 0 ⟨bm', pay', r'⟩ with out := Function.update g'.out 0 false }, ?_, ?_⟩
  · exact (solo_step .remove rfl).trans <| (solo_step _ h1).trans <| (solo_step _ h2).trans <|
      (solo_step _ h3).trans <| (solo_step _ h4).trans <| (solo_step _ h5).trans <|
      (solo_step _ h6).trans <| (solo_step _ h7).trans <| (solo_step _ h8).trans <|
      (solo_step _ h9).trans <| (solo_step _ h10).trans <| solo_step .go rfl
  · have hH' := hH.dequeue.setHead (t := n) (Nat.lt_succ_self n)
    rw [hwrap] at hH'
    refine ⟨by simp [Sched.setPrio, hbm'], ?_, by simp [Sched.setPrio, hr'], ?_, by simp⟩
    · simpa [Sched.setPrio] using hH'
    · simpa [Sched.setPrio, hr', Ring.setEntry] using htail

local instance neZero_two : NeZero 2 := ⟨by decide⟩

/-- Task 0 inserted and removed `n` times. -/
def rounds : ℕ → List (Unit × SchedEvent (Fin 2))
  | 0 => []
  | n + 1 => rounds n ++ [((), .callInsert 0 0), ((), .retInsert 0), ((), .callRemove),
      ((), .retRemove (some 0))]

theorem quiet_init : Quiet 0 getPrioTaskArray :=
  ⟨rfl, holds_create _, rfl, rfl, rfl⟩

theorem solo_rounds (n : ℕ) (hn : n ≤ 2 * (2 ^ 32 - 1)) :
    ∃ g, SoloHist (solo getPrioTaskArray .idle) (rounds n) (solo g .idle) ∧ Quiet n g := by
  induction n with
  | zero => exact ⟨_, .refl, quiet_init⟩
  | succ n ih =>
    obtain ⟨g, hg, hq⟩ := ih (by omega)
    obtain ⟨g', hg', hi⟩ := solo_insert hq (by omega)
    obtain ⟨g'', hg'', hq''⟩ := solo_remove hq hi (by omega) (by omega)
    exact ⟨g'', hg.trans (hg'.trans hg''), hq''⟩

def lastIndex : ℕ := 2 * (2 ^ 32 - 1)

theorem entry_setTail (s : Shape) (r : Ring) (t i : ℕ) :
    Ring.entry s { r with tail := t } i = r.entry s i := rfl

/-- The version of the next entry does not fit: the task is not found again. -/
theorem solo_lost {g g' : Sched (Fin 2)} (hq : Quiet lastIndex g) (hi : Inserted lastIndex g g') :
    ∃ g'', SoloHist (solo g' .idle) [((), .callRemove), ((), .retRemove none)]
      (solo g'' .idle) := by
  obtain ⟨_, _, hring⟩ := hi
  have hmask : nbbListMask onePair.shape (round onePair.shape lastIndex 1) 1#64 = 1#64 := by
    decide +kernel
  have hval : nbbListVal onePair.shape 1#64 = 1#64 := by decide +kernel
  have hver : nbbListVer onePair.shape 1#64 ≠ round onePair.shape lastIndex 1 := by
    decide +kernel
  have hwrap : wrap (lastIndex + 1) = lastIndex + 1 := by decide +kernel
  have hnext := hq.holds.load_free (i := lastIndex + 1) (by simp) (by simp [Sizes.shape, onePair])
  have hnextver : nbbListVer onePair.shape
      ((g.prios 0).ring.entry onePair.shape (lastIndex + 1)) =
      round onePair.shape (lastIndex + 1) 0 := Holds.ver_of_toNat hnext.2
  obtain ⟨bm, pay, r, hx⟩ : ∃ bm pay r, g'.prios 0 = ⟨bm, pay, r⟩ := ⟨_, _, _, rfl⟩
  rw [hx, hmask] at hring
  dsimp only at hring
  have hhead : r.head = lastIndex := by
    rw [hring]
    exact hq.head
  have hcell : r.entry onePair.shape lastIndex = 1#64 := by
    rw [hring]
    rw [entry_setTail, Holds.entry_setEntry, if_pos rfl]
  have hcell' : r.entry onePair.shape (lastIndex + 1) =
      (g.prios 0).ring.entry onePair.shape (lastIndex + 1) := by
    rw [hring]
    rw [entry_setTail, Holds.entry_setEntry, if_neg (by decide)]
  have h1 : (schedSystem onePair Unit).step () .go g' (.remove 0 .start) =
      some (g'.setPrio 0 ⟨bm, pay, r⟩, .remove 0 (.scan lastIndex lastIndex)) := by
    simp [schedSystem, Worker.step, Remove.step, hhead, hx]
  have h2 : (schedSystem onePair Unit).step () .go (g'.setPrio 0 ⟨bm, pay, r⟩)
      (.remove 0 (.scan lastIndex lastIndex)) =
      some (g'.setPrio 0 ⟨bm, pay, r⟩, .remove 0 (.scan (lastIndex + 1) lastIndex)) := by
    simp [schedSystem, Worker.step, Remove.step, hcell, hval, hver, hwrap]
  have h3 : (schedSystem onePair Unit).step () .go (g'.setPrio 0 ⟨bm, pay, r⟩)
      (.remove 0 (.scan (lastIndex + 1) lastIndex)) =
      some (g'.setPrio 0 ⟨bm, pay, r⟩, .remove 0 .empty) := by
    simp [schedSystem, Worker.step, Remove.step, hcell', hnext.1, hnextver]
  refine ⟨g'.setPrio 0 ⟨bm, pay, r⟩, ?_⟩
  exact (solo_step .remove rfl).trans <| (solo_step _ h1).trans <| (solo_step _ h2).trans <|
    (solo_step _ h3).trans <| (solo_step .go rfl).trans <| solo_step .go rfl

/-! ### No queue loses a task -/

def isRetInsert (e : Unit × SchedEvent (Fin 2)) : Bool :=
  match e.2 with
  | .retInsert 0 => true
  | _ => false

def isRetTask (e : Unit × SchedEvent (Fin 2)) : Bool :=
  match e.2 with
  | .retRemove (some _) => true
  | _ => false

/-- What the one client has inserted and not taken back is in its queue. -/
def InQueue (h : List (Unit × SchedEvent (Fin 2))) (q : List (Fin 2)) : Client (Fin 2) → Prop
  | .idle => h.countP isRetInsert ≤ q.length + h.countP isRetTask
  | .insert _ p | .remove p =>
    p = 0 ∧ h.countP isRetInsert ≤ q.length + h.countP isRetTask
  | .inserted code =>
    h.countP isRetInsert + (if code = 0 then 1 else 0) ≤ q.length + h.countP isRetTask
  | .removed task =>
    h.countP isRetInsert ≤ q.length + h.countP isRetTask + task.toList.length

theorem inQueue_step {h : List (Unit × SchedEvent (Fin 2))}
    {c d : Config Unit (Queues (Fin 2)) (Client (Fin 2))} {a : SchedAct (Fin 2)}
    (hq : InQueue h (c.shared.queue 0) (c.loc ()))
    (hm : (queueSystem onePair Unit).move c () a = some d) :
    InQueue (h ++ shown () (queueLabel a (c.loc ()))) (d.shared.queue 0) (d.loc ()) := by
  obtain ⟨g, x, hs, rfl⟩ := move_eq_some hm
  dsimp only
  rw [Function.update_self]
  revert hq hs
  generalize c.loc () = y
  intro hq hs
  rcases a with ⟨task, prio⟩ | _ | _
  · cases y with
    | idle =>
      simp only [queueSystem] at hs
      split at hs
      · cases hs
      · split at hs
        · cases hs
          simpa [InQueue, queueLabel, List.countP_append, isRetInsert, isRetTask] using hq
        · rename_i hprio
          cases hs
          refine ⟨?_, ?_⟩
          · have : (onePair.numPrio : ℤ) = 1 := rfl
            omega
          · simpa [InQueue, queueLabel, List.countP_append, isRetInsert, isRetTask] using hq
    | _ => cases hs
  · cases y with
    | idle =>
      cases hs
      refine ⟨rfl, ?_⟩
      simpa [InQueue, queueLabel, List.countP_append, isRetInsert, isRetTask] using hq
    | _ => cases hs
  · cases y with
    | idle => cases hs
    | insert task p =>
      cases hs
      obtain ⟨rfl, hq⟩ := hq
      simp [InQueue, queueLabel]
      omega
    | inserted code =>
      cases hs
      by_cases hcode : code = 0
      · subst hcode
        simpa [InQueue, queueLabel, List.countP_append, isRetInsert, isRetTask] using hq
      · have hev : isRetInsert ((), SchedEvent.retInsert code) = false := by
          unfold isRetInsert
          split
          · rename_i heq
            cases heq
            exact absurd rfl hcode
          · rfl
        simpa [InQueue, queueLabel, List.countP_append, hev, isRetTask, hcode] using hq
    | remove p =>
      obtain ⟨rfl, hq⟩ := hq
      simp only [queueSystem] at hs
      split at hs
      · cases hs
        simpa [InQueue, queueLabel, Client.next] using hq
      · rename_i task tl htl
        cases hs
        rw [htl, List.length_cons] at hq
        simp [InQueue, queueLabel]
        omega
    | removed task =>
      cases task with
      | none =>
        cases hs
        simpa [InQueue, queueLabel, List.countP_append, isRetInsert, isRetTask] using hq
      | some task =>
        cases hs
        simp [InQueue, queueLabel, List.countP_append, isRetInsert, isRetTask] at hq ⊢
        omega

theorem countP_rounds (n : ℕ) :
    (rounds n).countP isRetInsert = n ∧ (rounds n).countP isRetTask = n := by
  induction n with
  | zero => exact ⟨rfl, rfl⟩
  | succ n ih =>
    simp only [rounds, List.countP_append, ih.1, ih.2]
    exact ⟨rfl, rfl⟩

/-- A history of one client up to a removal that should find a task. -/
def oneLeft (n : ℕ) : List (Unit × SchedEvent (Fin 2)) :=
  rounds n ++ [((), .callInsert 0 0), ((), .retInsert 0), ((), .callRemove)]

theorem countP_oneLeft (n : ℕ) :
    (oneLeft n).countP isRetInsert = n + 1 ∧ (oneLeft n).countP isRetTask = n := by
  unfold oneLeft
  rw [List.countP_append, List.countP_append, (countP_rounds n).1, (countP_rounds n).2]
  exact ⟨rfl, rfl⟩

/-- Only a removal on an empty queue finds nothing. -/
theorem removed_none_of_step {c : Config Unit (Queues (Fin 2)) (Client (Fin 2))}
    {a : SchedAct (Fin 2)} {g : Queues (Fin 2)}
    (hs : (queueSystem onePair Unit).step () a c.shared (c.loc ()) = some (g, .removed none)) :
    c.loc () = .remove 0 ∧ a = .go ∧ c.shared.queue 0 = [] := by
  revert hs
  generalize c.loc () = y
  intro hs
  rcases a with ⟨task, prio⟩ | _ | _
  · cases y with
    | idle =>
      simp only [queueSystem] at hs
      split at hs
      · cases hs
      · split at hs <;> cases hs
    | _ => cases hs
  · cases y <;> cases hs
  · cases y with
    | remove p =>
      simp only [queueSystem] at hs
      split at hs
      · rename_i hempty
        cases p with
        | zero => exact ⟨rfl, rfl, hempty⟩
        | succ p => cases hs
      · cases hs
    | removed task => cases task <;> cases hs
    | _ => cases hs

theorem oneLeft_found {n : ℕ} {h : List (Unit × SchedEvent (Fin 2))}
    {d : Config Unit (Queues (Fin 2)) (Client (Fin 2))}
    (hh : Hist (queueSystem onePair Unit) (fun _ _ _ => True) queueLabel
      ⟨⟨fun _ => [], fun _ => false⟩, fun _ => .idle⟩ h d) :
    InQueue h (d.shared.queue 0) (d.loc ()) ∧ (h = oneLeft n → d.loc () ≠ .removed none) ∧
      h ≠ oneLeft n ++ [((), .retRemove none)] := by
  induction hh with
  | refl =>
    refine ⟨le_rfl, fun _ => nofun, fun heq => ?_⟩
    exact List.append_ne_nil_of_right_ne_nil _ (List.cons_ne_nil _ _) heq.symm
  | @tail h c d i a _ _ hm ih =>
    obtain ⟨hq, hnot, hne⟩ := ih
    refine ⟨inQueue_step hq hm, ?_, ?_⟩
    · obtain ⟨g, x, hs, rfl⟩ := move_eq_some hm
      intro heq hx
      dsimp only at hx
      rw [Function.update_self] at hx
      subst hx
      obtain ⟨hy, rfl, hempty⟩ := removed_none_of_step hs
      rw [hy] at hq heq
      rw [hempty] at hq
      have hh : h = oneLeft n := by simpa [queueLabel] using heq
      rw [hh] at hq
      have hcount := hq.2
      rw [(countP_oneLeft n).1, (countP_oneLeft n).2, List.length_nil] at hcount
      omega
    · intro heq
      cases hl : queueLabel a (c.loc i) with
      | none =>
        rw [hl, shown_none, List.append_nil] at heq
        exact hne heq
      | some ev =>
        rw [hl, shown_some] at heq
        obtain ⟨hh, hev⟩ := List.append_singleton_inj.mp heq
        cases hev
        revert hl
        have hnot := hnot hh
        revert hnot
        generalize c.loc () = y
        intro hnot hl
        cases a <;> cases y <;> simp_all [queueLabel]

theorem versions_lose_task : ¬ KeepsTasks onePair Unit (Fin 2) := by
  intro hkeep
  obtain ⟨g, hg, hq⟩ := solo_rounds lastIndex le_rfl
  obtain ⟨g', hg', hi⟩ := solo_insert hq (by decide)
  obtain ⟨g'', hg''⟩ := solo_lost hq hi
  have hrun : SoloHist (solo getPrioTaskArray .idle)
      (oneLeft lastIndex ++ [((), .retRemove none)]) (solo g'' .idle) := by
    have := hg.trans (hg'.trans hg'')
    rw [oneLeft, List.append_assoc]
    exact this
  obtain ⟨⟨d', hd'⟩, _⟩ := hkeep _ _ hrun
  exact (oneLeft_found hd').2.2 rfl

/-- Beyond either limit the scheduler does not keep its tasks. -/
theorem sched_limits :
    ¬ KeepsTasks manyThreads (Fin 2) (Fin 2) ∧ ¬ KeepsTasks onePair Unit (Fin 2) :=
  ⟨many_threads_outside, versions_lose_task⟩

end TinyStm.Nbb
