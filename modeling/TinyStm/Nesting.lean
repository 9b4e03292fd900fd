import TinyStm.WriteSet
import TinyStm.Build
import TinyStm.Quiesce.Model

/-!
# Nested transactions and aborts without retry

Transactions nest flatly: a counter says how many blocks are open, and only the
outermost `stm_commit` publishes. A rollback either jumps back to the `sigsetjmp` of
the outermost block or, with `no_retry`, returns, so that the program runs on in the
middle of its blocks. The calls of one thread are a list; a conflict, which other
threads may cause at any call, is a bit of the call. Asserts are compiled out.

Ghost: how many blocks the program has open, whether the outermost one asked for
`no_retry`, whether it has been rolled back since, and the depth the `sigsetjmp` of the
current attempt belongs to. A call other than `stm_start` outside every block is not
part of a balanced program and is skipped.
-/

namespace TinyStm.Nesting

open Quiesce (Status)

variable {w : ℕ}

/-- The descriptor, the stores that commits have published, and what the last
`stm_commit` returned. -/
structure Desc (w : ℕ) where
  nesting : ℤ
  noRetry : Bool
  status : Status
  wset : List (Store w)
  published : List (Store w)
  ret : Option Bool
  depth : ℕ
  asked : Bool
  failed : Bool
  base : ℕ
  deriving DecidableEq, Repr

inductive Call (w : ℕ) where
  | start (noRetry : Bool)
  | load (conflict : Bool)
  | store (s : Store w) (conflict : Bool)
  | commit (conflict : Bool)
  | abort
  deriving DecidableEq, Repr

/-- `stm_active` (`stm.c:3494`). -/
def stmActive (s : Desc w) : Bool := s.status.isActive

/-- `stm_aborted` (`stm.c:3504`). -/
def stmAborted (s : Desc w) : Bool := s.status = .aborted

/-- The locks the descriptor holds between two calls: those of its write set, unless
they are only taken by the commit. -/
def heldLocks (b : Build) (s : Desc w) : List ℕ :=
  match b.design with
  | .writeBackCtl => []
  | _ => s.wset.map fun e => b.getLock w e.addr

/-- `stm_prepare`: empty sets and an active status. -/
def stmPrepare (s : Desc w) : Desc w := { s with wset := [], status := .active }

/-- `stm_start` (`stm.c:3102-3149`). -/
def stmStart (nr : Bool) (s : Desc w) : Desc w :=
  let s := { s with depth := s.depth + 1
                    asked := if s.depth = 0 then nr else s.asked
                    failed := if s.depth = 0 then false else s.failed }
  if 0 < s.nesting then { s with nesting := s.nesting + 1 }
  else stmPrepare { s with nesting := s.nesting + 1, noRetry := nr, base := s.depth }

/-- `stm_rollback` (`stm.c:1534-1622`): the descriptor is prepared again in any case. -/
def stmRollback (s : Desc w) : Desc w :=
  let t := stmPrepare { s with status := .aborted, nesting := 1 }
  if s.noRetry then { t with nesting := 0, failed := s.failed || s.asked }
  else { t with depth := s.base }

/-- `stm_commit` (`stm.c:3153-3392`). -/
def stmCommit (conflict : Bool) (s : Desc w) : Desc w :=
  let s := { s with nesting := s.nesting - 1 }
  if 0 < s.nesting then { s with depth := s.depth - 1, ret := some true }
  else if conflict then
    let t := stmRollback s
    if s.noRetry then { t with depth := t.depth - 1, ret := some false } else t
  else { s with published := s.published ++ s.wset, status := .committed
                depth := s.depth - 1, ret := some true }

def step (s : Desc w) (e : Call w) : Desc w :=
  match e with
  | .start nr => stmStart nr s
  | .load c => if s.depth = 0 then s else if c then stmRollback s else s
  | .store x c =>
    if s.depth = 0 then s else if c then stmRollback s else { s with wset := s.wset ++ [x] }
  | .commit c => if s.depth = 0 then s else stmCommit c s
  | .abort => if s.depth = 0 then s else stmRollback s

def run (s : Desc w) (es : List (Call w)) : Desc w := es.foldl step s

/-- After `stm_init_thread`. -/
def initial : Desc w := ⟨0, false, .idle, [], [], none, 0, false, false, 0⟩

/-! ### The law -/

/-- The call rolls the transaction back. -/
def Call.fails (s : Desc w) : Call w → Bool
  | .start _ => false
  | .load c | .store _ c => c
  | .commit c => c && s.nesting ≤ 1
  | .abort => true

structure CallOk (b : Build) (s : Desc w) (e : Call w) : Prop where
  /-- only the outermost commit publishes -/
  outermost : (∀ c, e = .commit c → s.depth ≠ 1) → (step s e).published = s.published
  /-- a transaction that is not to be retried has aborted after a rollback -/
  aborted : 0 < s.depth → s.asked = true → e.fails s = true →
    stmAborted (step s e) = true ∧ stmActive (step s e) = false ∧ heldLocks b (step s e) = []
  /-- the rest of its block publishes nothing, and its commits say so -/
  discarded : 0 < s.depth → s.failed = true → ∀ c, e = .commit c →
    (step s e).published = s.published ∧ (step s e).ret = some false
  /-- and leaves no block open -/
  left : s.failed = true → (step s e).depth = 0 → (step s e).nesting = 0

def Law (b : Build) (es : List (Call w)) : Prop :=
  ∀ n e, es[n]? = some e → CallOk b (run initial (es.take n)) e

/-- No call rolls back a transaction that was started with `no_retry`. -/
def RetryOk (s : Desc w) (e : Call w) : Prop := 0 < s.depth → s.asked = true → e.fails s = false

/-! ### Runs without such a rollback -/

/-- The descriptor agrees with the program. -/
structure Agrees (s : Desc w) : Prop where
  nesting : s.nesting = s.depth
  failed : s.failed = false
  asked : 0 < s.depth → s.noRetry = s.asked
  base : 0 < s.depth → s.base = 1

section Step

variable {b : Build} {s : Desc w} {e : Call w}

theorem Agrees.start (h : Agrees s) (nr : Bool) : Agrees (stmStart nr s) := by
  have hn := h.nesting
  unfold stmStart
  by_cases hd : s.depth = 0
  · have h0 : ¬ 0 < s.nesting := by omega
    simp only [h0, if_false, hd, if_true]
    exact ⟨by simp [stmPrepare]; omega, rfl, fun _ => rfl, fun _ => rfl⟩
  · have h0 : 0 < s.nesting := by omega
    simp only [h0, if_true, hd, if_false]
    exact ⟨by push_cast; omega, h.failed, fun _ => h.asked (by omega), fun _ => h.base (by omega)⟩

/-- A rollback that is retried goes back to the outermost block. -/
theorem agrees_rollback (hf : s.failed = false) (hr : s.noRetry = false) (ha : s.asked = false)
    (hb : s.base = 1) : Agrees (stmRollback s) := by
  simp only [stmRollback, hr, Bool.false_eq_true, if_false]
  exact ⟨by simp [stmPrepare, hb], hf, fun _ => by simp [stmPrepare, ha], fun _ => hb⟩

/-- The rollback is not one of a transaction that asked for no retry. -/
theorem Agrees.rollback (h : Agrees s) (hd : s.depth ≠ 0) (hok : RetryOk s e)
    (he : e.fails s = true) : Agrees (stmRollback s) := by
  have hpos : 0 < s.depth := Nat.pos_of_ne_zero hd
  have ha : s.asked = false := by
    by_contra hne
    have := hok hpos (by simpa using hne)
    simp [he] at this
  exact agrees_rollback h.failed ((h.asked hpos).trans ha) ha (h.base hpos)

theorem Agrees.commit (h : Agrees s) (hd : s.depth ≠ 0) {c : Bool}
    (hok : RetryOk s (.commit c)) : Agrees (stmCommit c s) := by
  have hpos : 0 < s.depth := Nat.pos_of_ne_zero hd
  have hn := h.nesting
  unfold stmCommit
  by_cases h1 : 0 < s.nesting - 1
  · simp only [h1, if_true]
    exact ⟨by simp only; omega, h.failed, fun _ => h.asked hpos, fun _ => h.base hpos⟩
  · simp only [h1, if_false]
    cases c with
    | false =>
      simp only [Bool.false_eq_true, if_false]
      exact ⟨by simp only; omega, h.failed, fun _ => h.asked hpos, fun _ => h.base hpos⟩
    | true =>
      have ha : s.asked = false := by
        by_contra hne
        have hle : s.nesting ≤ 1 := by omega
        have := hok hpos (by simpa using hne)
        simp [Call.fails, hle] at this
      have hr : s.noRetry = false := (h.asked hpos).trans ha
      simp only [if_true, hr, Bool.false_eq_true, if_false]
      exact agrees_rollback h.failed rfl ha (h.base hpos)

/-- One call keeps the agreement. -/
theorem Agrees.step (h : Agrees s) (hok : RetryOk s e) : Agrees (Nesting.step s e) := by
  cases e with
  | start nr => exact h.start nr
  | load c =>
    simp only [Nesting.step]
    split_ifs with hd hc
    · exact h
    · exact h.rollback hd hok hc
    · exact h
  | store x c =>
    simp only [Nesting.step]
    split_ifs with hd hc
    · exact h
    · exact h.rollback hd hok hc
    · exact ⟨h.nesting, h.failed, h.asked, h.base⟩
  | commit c =>
    simp only [Nesting.step]
    split_ifs with hd
    · exact h
    · exact h.commit hd hok
  | abort =>
    simp only [Nesting.step]
    split_ifs with hd
    · exact h
    · exact h.rollback hd hok rfl

@[simp] theorem stmRollback_published : (stmRollback s).published = s.published := by
  unfold stmRollback
  split_ifs <;> rfl

/-- The slip: a rollback leaves the status active. -/
@[simp] theorem stmRollback_status : (stmRollback s).status = .active := by
  unfold stmRollback
  split_ifs <;> rfl

/-- A commit that is not the outermost one publishes nothing. -/
theorem Agrees.published (h : Agrees s) (he : ∀ c, e = .commit c → s.depth ≠ 1) :
    (Nesting.step s e).published = s.published := by
  have hn := h.nesting
  cases e with
  | start nr =>
    simp only [Nesting.step, stmStart]
    split_ifs <;> rfl
  | load c | store x c | abort =>
    simp only [Nesting.step]
    split_ifs <;> simp
  | commit c =>
    have hne := he c rfl
    simp only [Nesting.step, stmCommit]
    split_ifs with hd h1
    · rfl
    · rfl
    all_goals omega

theorem Agrees.callOk (h : Agrees s) (hok : RetryOk s e) : CallOk b s e where
  outermost := h.published
  aborted hd ha hf := by simp [hok hd ha] at hf
  discarded _ hf := by simp [h.failed] at hf
  left hf := by simp [h.failed] at hf

/-- A call that rolls back leaves the transaction active. -/
theorem not_aborted_of_fails (hd : 0 < s.depth) (hf : e.fails s = true) :
    stmAborted (Nesting.step s e) = false := by
  have hd' : s.depth ≠ 0 := hd.ne'
  cases e with
  | start nr => simp [Call.fails] at hf
  | load c =>
    simp only [Call.fails] at hf
    simp [Nesting.step, hd', hf, stmAborted]
  | store x c =>
    simp only [Call.fails] at hf
    simp [Nesting.step, hd', hf, stmAborted]
  | commit c =>
    simp only [Call.fails, Bool.and_eq_true, decide_eq_true_eq] at hf
    have h1 : ¬ 0 < s.nesting - 1 := by omega
    simp only [Nesting.step, hd', stmCommit, h1, hf.1, if_true, if_false, stmAborted]
    split_ifs <;> simp
  | abort => simp [Nesting.step, hd', stmAborted]

theorem retryOk_of_callOk (h : CallOk b s e) : RetryOk s e := by
  intro hd ha
  by_contra hne
  have hf : e.fails s = true := by simpa using hne
  have := (h.aborted hd ha hf).1
  simp [not_aborted_of_fails hd hf] at this

end Step

theorem agrees_initial : Agrees (initial : Desc w) :=
  ⟨rfl, rfl, fun h => by simp [initial] at h, fun h => by simp [initial] at h⟩

theorem run_take_succ {s : Desc w} {es : List (Call w)} {n : ℕ} {e : Call w} (h : es[n]? = some e) :
    run s (es.take (n + 1)) = step (run s (es.take n)) e := by
  rw [run, List.take_add_one, h, Option.toList_some, List.foldl_append]
  rfl

theorem agrees_run {es : List (Call w)}
    (hok : ∀ n e, es[n]? = some e → RetryOk (run initial (es.take n)) e) (n : ℕ) :
    Agrees (run initial (es.take n)) := by
  induction n with
  | zero => exact agrees_initial
  | succ n ih =>
    cases he : es[n]? with
    | some e =>
      rw [run_take_succ he]
      exact ih.step (hok n e he)
    | none =>
      have hle := List.getElem?_eq_none_iff.mp he
      rw [List.take_of_length_le (hle.trans (Nat.le_succ n)), ← List.take_of_length_le hle]
      exact ih

/-- The law of nested blocks holds, for every balanced sequence of calls with conflicts
anywhere, exactly when no call rolls back a transaction started with `no_retry`. -/
theorem nesting_law_iff (b : Build) (es : List (Call w)) :
    Law b es ↔ ∀ n e, es[n]? = some e → RetryOk (run initial (es.take n)) e := by
  constructor
  · intro h n e he
    exact retryOk_of_callOk (h n e he)
  · intro hok n e he
    exact (agrees_run hok n).callOk (hok n e he)

/-- A transaction started with `no_retry` aborts itself, stores a word and commits: the
store is published. -/
def abortThenStore : List (Call 64) :=
  [.start true, .abort, .store ⟨0, 1, BitVec.allOnes 64⟩ false, .commit false]

theorem nesting_law_broken :
    ¬ Law defaultBuild abortThenStore ∧
      (run initial abortThenStore).published = [⟨0, 1, BitVec.allOnes 64⟩] ∧
      (run initial abortThenStore).nesting = -1 := by
  refine ⟨fun h => ?_, by decide, by decide⟩
  have := ((h 1 .abort (by decide)).aborted (by decide) (by decide) rfl).1
  exact absurd this (by decide)

end TinyStm.Nesting
