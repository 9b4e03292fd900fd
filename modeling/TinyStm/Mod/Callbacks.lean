import Mathlib.Data.List.Count
import Mathlib.Data.List.Induction
import Mathlib.Data.List.Perm.Basic
import Mathlib.Tactic.Common

/-!
# Commit and abort callbacks (`mod_cb.c`)

`stm_on_commit` and `stm_on_abort` push an entry on one of two lists of the thread. At the
end of an attempt the entries of one list are called, head first, and those of the other
are freed. While a callback runs, the head of its list is the entry that is being called,
and what the callback registers comes on top of it.
-/

namespace TinyStm.Callbacks

inductive Kind
  | commit
  | abort
  deriving DecidableEq, Repr

def Kind.other : Kind → Kind
  | commit => abort
  | abort => commit

/-- A function with its argument, and the registrations that it makes when it is called. -/
inductive Callback
  | mk (f arg : ℕ) (registers : List (Kind × Callback))

def Callback.registers : Callback → List (Kind × Callback)
  | mk _ _ rs => rs

/-- `mod_cb_entry_t`; `node` numbers the calls of `malloc`. -/
structure Entry where
  node : ℕ
  cb : Callback

/-- `mod_cb_info_t`, the entries allocated, and what was called and freed so far. -/
structure Info where
  commit : List Entry
  abort : List Entry
  fresh : ℕ
  calls : List (Kind × Callback)
  freed : List ℕ

namespace Info

def list (s : Info) : Kind → List Entry
  | .commit => s.commit
  | .abort => s.abort

def setList (s : Info) (k : Kind) (l : List Entry) : Info :=
  match k with
  | .commit => { s with commit := l }
  | .abort => { s with abort := l }

def free (s : Info) (e : Entry) : Info := { s with freed := e.node :: s.freed }

end Info

/-- `mod_cb_on_thread_init`. -/
def modCbOnThreadInit : Info := ⟨[], [], 0, [], []⟩

def register (k : Kind) (cb : Callback) (s : Info) : Info :=
  { s.setList k (⟨s.fresh, cb⟩ :: s.list k) with fresh := s.fresh + 1 }

def stmOnCommit : Callback → Info → Info := register .commit

def stmOnAbort : Callback → Info → Info := register .abort

def registerAll (rs : List (Kind × Callback)) (s : Info) : Info :=
  rs.foldl (fun s r => match r.1 with
    | .commit => stmOnCommit r.2 s
    | .abort => stmOnAbort r.2 s) s

/-- `icb->commit->f(icb->commit->arg)`. -/
def call (k : Kind) (e : Entry) (s : Info) : Info :=
  registerAll e.cb.registers { s with calls := s.calls ++ [(k, e.cb)] }

/-- The loop that calls. It goes on at `ccb->next`, the list below the entry called. -/
def callLoop (k : Kind) : List Entry → Info → Info
  | [], s => s
  | ccb :: next, s => callLoop k next (((call k ccb s).setList k next).free ccb)

/-- The loop that only frees. -/
def freeLoop (k : Kind) : List Entry → Info → Info
  | [], s => s
  | ccb :: next, s => freeLoop k next ((s.setList k next).free ccb)

def finish (k : Kind) (s : Info) : Info :=
  let s := callLoop k (s.list k) s
  freeLoop k.other (s.list k.other) s

def modCbOnCommit : Info → Info := finish .commit

def modCbOnAbort : Info → Info := finish .abort

/-- The registrations of the body, and how the attempt ends. -/
structure Attempt where
  registers : List (Kind × Callback)
  outcome : Kind

def Attempt.run (a : Attempt) (s : Info) : Info :=
  match a.outcome with
  | .commit => modCbOnCommit (registerAll a.registers s)
  | .abort => modCbOnAbort (registerAll a.registers s)

def runAll (as : List Attempt) : Info := as.foldl (fun s a => a.run s) modCbOnThreadInit

/-! ### What is to be called -/

/-- The callbacks of one kind among some registrations. -/
def ofKind (k : Kind) (rs : List (Kind × Callback)) : List Callback :=
  (rs.filter fun r => r.1 = k).map Prod.snd

/-- Call the one registered last, with what it registers on top of those pending. -/
inductive Lifo (k : Kind) : List Callback → List Callback → Prop
  | done : Lifo k [] []
  | call {cb : Callback} {pending out : List Callback}
      (h : Lifo k ((ofKind k cb.registers).reverse ++ pending) out) :
      Lifo k (cb :: pending) (cb :: out)

structure Attempt.Settled (a : Attempt) (s : Info) : Prop where
  calls : ∃ out, Lifo a.outcome (ofKind a.outcome a.registers).reverse out ∧
    (a.run s).calls = s.calls ++ out.map (a.outcome, ·)
  commit : (a.run s).commit = []
  abort : (a.run s).abort = []
  /-- The entries allocated so far were freed, each once. -/
  freed : (a.run s).freed.Perm (List.range (a.run s).fresh)

/-- No callback that is called registers one of its own kind. -/
def Attempt.Clean (a : Attempt) : Prop :=
  ∀ cb ∈ ofKind a.outcome a.registers, ofKind a.outcome cb.registers = []

/-! ### The loops -/

variable {k : Kind} {s : Info} {es : List Entry}

@[simp] theorem list_setList (s : Info) (k : Kind) (l : List Entry) : (s.setList k l).list k = l := by
  cases k <;> rfl

@[simp] theorem list_other_setList (s : Info) (k : Kind) (l : List Entry) :
    (s.setList k l).list k.other = s.list k.other := by
  cases k <;> rfl

@[simp] theorem calls_setList (s : Info) (k : Kind) (l : List Entry) :
    (s.setList k l).calls = s.calls := by
  cases k <;> rfl

theorem registerAll_cons (r : Kind × Callback) (rs : List (Kind × Callback)) (s : Info) :
    registerAll (r :: rs) s = registerAll rs (register r.1 r.2 s) := by
  obtain ⟨k, cb⟩ := r
  cases k <;> rfl

theorem calls_register (k : Kind) (cb : Callback) (s : Info) :
    (register k cb s).calls = s.calls := by
  cases k <;> rfl

theorem calls_registerAll (rs : List (Kind × Callback)) (s : Info) :
    (registerAll rs s).calls = s.calls := by
  induction rs generalizing s with
  | nil => rfl
  | cons r rs ih => rw [registerAll_cons, ih, calls_register]

/-- Registrations come on top, last first. -/
theorem list_registerAll (k : Kind) (rs : List (Kind × Callback)) (s : Info) :
    ((registerAll rs s).list k).map Entry.cb =
      (ofKind k rs).reverse ++ (s.list k).map Entry.cb := by
  induction rs generalizing s with
  | nil => simp [registerAll, ofKind]
  | cons r rs ih =>
    obtain ⟨j, cb⟩ := r
    rw [registerAll_cons, ih]
    cases j <;> cases k <;> simp [ofKind, register, Info.list, Info.setList]

theorem registerAll_other {rs : List (Kind × Callback)} (h : ofKind k rs = []) (s : Info) :
    (registerAll rs s).list k = s.list k := by
  induction rs generalizing s with
  | nil => rfl
  | cons r rs ih =>
    obtain ⟨j, cb⟩ := r
    have hj : j ≠ k := by
      rintro rfl
      simp [ofKind] at h
    rw [registerAll_cons, ih (by simpa [ofKind, hj] using h)]
    cases j <;> cases k <;> first | rfl | exact absurd rfl hj

theorem calls_callLoop (k : Kind) (es : List Entry) (s : Info) :
    (callLoop k es s).calls = s.calls ++ es.map fun e => (k, e.cb) := by
  induction es generalizing s with
  | nil => simp [callLoop]
  | cons e es ih => simp [callLoop, ih, Info.free, call, calls_registerAll]

theorem list_callLoop (h : s.list k = es) : (callLoop k es s).list k = [] := by
  induction es generalizing s with
  | nil => exact h
  | cons e es ih => exact ih (list_setList (call k e s) k es)

theorem freeLoop_spec (h : s.list k = es) :
    (freeLoop k es s).list k = [] ∧ (freeLoop k es s).list k.other = s.list k.other ∧
      (freeLoop k es s).calls = s.calls := by
  induction es generalizing s with
  | nil => exact ⟨h, rfl, rfl⟩
  | cons e es ih =>
    obtain ⟨h₁, h₂, h₃⟩ := ih (s := (s.setList k es).free e) (list_setList s k es)
    exact ⟨h₁, h₂.trans (list_other_setList s k es), h₃.trans (calls_setList s k es)⟩

theorem other_other (k : Kind) : k.other.other = k := by cases k <;> rfl

theorem list_finish (k j : Kind) (s : Info) : (finish k s).list j = [] := by
  obtain ⟨h₁, h₂, -⟩ := freeLoop_spec (k := k.other) (s := callLoop k (s.list k) s) rfl
  rw [other_other, list_callLoop rfl] at h₂
  cases k <;> cases j <;> first | exact h₁ | exact h₂

theorem calls_finish (k : Kind) (s : Info) :
    (finish k s).calls = s.calls ++ (s.list k).map fun e => (k, e.cb) := by
  obtain ⟨-, -, h₃⟩ := freeLoop_spec (k := k.other) (s := callLoop k (s.list k) s) rfl
  exact h₃.trans (calls_callLoop k (s.list k) s)

theorem Attempt.run_eq (a : Attempt) (s : Info) :
    a.run s = finish a.outcome (registerAll a.registers s) := by
  unfold run
  cases a.outcome <;> rfl

/-! ### The entries -/

/-- An entry that was allocated is on a list or was freed, and only once. -/
def Ledger (s : Info) : Prop :=
  ∀ p, s.freed.count p + ((s.list .commit).map Entry.node).count p +
    ((s.list .abort).map Entry.node).count p = (List.range s.fresh).count p

theorem Ledger.register (h : Ledger s) (k : Kind) (cb : Callback) : Ledger (register k cb s) := by
  intro p
  have hp := h p
  cases k
  all_goals
    simp only [Callbacks.register, Info.setList, Info.list, List.map_cons, List.count_cons,
      List.range_succ, List.count_append, List.count_nil] at hp ⊢
    omega

theorem Ledger.registerAll (h : Ledger s) (rs : List (Kind × Callback)) :
    Ledger (registerAll rs s) := by
  induction rs generalizing s with
  | nil => exact h
  | cons r rs ih =>
    rw [registerAll_cons]
    exact ih (h.register r.1 r.2)

/-- The head of a list is unlinked and freed. -/
theorem Ledger.pop {e : Entry} (h : Ledger s) (he : s.list k = e :: es) :
    Ledger ((s.setList k es).free e) := by
  intro p
  have hp := h p
  cases k
  all_goals
    simp only [Info.list] at he
    simp only [Info.list, he, Info.setList, Info.free, List.map_cons, List.count_cons] at hp ⊢
    omega

theorem Ledger.freeLoop (h : Ledger s) (he : s.list k = es) : Ledger (freeLoop k es s) := by
  induction es generalizing s with
  | nil => exact h
  | cons e es ih => exact ih (h.pop he) (list_setList s k es)

/-- Callbacks that leave the list they are on alone. -/
theorem Ledger.callLoop (h : Ledger s) (he : s.list k = es)
    (hc : ∀ e ∈ es, ofKind k e.cb.registers = []) : Ledger (callLoop k es s) := by
  induction es generalizing s with
  | nil => exact h
  | cons e es ih =>
    have hl : (call k e s).list k = e :: es := by
      rw [call, registerAll_other (hc e List.mem_cons_self)]
      exact he
    have hcall : Ledger (call k e s) :=
      Ledger.registerAll (s := { s with calls := s.calls ++ [(k, e.cb)] }) h e.cb.registers
    exact ih (hcall.pop hl) (list_setList (call k e s) k es)
      fun e' he' => hc e' (List.mem_cons_of_mem e he')

theorem Ledger.finish (h : Ledger s) (hc : ∀ e ∈ s.list k, ofKind k e.cb.registers = []) :
    Ledger (finish k s) :=
  Ledger.freeLoop (h.callLoop rfl hc) rfl

/-! ### The order of the calls -/

variable {pending out : List Callback}

theorem Lifo.of_quiet (h : ∀ cb ∈ pending, ofKind k cb.registers = []) : Lifo k pending pending := by
  induction pending with
  | nil => exact .done
  | cons cb pending ih =>
    refine .call ?_
    rw [h cb List.mem_cons_self]
    exact ih fun cb' h' => h cb' (List.mem_cons_of_mem cb h')

theorem Lifo.length_le (h : Lifo k pending out) : pending.length ≤ out.length := by
  induction h with
  | done => exact Nat.le_refl 0
  | call _ ih =>
    rw [List.length_append] at ih
    simp only [List.length_cons]
    omega

/-- A registration adds a call. -/
theorem Lifo.length_lt (h : Lifo k pending out)
    (hr : ∃ cb ∈ pending, ofKind k cb.registers ≠ []) : pending.length < out.length := by
  induction h with
  | done =>
    obtain ⟨cb, hm, -⟩ := hr
    exact absurd hm List.not_mem_nil
  | @call cb pending out h ih =>
    simp only [List.length_cons, Nat.add_lt_add_iff_right]
    by_cases hcb : ofKind k cb.registers = []
    · obtain ⟨cb', hm, hne⟩ := hr
      obtain rfl | hm := List.mem_cons.mp hm
      · exact absurd hcb hne
      · simpa [hcb] using ih ⟨cb', by simp [hm], hne⟩
    · have hpos := List.length_pos_iff.mpr hcb
      have hle := h.length_le
      rw [List.length_append, List.length_reverse] at hle
      omega

/-! ### Whole histories -/

/-- Between attempts: both lists are empty. -/
structure Idle (s : Info) : Prop where
  commit : s.list .commit = []
  abort : s.list .abort = []

theorem Idle.list (h : Idle s) (k : Kind) : s.list k = [] := by
  cases k
  · exact h.commit
  · exact h.abort

namespace Attempt

variable {a : Attempt}

theorem idle_run (a : Attempt) (s : Info) : Idle (a.run s) := by
  rw [run_eq]
  exact ⟨list_finish _ _ _, list_finish _ _ _⟩

/-- What the body registered is called, and nothing else. -/
theorem calls_run (h : Idle s) (a : Attempt) :
    (a.run s).calls = s.calls ++ (ofKind a.outcome a.registers).reverse.map (a.outcome, ·) := by
  have hl := list_registerAll a.outcome a.registers s
  rw [h.list, List.map_nil, List.append_nil] at hl
  rw [run_eq, calls_finish, calls_registerAll, ← hl, List.map_map]
  rfl

theorem ledger_run (h : Idle s) (hl : Ledger s) (hc : a.Clean) : Ledger (a.run s) := by
  rw [run_eq]
  refine (hl.registerAll a.registers).finish fun e he => ?_
  have hm := List.mem_map_of_mem (f := Entry.cb) he
  rw [list_registerAll, h.list] at hm
  exact hc e.cb (by simpa using hm)

theorem settled (h : Idle s) (hl : Ledger s) (hc : a.Clean) : a.Settled s where
  calls := ⟨_, Lifo.of_quiet fun cb hcb => hc cb (List.mem_reverse.mp hcb), calls_run h a⟩
  commit := (idle_run a s).commit
  abort := (idle_run a s).abort
  freed := by
    refine List.perm_iff_count.mpr fun p => ?_
    have hp := ledger_run h hl hc p
    rw [(idle_run a s).commit, (idle_run a s).abort] at hp
    simpa using hp

/-- The registration of a callback that is running is lost. -/
theorem not_settled (h : Idle s) (hc : ¬ a.Clean) : ¬ a.Settled s := by
  intro hset
  obtain ⟨out, hlifo, hcalls⟩ := hset.calls
  rw [calls_run h a] at hcalls
  have hlen := congrArg List.length (List.append_cancel_left hcalls)
  simp only [List.length_map] at hlen
  simp only [Clean, not_forall] at hc
  obtain ⟨cb, hm, hne⟩ := hc
  have hlt := hlifo.length_lt ⟨cb, List.mem_reverse.mpr hm, hne⟩
  omega

end Attempt

theorem runAll_snoc (as : List Attempt) (a : Attempt) : runAll (as ++ [a]) = a.run (runAll as) := by
  simp [runAll]

theorem idle_runAll (as : List Attempt) : Idle (runAll as) := by
  induction as using List.reverseRecOn with
  | nil => exact ⟨rfl, rfl⟩
  | append_singleton as a ih =>
    rw [runAll_snoc]
    exact Attempt.idle_run a _

theorem ledger_runAll {as : List Attempt} (hc : ∀ a ∈ as, a.Clean) : Ledger (runAll as) := by
  induction as using List.reverseRecOn with
  | nil => exact fun p => by simp [runAll, modCbOnThreadInit, Info.list]
  | append_singleton as a ih =>
    rw [runAll_snoc]
    exact Attempt.ledger_run (idle_runAll as) (ih fun b hb => hc b (by simp [hb])) (hc a (by simp))

/-- Over every history of attempts the callbacks run as they should, exactly when none that
runs registers one of its own kind. -/
theorem callbacks_settled_iff (as : List Attempt) :
    (∀ pre a post, as = pre ++ a :: post → a.Settled (runAll pre)) ↔ ∀ a ∈ as, a.Clean := by
  constructor
  · intro h a ha
    obtain ⟨pre, post, rfl⟩ := List.append_of_mem ha
    by_contra hc
    exact Attempt.not_settled (idle_runAll pre) hc (h pre a post rfl)
  · rintro hc pre a post rfl
    exact Attempt.settled (idle_runAll pre) (ledger_runAll fun b hb => hc b (by simp [hb]))
      (hc a (by simp))

/-- A commit callback that registers another one. -/
def chained : Attempt := ⟨[(.commit, .mk 1 0 [(.commit, .mk 2 0 [])])], .commit⟩

/-- The second one is not called, and its entry is not freed. -/
theorem chained_lost : (chained.run modCbOnThreadInit).calls.length = 1 ∧
    (chained.run modCbOnThreadInit).freed = [0] ∧ (chained.run modCbOnThreadInit).fresh = 2 ∧
    ¬ ∀ pre a post, [chained] = pre ++ a :: post → a.Settled (runAll pre) := by
  refine ⟨rfl, rfl, rfl, fun h => ?_⟩
  have hfreed := (h [] chained [] rfl).freed.length_eq
  exact absurd hfreed (by decide)

end TinyStm.Callbacks
