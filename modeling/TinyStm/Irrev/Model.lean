import TinyStm.Machine

/-!
# Irrevocable transactions

The machine of `stm.c` in a build with IRREVOCABLE_ENABLED (CM_SUICIDE). A thread carries
`tx->irrevocable` and takes the steps of the machine; the `#ifdef`s of the option are the stages in
between (the checks of the global flag, `stm_set_irrevocable`, the release of the flag) and the branches
an irrevocable transaction takes in place of the ordinary ones. `stm_quiesce` of the serial mode is left
to `Act.quiesce`, which says what it returned.
-/

namespace TinyStm.Irrev

variable {w : ℕ}

/-- The three places of `!tx->irrevocable && irrevocable`: the end of `do_write`, the entry of the
commit-time acquisition, and after it. -/
inductive Check where
  | stored
  | early
  | late
  deriving DecidableEq, Repr

/-- The next access that belongs to the option; `none` when it is one of the machine. -/
inductive Stage (w : ℕ) where
  | none
  | check (c : Check)
  /-- past the last check, before `FETCH_INC_CLOCK` -/
  | inc
  /-- `irrevocable == 1 || ATOMIC_CAS_FULL(&irrevocable, 0, 1) == 0` -/
  | take
  | takeCas
  | validate (i : ℕ)
  /-- the same test in a loop, after a restart -/
  | spin
  | spinCas
  | quiesce (restart : Bool)
  /-- serial mode: load the word a partial mask leaves alone, then store -/
  | merge (a : ℕ) (v m : BitVec w)
  | put (a : ℕ) (v : BitVec w)
  /-- end of `stm_commit`: `ATOMIC_STORE(&irrevocable, 0)` -/
  | release
  deriving DecidableEq, Repr

/-- Ghost: a word that was loaded, with the version of its lock and what was committed there. -/
structure Seen (w : ℕ) where
  addr : ℕ
  ver : ℕ
  word : BitVec w
  deriving DecidableEq, Repr

/-- Ghost: a committed irrevocable transaction and the clock it found when it committed. -/
structure Done (w : ℕ) where
  tid : ℕ
  place : ℕ
  stores : List (Store w)
  seen : List (Seen w)
  deriving DecidableEq, Repr

/-- The shared state of the machine and the flag of `stm.c:59`. Ghost: `done`. -/
structure Glob (w : ℕ) where
  stm : Shared w
  irrevocable : Bool
  done : List (Done w)

/-- `tx->irrevocable` is `level`, plus 8 if `serial`. `inWrite`: the call of `stm_write` has reached
`do_write`. Ghost: `seen`. -/
structure Thread (w : ℕ) where
  tx : Tx w
  level : ℕ
  serial : Bool
  inWrite : Bool
  stage : Stage w
  seen : List (Seen w)
  deriving DecidableEq, Repr

inductive Act (w : ℕ) where
  | stm (act : TinyStm.Act w)
  | setIrrevocable (serial : Bool)
  /-- `stm_quiesce(tx, 1)` returns zero (`ok`) or not -/
  | quiesce (ok : Bool)
  deriving DecidableEq, Repr

abbrev StepRes (w : ℕ) := Option (Glob w × Thread w)

variable (b : Build)

/-! ### What an irrevocable transaction does differently -/

/-- The lock is owned by another transaction. -/
def foreign (tid : ℕ) (l : LockWord) : Bool :=
  match l.own with
  | some (.entry t _) => t != tid
  | _ => false

/-- `stm_read_invisible` from `restart_no_load` on: no rollback on a foreign lock (`stm.c:1728-1735`). -/
def readDispatch (tid : ℕ) (x : Tx w) (a : ℕ) (l : LockWord) : Tx w :=
  if foreign tid l then { x with pc := .readLock a } else TinyStm.readDispatch b tid x a l

/-- The second load of the lock; the version is not checked, nothing is logged and own bits are not
merged in (`stm.c:1824-1839`). -/
def readLock2Step (tid a : ℕ) (l : Ver) (v : BitVec w) (g : Shared w) (x : Tx w) : Tx w :=
  let l₂ := g.lock (b.getLock w a)
  if l₂ ≠ ⟨l, none⟩ then readDispatch b tid x a l₂
  else opEnd b { x with reads := x.reads ++ [⟨a, v, []⟩] }

/-- `stm_write` from `restart` on: no rollback on a foreign lock (`stm.c:2263-2270`), no comparison of
the version (`stm.c:2343-2347`). -/
def writeLockStep (tid a : ℕ) (v m : BitVec w) (g : Shared w) (x : Tx w) : Tx w :=
  let l := g.lock (b.getLock w a)
  if foreign tid l then x
  else match l.own with
    | none =>
      match b.design with
      | .writeBackCtl => storeReturns b { x with wset := ctlWrite x.wset a v m l.ver } a v m
      | _ => { x with pc := .writeCas a v m l.ver }
    | some _ => TinyStm.writeLockStep b tid a v m g x

/-- `t = FETCH_INC_CLOCK + 1` and `goto release_locks` (`stm.c:3258-3262`). -/
def commitIncStep (tid : ℕ) (g : Shared w) (x : Tx w) : Shared w × Tx w :=
  (g.fetchInc tid x.stores true, { x with pc := .pub (g.clock + 1) 0 })

/-- The next step of a call in progress. -/
def stepGo (tid : ℕ) (g : Shared w) (x : Tx w) : TinyStm.StepRes w :=
  match x.pc with
  | .readLock a => some (g, readDispatch b tid x a (g.lock (b.getLock w a)))
  | .readLock2 a l v => some (g, readLock2Step b tid a l v g x)
  | .writeLock a v m => some (g, writeLockStep b tid a v m g x)
  | .commitInc => some (commitIncStep tid g x)
  | pc => TinyStm.stepGo b tid g x pc

/-! ### Becoming irrevocable -/

/-- `tx->irrevocable++` at the end of `stm_set_irrevocable`. -/
def enter (x : Thread w) : Thread w := { x with level := 3, stage := .none }

/-- The flag is ours: the serial mode stops the other threads first (`stm.c:3998-4010`). -/
def granted (restart : Bool) (x : Thread w) : Thread w :=
  if x.serial then { x with stage := .quiesce restart } else enter x

/-- `stm_rollback` called from one of the stages. -/
def rollback (x : Thread w) (r : Reason) : Thread w :=
  { x with tx := TinyStm.rollback b x.tx r, stage := .none }

/-- `stm_set_irrevocable(-1)` in `stm_prepare` (`stm.c:1276-1282`). -/
def restart (x : Thread w) : Thread w :=
  match x.level with
  | 1 => { x with stage := .spin }
  | 2 => granted true x
  | _ => x

/-- `stm_set_irrevocable` (`stm.c:3958-3966`): what comes before the flag is read. -/
def setIrrevocable (serial : Bool) (x : Thread w) : Thread w :=
  if x.level = 0 then { x with level := 1, serial := serial, stage := .take } else restart x

/-! ### After a step of the machine -/

/-- Ghost: the words that a step of the call in progress has loaded. -/
def loaded (g : Shared w) (x y : Tx w) : List (Seen w) :=
  if x.pc = .run then []
  else (y.reads.drop x.reads.length).map fun r =>
    ⟨r.addr, (g.lock (b.getLock w r.addr)).ver.ts, g.at b g.clock r.addr⟩

/-- The thread after a step of the machine from `x` to the descriptor `y`: where one of the stages comes
next, it is set. -/
def settle (g : Shared w) (x : Thread w) (y : Tx w) : Thread w :=
  let inWrite := x.inWrite || decide (x.tx.wset.length < y.wset.length)
  let x' := { x with tx := y, inWrite := inWrite, seen := x.seen ++ loaded b g x.tx y }
  match y.pc with
  | .run =>
    if x.tx.pc = .prepare then restart { x' with inWrite := false, seen := [] }
    else if x.level = 0 && inWrite then { x' with inWrite := false, stage := .check .stored }
    else { x' with inWrite := false }
  | .commitInc => if x.level = 0 then { x' with stage := .check .late } else { x' with stage := .inc }
  | .idle =>
    match x.tx.pc with
    | .run => if x.level = 0 then x' else { x' with stage := .release }
    | .pub _ _ => if x.level = 0 then x' else { x' with stage := .release }
    | _ => x'
  | _ => x'

/-- One step of the machine. -/
def stepStm (tid : ℕ) (act : TinyStm.Act w) (g : Glob w) (x : Thread w) : StepRes w :=
  let r := if act = .go && x.level ≠ 0 then stepGo b tid g.stm x.tx else stepTx b tid act g.stm x.tx
  r.map fun p => ({ g with stm := p.1 }, settle b g.stm x p.2)

/-- Ghost: an irrevocable transaction commits. -/
def Glob.commit (g : Glob w) (tid : ℕ) (x : Thread w) : Glob w :=
  if x.level = 0 then g
  else { g with done := g.done ++ [⟨tid, g.stm.clock, x.tx.stores, x.seen⟩] }

/-! ### One step of a thread -/

/-- The calls made in user code. In serial mode memory is accessed directly (`stm.c:3411-3417`,
`stm.c:3461-3487`). -/
def call (tid : ℕ) (act : TinyStm.Act w) (g : Glob w) (x : Thread w) : StepRes w :=
  match act with
  | .load a =>
    if x.serial then
      some (g, { x with tx := { x.tx with reads := x.tx.reads ++ [⟨a, g.stm.mem a, []⟩] } })
    else stepStm b tid act g x
  | .store a v m =>
    if x.serial then
      if m = BitVec.allOnes w then some ({ g with stm := g.stm.setMem a v }, x)
      else some (g, { x with stage := .merge a v m })
    else stepStm b tid act g x
  | .commit =>
    if x.tx.wset = [] then stepStm b tid act (g.commit tid x) x
    else if b.design = .writeBackCtl && x.level = 0 then some (g, { x with stage := .check .early })
    else stepStm b tid act g x
  | act => stepStm b tid act g x

/-- A thread outside the stages: `stm_start` clears `tx->irrevocable` (`stm.c:3126-3128`). -/
def stepNone (tid : ℕ) (act : TinyStm.Act w) (g : Glob w) (x : Thread w) : StepRes w :=
  match x.tx.pc with
  | .run => call b tid act g x
  | .idle =>
    match act with
    | .start ro => stepStm b tid (.start ro) g { x with level := 0, serial := false }
    | act => stepStm b tid act g x
  | _ => stepStm b tid act g x

/-- The flag is not set, or the check is not made. -/
def passed (tid : ℕ) (c : Check) (g : Glob w) (x : Thread w) : StepRes w :=
  match c with
  | .stored => some (g, { x with stage := .none })
  | .early => stepStm b tid .commit g { x with stage := .none }
  | .late => some (g, { x with stage := .inc })

def stepStage (tid : ℕ) (g : Glob w) (x : Thread w) : StepRes w :=
  match x.stage with
  | .none => none
  | .check c => if g.irrevocable then some (g, rollback b x .irrevocable) else passed b tid c g x
  | .inc => stepStm b tid .go (g.commit tid x) { x with stage := .none }
  | .take =>
    if g.irrevocable then some (g, rollback b x .irrevocable) else some (g, { x with stage := .takeCas })
  | .takeCas =>
    if g.irrevocable then some (g, rollback b x .irrevocable)
    else some ({ g with irrevocable := true }, { x with level := 2, stage := .validate 0 })
  | .validate i =>
    match x.tx.rset[i]? with
    | some r =>
      if entryValid b tid g.stm x.tx r then some (g, { x with stage := .validate (i + 1) })
      else some (g, rollback b x .validate)
    | none =>
      if x.serial && x.tx.wset ≠ [] then some (g, rollback b x .irrevocable)
      else some (g, granted false x)
  | .spin => some (g, if g.irrevocable then x else { x with stage := .spinCas })
  | .spinCas =>
    if g.irrevocable then some (g, { x with stage := .spin })
    else some ({ g with irrevocable := true }, granted true { x with level := 2 })
  | .quiesce _ => none
  | .merge a v m => some (g, { x with stage := .put a (mergeBits (g.stm.mem a) v m) })
  | .put a v => some ({ g with stm := g.stm.setMem a v }, { x with stage := .none })
  | .release => some ({ g with irrevocable := false }, { x with stage := .none })

/-- `stm_quiesce` returns; it does not fail for a thread that is inactive, in `stm_prepare`. -/
def stepQuiesce (ok : Bool) (g : Glob w) (x : Thread w) : StepRes w :=
  match x.stage with
  | .quiesce restart =>
    if ok then some (g, enter x)
    else if restart then none
    else some (g, rollback b x .irrevocable)
  | _ => none

def step (tid : ℕ) (act : Act w) (g : Glob w) (x : Thread w) : StepRes w :=
  match act with
  | .stm act =>
    if x.stage = .none then stepNone b tid act g x
    else if act = .go then stepStage b tid g x
    else none
  | .setIrrevocable serial =>
    if x.stage = .none && x.tx.pc = .run then some (g, setIrrevocable serial x) else none
  | .quiesce ok => stepQuiesce b ok g x

/-- The machine: every step first advances the ghost step counter. -/
def system (w : ℕ) : Interleave.System ℕ (Glob w) (Thread w) (Act w) where
  step tid act g x := step b tid act { g with stm := g.stm.tick } x

abbrev State (w : ℕ) := Interleave.Config ℕ (Glob w) (Thread w)

/-- A fresh descriptor around `x`. -/
def Thread.fresh (x : Tx w) : Thread w := ⟨x, 0, false, false, .none, []⟩

/-- After `stm_init` and `stm_init_thread`. -/
structure Initial (s : State w) : Prop where
  stm : TinyStm.Initial ⟨s.shared.stm, fun i => (s.loc i).tx⟩
  irrevocable : s.shared.irrevocable = false
  done : s.shared.done = []
  loc : ∀ i, ∃ x, s.loc i = .fresh x

/-- The initial state over the memory `m`. -/
def State.fresh (m : ℕ → BitVec w) : State w :=
  ⟨⟨(TinyStm.State.fresh m).shared, false, []⟩, fun i => .fresh ((TinyStm.State.fresh m).loc i)⟩

theorem initial_fresh (m : ℕ → BitVec w) : Initial (State.fresh m) :=
  ⟨TinyStm.initial_fresh m, rfl, rfl, fun _ => ⟨_, rfl⟩⟩

end TinyStm.Irrev
