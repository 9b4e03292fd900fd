import TinyStm.Forget
import TinyStm.Opacity

/-!
# Unit transactions

What the header promises of `stm_unit_load` and `stm_unit_store2`
(`stm.h:975-1030`): each is one step on the contents and the timestamp of a
location, and a store changes the bits that its mask selects. The machine is
watched: each unit operation is put on record with its arguments when it is called
and with its result when it returns. The operations are atomic and conditional in
every run of a build with plain versions. `stm_unit_write` does not look at its
mask, so that a store keeps the promise exactly where the word it overwrites has
the bits of the value outside the mask.
-/

namespace TinyStm

open Timeline Interleave

variable {w : ℕ} {b : Build} {P : Mode} {tid i a n t : ℕ} {g g' : Shared w} {x x' : Tx w}

/-! ### What the operations are for -/

/-- A location: its contents and its timestamp. -/
structure Cell (w : ℕ) where
  val : BitVec w
  stamp : ℕ

/-- What `stm_unit_store2` is to do to a location (`stm.h:1005-1030`), with the
value returned and `*timestamp`; `t` is the timestamp a new version gets. -/
def Cell.unitStore2Spec (c : Cell w) (v m : BitVec w) (ts : Option ℕ) (t : ℕ) :
    Cell w × Bool × ℕ :=
  if ∀ s ∈ ts, c.stamp ≤ s then (⟨mergeBits c.val v m, t⟩, true, t) else (c, false, c.stamp)

/-- At time `n` the location `a` holds `c`: the timestamp is that of the last
update of its stripe. -/
structure Shared.Holds (b : Build) (g : Shared w) (n a : ℕ) (c : Cell w) : Prop where
  val : g.at b n a = c.val
  touched : c.stamp = 0 ∨ Touches (b.sem w) g.log c.stamp (b.getLock w a)
  last : Quiet (b.sem w) g.log (b.getLock w a) c.stamp n

/-! ### The watched machine -/

/-- A call of a unit operation. -/
inductive UnitOp (w : ℕ) where
  | store (a : ℕ) (v m : BitVec w) (ts : Option ℕ)
  | load (a : ℕ)
  deriving DecidableEq, Repr

/-- Ghost record of a unit operation in progress: the clock at the call, and the
word that `ATOMIC_STORE(addr, value)` is about to overwrite. -/
structure UnitCall (w : ℕ) where
  op : UnitOp w
  since : ℕ
  old : Option (BitVec w)
  deriving DecidableEq, Repr

/-- Ghost record of a unit operation that has returned: the clock then, and success,
value and `*timestamp`. -/
structure UnitDone (w : ℕ) extends UnitCall w where
  tid : ℕ
  upto : ℕ
  ret : Option (Bool × BitVec w × ℕ)
  deriving DecidableEq, Repr

def Pc.inUnit : Pc w → Bool
  | .unitLock _ _ _ => true
  | .unitCas _ _ _ _ => true
  | .unitStore _ _ => true
  | .unitInc _ _ => true
  | .unitRel _ _ _ => true
  | .unitLdLock _ => true
  | .unitLdVal _ _ => true
  | .unitLdLock2 _ _ _ => true
  | _ => false

structure Watched (w : ℕ) where
  base : Shared w
  done : List (UnitDone w)

structure Watcher (w : ℕ) where
  tx : Tx w
  call : Option (UnitCall w)

def UnitCall.start (clock : ℕ) : Act w → Option (UnitCall w)
  | .unitStore a v m ts => some ⟨.store a v m ts, clock, none⟩
  | .unitLoad a => some ⟨.load a, clock, none⟩
  | _ => none

/-- The step that overwrites the word. -/
def UnitCall.seen (c : UnitCall w) (act : Act w) (p : Pc w) (g : Shared w) : UnitCall w :=
  match act, p with
  | .go, .unitStore a _ => { c with old := some (g.mem a) }
  | _, _ => c

/-- What is on record after a step that led to `p`. -/
def watch (tid : ℕ) (act : Act w) (g : Watched w) (x : Watcher w) (p : Shared w × Tx w) :
    Watched w × Watcher w :=
  match x.call with
  | none => (⟨p.1, g.done⟩, ⟨p.2, UnitCall.start g.base.clock act⟩)
  | some c =>
    if p.2.pc.inUnit then (⟨p.1, g.done⟩, ⟨p.2, some (c.seen act x.tx.pc g.base)⟩)
    else (⟨p.1, g.done ++ [⟨c, tid, p.1.clock, p.2.unitRet⟩]⟩, ⟨p.2, none⟩)

/-- The machine with its unit operations on record. -/
def watched (b : Build) (w : ℕ) : System ℕ (Watched w) (Watcher w) (Act w) where
  step tid act g x := ((machine b w).step tid act g.base x.tx).map (watch tid act g x)

abbrev WState (w : ℕ) := Config ℕ (Watched w) (Watcher w)

/-- The state of the machine that is watched. -/
def WState.base (s : WState w) : State w := ⟨s.shared.base, fun i => (s.loc i).tx⟩

structure WState.Initial (s : WState w) : Prop where
  base : TinyStm.Initial s.base
  done : s.shared.done = []
  call : ∀ i, (s.loc i).call = none

theorem watch_base (tid : ℕ) (act : Act w) (g : Watched w) (x : Watcher w)
    (p : Shared w × Tx w) :
    (watch tid act g x p).1.base = p.1 ∧ (watch tid act g x p).2.tx = p.2 := by
  unfold watch
  split
  · exact ⟨rfl, rfl⟩
  · split <;> exact ⟨rfl, rfl⟩

/-- Watching changes nothing: the steps are those of the machine. -/
theorem watched_move {s s' : WState w} {act : Act w} (h : (watched b w).move s i act = some s') :
    (machine b w).move s.base i act = some s'.base := by
  obtain ⟨g, x, hs, rfl⟩ := move_eq_some h
  obtain ⟨p, hp, he⟩ := Option.map_eq_some_iff.mp hs
  obtain ⟨hg, hx⟩ := watch_base i act s.shared (s.loc i) p
  rw [he] at hg hx
  have hstep : (machine b w).step i act s.base.shared (s.base.loc i) = some p := hp
  rw [System.move, hstep, Option.map_some, Option.some_inj]
  refine congrArg₂ Config.mk hg.symm (funext fun j => ?_)
  by_cases hj : j = i
  · subst hj
    simpa [WState.base] using hx.symm
  · simp [WState.base, hj]

theorem watched_run {s₀ s : WState w}
    (h : Run (watched b w) (fun _ _ _ => True) s₀ s) :
    Run (machine b w) (fun _ _ _ => True) s₀.base s.base := by
  induction h with
  | refl => exact .refl
  | tail _ _ hm ih => exact .tail ih trivial (watched_move hm)

/-- Watching stops no step. -/
theorem run_watched {s₀ : WState w} {c : State w}
    (h : Run (machine b w) (fun _ _ _ => True) s₀.base c) :
    ∃ s : WState w, s.base = c ∧ Run (watched b w) (fun _ _ _ => True) s₀ s := by
  induction h with
  | refl => exact ⟨s₀, rfl, .refl⟩
  | @tail c d i act _ _ hm ih =>
    obtain ⟨s, rfl, hr⟩ := ih
    obtain ⟨g, x, hs, rfl⟩ := move_eq_some hm
    have hstep : (machine b w).step i act s.shared.base (s.loc i).tx = some (g, x) := hs
    have hw : (watched b w).move s i act =
        some ⟨(watch i act s.shared (s.loc i) (g, x)).1,
          Function.update s.loc i (watch i act s.shared (s.loc i) (g, x)).2⟩ := by
      show (((machine b w).step i act s.shared.base (s.loc i).tx).map _).map _ = _
      rw [hstep]
      rfl
    have hbase := watched_move hw
    rw [hm, Option.some_inj] at hbase
    exact ⟨_, hbase.symm, .tail hr trivial hw⟩

/-! ### The promise -/

/-- The operation `r` is one step on the location `a`, from `c` at time `n` to `c'`
at time `n'`, between its call and its return, and did nothing else. -/
structure Atomic (b : Build) (g : Shared w) (r : UnitDone w) (a n n' : ℕ) (c c' : Cell w) :
    Prop where
  within : r.since ≤ n ∧ n' ≤ r.upto
  before : g.Holds b n a c
  after : g.Holds b n' a c'
  frame : ∀ y, y ≠ a → g.at b n' y = g.at b n y
  only : ∀ k s, r.since < k → k ≤ r.upto → g.log k = some s → s.owner = r.tid → n < k ∧ k ≤ n'

/-- The operation did what the header says. A store at time `n` gets timestamp
`n + 1`. -/
def UnitDone.Ok (b : Build) (g : Shared w) (r : UnitDone w) : Prop :=
  match r.op with
  | .store a v m ts => ∃ n c,
      Atomic b g r a n (if (c.unitStore2Spec v m ts (n + 1)).2.1 then n + 1 else n) c
        (c.unitStore2Spec v m ts (n + 1)).1 ∧
      r.ret.map (fun p => (p.1, p.2.2)) = some (c.unitStore2Spec v m ts (n + 1)).2
  | .load a => ∃ n c, Atomic b g r a n n c c ∧ r.ret = some (true, c.val, c.stamp)

/-- The word that the store overwrites has the bits of the value outside the mask. -/
def UnitDone.MaskOk (r : UnitDone w) : Prop :=
  match r.op with
  | .store _ v m _ => ∀ y ∈ r.old, mergeBits y v m = v
  | .load _ => True

/-- A free lock shows the timestamp of the locations below it, and memory their
contents. -/
def Shared.Current (b : Build) (g : Shared w) : Prop :=
  ∀ a v, g.lock (b.getLock w a) = ⟨v, none⟩ → g.Holds b g.clock a ⟨g.mem a, v.ts⟩

theorem SInv.current (hm : b.mbRevalidation = false) (h : SInv b P g) : g.Current b := by
  intro a v hk
  have hst : b.stamp v.ts = v.ts := by simp [Build.stamp, hm]
  have hver : g.ver b (b.getLock w a) = v.ts := by rw [Shared.ver, hk, hst]
  have hq := h.quiet_free hk g.clock
  rw [hst] at hq
  refine ⟨?_, ?_, hq⟩
  · rw [h.mem_free hk, hst]
    exact memAt_eq_of_quiet hq (hver ▸ h.ver_le _)
  · exact hver ▸ h.wrote _

/-! ### What the code does -/

/-- No timestamp of the thread of `r` from its call to its return, but those in `p`. -/
def UnitDone.Only (g : Shared w) (r : UnitDone w) (p : ℕ → Prop) : Prop :=
  ∀ k s, r.since < k → k ≤ r.upto → g.log k = some s → s.owner = r.tid → p k

/-- The location held `c` at time `n`, and this is settled. -/
structure Settled (b : Build) (g : Shared w) (n a : ℕ) (c : Cell w) : Prop extends
    Shared.Holds b g n a c where
  le : n ≤ g.clock
  stamp_le : c.stamp ≤ n
  ver : c.stamp ≤ g.ver b (b.getLock w a)

/-- A store that was made: the whole word was written at time `t`. -/
structure UnitStored (b : Build) (g : Shared w) (r : UnitDone w) (a : ℕ) (v : BitVec w)
    (ts : Option ℕ) (t : ℕ) (c : Cell w) : Prop where
  ret : r.ret = some (true, v, t)
  old : r.old = some c.val
  within : r.since < t ∧ t ≤ r.upto
  log : g.log t = some ⟨r.tid, [⟨a, v, BitVec.allOnes w⟩], true⟩
  settled : Settled b g (t - 1) a c
  cond : ∀ s ∈ ts, c.stamp ≤ s
  only : r.Only g (· = t)

/-- A store that was refused. -/
structure UnitRefused (b : Build) (g : Shared w) (r : UnitDone w) (a : ℕ) (v : BitVec w)
    (ts : Option ℕ) (n : ℕ) (c : Cell w) : Prop where
  ret : r.ret = some (false, v, c.stamp)
  old : r.old = none
  within : r.since ≤ n ∧ n ≤ r.upto
  settled : Settled b g n a c
  cond : ∃ s ∈ ts, s < c.stamp
  only : r.Only g fun _ => False

/-- A load. -/
structure UnitLoaded (b : Build) (g : Shared w) (r : UnitDone w) (a n : ℕ) (c : Cell w) : Prop where
  ret : r.ret = some (true, c.val, c.stamp)
  within : r.since ≤ n ∧ n ≤ r.upto
  settled : Settled b g n a c
  only : r.Only g fun _ => False

def UnitDone.Did (b : Build) (g : Shared w) (r : UnitDone w) : Prop :=
  r.upto ≤ g.clock ∧ match r.op with
  | .store a v _ ts => (∃ t c, UnitStored b g r a v ts t c) ∨ ∃ n c, UnitRefused b g r a v ts n c
  | .load a => ∃ n c, UnitLoaded b g r a n c

/-! ### What is settled stays -/

theorem Settled.evol {c : Cell w} (hS : SInv b P g) (hE : Evol b g g')
    (h : Settled b g n a c) : Settled b g' n a c where
  val := by
    have hq := hE.quiet h.le h.last
    have hnew : g'.at b n a = g'.at b c.stamp a := memAt_eq_of_quiet hq h.stamp_le
    have hold : g.at b n a = g.at b c.stamp a := memAt_eq_of_quiet h.last h.stamp_le
    rw [hnew, hE.at_eq hS h.ver, ← hold, h.val]
  touched := h.touched.imp id
    (hE.log.touches_decided fun _ hs ht => hS.decided h.ver hs ht)
  last := hE.quiet h.le h.last
  le := h.le.trans hE.clock
  stamp_le := h.stamp_le
  ver := h.ver.trans (hE.ver_le _)

theorem UnitDone.Only.evol {r : UnitDone w} {p : ℕ → Prop} (hE : Evol b g g')
    (hu : r.upto ≤ g.clock) (h : r.Only g p) : r.Only g' p := by
  intro k s hk hk' hs ho
  obtain ⟨s₀, hs₀, ho₀, -⟩ := hE.log.old k s (hk'.trans hu) hs
  exact h k s₀ hk hk' hs₀ (ho₀.trans ho)

theorem UnitDone.Did.evol {r : UnitDone w} (hS : SInv b P g) (hE : Evol b g g')
    (h : r.Did b g) : r.Did b g' := by
  obtain ⟨hu, h⟩ := h
  refine ⟨hu.trans hE.clock, ?_⟩
  cases hop : r.op with
  | store a v m ts =>
    rw [hop] at h
    rcases h with ⟨t, c, h⟩ | ⟨n, c, h⟩
    · exact .inl ⟨t, c, h.ret, h.old, h.within, hE.log.keep _ _ h.log rfl, h.settled.evol hS hE,
        h.cond, h.only.evol hE hu⟩
    · exact .inr ⟨n, c, h.ret, h.old, h.within, h.settled.evol hS hE, h.cond, h.only.evol hE hu⟩
  | load a =>
    rw [hop] at h
    obtain ⟨n, c, h⟩ := h
    exact ⟨n, c, h.ret, h.within, h.settled.evol hS hE, h.only.evol hE hu⟩

/-! ### The promise against the code -/

theorem at_stored {v : BitVec w} {k : ℕ}
    (h : g.log (k + 1) = some ⟨tid, [⟨a, v, BitVec.allOnes w⟩], true⟩) (y : ℕ) :
    g.at b (k + 1) y = if a = y then v else g.at b k y := by
  rw [Shared.at, memAt_succ_decided y h rfl]
  show overlay [⟨a, v, BitVec.allOnes w⟩] y _ = _
  simp only [overlay, mergeBits_allOnes]
  rfl

/-- A store does what its header says exactly if the word written is the merged one. -/
theorem UnitStored.ok_iff {r : UnitDone w} {v m : BitVec w} {ts : Option ℕ} {c : Cell w}
    (hop : r.op = .store a v m ts) (h : UnitStored b g r a v ts t c) :
    r.Ok b g ↔ mergeBits c.val v m = v := by
  obtain ⟨k, rfl⟩ : ∃ k, t = k + 1 := ⟨t - 1, by have := h.within.1; omega⟩
  have hat := at_stored (b := b) h.log
  have hself : g.at b (k + 1) a = v := by rw [hat, if_pos rfl]
  have hsettled : g.Holds b k a c := h.settled.toHolds
  simp only [UnitDone.Ok, hop, h.ret, Option.map_some, Option.some_inj]
  constructor
  · rintro ⟨n, c', hatom, hret⟩
    have hcond : ∀ s ∈ ts, c'.stamp ≤ s := by
      by_contra hc
      rw [Cell.unitStore2Spec, if_neg hc] at hret
      cases hret
    simp only [Cell.unitStore2Spec, if_pos hcond, if_true] at hatom hret
    obtain rfl : k = n := by simpa using congrArg Prod.snd hret
    have hval : mergeBits c'.val v m = v := hatom.after.val.symm.trans hself
    rwa [← hatom.before.val, hsettled.val] at hval
  · intro hv
    refine ⟨k, c, ?_, ?_⟩
    · simp only [Cell.unitStore2Spec, if_pos h.cond, if_true, hv]
      refine ⟨⟨Nat.lt_succ_iff.mp h.within.1, h.within.2⟩, hsettled, ⟨hself, ?_, ?_⟩, ?_, ?_⟩
      · exact .inr ⟨_, h.log, ⟨a, v, BitVec.allOnes w⟩, List.mem_singleton_self _, rfl⟩
      · intro n hn hn'
        exact absurd hn (by simpa using hn')
      · intro y hy
        rw [hat, if_neg (Ne.symm hy)]
      · intro n s hn hn' hs ho
        obtain rfl : n = k + 1 := h.only n s hn hn' hs ho
        exact ⟨Nat.lt_succ_self k, le_rfl⟩
    · rw [Cell.unitStore2Spec, if_pos h.cond]

theorem UnitRefused.ok {r : UnitDone w} {v m : BitVec w} {ts : Option ℕ} {c : Cell w}
    (hop : r.op = .store a v m ts) (h : UnitRefused b g r a v ts n c) : r.Ok b g := by
  have hcond : ¬ ∀ s ∈ ts, c.stamp ≤ s := by
    obtain ⟨s, hs, hlt⟩ := h.cond
    exact fun hall => absurd (hall s hs) (by omega)
  simp only [UnitDone.Ok, hop, h.ret]
  refine ⟨n, c, ?_, ?_⟩
  · simp only [Cell.unitStore2Spec, if_neg hcond]
    exact ⟨h.within, h.settled.toHolds, h.settled.toHolds, fun _ _ => rfl,
      fun k s hk hk' hs ho => (h.only k s hk hk' hs ho).elim⟩
  · rw [Cell.unitStore2Spec, if_neg hcond]
    rfl

theorem UnitLoaded.ok {r : UnitDone w} {c : Cell w} (hop : r.op = .load a)
    (h : UnitLoaded b g r a n c) : r.Ok b g := by
  simp only [UnitDone.Ok, hop]
  exact ⟨n, c, ⟨h.within, h.settled.toHolds, h.settled.toHolds, fun _ _ => rfl,
    fun k s hk hk' hs ho => (h.only k s hk hk' hs ho).elim⟩, h.ret⟩

theorem UnitDone.Did.ok_iff {r : UnitDone w} (h : r.Did b g) : r.Ok b g ↔ r.MaskOk := by
  obtain ⟨-, h⟩ := h
  cases hop : r.op with
  | store a v m ts =>
    rw [hop] at h
    rcases h with ⟨t, c, h⟩ | ⟨n, c, h⟩
    · simp [h.ok_iff hop, UnitDone.MaskOk, hop, h.old]
    · simp [h.ok hop, UnitDone.MaskOk, hop, h.old]
  | load a =>
    rw [hop] at h
    obtain ⟨n, c, h⟩ := h
    simp [h.ok hop, UnitDone.MaskOk, hop]

/-! ### One step of an operation in progress -/

/-- What the record and the program counter say of the operation in progress. -/
def CallPc (b : Build) (g : Shared w) (c : UnitCall w) : Pc w → Prop
  | .unitLock a v ts => (∃ m, c.op = .store a v m ts) ∧ c.old = none
  | .unitCas a v ts l => (∃ m, c.op = .store a v m ts) ∧ c.old = none ∧ ∀ s ∈ ts, l.ts ≤ s
  | .unitStore a v => ∃ m ts, c.op = .store a v m ts ∧
      ∀ s ∈ ts, (g.lock (b.getLock w a)).ver.ts ≤ s
  | .unitInc a v => (∃ m ts, c.op = .store a v m ts ∧
      ∀ s ∈ ts, (g.lock (b.getLock w a)).ver.ts ≤ s) ∧
      c.old = some (g.at b (g.ver b (b.getLock w a)) a)
  | .unitRel a v t => (∃ m ts, c.op = .store a v m ts ∧
      ∀ s ∈ ts, (g.lock (b.getLock w a)).ver.ts ≤ s) ∧
      c.old = some (g.at b (g.ver b (b.getLock w a)) a) ∧ c.since < t ∧ t ≤ g.clock
  | .unitLdLock a => c.op = .load a
  | .unitLdVal a _ => c.op = .load a
  | .unitLdLock2 a _ _ => c.op = .load a
  | _ => False

/-- What is known of a unit operation in progress. -/
structure CallOk (b : Build) (tid : ℕ) (g : Shared w) (p : Pc w) (c : UnitCall w) : Prop where
  since : c.since ≤ g.clock
  only : ∀ k s, c.since < k → g.log k = some s → s.owner = tid → p.cur = some k
  pc : CallPc b g c p

/-- Others leave it alone. -/
theorem CallOk.stable {c : UnitCall w} (hS : SInv b P g) (hT : TInv b P tid g x)
    (hI : Interf b tid g g') (h : CallOk b tid g x.pc c) :
    CallOk b tid g' x.pc c := by
  have hlock : ∀ k, UnitHeld b k x.pc → g'.lock k = g.lock k := fun k hk =>
    hI.lock k (.inl (.inr ((hT.unit k).mpr hk)))
  have hat : ∀ a, UnitHeld b (b.getLock w a) x.pc →
      g'.at b (g'.ver b (b.getLock w a)) a = g.at b (g.ver b (b.getLock w a)) a := fun a hk =>
    hI.toFrame.at_held hS (.inr ((hT.unit _).mpr hk))
  refine ⟨h.since.trans hI.clock, fun k s hk hs ho => ?_, ?_⟩
  · exact h.only k s hk ((hI.own k s ho).mp hs) ho
  · have hpc := h.pc
    cases hp : x.pc with
    | unitStore a v =>
      rw [hp] at hpc hlock
      simp only [CallPc, hlock _ rfl]
      exact hpc
    | unitInc a v =>
      rw [hp] at hpc hlock hat
      simp only [CallPc, hlock _ rfl, hat a rfl]
      exact hpc
    | unitRel a v t =>
      rw [hp] at hpc hlock hat
      simp only [CallPc, hlock _ rfl, hat a rfl]
      exact ⟨hpc.1, hpc.2.1, hpc.2.2.1, hpc.2.2.2.trans hI.clock⟩
    | _ =>
      rw [hp] at hpc
      exact hpc

/-- What a step of its thread leaves of an operation in progress: it goes on, or it
has returned and did what the code does. -/
structure UnitStepOk (b : Build) (tid : ℕ) (c c' : UnitCall w) (r : Shared w × Tx w) : Prop where
  goesOn : r.2.pc.inUnit = true → CallOk b tid r.1 r.2.pc c'
  did : r.2.pc.inUnit = false → UnitDone.Did b r.1 ⟨c, tid, r.1.clock, r.2.unitRet⟩

theorem UnitStepOk.goes {c c' : UnitCall w} (hp : x'.pc.inUnit = true)
    (h : CallOk b tid g' x'.pc c') : UnitStepOk b tid c c' (g', x') :=
  ⟨fun _ => h, fun hn => by simp [hp] at hn⟩

theorem UnitStepOk.returns {c c' : UnitCall w} (hp : x'.pc.inUnit = false)
    (h : UnitDone.Did b g' ⟨c, tid, g'.clock, x'.unitRet⟩) : UnitStepOk b tid c c' (g', x') :=
  ⟨fun hn => by simp [hp] at hn, fun _ => h⟩

/-- A free lock settles its locations. -/
theorem SInv.settled (hm : b.mbRevalidation = false) (hS : SInv b P g) {v : Ver}
    (hk : g.lock (b.getLock w a) = ⟨v, none⟩) : Settled b g g.clock a ⟨g.mem a, v.ts⟩ := by
  have hver : g.ver b (b.getLock w a) = v.ts := by
    rw [Shared.ver, hk]
    simp [Build.stamp, hm]
  exact ⟨hS.current hm a v hk, le_rfl, hver ▸ hS.ver_le _, hver.ge⟩

section Step

variable {c : UnitCall w} (hm : b.mbRevalidation = false) (hS : SInv b P g)
  (h : CallOk b tid g x.pc c)

include h in
theorem CallOk.no_slot (hc : x.pc.cur = none) :
    ∀ k s, c.since < k → g.log k = some s → s.owner = tid → False := by
  intro k s hk hs ho
  have hcur := h.only k s hk hs ho
  rw [hc] at hcur
  cases hcur

include h in
/-- A step on that takes no timestamp. -/
theorem CallOk.go {c' : UnitCall w} (hc : x.pc.cur = none) (hs : c'.since = c.since)
    (hlog : g'.log = g.log) (hclock : g'.clock = g.clock) (hp : x'.pc.inUnit = true)
    (hpc : CallPc b g' c' x'.pc) : UnitStepOk b tid c c' (g', x') :=
  .goes hp ⟨by rw [hs, hclock]; exact h.since,
    fun k s hk hl ho => (h.no_slot hc k s (hs ▸ hk) (hlog ▸ hl) ho).elim, hpc⟩

include hm hS h

theorem CallOk.unitLockStep {v : BitVec w} {ts : Option ℕ} (hp : x.pc = .unitLock a v ts) :
    UnitStepOk b tid c c (g, unitLockStep b a v ts g x) := by
  have hcur : x.pc.cur = none := by rw [hp]; rfl
  have hpc : CallPc b g c (.unitLock a v ts) := hp ▸ h.pc
  obtain ⟨⟨m, hop⟩, hold⟩ := hpc
  unfold TinyStm.unitLockStep
  simp only
  by_cases hown : (g.lock (b.getLock w a)).own.isSome = true
  · rw [if_pos hown]
    exact .goes (by rw [hp]; rfl) h
  · rw [if_neg hown]
    have hfree : g.lock (b.getLock w a) = ⟨(g.lock (b.getLock w a)).ver, none⟩ := by
      cases hl : g.lock (b.getLock w a) with
      | mk ver own => cases own <;> simp_all
    cases ts with
    | none => exact h.go hcur rfl rfl rfl rfl ⟨⟨m, hop⟩, hold, by simp⟩
    | some s =>
      simp only
      by_cases hlt : s < (g.lock (b.getLock w a)).ver.ts
      · rw [if_pos hlt]
        refine .returns rfl ⟨le_rfl, ?_⟩
        simp only [hop]
        exact .inr ⟨g.clock, ⟨g.mem a, (g.lock (b.getLock w a)).ver.ts⟩, rfl, hold,
          ⟨h.since, le_rfl⟩, hS.settled hm hfree, ⟨s, rfl, hlt⟩,
          fun k s hk _ hs ho => h.no_slot hcur k s hk hs ho⟩
      · rw [if_neg hlt]
        refine h.go hcur rfl rfl rfl rfl ⟨⟨m, hop⟩, hold, ?_⟩
        simpa using hlt

omit hm hS in
theorem CallOk.unitCasStep {v : BitVec w} {ts : Option ℕ} {l : Ver}
    (hp : x.pc = .unitCas a v ts l) :
    UnitStepOk b tid c c (unitCasStep b tid a v ts l g x) := by
  have hcur : x.pc.cur = none := by rw [hp]; rfl
  have hpc : CallPc b g c (.unitCas a v ts l) := hp ▸ h.pc
  obtain ⟨⟨m, hop⟩, hold, hcond⟩ := hpc
  unfold TinyStm.unitCasStep
  split
  · refine h.go hcur rfl rfl rfl rfl ⟨m, ts, hop, ?_⟩
    simpa using hcond
  · exact h.go hcur rfl rfl rfl rfl ⟨⟨m, hop⟩, hold⟩

omit hm hS in
theorem CallOk.unitStoreStep (hT : TInv b P tid g x) {v : BitVec w}
    (hp : x.pc = .unitStore a v) :
    UnitStepOk b tid c { c with old := some (g.mem a) }
      (g.setMem a v, { x with pc := .unitInc a v }) := by
  have hcur : x.pc.cur = none := by rw [hp]; rfl
  have hpc : CallPc b g c (.unitStore a v) := hp ▸ h.pc
  have hmem : UnitMem b g a none := by
    have := hT.pc
    rw [hp] at this
    exact this
  refine h.go hcur rfl rfl rfl rfl ⟨hpc, ?_⟩
  exact congrArg some (hmem a rfl)

omit hm in
theorem CallOk.unitIncStep {v : BitVec w} (hp : x.pc = .unitInc a v) :
    UnitStepOk b tid c c (unitIncStep tid a v g x) := by
  have hcur : x.pc.cur = none := by rw [hp]; rfl
  have hpc : CallPc b g c (.unitInc a v) := hp ▸ h.pc
  obtain ⟨hop, hold⟩ := hpc
  have hE : Evol b g (g.fetchInc tid [⟨a, v, BitVec.allOnes w⟩] true) := evol_fetchInc hS _ _
  refine .goes rfl ⟨h.since.trans (Nat.le_succ _), fun k s hk hs ho => ?_, hop, ?_,
    Nat.lt_succ_of_le h.since, le_rfl⟩
  · by_cases hk' : k = g.clock + 1
    · rw [hk']
      rfl
    · have hs' : (g.fetchInc tid [⟨a, v, BitVec.allOnes w⟩] true).log k = some s := hs
      rw [log_fetchInc_of_ne hk'] at hs'
      exact (h.no_slot hcur k s hk hs' ho).elim
  · rw [hold]
    exact congrArg some (hE.at_eq hS (le_refl (g.ver b (b.getLock w a)))).symm

theorem CallOk.unitRelStep (hT : TInv b P tid g x) {v : BitVec w} (hp : x.pc = .unitRel a v t) :
    UnitStepOk b tid c c (unitRelStep b tid a v t g x) := by
  -- both ways out are outside the operation
  have hout : (if b.versionMax w ≤ t then .barrier else .idle : Pc w).inUnit = false := by
    split <;> rfl
  unfold TinyStm.unitRelStep
  generalize (if b.versionMax w ≤ t then .barrier else .idle : Pc w) = p at hout ⊢
  have hpc : CallPc b g c (.unitRel a v t) := hp ▸ h.pc
  obtain ⟨⟨m, ts, hop, hcond⟩, hold, hlt, hle⟩ := hpc
  have hown : PcOk b tid g x (.unitRel a v t) := hp ▸ hT.pc
  obtain ⟨-, hlog, hstamp, hver, -⟩ := hown
  have hcur : x.pc.cur = some t := by rw [hp]; rfl
  have hheld : (g.lock (b.getLock w a)).HeldBy tid := .inr ((hT.unit _).mpr (by rw [hp]; rfl))
  have hvts : g.ver b (b.getLock w a) = (g.lock (b.getLock w a)).ver.ts := by
    simp [Shared.ver, Build.stamp, hm]
  have hq : Quiet (b.sem w) g.log (b.getLock w a) (g.ver b (b.getLock w a)) (t - 1) :=
    hT.quiet_held hS hheld fun n hn => by
      rw [hcur, Option.some_inj] at hn
      omega
  have hback : g.at b (t - 1) a = g.at b (g.ver b (b.getLock w a)) a :=
    memAt_eq_of_quiet hq (by omega)
  refine .returns hout ⟨le_rfl, ?_⟩
  simp only [hop]
  refine .inl ⟨t, ⟨g.at b (t - 1) a, g.ver b (b.getLock w a)⟩, rfl, hback ▸ hold, ⟨hlt, hle⟩, hlog,
    ⟨⟨rfl, hS.wrote _, hq⟩, ?_, ?_, ?_⟩, ?_, ?_⟩
  · show t - 1 ≤ g.clock
    omega
  · show g.ver b (b.getLock w a) ≤ t - 1
    omega
  · have hnew : (g.setLock (b.getLock w a) ⟨⟨t, 0⟩, none⟩).ver b (b.getLock w a) = t := by
      rw [Shared.ver, setLock_self, hstamp]
    exact hver.le.trans hnew.ge
  · intro s hs
    show g.ver b (b.getLock w a) ≤ s
    exact hvts ▸ hcond s hs
  · intro k s hk _ hs ho
    have hk' := h.only k s hk hs ho
    rw [hcur, Option.some_inj] at hk'
    exact hk'.symm

omit hm hS in
theorem CallOk.unitLdDispatch (hcur : x.pc.cur = none) (hop : c.op = .load a) (l : LockWord) :
    UnitStepOk b tid c c (g, unitLdDispatch x a l) := by
  unfold TinyStm.unitLdDispatch
  split
  · exact h.go hcur rfl rfl rfl rfl hop
  · exact h.go hcur rfl rfl rfl rfl hop

theorem CallOk.unitLdLock2Step (hT : TInv b P tid g x) {l : Ver} {v : BitVec w}
    (hp : x.pc = .unitLdLock2 a l v) :
    UnitStepOk b tid c c (g, unitLdLock2Step b a l v g x) := by
  have hcur : x.pc.cur = none := by rw [hp]; rfl
  have hop : CallPc b g c (.unitLdLock2 a l v) := hp ▸ h.pc
  have hok : PcOk b tid g x (.unitLdLock2 a l v) := hp ▸ hT.pc
  unfold TinyStm.unitLdLock2Step
  simp only
  by_cases hk : g.lock (b.getLock w a) = ⟨l, none⟩
  · rw [if_neg (not_not.mpr hk)]
    have hval : v = g.mem a := by
      rcases hok.2 with hv | hpass
      · rw [hS.mem_free hk, hv]
      · exact absurd hpass (not_passed_free hk)
    refine .returns rfl ⟨le_rfl, ?_⟩
    simp only [show c.op = .load a from hop]
    exact ⟨g.clock, ⟨g.mem a, l.ts⟩, by rw [hval], ⟨h.since, le_rfl⟩, hS.settled hm hk,
      fun k s hk _ hs ho => h.no_slot hcur k s hk hs ho⟩
  · rw [if_pos hk]
    exact h.unitLdDispatch hcur hop _

theorem CallOk.stepGo (hT : TInv b P tid g x) {r : Shared w × Tx w}
    (hs : stepGo b tid g x x.pc = some r) : UnitStepOk b tid c (c.seen .go x.pc g) r := by
  have hpc := h.pc
  have hgo : ∀ {p : Pc w}, x.pc = p → (∀ a v, p ≠ .unitStore a v) → c.seen .go p g = c := by
    rintro p - hne
    cases p <;> first | rfl | exact absurd rfl (hne _ _)
  cases hp : x.pc with
  | unitLock a v ts =>
    rw [hp] at hs
    cases hs
    rw [hgo hp (by simp)]
    exact h.unitLockStep hm hS hp
  | unitCas a v ts l =>
    rw [hp] at hs
    cases hs
    rw [hgo hp (by simp)]
    exact h.unitCasStep hp
  | unitStore a v =>
    rw [hp] at hs
    cases hs
    exact h.unitStoreStep hT hp
  | unitInc a v =>
    rw [hp] at hs
    cases hs
    rw [hgo hp (by simp)]
    exact h.unitIncStep hS hp
  | unitRel a v t =>
    rw [hp] at hs
    cases hs
    rw [hgo hp (by simp)]
    exact h.unitRelStep hm hS hT hp
  | unitLdLock a =>
    rw [hp] at hs hpc
    cases hs
    rw [hgo hp (by simp)]
    exact h.unitLdDispatch (by rw [hp]; rfl) hpc _
  | unitLdVal a l =>
    rw [hp] at hs hpc
    cases hs
    rw [hgo hp (by simp)]
    exact h.go (by rw [hp]; rfl) rfl rfl rfl rfl hpc
  | unitLdLock2 a l v =>
    rw [hp] at hs
    cases hs
    rw [hgo hp (by simp)]
    exact h.unitLdLock2Step hm hS hT hp
  | _ =>
    rw [hp] at hpc
    exact hpc.elim

theorem CallOk.step (hT : TInv b P tid g x) {act : Act w} {r : Shared w × Tx w}
    (hs : stepTx b tid act g x = some r) : UnitStepOk b tid c (c.seen act x.pc g) r := by
  have hin : x.pc.inUnit = true := by
    have hpc := h.pc
    cases hp : x.pc <;> rw [hp] at hpc <;> first | rfl | exact hpc.elim
  cases act with
  | go => exact h.stepGo hm hS hT hs
  | standing =>
    simp only [stepTx] at hs
    split at hs
    · cases hs
      exact .goes hin h
    · cases hs
  | _ =>
    -- no call is made while one is in progress
    simp only [stepTx] at hs
    split at hs <;> simp_all [Pc.inUnit]

end Step

/-! ### Every run -/

/-- The locks, the clock and the log are the same: the facts about an operation are
about these. -/
structure Shared.Like (g g' : Shared w) : Prop where
  clock : g'.clock = g.clock
  lock : g'.lock = g.lock
  mem0 : g'.mem0 = g.mem0
  log : g'.log = g.log

theorem like_of_forget (hg : g'.forget = g.forget) : g.Like g' := by
  simp only [Shared.forget, Shared.mk.injEq] at hg
  exact ⟨hg.1, hg.2.1, hg.2.2.2.1, hg.2.2.2.2.1⟩

theorem like_tick_forget (g : Shared w) : g.Like g.tick.forget := ⟨rfl, rfl, rfl, rfl⟩

theorem forget_like (g : Shared w) : g.forget.Like g := ⟨rfl, rfl, rfl, rfl⟩

theorem Settled.congr {c : Cell w} (hg : g.Like g') (h : Settled b g n a c) :
    Settled b g' n a c := by
  obtain ⟨hclock, hlock, hmem, hlog⟩ := hg
  refine ⟨⟨?_, hlog ▸ h.touched, hlog ▸ h.last⟩, hclock ▸ h.le, h.stamp_le, ?_⟩
  · rw [Shared.at, hlog, hmem]
    exact h.val
  · rw [Shared.ver, hlock]
    exact h.ver

theorem UnitDone.Did.congr {r : UnitDone w} (hg : g.Like g') (h : r.Did b g) :
    r.Did b g' := by
  have hlog := hg.log
  have honly : ∀ {p : ℕ → Prop}, r.Only g p → r.Only g' p := fun h => by
    rw [UnitDone.Only, hlog]
    exact h
  obtain ⟨hu, h⟩ := h
  refine ⟨hu.trans hg.clock.ge, ?_⟩
  cases hop : r.op with
  | store a v m ts =>
    rw [hop] at h
    rcases h with ⟨t, c, h⟩ | ⟨n, c, h⟩
    · exact .inl ⟨t, c, h.ret, h.old, h.within, hlog ▸ h.log, h.settled.congr hg, h.cond,
        honly h.only⟩
    · exact .inr ⟨n, c, h.ret, h.old, h.within, h.settled.congr hg, h.cond, honly h.only⟩
  | load a =>
    rw [hop] at h
    obtain ⟨n, c, h⟩ := h
    exact ⟨n, c, h.ret, h.within, h.settled.congr hg, honly h.only⟩

theorem CallOk.congr {p : Pc w} {c : UnitCall w} (hg : g.Like g')
    (h : CallOk b tid g p c) : CallOk b tid g' p c := by
  obtain ⟨hclock, hlock, hmem, hlog⟩ := hg
  have hpc : CallPc b g' c p = CallPc b g c p := by
    cases p <;> simp only [CallPc, Shared.at, Shared.ver, hlog, hmem, hlock, hclock]
  exact ⟨hclock ▸ h.since, hlog ▸ h.only, hpc ▸ h.pc⟩

/-- The invariant of the watched machine. -/
structure WInv (b : Build) (s : WState w) : Prop where
  sound : Sound b s.base
  call : ∀ i c, (s.loc i).call = some c → CallOk b i s.shared.base (s.loc i).tx.pc c
  did : ∀ r ∈ s.shared.done, r.Did b s.shared.base

theorem WState.Initial.winv {s : WState w} (h : s.Initial) : WInv b s :=
  ⟨h.base.sound, fun i c hc => by simp [h.call] at hc, by simp [h.done]⟩

/-- A call starts an operation. -/
theorem CallOk.start (hS : SInv b P g) {act : Act w} {r : Shared w × Tx w} {c : UnitCall w}
    (hs : stepTx b tid act g x = some r) (hc : UnitCall.start g.clock act = some c) :
    CallOk b tid r.1 r.2.pc c := by
  have hnone : ∀ k s, g.clock < k → g.log k = some s → False := fun k s hk hl => by
    have := (hS.slot hl).2
    omega
  cases act with
  | unitStore a v m ts =>
    cases hc
    simp only [stepTx] at hs
    split at hs
    · cases hs
      exact ⟨le_rfl, fun k s hk hl _ => (hnone k s hk hl).elim, ⟨m, rfl⟩, rfl⟩
    · cases hs
    · cases hs
  | unitLoad a =>
    cases hc
    simp only [stepTx] at hs
    split at hs
    · cases hs
      exact ⟨le_rfl, fun k s hk hl _ => (hnone k s hk hl).elim, rfl⟩
    · cases hs
    · cases hs
  | _ => cases hc

/-- What a step of its own thread leaves on record. -/
theorem WInv.own {s : WState w} (hm : b.mbRevalidation = false) (h : WInv b s) {act : Act w}
    {p : Shared w × Tx w} (hs : stepTx b i act s.shared.base.tick (s.loc i).tx = some p) :
    (∀ c, (s.loc i).call = some c →
      UnitStepOk b i c (c.seen act (s.loc i).tx.pc s.shared.base) p) ∧
    ∀ c, UnitCall.start s.shared.base.clock act = some c → CallOk b i p.1 p.2.pc c := by
  have hS : SInv b ⟨False, False⟩ s.shared.base.tick.forget := h.sound.shared.tick
  have hT : TInv b ⟨False, False⟩ i s.shared.base.tick.forget (s.loc i).tx.forget :=
    (h.sound.loc i).tick h.sound.shared
  have hforget : (stepTx b i act s.shared.base.tick.forget (s.loc i).tx.forget).map forgetStep =
      (stepTx b i act s.shared.base.tick (s.loc i).tx).map forgetStep := forget_stepTx act
  rw [hs, Option.map_some] at hforget
  obtain ⟨r, hr, he⟩ := Option.map_eq_some_iff.mp hforget
  have hg : r.1.Like p.1 := like_of_forget (congrArg Prod.fst he).symm
  have hpc : r.2.pc = p.2.pc := by
    have hx := congrArg (fun q : Shared w × Tx w => q.2.pc) he
    exact hx
  have hret : r.2.unitRet = p.2.unitRet := by
    have hx := congrArg (fun q : Shared w × Tx w => q.2.unitRet) he
    exact hx
  refine ⟨fun c hc => ?_, fun c hc => ?_⟩
  · have hcall : CallOk b i s.shared.base.tick.forget (s.loc i).tx.forget.pc c :=
      (h.call i c hc).congr (like_tick_forget _)
    have hstep := hcall.step hm hS hT hr
    refine ⟨fun hp => ?_, fun hp => ?_⟩
    · exact hpc ▸ (hstep.goesOn (hpc ▸ hp)).congr hg
    · have hdid := (hstep.did (hpc ▸ hp)).congr hg
      rw [hret, ← hg.clock] at hdid
      exact hdid
  · exact hpc ▸ (CallOk.start hS hr hc).congr hg

theorem WInv.move {s s' : WState w} (hm : b.mbRevalidation = false) (h : WInv b s)
    {act : Act w} (hmove : (watched b w).move s i act = some s') : WInv b s' := by
  obtain ⟨G, X, hs, rfl⟩ := move_eq_some hmove
  obtain ⟨p, hp, hw⟩ := Option.map_eq_some_iff.mp hs
  obtain ⟨hG, hX⟩ := watch_base i act s.shared (s.loc i) p
  rw [hw] at hG hX
  have hp' : (machine b w).step i act s.base.shared (s.base.loc i) = some p := hp
  obtain ⟨hS', hT', hI⟩ := h.sound.stepOk hm hp'
  obtain ⟨hown, hstart⟩ := h.own hm hp
  have hS := h.sound.shared.tick
  have hkeep : ∀ r ∈ s.shared.done, r.Did b p.1 := fun r hr =>
    (((h.did r hr).congr (like_tick_forget _)).evol hS (hI (i + 1) (by omega)).toEvol).congr
      (forget_like p.1)
  have hother : ∀ j, j ≠ i → ∀ c, (s.loc j).call = some c →
      CallOk b j p.1 (s.loc j).tx.pc c := fun j hj c hc =>
    (CallOk.stable (x := (s.loc j).tx.forget) hS ((h.sound.loc j).tick h.sound.shared) (hI j hj)
      ((h.call j c hc).congr (like_tick_forget _))).congr (forget_like p.1)
  have hloc : ∀ y : Watcher w, (∀ c, y.call = some c → CallOk b i p.1 y.tx.pc c) →
      ∀ j c, (Function.update s.loc i y j).call = some c →
        CallOk b j p.1 (Function.update s.loc i y j).tx.pc c := by
    intro y hy j c hc
    by_cases hj : j = i
    · subst hj
      rw [Function.update_self] at hc ⊢
      exact hy c hc
    · rw [Function.update_of_ne hj] at hc ⊢
      exact hother j hj c hc
  have hsound := h.sound.move hm (watched_move hmove)
  unfold watch at hw
  cases hcall : (s.loc i).call with
  | none =>
    rw [hcall] at hw
    obtain ⟨rfl, rfl⟩ := Prod.mk.injEq .. ▸ hw
    exact ⟨hsound, hloc _ hstart, hkeep⟩
  | some c =>
    rw [hcall] at hw
    have hstep := hown c hcall
    simp only at hw
    by_cases hin : p.2.pc.inUnit = true
    · rw [if_pos hin] at hw
      obtain ⟨rfl, rfl⟩ := Prod.mk.injEq .. ▸ hw
      refine ⟨hsound, hloc _ fun c' hc' => ?_, hkeep⟩
      obtain rfl := Option.some.inj hc'
      exact hstep.goesOn hin
    · rw [if_neg hin] at hw
      obtain ⟨rfl, rfl⟩ := Prod.mk.injEq .. ▸ hw
      refine ⟨hsound, hloc _ fun c' hc' => (by cases hc'), fun r hr => ?_⟩
      rcases List.mem_append.mp hr with hr | hr
      · exact hkeep r hr
      · rw [List.mem_singleton.mp hr]
        exact hstep.did (by simpa using hin)

theorem watched_inv {s₀ s : WState w} (hm : b.mbRevalidation = false) (hi : s₀.Initial)
    (hr : Run (watched b w) (fun _ _ _ => True) s₀ s) : WInv b s :=
  hr.invariant (fun _ _ _ _ h _ hmove => h.move hm hmove) hi.winv

theorem current_of_forget (h : g.forget.Current b) : g.Current b := fun a v hk =>
  ⟨(h a v hk).val, (h a v hk).touched, (h a v hk).last⟩

/-- Unit operations are atomic and conditional; a store does what its header says
exactly if the bits of its value outside the mask are those of the word it
overwrites. -/
theorem unit_ops_iff (b : Build) (hm : b.mbRevalidation = false) (s₀ s : WState w)
    (hi : s₀.Initial) (hr : Run (watched b w) (fun _ _ _ => True) s₀ s) :
    s.shared.base.Current b ∧
      ((∀ r ∈ s.shared.done, r.Ok b s.shared.base) ↔ ∀ r ∈ s.shared.done, r.MaskOk) := by
  have hinv := watched_inv hm hi hr
  refine ⟨current_of_forget (hinv.sound.shared.current hm), ?_⟩
  exact forall₂_congr fun r hd => (hinv.did r hd).ok_iff

/-! ### Two runs -/

def WState.fresh (m : ℕ → BitVec w) : WState w :=
  ⟨⟨(State.fresh m).shared, []⟩, fun i => ⟨(State.fresh m).loc i, none⟩⟩

theorem WState.initial_fresh (m : ℕ → BitVec w) : (WState.fresh m).Initial :=
  ⟨TinyStm.initial_fresh m, rfl, fun _ => rfl⟩

/-- Thread 0 commits a word; thread 1 loads it, stores a new one under the timestamp
it got, and is refused when it tries again with the old timestamp. -/
def conditionalRun : List (ℕ × Act 64) :=
  List.flatten [
    turn 0 [.start false, .go, .store 0 5 (BitVec.allOnes 64), .go, .commit, .go, .go, .go, .go, .go,
      .go],
    turn 1 [.unitLoad 0, .go, .go, .go, .unitStore 0 7 (BitVec.allOnes 64) (some 1), .go, .go, .go,
      .go, .go, .unitStore 0 9 (BitVec.allOnes 64) (some 1), .go]]

theorem unit_ops_conditional :
    ∃ s : WState 64, s.shared.done.map (·.ret) =
        [some (true, 5, 1), some (true, 7, 2), some (false, 9, 2)] ∧
      ∀ r ∈ s.shared.done, r.Ok ctlBuild s.shared.base := by
  obtain ⟨s, hr, hdone⟩ := exists_run_of_exec (watched ctlBuild 64) (fun _ _ _ => True)
    (WState.fresh fun _ => 0) conditionalRun
    (fun s => s.shared.done =
      [⟨⟨.load 0, 1, none⟩, 1, 1, some (true, 5, 1)⟩,
        ⟨⟨.store 0 7 (BitVec.allOnes 64) (some 1), 1, some 5⟩, 1, 2, some (true, 7, 2)⟩,
        ⟨⟨.store 0 9 (BitVec.allOnes 64) (some 1), 2, none⟩, 1, 2, some (false, 9, 2)⟩])
    (by decide +kernel)
  refine ⟨s, by rw [hdone]; rfl,
    (unit_ops_iff ctlBuild rfl _ s (WState.initial_fresh _) hr).2.mpr ?_⟩
  rw [hdone]
  have hfull : ∀ y ∈ some (5 : BitVec 64), mergeBits y 7 (BitVec.allOnes 64) = 7 := fun y _ =>
    mergeBits_allOnes y 7
  refine List.forall_mem_cons.mpr ⟨trivial, List.forall_mem_cons.mpr ⟨hfull, ?_⟩⟩
  exact List.forall_mem_singleton.mpr fun y hy => by cases hy

/-- Thread 1 stores one byte while thread 0 commits the whole word. -/
def byteRun : List (ℕ × Act 64) :=
  List.flatten [
    turn 1 [.unitStore 0 0xAB 0xFF none],
    turn 0 [.start false, .go, .store 0 0x1234 (BitVec.allOnes 64), .go, .commit, .go, .go, .go, .go,
      .go, .go],
    turn 1 [.go, .go, .go, .go, .go]]

theorem unit_store_overwrites :
    ∃ s : WState 64, Run (watched ctlBuild 64) (fun _ _ _ => True) (WState.fresh fun _ => 0) s ∧
      s.shared.base.mem 0 = 0xAB ∧ ¬ ∀ r ∈ s.shared.done, r.Ok ctlBuild s.shared.base := by
  obtain ⟨s, hr, hmem, hdone⟩ := exists_run_of_exec (watched ctlBuild 64) (fun _ _ _ => True)
    (WState.fresh fun _ => 0) byteRun
    (fun s => s.shared.base.mem 0 = 0xAB ∧ s.shared.done =
      [⟨⟨.store 0 0xAB 0xFF none, 0, some 0x1234⟩, 1, 2, some (true, 0xAB, 2)⟩])
    (by decide +kernel)
  refine ⟨s, hr, hmem, fun hok => ?_⟩
  have hinv := watched_inv rfl (WState.initial_fresh _) hr
  have hmask := fun r hd => (hinv.did r hd).ok_iff.mp (hok r hd)
  rw [hdone] at hmask
  have hbits := hmask _ (List.mem_singleton_self _) 0x1234 rfl
  exact absurd hbits (by decide)

end TinyStm
