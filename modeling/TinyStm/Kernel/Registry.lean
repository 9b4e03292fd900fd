import Mathlib.Data.List.FinRange
import Mathlib.Data.List.Induction
import Mathlib.Logic.Function.Basic

/-!
# The thread registry of the timestretch module

Four requests of `time_stretch_ioctl` keep three parallel arrays: the registered
pid of each slot, the control buffer and the callback the timer handler uses for
it. `open` and `release` of the device enable registration and clear the arrays.
The programming of the APIC timer and the statistics of the scheduler hook do not
reach the arrays and are left out.
-/

namespace TinyStm.Kernel

/-- `TS_THREADS` (`timestretch.h:43`). -/
def tsMax : ℕ := 32

/-- A user-space address, `void *`. -/
abbrev Addr := BitVec 64

/-- `current->pid`; never negative, so never the mark `-1` of a free slot. -/
abbrev Pid := ℕ

/-- The variables of the module the requests work on. `tsMutex` is taken while the
device is open. -/
structure Registry where
  tsThreads : Fin tsMax → ℤ
  buffer : Fin tsMax → Addr
  callback : Fin tsMax → Addr
  overtickCount : Fin tsMax → ℕ
  dataSectionAddress : Addr
  enabledRegistering : Bool
  tsMutex : Bool

/-- The state after the module is loaded. -/
def Registry.initial : Registry where
  tsThreads := fun _ => -1
  buffer := fun _ => 0
  callback := fun _ => 0
  overtickCount := fun _ => 0
  dataSectionAddress := 0
  enabledRegistering := false
  tsMutex := false

inductive Cmd where
  | registerThread
  | deregisterThread
  | setupBuffer
  | setupCallback
  | other
  deriving DecidableEq, Repr

/-- Requests to the device, in the order the kernel serves them. `openRd` is an
`open` in read mode, the only one that is let through. -/
inductive Request where
  | openRd
  | release
  | ioctl (p : Pid) (cmd : Cmd) (arg : Addr)
  deriving DecidableEq, Repr

/-- An access to an array at an index outside of it. -/
structure OutOfBounds where
  index : ℕ
  deriving DecidableEq, Repr

def einval : ℤ := -22

def Registry.slotOf (s : Registry) (v : ℤ) : Option (Fin tsMax) :=
  (List.finRange tsMax).find? fun i => decide (s.tsThreads i = v)

/-- `(unsigned int)arg`. -/
def toUnsigned (arg : Addr) : ℕ := (arg.setWidth 32).toNat

/-- `time_stretch_ioctl`: the new state and the value returned. -/
def timeStretchIoctl (s : Registry) (p : Pid) (cmd : Cmd) (arg : Addr) :
    Except OutOfBounds (Registry × ℤ) :=
  match cmd with
  | .setupBuffer =>
    match s.slotOf p with
    | some i =>
      if arg ≠ 0 then .ok ({ s with buffer := Function.update s.buffer i arg }, 0)
      else .ok (s, 0)
    | none => .ok (s, -1)
  | .setupCallback =>
    -- this loop does not stop at the first slot of the thread
    .ok ({ s with callback := fun i => if s.tsThreads i = p then arg else s.callback i },
      if (s.slotOf p).isSome then 0 else -1)
  | .registerThread =>
    if s.enabledRegistering then
      match s.slotOf (-1) with
      | some i =>
        .ok ({ s with
          dataSectionAddress := arg
          tsThreads := Function.update s.tsThreads i p
          overtickCount := Function.update s.overtickCount i 0 }, i.val)
      | none => .ok ({ s with dataSectionAddress := arg }, -1)
    else .ok ({ s with dataSectionAddress := arg }, -1)
  | .deregisterThread =>
    if h : toUnsigned arg < tsMax then
      let i : Fin tsMax := ⟨toUnsigned arg, h⟩
      if s.tsThreads i = p then
        .ok ({ s with
          tsThreads := Function.update s.tsThreads i (-1)
          callback := Function.update s.callback i 0 }, 0)
      else .ok (s, einval)
    else .error ⟨toUnsigned arg⟩
  | .other => .ok (s, einval)

def timeStretchOpen (s : Registry) : Registry :=
  if s.tsMutex then s else { s with tsMutex := true, enabledRegistering := true }

/-- `time_stretch_release`; the kernel calls it at the last close of the open device. -/
def timeStretchRelease (s : Registry) : Registry :=
  if s.tsMutex then
    { s with
      tsThreads := fun _ => -1
      callback := fun _ => 0
      buffer := fun _ => 0
      enabledRegistering := false
      tsMutex := false }
  else s

def Registry.serve (s : Registry) : Request → Except OutOfBounds Registry
  | .openRd => .ok (timeStretchOpen s)
  | .release => .ok (timeStretchRelease s)
  | .ioctl p cmd arg => (timeStretchIoctl s p cmd arg).map Prod.fst

def Registry.serveAll (s : Registry) (rs : List Request) : Except OutOfBounds Registry :=
  rs.foldlM Registry.serve s

/-- The slot whose buffer and callback `my_smp_apic_timer_interrupt` uses for the
thread it interrupted: the first one of the thread, if both are set. -/
def Registry.timerSlot (s : Registry) (p : Pid) : Option (Fin tsMax) :=
  (s.slotOf p).filter fun i => decide (s.buffer i ≠ 0) && decide (s.callback i ≠ 0)

/-! ### What the registry should guarantee -/

/-- Request `n` of `rs` is `r`, and `Q` has held in every state since. -/
def KeptSince (rs : List Request) (n : ℕ) (r : Request) (Q : Registry → Prop) : Prop :=
  rs[n]? = some r ∧
    ∀ m s, n < m → m ≤ rs.length → Registry.initial.serveAll (rs.take m) = .ok s → Q s

/-- Thread `p` registered in slot `i`, kept it since, and set its present buffer
and callback since then. -/
def SetByOwner (rs : List Request) (p : Pid) (i : Fin tsMax) (b c : Addr) : Prop :=
  ∃ n a, KeptSince rs n (.ioctl p .registerThread a) (fun s => s.tsThreads i = p) ∧
    (∃ k, n < k ∧ KeptSince rs k (.ioctl p .setupBuffer b) fun s => s.buffer i = b) ∧
    ∃ k, n < k ∧ KeptSince rs k (.ioctl p .setupCallback c) fun s => s.callback i = c

def Registry.OneSlot (s : Registry) : Prop :=
  ∀ (p : Pid) i j, s.tsThreads i = p → s.tsThreads j = p → i = j

/-- The registry after the requests `rs`: no array was accessed outside its bounds,
no pid is in two slots, and the handler uses only what the owner of a slot set. -/
def RegistrySafe (rs : List Request) : Prop :=
  ∃ s, Registry.initial.serveAll rs = .ok s ∧ s.OneSlot ∧
    ∀ p i, s.timerSlot p = some i → SetByOwner rs p i (s.buffer i) (s.callback i)

/-- A descriptor inside the array for DEREGISTER; for a REGISTER that is granted a
slot, a thread that has none, and a slot without a buffer of an earlier owner. -/
def Registry.Proper (s : Registry) : Request → Prop
  | .ioctl p .registerThread _ =>
    s.enabledRegistering → ∀ i, s.slotOf (-1) = some i →
      (∀ j, s.tsThreads j ≠ p) ∧ s.buffer i = 0
  | .ioctl _ .deregisterThread arg => toUnsigned arg < tsMax
  | _ => True

def AllProper (rs : List Request) : Prop :=
  ∀ n r s, rs[n]? = some r → Registry.initial.serveAll (rs.take n) = .ok s → s.Proper r

/-! ### One request -/

theorem slotOf_some {s : Registry} {v : ℤ} {i : Fin tsMax} (h : s.slotOf v = some i) :
    s.tsThreads i = v := by
  have hi := List.find?_some h
  simpa using hi

theorem slotOf_isSome {s : Registry} {v : ℤ} {i : Fin tsMax} (h : s.tsThreads i = v) :
    (s.slotOf v).isSome := by
  simp only [Registry.slotOf, List.find?_isSome]
  exact ⟨i, List.mem_finRange i, by simpa using h⟩

theorem serveAll_snoc (s : Registry) (rs : List Request) (r : Request) :
    s.serveAll (rs ++ [r]) = (s.serveAll rs).bind fun s' => s'.serve r := by
  simp [Registry.serveAll, List.foldlM_append]
  rfl

/-- What is known of a slot after `rs`: a free slot has no callback; a taken one has
a registration that lasts, after which its buffer and callback were set, if at all. -/
structure SlotOk (rs : List Request) (s : Registry) (i : Fin tsMax) : Prop where
  free : s.tsThreads i = -1 → s.callback i = 0
  owned : ∀ p : Pid, s.tsThreads i = p → ∃ n a,
    KeptSince rs n (.ioctl p .registerThread a) (fun s => s.tsThreads i = p) ∧
    (s.buffer i ≠ 0 → ∃ k, n < k ∧
      KeptSince rs k (.ioctl p .setupBuffer (s.buffer i)) fun t => t.buffer i = s.buffer i) ∧
    (s.callback i ≠ 0 → ∃ k, n < k ∧
      KeptSince rs k (.ioctl p .setupCallback (s.callback i))
        fun t => t.callback i = s.callback i)

theorem KeptSince.lt {rs : List Request} {n : ℕ} {r : Request} {Q : Registry → Prop}
    (h : KeptSince rs n r Q) : n < rs.length :=
  (List.getElem?_eq_some_iff.mp h.1).1

section Snoc

variable {rs : List Request} {r : Request} {s : Registry} {Q : Registry → Prop}

theorem KeptSince.snoc {n : ℕ} {r' : Request} (h : KeptSince rs n r' Q)
    (hs : Registry.initial.serveAll (rs ++ [r]) = .ok s) (hq : Q s) :
    KeptSince (rs ++ [r]) n r' Q := by
  refine ⟨?_, fun m s' hn hm hr => ?_⟩
  · rw [List.getElem?_append_left h.lt]
    exact h.1
  · rcases Nat.lt_or_ge rs.length m with hlt | hle
    · have hm' : m = (rs ++ [r]).length := by simp at hm ⊢; omega
      rw [hm', List.take_length, hs] at hr
      cases hr
      exact hq
    · rw [List.take_append_of_le_length hle] at hr
      exact h.2 m s' hn hle hr

theorem KeptSince.last (hs : Registry.initial.serveAll (rs ++ [r]) = .ok s) (hq : Q s) :
    KeptSince (rs ++ [r]) rs.length r Q := by
  refine ⟨by simp, fun m s' hn hm hr => ?_⟩
  have hm' : m = (rs ++ [r]).length := by simp at hm ⊢; omega
  rw [hm', List.take_length, hs] at hr
  cases hr
  exact hq

/-- A request that changes nothing in slot `i`. -/
theorem SlotOk.snoc {s' : Registry} {i : Fin tsMax} (h : SlotOk rs s i)
    (hs : Registry.initial.serveAll (rs ++ [r]) = .ok s')
    (ht : s'.tsThreads i = s.tsThreads i) (hb : s'.buffer i = s.buffer i)
    (hc : s'.callback i = s.callback i) : SlotOk (rs ++ [r]) s' i := by
  refine ⟨by rw [ht, hc]; exact h.free, fun p hp => ?_⟩
  obtain ⟨n, a, hreg, hbuf, hcall⟩ := h.owned p (ht ▸ hp)
  refine ⟨n, a, hreg.snoc hs hp, ?_, ?_⟩
  · rw [hb]
    intro hne
    obtain ⟨k, hk, hset⟩ := hbuf hne
    exact ⟨k, hk, hset.snoc hs hb⟩
  · rw [hc]
    intro hne
    obtain ⟨k, hk, hset⟩ := hcall hne
    exact ⟨k, hk, hset.snoc hs hc⟩

end Snoc

/-! ### Runs of proper requests -/

/-- The invariant of the registry. -/
structure Inv (rs : List Request) (s : Registry) : Prop where
  reached : Registry.initial.serveAll rs = .ok s
  oneSlot : s.OneSlot
  slots : ∀ i, SlotOk rs s i

namespace Inv

variable {rs : List Request} {s s' : Registry}

theorem reached_snoc {r : Request} (h : Inv rs s) (hs : s.serve r = .ok s') :
    Registry.initial.serveAll (rs ++ [r]) = .ok s' := by
  rw [serveAll_snoc, h.reached]
  exact hs

theorem same {r : Request} (h : Inv rs s) (hs : s.serve r = .ok s')
    (ht : s'.tsThreads = s.tsThreads) (hb : s'.buffer = s.buffer)
    (hc : s'.callback = s.callback) : Inv (rs ++ [r]) s' where
  reached := h.reached_snoc hs
  oneSlot := by
    intro p i j hi hj
    exact h.oneSlot p i j (by rw [← ht]; exact hi) (by rw [← ht]; exact hj)
  slots i := (h.slots i).snoc (h.reached_snoc hs) (by rw [ht]) (by rw [hb]) (by rw [hc])

theorem release (h : Inv rs s) : Inv (rs ++ [.release]) (timeStretchRelease s) := by
  by_cases hm : s.tsMutex
  · have hs : s.serve .release = .ok (timeStretchRelease s) := rfl
    refine ⟨h.reached_snoc hs, ?_, fun i => ⟨fun _ => by simp [timeStretchRelease, hm], ?_⟩⟩
    · intro p i j hi
      simp only [timeStretchRelease, hm, if_true] at hi
      omega
    · intro p hp
      simp only [timeStretchRelease, hm, if_true] at hp
      omega
  · have hs : timeStretchRelease s = s := by simp [timeStretchRelease, hm]
    exact h.same rfl (by rw [hs]) (by rw [hs]) (by rw [hs])

theorem setupBuffer {p : Pid} {arg : Addr} (h : Inv rs s) :
    ∃ s', s.serve (.ioctl p .setupBuffer arg) = .ok s' ∧
      Inv (rs ++ [.ioctl p .setupBuffer arg]) s' := by
  cases hi : s.slotOf p with
  | none =>
    have hs : s.serve (.ioctl p .setupBuffer arg) = .ok s := by
      simp [Registry.serve, timeStretchIoctl, hi, Except.map]
    exact ⟨s, hs, h.same hs rfl rfl rfl⟩
  | some i =>
    by_cases ha : arg = 0#64
    · have hs : s.serve (.ioctl p .setupBuffer arg) = .ok s := by
        simp [Registry.serve, timeStretchIoctl, hi, ha, Except.map]
      exact ⟨s, hs, h.same hs rfl rfl rfl⟩
    · have hs : s.serve (.ioctl p .setupBuffer arg) =
          .ok { s with buffer := Function.update s.buffer i arg } := by
        simp [Registry.serve, timeStretchIoctl, hi, ha, Except.map]
      refine ⟨_, hs, h.reached_snoc hs, h.oneSlot, fun j => ?_⟩
      rcases eq_or_ne j i with rfl | hj
      · refine ⟨(h.slots j).free, fun q hq => ?_⟩
        have hpq : p = q := by exact_mod_cast (slotOf_some hi).symm.trans hq
        subst hpq
        obtain ⟨n, a, hreg, -, hcall⟩ := (h.slots j).owned p hq
        refine ⟨n, a, hreg.snoc (h.reached_snoc hs) hq, fun _ => ?_, fun hne => ?_⟩
        · simp only [Function.update_self]
          exact ⟨rs.length, hreg.lt, .last (h.reached_snoc hs) (by simp)⟩
        · obtain ⟨k, hk, hset⟩ := hcall hne
          exact ⟨k, hk, hset.snoc (h.reached_snoc hs) rfl⟩
      · exact (h.slots j).snoc (h.reached_snoc hs) rfl (Function.update_of_ne hj _ _) rfl

theorem setupCallback {p : Pid} {arg : Addr} (h : Inv rs s) :
    ∃ s', s.serve (.ioctl p .setupCallback arg) = .ok s' ∧
      Inv (rs ++ [.ioctl p .setupCallback arg]) s' := by
  have hs : s.serve (.ioctl p .setupCallback arg) =
      .ok { s with callback := fun i => if s.tsThreads i = p then arg else s.callback i } := rfl
  refine ⟨_, hs, h.reached_snoc hs, h.oneSlot, fun i => ?_⟩
  by_cases hi : s.tsThreads i = p
  · refine ⟨fun hf => ?_, fun q hq => ?_⟩
    · have hf : s.tsThreads i = -1 := hf
      omega
    · have hpq : p = q := by exact_mod_cast hi.symm.trans hq
      subst hpq
      obtain ⟨n, a, hreg, hbuf, -⟩ := (h.slots i).owned p hq
      refine ⟨n, a, hreg.snoc (h.reached_snoc hs) hq, fun hne => ?_, fun _ => ?_⟩
      · obtain ⟨k, hk, hset⟩ := hbuf hne
        exact ⟨k, hk, hset.snoc (h.reached_snoc hs) rfl⟩
      · simp only [if_pos hi]
        exact ⟨rs.length, hreg.lt, .last (h.reached_snoc hs) (if_pos hi)⟩
  · exact (h.slots i).snoc (h.reached_snoc hs) rfl rfl (if_neg hi)

theorem registerThread {p : Pid} {arg : Addr} (h : Inv rs s)
    (hp : s.Proper (.ioctl p .registerThread arg)) :
    ∃ s', s.serve (.ioctl p .registerThread arg) = .ok s' ∧
      Inv (rs ++ [.ioctl p .registerThread arg]) s' := by
  by_cases he : s.enabledRegistering
  · cases hi : s.slotOf (-1) with
    | none =>
      have hs : s.serve (.ioctl p .registerThread arg) =
          .ok { s with dataSectionAddress := arg } := by
        simp [Registry.serve, timeStretchIoctl, he, hi, Except.map]
      exact ⟨_, hs, h.same hs rfl rfl rfl⟩
    | some i =>
      obtain ⟨hnew, hbuf⟩ := hp he i hi
      have hfree := (h.slots i).free (slotOf_some hi)
      have hs : s.serve (.ioctl p .registerThread arg) = .ok { s with
          dataSectionAddress := arg
          tsThreads := Function.update s.tsThreads i p
          overtickCount := Function.update s.overtickCount i 0 } := by
        simp [Registry.serve, timeStretchIoctl, he, hi, Except.map]
      refine ⟨_, hs, h.reached_snoc hs, fun q j k hj hk => ?_, fun j => ?_⟩
      · -- the new slot is the only one of `p`
        simp only [Function.update_apply] at hj hk
        split at hj <;> split at hk
        · simp [*]
        · exact absurd hk (by rw [← hj]; exact hnew k)
        · exact absurd hj (by rw [← hk]; exact hnew j)
        · exact h.oneSlot q j k hj hk
      · rcases eq_or_ne j i with rfl | hj
        · refine ⟨fun _ => hfree, fun q hq => ?_⟩
          simp only [Function.update_self] at hq
          have hpq : p = q := by exact_mod_cast hq
          subst hpq
          exact ⟨rs.length, arg, .last (h.reached_snoc hs) (by simp),
            fun hne => absurd hbuf hne, fun hne => absurd hfree hne⟩
        · exact (h.slots j).snoc (h.reached_snoc hs) (Function.update_of_ne hj _ _) rfl rfl
  · have hs : s.serve (.ioctl p .registerThread arg) =
        .ok { s with dataSectionAddress := arg } := by
      simp [Registry.serve, timeStretchIoctl, he, Except.map]
    exact ⟨_, hs, h.same hs rfl rfl rfl⟩

theorem deregisterThread {p : Pid} {arg : Addr} (h : Inv rs s) (hp : toUnsigned arg < tsMax) :
    ∃ s', s.serve (.ioctl p .deregisterThread arg) = .ok s' ∧
      Inv (rs ++ [.ioctl p .deregisterThread arg]) s' := by
  by_cases ho : s.tsThreads ⟨toUnsigned arg, hp⟩ = p
  · have hs : s.serve (.ioctl p .deregisterThread arg) = .ok { s with
        tsThreads := Function.update s.tsThreads ⟨toUnsigned arg, hp⟩ (-1)
        callback := Function.update s.callback ⟨toUnsigned arg, hp⟩ 0 } := by
      simp [Registry.serve, timeStretchIoctl, hp, ho, Except.map]
    refine ⟨_, hs, h.reached_snoc hs, fun q j k hj hk => ?_, fun j => ?_⟩
    · simp only [Function.update_apply] at hj hk
      split at hj <;> split at hk <;> first | omega | exact h.oneSlot q j k hj hk
    · rcases eq_or_ne j ⟨toUnsigned arg, hp⟩ with rfl | hj
      · refine ⟨fun _ => Function.update_self .., fun q hq => ?_⟩
        simp only [Function.update_self] at hq
        omega
      · exact (h.slots j).snoc (h.reached_snoc hs) (Function.update_of_ne hj _ _) rfl
          (Function.update_of_ne hj _ _)
  · have hs : s.serve (.ioctl p .deregisterThread arg) = .ok s := by
      simp [Registry.serve, timeStretchIoctl, hp, ho, Except.map]
    exact ⟨s, hs, h.same hs rfl rfl rfl⟩

theorem step {r : Request} (h : Inv rs s) (hp : s.Proper r) :
    ∃ s', s.serve r = .ok s' ∧ Inv (rs ++ [r]) s' := by
  cases r with
  | openRd =>
    refine ⟨timeStretchOpen s, rfl, h.same rfl ?_ ?_ ?_⟩ <;>
      (unfold timeStretchOpen; split <;> rfl)
  | release => exact ⟨_, rfl, h.release⟩
  | ioctl p cmd arg =>
    cases cmd with
    | registerThread => exact h.registerThread hp
    | deregisterThread => exact h.deregisterThread hp
    | setupBuffer => exact h.setupBuffer
    | setupCallback => exact h.setupCallback
    | other => exact ⟨s, rfl, h.same rfl rfl rfl rfl⟩

end Inv

theorem inv_initial : Inv [] Registry.initial where
  reached := rfl
  oneSlot p i j hi := by
    simp only [Registry.initial] at hi
    omega
  slots i := by
    refine ⟨fun _ => rfl, fun p hp => ?_⟩
    simp only [Registry.initial] at hp
    omega

theorem AllProper.init {rs : List Request} {r : Request} (h : AllProper (rs ++ [r])) :
    AllProper rs := by
  intro n r' s hn hs
  have hlt : n < rs.length := (List.getElem?_eq_some_iff.mp hn).1
  refine h n r' s ?_ ?_
  · rw [List.getElem?_append_left hlt]
    exact hn
  · rw [List.take_append_of_le_length hlt.le]
    exact hs

theorem run_inv (rs : List Request) (h : AllProper rs) : ∃ s, Inv rs s := by
  induction rs using List.reverseRecOn with
  | nil => exact ⟨_, inv_initial⟩
  | append_singleton rs r ih =>
    obtain ⟨s, hs⟩ := ih h.init
    have hp : s.Proper r := h rs.length r s (by simp) (by simpa using hs.reached)
    obtain ⟨s', -, hs'⟩ := hs.step hp
    exact ⟨s', hs'⟩

theorem Inv.setByOwner {rs : List Request} {s : Registry} (h : Inv rs s) {p : Pid}
    {i : Fin tsMax} (hi : s.timerSlot p = some i) :
    SetByOwner rs p i (s.buffer i) (s.callback i) := by
  obtain ⟨hslot, hset⟩ := Option.filter_eq_some_iff.mp hi
  simp only [Bool.and_eq_true, decide_eq_true_eq] at hset
  obtain ⟨n, a, hreg, hbuf, hcall⟩ := (h.slots i).owned p (slotOf_some hslot)
  exact ⟨n, a, hreg, hbuf hset.1, hcall hset.2⟩

/-- In every run of proper requests the registry is safe after every request. -/
theorem registry_safe (rs : List Request) (h : AllProper rs) : RegistrySafe rs := by
  obtain ⟨s, hs⟩ := run_inv rs h
  exact ⟨s, hs.reached, hs.oneSlot, fun _ _ => hs.setByOwner⟩

/-- A thread registers and sets up both, as `stm_init_thread` does. -/
def setupRun : List Request :=
  [.openRd, .ioctl 7 .registerThread 0x600000, .ioctl 7 .setupCallback 0x401000,
    .ioctl 7 .setupBuffer 0x7f0000]

theorem registry_safe_setup : AllProper setupRun ∧ RegistrySafe setupRun := by
  have h : AllProper setupRun := by
    intro n r s hn hs
    rcases n with _ | _ | _ | _ | n <;> cases hn <;> cases hs
    · trivial
    · intro _ i hi
      exact ⟨by decide, rfl⟩
    · trivial
    · trivial
  exact ⟨h, registry_safe _ h⟩

/-- The descriptor of DEREGISTER is not checked. -/
def outsideRun : List Request := [.openRd, .ioctl 7 .deregisterThread 32]

/-- A thread registers twice. -/
def twiceRun : List Request :=
  [.openRd, .ioctl 7 .registerThread 0x600000, .ioctl 7 .registerThread 0x600000]

/-- DEREGISTER leaves the buffer in the slot, and the next owner sets its callback
before its buffer, the order of `stm_init_thread`. -/
def staleRun : List Request :=
  [.openRd, .ioctl 7 .registerThread 0x600000, .ioctl 7 .setupBuffer 0x7f0000,
    .ioctl 7 .deregisterThread 0, .ioctl 9 .registerThread 0x600000,
    .ioctl 9 .setupCallback 0x401000]

theorem registry_unsafe :
    ¬ RegistrySafe outsideRun ∧ ¬ RegistrySafe twiceRun ∧ ¬ RegistrySafe staleRun := by
  refine ⟨?_, ?_, ?_⟩
  · rintro ⟨s, hs, -⟩
    cases hs
  · rintro ⟨s, hs, hone, -⟩
    cases hs
    exact absurd (hone 7 ⟨0, by decide⟩ ⟨1, by decide⟩ rfl rfl) (by decide)
  · rintro ⟨s, hs, -, hset⟩
    cases hs
    obtain ⟨n, a, -, ⟨k, -, hk, -⟩, -⟩ := hset 9 ⟨0, by decide⟩ rfl
    rcases k with _ | _ | _ | _ | _ | _ | k <;> cases hk

end TinyStm.Kernel
