import Mathlib.Logic.Function.Iterate
import TinyStm.Kernel.Registry

/-!
# The rate of the kernel tick

While a registered thread runs on a CPU its timer fires `scale` times as often, and a
down-counter of the CPU, `CPU_overticks`, selects the overticks that are passed on to
`local_apic_timer_interrupt`. The counter is loaded by the scheduler hook and by the handler
itself. What the handler does for the interrupted thread does not reach the counter and is
left out.
-/

namespace TinyStm.Kernel

/-- One CPU: the thread it runs, `stretch_flag`, `CPU_overticks` and the timer. `user` says
that `current->mm` is not NULL. -/
structure Cpu where
  reg : Registry
  current : Pid
  user : Bool
  stretchFlag : Bool
  overticks : ℤ
  period : ℕ

section

variable (cal scale : ℕ)

def schedulerHook (s : Cpu) : Cpu :=
  match s.reg.slotOf s.current with
  | some i =>
    { s with
      reg := { s.reg with overtickCount := Function.update s.reg.overtickCount i scale }
      stretchFlag := true
      overticks := scale
      period := cal / scale }
  | none =>
    if s.stretchFlag then { s with overticks := 0, period := cal, stretchFlag := false } else s

/-- `overtick_APIC_interrupt`; the second value says that `local_apic_timer_interrupt` is
called. -/
def overtickInterrupt (s : Cpu) : Cpu × Bool :=
  if s.overticks ≤ 0 then
    ({ s with overticks := scale, stretchFlag := true, period := cal / scale }, true)
  else ({ s with overticks := s.overticks - 1, stretchFlag := true, period := cal / scale }, false)

/-- `normal_APIC_interrupt`. -/
def normalInterrupt (s : Cpu) : Cpu × Bool :=
  (if s.stretchFlag then { s with overticks := 0, stretchFlag := false, period := cal } else s,
    !s.stretchFlag || decide (s.overticks ≤ 0))

/-- `my_smp_apic_timer_interrupt`. -/
def timerInterrupt (s : Cpu) : Cpu × Bool :=
  if s.user then
    match s.reg.slotOf s.current with
    | some _ => overtickInterrupt cal scale s
    | none => normalInterrupt cal s
  else normalInterrupt cal s

/-- A request of the running thread, and what it does to the timer. -/
def ioctl (s : Cpu) (cmd : Cmd) (arg : Addr) : Except OutOfBounds (Cpu × ℤ) :=
  (timeStretchIoctl s.reg s.current cmd arg).map fun r =>
    let s' := { s with reg := r.1 }
    match cmd with
    | .setupCallback =>
      if (s.reg.slotOf s.current).isSome ∧ arg ≠ 0 then
        ({ s' with stretchFlag := true, period := cal / scale }, r.2)
      else (s', r.2)
    | .deregisterThread => ({ s' with period := cal, stretchFlag := false }, r.2)
    | _ => (s', r.2)

/-- The CPU after `n` timer interrupts. -/
def afterTicks (n : ℕ) (s : Cpu) : Cpu := (fun s => (timerInterrupt cal scale s).1)^[n] s

/-- The timer interrupt after `n` others calls `local_apic_timer_interrupt`. -/
def invokes (s : Cpu) (n : ℕ) : Bool := (timerInterrupt cal scale (afterTicks cal scale n s)).2

/-- Among `n` timer interrupts any `scale` in a row have one that is passed on. -/
def Rate (s : Cpu) (n : ℕ) : Prop :=
  ∀ k, k + scale ≤ n → (List.range scale).countP (fun j => invokes cal scale s (k + j)) = 1

def Registered (s : Cpu) : Prop := ∃ i, s.reg.tsThreads i = s.current

/-- What the handler and the reset paths are to do from a state on. -/
structure OvertickRate (s : Cpu) (n : ℕ) : Prop where
  rate : Registered s → Rate cal scale (schedulerHook cal scale s) n
  switched : ¬ Registered s → ∀ k, invokes cal scale (schedulerHook cal scale s) k = true
  deregistered : ∀ arg s', ioctl cal scale s .deregisterThread arg = .ok (s', 0) →
    ∀ k, invokes cal scale s' k = true

end

/-! ### The counter -/

variable {cal scale : ℕ} {s : Cpu}

theorem registered_iff : Registered s ↔ ∃ i, s.reg.slotOf s.current = some i := by
  constructor
  · rintro ⟨i, hi⟩
    exact Option.isSome_iff_exists.mp (slotOf_isSome hi)
  · rintro ⟨i, hi⟩
    exact ⟨i, slotOf_some hi⟩

theorem slotOf_none (h : ¬ Registered s) : s.reg.slotOf s.current = none := by
  by_contra hne
  exact h (registered_iff.mpr (Option.ne_none_iff_exists'.mp hne))

theorem timer_registered (hu : s.user = true) (hr : Registered s) :
    timerInterrupt cal scale s = overtickInterrupt cal scale s := by
  obtain ⟨i, hi⟩ := registered_iff.mp hr
  simp only [timerInterrupt, hu, hi, if_true]

theorem timer_unregistered (hr : ¬ Registered s) :
    timerInterrupt cal scale s = normalInterrupt cal s := by
  simp only [timerInterrupt, slotOf_none hr, ite_self]

/-- An overtick counts down, and changes neither the thread nor its registration. -/
theorem overtick_frame (cal scale : ℕ) (s : Cpu) :
    (overtickInterrupt cal scale s).1.reg = s.reg ∧
      (overtickInterrupt cal scale s).1.current = s.current ∧
      (overtickInterrupt cal scale s).1.user = s.user := by
  unfold overtickInterrupt
  split <;> exact ⟨rfl, rfl, rfl⟩

/-- `k` overticks after the counter was `scale`. -/
structure Counting (scale k : ℕ) (s : Cpu) : Prop where
  user : s.user = true
  registered : Registered s
  overticks : s.overticks = scale - (k % (scale + 1) : ℕ)

theorem succ_mod_succ (k n : ℕ) :
    (k + 1) % (n + 1) = if k % (n + 1) = n then 0 else k % (n + 1) + 1 := by
  have hlt : k % (n + 1) < n + 1 := Nat.mod_lt _ (Nat.succ_pos n)
  split
  · next h => exact Nat.succ_mod_succ_eq_zero_iff.mpr h
  · next h => rw [← Nat.mod_add_mod, Nat.mod_eq_of_lt (by omega)]

theorem Counting.invokes {k : ℕ} (h : Counting scale k s) :
    (timerInterrupt cal scale s).2 = decide ((k + 1) % (scale + 1) = 0) := by
  have hlt : k % (scale + 1) < scale + 1 := Nat.mod_lt _ (Nat.succ_pos scale)
  rw [timer_registered h.user h.registered, overtickInterrupt, h.overticks, succ_mod_succ]
  by_cases hk : k % (scale + 1) = scale
  · rw [if_pos (by omega), if_pos hk]
    rfl
  · rw [if_neg (by omega), if_neg hk]
    simp

theorem Counting.next {k : ℕ} (h : Counting scale k s) :
    Counting scale (k + 1) (timerInterrupt cal scale s).1 := by
  have hlt : k % (scale + 1) < scale + 1 := Nat.mod_lt _ (Nat.succ_pos scale)
  rw [timer_registered h.user h.registered]
  obtain ⟨hreg, hcur, huser⟩ := overtick_frame cal scale s
  refine ⟨huser.trans h.user, ?_, ?_⟩
  · unfold Registered
    rw [hreg, hcur]
    exact h.registered
  · have hov := h.overticks
    rw [overtickInterrupt, succ_mod_succ]
    by_cases hk : k % (scale + 1) = scale
    · rw [if_pos (by omega), if_pos hk]
      simp
    · rw [if_neg (by omega), if_neg hk]
      simp only [hov]
      omega

theorem Counting.afterTicks (h : Counting scale 0 s) (cal k : ℕ) :
    Counting scale k (afterTicks cal scale k s) := by
  induction k with
  | zero => exact h
  | succ k ih =>
    rw [Kernel.afterTicks, Function.iterate_succ_apply']
    exact ih.next

/-- The overticks that are passed on are every `scale + 1`st. -/
theorem Counting.invokes_iff (h : Counting scale 0 s) (cal k : ℕ) :
    Kernel.invokes cal scale s k = decide ((k + 1) % (scale + 1) = 0) :=
  (h.afterTicks cal k).invokes

theorem counting_hook (hu : s.user = true) (hr : Registered s) :
    Counting scale 0 (schedulerHook cal scale s) := by
  obtain ⟨i, hi⟩ := registered_iff.mp hr
  rw [schedulerHook, hi]
  exact ⟨hu, hr, by simp⟩

/-- The first `scale` overticks are all held back. -/
theorem rate_iff {n : ℕ} (h : Counting scale 0 s) :
    Rate cal scale s n ↔ n < scale := by
  constructor
  · intro hrate
    by_contra hn
    have hwin := hrate 0 (by omega)
    have hzero : (List.range scale).countP (fun j => invokes cal scale s (0 + j)) = 0 := by
      refine List.countP_eq_zero.mpr fun j hj => ?_
      have hj := List.mem_range.mp hj
      rw [Nat.zero_add, h.invokes_iff, Nat.mod_eq_of_lt (by omega)]
      simp
    omega
  · intro hn k hk
    omega

/-! ### The reset -/

/-- No registered thread is running, and nothing of the last one is left. -/
structure Quiet (s : Cpu) : Prop where
  registered : ¬ Registered s
  flag : s.stretchFlag = false

theorem Quiet.tick (h : Quiet s) : timerInterrupt cal scale s = (s, true) := by
  rw [timer_unregistered h.registered, normalInterrupt, h.flag]
  rfl

theorem Quiet.invokes (h : Quiet s) (k : ℕ) : invokes cal scale s k = true := by
  have hstay : afterTicks cal scale k s = s := by
    refine Function.iterate_fixed ?_ k
    rw [h.tick]
  rw [Kernel.invokes, hstay, h.tick]

theorem quiet_hook (h : ¬ Registered s) : Quiet (schedulerHook cal scale s) := by
  rw [schedulerHook, slotOf_none h]
  dsimp only
  split
  · exact ⟨h, rfl⟩
  · next hf => exact ⟨h, by simpa using hf⟩

/-- A deregistration that succeeds frees the slot and stops the overticks. -/
theorem deregister_ok {arg : Addr} {s' : Cpu}
    (h : ioctl cal scale s .deregisterThread arg = .ok (s', 0)) :
    ∃ i : Fin tsMax, i.val = toUnsigned arg ∧ s.reg.tsThreads i = s.current ∧
      s'.reg.tsThreads = Function.update s.reg.tsThreads i (-1) ∧ s'.current = s.current ∧
      s'.user = s.user ∧ s'.stretchFlag = false := by
  unfold ioctl timeStretchIoctl at h
  dsimp only at h
  split at h
  · next hlt =>
    split at h
    · next hpid =>
      cases h
      exact ⟨⟨toUnsigned arg, hlt⟩, rfl, hpid, rfl, rfl, rfl, rfl⟩
    · cases h
  · cases h

/-- Deregistration of the only slot of a thread. -/
theorem quiet_deregister {arg : Addr} {s' : Cpu}
    (hone : ∀ i j, s.reg.tsThreads i = s.current → s.reg.tsThreads j = s.current → i = j)
    (h : ioctl cal scale s .deregisterThread arg = .ok (s', 0)) : Quiet s' := by
  obtain ⟨i, -, hi, hmap, hcur, -, hflag⟩ := deregister_ok h
  refine ⟨?_, hflag⟩
  rintro ⟨j, hj⟩
  rw [hmap, hcur] at hj
  by_cases hji : j = i
  · rw [hji, Function.update_self] at hj
    omega
  · rw [Function.update_of_ne hji] at hj
    exact hji (hone j i hj hi)

/-- With two slots the thread stays registered, and its next two ticks are overticks. -/
theorem deregister_two (cal : ℕ) {i j : Fin tsMax} (hu : s.user = true) (hs : 1 ≤ scale) (hij : i ≠ j)
    (hi : s.reg.tsThreads i = s.current) (hj : s.reg.tsThreads j = s.current) :
    ∃ arg s', ioctl cal scale s .deregisterThread arg = .ok (s', 0) ∧
      ¬ ∀ k, invokes cal scale s' k = true := by
  have harg : toUnsigned (BitVec.ofNat 64 i.val) = i.val := by
    have := i.isLt
    simp only [tsMax] at this
    simp only [toUnsigned, BitVec.toNat_setWidth, BitVec.toNat_ofNat]
    omega
  obtain ⟨s', hs'⟩ : ∃ s', ioctl cal scale s .deregisterThread (BitVec.ofNat 64 i.val) =
      .ok (s', 0) := by
    unfold ioctl timeStretchIoctl
    dsimp only
    rw [dif_pos (by rw [harg]; exact i.isLt)]
    have hfin : (⟨toUnsigned (BitVec.ofNat 64 i.val), by rw [harg]; exact i.isLt⟩ : Fin tsMax) = i :=
      Fin.ext harg
    rw [if_pos (by rw [hfin]; exact hi)]
    exact ⟨_, rfl⟩
  refine ⟨_, s', hs', fun hall => ?_⟩
  obtain ⟨i', hi', -, hmap, hcur, huser, -⟩ := deregister_ok hs'
  have hii : i' = i := Fin.ext (hi'.trans harg)
  have hr : Registered s' := by
    refine ⟨j, ?_⟩
    rw [hmap, hcur, hii, Function.update_of_ne hij.symm]
    exact hj
  have hu' : s'.user = true := huser.trans hu
  -- an overtick is passed on only when it finds the counter at zero, and then loads it
  have h0 : (timerInterrupt cal scale s').2 = true := hall 0
  have h1 : (timerInterrupt cal scale (timerInterrupt cal scale s').1).2 = true := hall 1
  obtain ⟨hf1, hf2, hf3⟩ := overtick_frame cal scale s'
  rw [timer_registered hu' hr] at h0 h1
  have hr1 : Registered (overtickInterrupt cal scale s').1 := by
    unfold Registered
    rw [hf1, hf2]
    exact hr
  rw [timer_registered (hf3.trans hu') hr1] at h1
  unfold overtickInterrupt at h0 h1
  split at h0
  · next hle =>
    rw [if_pos hle] at h1
    rw [if_neg (by simp only; omega)] at h1
    cases h1
  · cases h0

/-- From every state, for `n` overticks: the kernel tick comes as it should exactly when the
overticks are fewer than `scale`, and the thread was not registered twice. What it does
instead is to pass on every `scale + 1`st overtick. -/
theorem overtick_rate_iff (cal scale : ℕ) (s : Cpu) (n : ℕ) (hs : 1 ≤ scale)
    (hu : Registered s → s.user = true) :
    (OvertickRate cal scale s n ↔ (Registered s → n < scale ∧
      ∀ i j, s.reg.tsThreads i = s.current → s.reg.tsThreads j = s.current → i = j)) ∧
    (Registered s → ∀ k, invokes cal scale (schedulerHook cal scale s) k =
      decide ((k + 1) % (scale + 1) = 0)) := by
  refine ⟨⟨fun h hr => ⟨?_, fun i j hi hj => ?_⟩, fun h => ⟨fun hr => ?_, fun hr k => ?_, ?_⟩⟩, ?_⟩
  · exact (rate_iff (counting_hook (hu hr) hr)).mp (h.rate hr)
  · by_contra hij
    obtain ⟨arg, s', hs', hnot⟩ := deregister_two cal (hu hr) hs hij hi hj
    exact hnot (h.deregistered arg s' hs')
  · exact (rate_iff (counting_hook (hu hr) hr)).mpr (h hr).1
  · exact (quiet_hook hr).invokes k
  · intro arg s' hs' k
    obtain ⟨i, -, hi, -⟩ := deregister_ok hs'
    exact (quiet_deregister (h ⟨i, hi⟩).2 hs').invokes k
  · intro hr k
    exact (counting_hook (hu hr) hr).invokes_iff cal k

/-- Thread 42, registered in slot 0 and running. -/
def running : Cpu where
  reg := { Registry.initial with tsThreads := fun i => if i.val = 0 then 42 else -1 }
  current := 42
  user := true
  stretchFlag := false
  overticks := 0
  period := 1000000

theorem running_registered : Registered running := ⟨⟨0, by decide⟩, rfl⟩

/-- Nine overticks of ten. -/
theorem running_nine : 1 ≤ 10 ∧ OvertickRate 1000000 10 running 9 := by
  refine ⟨by decide, (overtick_rate_iff 1000000 10 running 9 (by decide) fun _ => rfl).1.mpr
    fun _ => ⟨by decide, fun i j hi hj => ?_⟩⟩
  simp only [running] at hi hj
  split at hi
  · next h0 =>
    split at hj
    · next h1 => exact Fin.ext (h0.trans h1.symm)
    · cases hj
  · cases hi

/-- None of the first ten overticks is passed on, the eleventh is. -/
theorem running_ten : ¬ OvertickRate 1000000 10 running 10 ∧
    (∀ k < 10, invokes 1000000 10 (schedulerHook 1000000 10 running) k = false) ∧
    invokes 1000000 10 (schedulerHook 1000000 10 running) 10 = true := by
  have hcount : Counting 10 0 (schedulerHook 1000000 10 running) :=
    counting_hook rfl running_registered
  refine ⟨fun h => ?_, fun k hk => ?_, hcount.invokes_iff 1000000 10⟩
  · exact absurd ((rate_iff hcount).mp (h.rate running_registered)) (by decide)
  · rw [hcount.invokes_iff, Nat.mod_eq_of_lt (by omega)]
    simp

end TinyStm.Kernel
