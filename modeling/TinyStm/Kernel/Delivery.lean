import Mathlib.Data.Rat.Defs
import Mathlib.Tactic.Common
import TinyStm.Kernel.Registry

/-!
# What the timer handler does for the interrupted thread

The part of `my_smp_apic_timer_interrupt` behind the overtick counter: for a registered
thread with a control buffer and a callback it reads the buffer, and leaves the thread
alone, marks the tick as standing, or lets the thread go on at the callback.
-/

namespace TinyStm.Kernel

/-- `delivery_mode`. -/
inductive Mode where
  | stubborn
  | stubbornHeuristic
  | quiescentHeuristic
  | quiescentModel
  deriving DecidableEq

/-- `control_buffer`, but the two pointers, to `CLOCK` and to `tx->end`, and `et_clocks`. -/
structure ControlBuffer where
  txOn : BitVec 16
  standing : BitVec 16
  recentlyValidated : BitVec 16
  optClock : BitVec 64
  ticks : BitVec 64
  ticksStanding : BitVec 64
  ticksDelivered : BitVec 64
  secAddrDefined : BitVec 16
  secStartAddr : Addr
  secEndAddr : Addr
  noValCost : ℚ
  valClock : BitVec 64
  mode : Mode
  deriving DecidableEq

/-- What does not change while the module is used: the callback of the thread, the first
address that counts as kernel code, and half the window of an overtick. -/
structure Setup where
  callback : Addr
  dataSection : Addr
  halfStretch : BitVec 32

/-- An interrupt: where it hits, whether it interrupts another one, and the time stamp
counter. -/
structure Tick where
  ip : Addr
  nested : Bool
  rdtsc : BitVec 64

def ControlBuffer.tick (b : ControlBuffer) : ControlBuffer := { b with ticks := b.ticks + 1 }

def ControlBuffer.setStanding (b : ControlBuffer) : ControlBuffer :=
  { b with standing := 1, ticksStanding := b.ticksStanding + 1 }

/-- Inside `[sec_start_addr, sec_end_addr)`. -/
def ControlBuffer.InSection (b : ControlBuffer) (ip : Addr) : Prop :=
  b.secStartAddr ≤ ip ∧ ip < b.secEndAddr

instance (b : ControlBuffer) (ip : Addr) : Decidable (b.InSection ip) :=
  inferInstanceAs (Decidable (_ ∧ _))

section

variable (k : Setup) (t : Tick) (gvc endClock : BitVec 64) (b : ControlBuffer)

/-- The time stamp counter is at most half a window before `opt_clock` and less than that
behind it. -/
def InWindow : Prop :=
  b.optClock - k.halfStretch.setWidth 64 ≤ t.rdtsc ∧ t.rdtsc < b.optClock + k.halfStretch.setWidth 64

instance : Decidable (InWindow k t b) := inferInstanceAs (Decidable (_ ∧ _))

/-- The stubborn method; the second value says that the callback is entered. -/
def stubbornMethod : ControlBuffer × Bool :=
  let endClock := if b.mode = .stubbornHeuristic then endClock >>> 31 else endClock
  if b.txOn = 0 then (b, false)
  else if b.recentlyValidated ≠ 0 then ({ b.tick with recentlyValidated := 0 }, false)
  else if ¬ endClock < gvc then (b.tick, false)
  else if b.mode = .quiescentHeuristic ∧ b.optClock = 0 then (b.tick, false)
  else if b.mode = .quiescentHeuristic ∧ ¬ InWindow k t b then (b.tick, false)
  else if b.secAddrDefined = 0 then (b.setStanding.tick, false)
  else if b.secEndAddr ≤ b.secStartAddr then (b.tick, false)
  else if ¬ b.InSection t.ip then
    ((if b.standing = 0 then b.setStanding else b).tick, false)
  else ({ b with ticksDelivered := b.ticksDelivered + 1 }, true)

/-- The model-based method. -/
def modelMethod : ControlBuffer × Bool :=
  if b.txOn = 0 then (b, false)
  else if b.secAddrDefined = 0 then (b.tick, false)
  else if b.secEndAddr ≤ b.secStartAddr then (b.tick, false)
  else if ¬ b.InSection t.ip then (b.tick, false)
  else if InWindow k t b then
    ({ b.tick with
      ticksDelivered := b.ticksDelivered + 1, noValCost := 0, valClock := 0, optClock := 0 }, true)
  else (b.tick, false)

/-- The handler for a registered thread, from `overtick_APIC_interrupt` on. -/
def timerDelivery : ControlBuffer × Bool :=
  if t.nested then (b, false)
  else if k.dataSection ≤ t.ip then (b, false)
  else if t.ip = k.callback then (b, false)
  else match b.mode with
    | .stubborn | .quiescentHeuristic => stubbornMethod k t gvc endClock b
    | .stubbornHeuristic | .quiescentModel => modelMethod k t b

/-- The modes of the two heuristics that deliver to stale snapshots. -/
def Mode.stale : Mode → Bool
  | .stubborn | .quiescentHeuristic => true
  | _ => false

/-- All that a tick is delivered for, apart from where in user code it hits. -/
structure Ready : Prop where
  user : t.nested = false ∧ t.ip < k.dataSection
  txOn : b.txOn ≠ 0
  recent : b.recentlyValidated = 0
  behind : endClock < gvc
  window : b.mode = .quiescentHeuristic → b.optClock ≠ 0 ∧ InWindow k t b

instance : Decidable (Ready k t gvc endClock b) :=
  decidable_of_iff ((t.nested = false ∧ t.ip < k.dataSection) ∧ b.txOn ≠ 0 ∧
      b.recentlyValidated = 0 ∧ endClock < gvc ∧
      (b.mode = .quiescentHeuristic → b.optClock ≠ 0 ∧ InWindow k t b))
    ⟨fun ⟨h₁, h₂, h₃, h₄, h₅⟩ => ⟨h₁, h₂, h₃, h₄, h₅⟩, fun ⟨h₁, h₂, h₃, h₄, h₅⟩ => ⟨h₁, h₂, h₃, h₄, h₅⟩⟩

/-- Where the callback is entered. -/
def Deliverable : Prop := t.ip ≠ k.callback ∧ b.secAddrDefined ≠ 0 ∧ b.InSection t.ip

/-- Where the tick is left standing: user code outside a section that is not empty, or
anywhere when there is no section, but not at the first instruction of the callback. -/
def Outside : Prop :=
  t.ip ≠ k.callback ∧
    (b.secAddrDefined = 0 ∨ b.secStartAddr < b.secEndAddr ∧ ¬ b.InSection t.ip)

end

/-! ### What a tick does -/

variable {k : Setup} {t : Tick} {gvc endClock : BitVec 64} {b : ControlBuffer}

theorem ControlBuffer.InSection.lt {ip : Addr} (h : b.InSection ip) :
    b.secStartAddr < b.secEndAddr := by
  have hle := BitVec.le_def.mp h.1
  have hlt := BitVec.lt_def.mp h.2
  exact BitVec.lt_def.mpr (by omega)

theorem stubborn_not_ready (hm : b.mode.stale = true) (hu : t.nested = false ∧ t.ip < k.dataSection)
    (h : ¬ Ready k t gvc endClock b) :
    (stubbornMethod k t gvc endClock b).2 = false ∧
      (stubbornMethod k t gvc endClock b).1.standing = b.standing := by
  have hne : b.mode ≠ .stubbornHeuristic := by
    intro he
    simp [he, Mode.stale] at hm
  unfold stubbornMethod
  rw [if_neg hne]
  dsimp only
  by_cases h₁ : b.txOn = 0
  · rw [if_pos h₁]
    exact ⟨rfl, rfl⟩
  rw [if_neg h₁]
  by_cases h₂ : b.recentlyValidated ≠ 0
  · rw [if_pos h₂]
    exact ⟨rfl, rfl⟩
  rw [if_neg h₂]
  by_cases h₃ : ¬ endClock < gvc
  · rw [if_pos h₃]
    exact ⟨rfl, rfl⟩
  rw [if_neg h₃]
  by_cases h₄ : b.mode = .quiescentHeuristic ∧ b.optClock = 0
  · rw [if_pos h₄]
    exact ⟨rfl, rfl⟩
  rw [if_neg h₄]
  by_cases h₅ : b.mode = .quiescentHeuristic ∧ ¬ InWindow k t b
  · rw [if_pos h₅]
    exact ⟨rfl, rfl⟩
  refine absurd ⟨hu, h₁, not_not.mp h₂, not_not.mp h₃, fun hq => ⟨fun ho => h₄ ⟨hq, ho⟩, ?_⟩⟩ h
  by_contra hw
  exact h₅ ⟨hq, hw⟩

theorem stubborn_ready (hm : b.mode.stale = true) (h : Ready k t gvc endClock b) :
    stubbornMethod k t gvc endClock b =
      if b.secAddrDefined = 0 then (b.setStanding.tick, false)
      else if b.secEndAddr ≤ b.secStartAddr then (b.tick, false)
      else if ¬ b.InSection t.ip then ((if b.standing = 0 then b.setStanding else b).tick, false)
      else ({ b with ticksDelivered := b.ticksDelivered + 1 }, true) := by
  have hne : b.mode ≠ .stubbornHeuristic := by
    intro he
    simp [he, Mode.stale] at hm
  have hr := h.recent
  have hw := h.window
  unfold stubbornMethod
  rw [if_neg hne]
  dsimp only
  rw [if_neg h.txOn, if_neg (by simp [hr]), if_neg (not_not.mpr h.behind),
    if_neg fun hq => (hw hq.1).1 hq.2, if_neg fun hq => hq.2 (hw hq.1).2]

theorem timerDelivery_stubborn (hm : b.mode.stale = true)
    (hu : t.nested = false ∧ t.ip < k.dataSection) (hc : t.ip ≠ k.callback) :
    timerDelivery k t gvc endClock b = stubbornMethod k t gvc endClock b := by
  unfold timerDelivery
  rw [if_neg (by simp [hu.1]), if_neg (BitVec.not_le.mpr hu.2), if_neg hc]
  cases hmode : b.mode <;> simp_all [Mode.stale]

/-- A tick that is not in user code, or hits the first instruction of the callback. -/
theorem timerDelivery_skip
    (h : ¬ (t.nested = false ∧ t.ip < k.dataSection) ∨ t.ip = k.callback) :
    timerDelivery k t gvc endClock b = (b, false) := by
  unfold timerDelivery
  by_cases hn : t.nested = true
  · rw [if_pos hn]
  by_cases hd : k.dataSection ≤ t.ip
  · rw [if_neg hn, if_pos hd]
  have hc : t.ip = k.callback := h.resolve_left fun hu => hu ⟨by simpa using hn, BitVec.not_le.mp hd⟩
  rw [if_neg hn, if_neg hd, if_pos hc]

/-- The callback is entered exactly when the tick is ready and hits the section. -/
theorem delivered_iff (hm : b.mode.stale = true) :
    (timerDelivery k t gvc endClock b).2 = true ↔ Ready k t gvc endClock b ∧ Deliverable k t b := by
  by_cases hs : ¬ (t.nested = false ∧ t.ip < k.dataSection) ∨ t.ip = k.callback
  · rw [timerDelivery_skip hs]
    refine iff_of_false (by simp) fun ⟨hr, hd⟩ => ?_
    exact hs.elim (fun hu => hu hr.user) hd.1
  obtain ⟨hu, hc⟩ := not_or.mp hs
  have hu := not_not.mp hu
  rw [timerDelivery_stubborn hm hu hc]
  by_cases hr : Ready k t gvc endClock b
  · rw [stubborn_ready hm hr]
    by_cases h₁ : b.secAddrDefined = 0
    · rw [if_pos h₁]
      exact iff_of_false (by simp) fun h => h.2.2.1 h₁
    rw [if_neg h₁]
    by_cases h₂ : b.secEndAddr ≤ b.secStartAddr
    · rw [if_pos h₂]
      exact iff_of_false (by simp) fun h => absurd h.2.2.2.lt (BitVec.not_lt.mpr h₂)
    rw [if_neg h₂]
    by_cases h₃ : b.InSection t.ip
    · rw [if_neg (not_not.mpr h₃)]
      exact iff_of_true rfl ⟨hr, hc, h₁, h₃⟩
    · rw [if_pos h₃]
      exact iff_of_false (by simp) fun h => h₃ h.2.2.2
  · exact iff_of_false (by simp [(stubborn_not_ready hm hu hr).1]) fun h => hr h.1

/-- A ready tick outside the section is standing afterwards. -/
theorem standing_of_outside (hm : b.mode.stale = true) (hr : Ready k t gvc endClock b)
    (ho : Outside k t b) : (timerDelivery k t gvc endClock b).1.standing =
      if b.secAddrDefined = 0 ∨ b.standing = 0 then 1 else b.standing := by
  rw [timerDelivery_stubborn hm hr.user ho.1, stubborn_ready hm hr]
  by_cases h₁ : b.secAddrDefined = 0
  · rw [if_pos h₁, if_pos (.inl h₁)]
    rfl
  obtain ⟨h₂, h₃⟩ := ho.2.resolve_left h₁
  rw [if_neg h₁, if_neg (BitVec.not_le.mpr h₂), if_pos h₃]
  by_cases h₄ : b.standing = 0
  · rw [if_pos h₄, if_pos (.inr h₄)]
    rfl
  · rw [if_neg h₄, if_neg (not_or.mpr ⟨h₁, h₄⟩)]
    rfl

/-- The methods leave `standing` alone or set it, and leave the section and the mode alone. -/
structure Kept (b b' : ControlBuffer) : Prop where
  standing : b'.standing = b.standing ∨ b'.standing = 1
  recent : b'.recentlyValidated = b.recentlyValidated ∨ b'.recentlyValidated = 0
  txOn : b'.txOn = b.txOn
  mode : b'.mode = b.mode
  sec : b'.secAddrDefined = b.secAddrDefined ∧ b'.secStartAddr = b.secStartAddr ∧
    b'.secEndAddr = b.secEndAddr

theorem Kept.refl (b : ControlBuffer) : Kept b b := ⟨.inl rfl, .inl rfl, rfl, rfl, rfl, rfl, rfl⟩

theorem stubbornMethod_kept : Kept b (stubbornMethod k t gvc endClock b).1 := by
  unfold stubbornMethod
  dsimp only
  repeat' split
  all_goals first
    | exact ⟨.inl rfl, .inl rfl, rfl, rfl, rfl, rfl, rfl⟩
    | exact ⟨.inl rfl, .inr rfl, rfl, rfl, rfl, rfl, rfl⟩
    | exact ⟨.inr rfl, .inl rfl, rfl, rfl, rfl, rfl, rfl⟩

theorem modelMethod_kept : Kept b (modelMethod k t b).1 := by
  unfold modelMethod
  repeat' split
  all_goals exact ⟨.inl rfl, .inl rfl, rfl, rfl, rfl, rfl, rfl⟩

theorem timerDelivery_kept : Kept b (timerDelivery k t gvc endClock b).1 := by
  unfold timerDelivery
  split
  · exact .refl b
  split
  · exact .refl b
  split
  · exact .refl b
  split
  · exact stubbornMethod_kept
  · exact stubbornMethod_kept
  · exact modelMethod_kept
  · exact modelMethod_kept

/-- No tick clears `standing`. -/
theorem Kept.standing_ne {b' : ControlBuffer} (h : Kept b b') (hs : b.standing ≠ 0) :
    b'.standing ≠ 0 := by
  rcases h.standing with he | he
  · rw [he]
    exact hs
  · rw [he]
    decide

theorem Kept.standing_one {b' : ControlBuffer} (h : Kept b b') (hs : b.standing = 1) :
    b'.standing = 1 := by
  rcases h.standing with he | he
  · exact he.trans hs
  · exact he

end TinyStm.Kernel
