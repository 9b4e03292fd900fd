import TinyStm.Kernel.Standing

/-!
# Where ticks are delivered and what becomes of the others

The callback is entered only from code of the program, in a transaction whose snapshot is
behind the clock; a tick that comes elsewhere stays in `standing` until the library has
looked at the snapshot, which it does before the next load returns.
-/

namespace TinyStm.Kernel

open Interleave

variable {ι : Type*} {k : Setup} {vmax : BitVec 64} {lib : Addr → Bool} {t : Tick}
  {clock clock' : BitVec 64} {a : Act} {x x' : Thread} {c d : Config ι (BitVec 64) Thread}
  {h : List (ι × Event)} {i : ι} {b : ControlBuffer}

theorem PlaceOk.step (hx : PlaceOk b (c.loc i)) (hb : b.mode.stale = true) (ha : Apart k lib b)
    (ho : TickOk k lib c i a) (hs : (c.loc i).step k vmax a clock = some (clock', x')) :
    PlaceOk b x' := by
  rcases step_cases hs with ⟨t, rfl, -, rfl⟩ | ⟨-, hu⟩
  · exact hx.tick hb ha ho
  · exact hx.user hu

theorem Calm.step {l : List Event} (hb : b.mode.stale = true) (ha : Apart k lib b)
    (hx : PlaceOk b (c.loc i)) (ho : TickOk k lib c i a)
    (hs : (c.loc i).step k vmax a clock = some (clock', x'))
    (hc : (∀ e ∈ l, e.answers = false) → Calm l (c.loc i))
    (hl : ∀ e ∈ l ++ (event a (c.loc i)).toList, e.answers = false) :
    Calm (l ++ (event a (c.loc i)).toList) x' := by
  have hc := hc fun e he => hl e (List.mem_append_left _ he)
  rcases step_cases hs with ⟨t, rfl, -, rfl⟩ | ⟨hnt, hu⟩
  · refine hc.snoc_tick ?_ (tick_kept _).standing_one
    unfold Thread.tick
    dsimp only
    split
    · next hd => exact .inr ⟨hx.app_of_delivered hb ha ho hd, rfl⟩
    · exact .inl rfl
  · rw [event_of_user hnt] at hl ⊢
    exact hc.user hx hu fun e he => hl e (List.mem_append_right _ (by simp [he]))

variable [DecidableEq ι]

theorem reach_ok (hb : b.mode.stale = true) (ha : Apart k lib b) (hx : PlaceOk b (c.loc i))
    (hh : Hist (userSystem k vmax ι) (TickOk k lib) event c h d) :
    PlaceOk b (d.loc i) ∧ (Pending (own i h) → (d.loc i).buf.recentlyValidated ≠ 0) := by
  refine hh.own_invariant (P := fun l x => PlaceOk b x ∧ (Pending l → x.buf.recentlyValidated ≠ 0))
    (fun e l a g x hp ho hs => ?_) ⟨hx, ?_⟩
  · exact ⟨hp.1.step hb ha ho hs, pending_step hp.2 hs⟩
  · rintro ⟨pre, post, hl, -⟩
    simp at hl

/-- Until a standing tick is answered no load that was called after it returns. -/
theorem calm_run (hb : b.mode.stale = true) (ha : Apart k lib b) (hx : PlaceOk b (c.loc i))
    (hc : Calm [] (c.loc i)) (hh : Hist (userSystem k vmax ι) (TickOk k lib) event c h d)
    (hl : ∀ e ∈ own i h, e.answers = false) : Calm (own i h) (d.loc i) := by
  have hrun := hh.own_invariant
    (P := fun l x => PlaceOk b x ∧ ((∀ e ∈ l, e.answers = false) → Calm l x))
    (fun e l a g x hp ho hs => ⟨hp.1.step hb ha ho hs, Calm.step hb ha hp.1 ho hs hp.2⟩)
    ⟨hx, fun _ => hc⟩
  exact hrun.2 hl

/-- What the handler and the library do together for thread `i` in a state `d` that is
reached with the history `h`. -/
structure Respects (k : Setup) (vmax : BitVec 64) (lib : Addr → Bool) (i : ι)
    (h : List (ι × Event)) (d : Config ι (BitVec 64) Thread) : Prop where
  /-- The callback is entered only when it should be, and no validation was flagged since the
  previous tick or the last `stm_prepare`, whichever came later. -/
  entered : ∀ t, TickOk k lib d i (.tick t) →
    (timerDelivery k t d.shared (d.loc i).endClock (d.loc i).buf).2 = true →
    (d.loc i).buf.txOn ≠ 0 ∧ (d.loc i).buf.InSection t.ip ∧ (d.loc i).endClock < d.shared ∧
      ∀ pre post, own i h = pre ++ .flag :: post → .tick ∈ post ∨ .prepared ∈ post
  /-- No callback of the thread is running then. -/
  alone : ∀ t, TickOk k lib d i (.tick t) →
    (timerDelivery k t d.shared (d.loc i).endClock (d.loc i).buf).2 = true →
    (d.loc i).pc = .app ∧ (d.loc i).frames = []
  /-- A tick that would be delivered but for the place is left standing. -/
  left : ∀ t, Ready k t d.shared (d.loc i).endClock (d.loc i).buf → Outside k t (d.loc i).buf →
    ((d.loc i).tick k t d.shared).buf.standing ≠ 0 ∧
      ((d.loc i).buf.standing = 0 → ((d.loc i).tick k t d.shared).buf.standing = 1)
  cleared : ∀ a clock x, (d.loc i).step k vmax a d.shared = some (clock, x) →
    (d.loc i).buf.standing ≠ 0 → x.buf.standing = 0 → (d.loc i).pc.clears = true
  /-- A standing tick is answered before the next load that is called after it returns. -/
  answered : ∀ t e h' f mid body, TickOk k lib d i (.tick t) →
    Ready k t d.shared (d.loc i).endClock (d.loc i).buf → Outside k t (d.loc i).buf →
    (d.loc i).pc.inExtend = false →
    (userSystem k vmax ι).move d i (.tick t) = some e → (e.loc i).buf.standing = 1 →
    Hist (userSystem k vmax ι) (TickOk k lib) event e h' f →
    own i h' = mid ++ .loadCall :: (body ++ [.loadReturn]) → .began ∉ mid ++ body →
    .extend ∈ mid ++ body ∨ .abort ∈ mid ++ body

theorem Thread.Fresh.placeOk (hf : x.Fresh) : PlaceOk x.buf x := by
  refine ⟨?_, rfl, rfl, rfl, rfl⟩
  rw [hf.pc, hf.frames]
  rfl

theorem not_delivered_of_outside {clock endClock : BitVec 64} (hb : b.mode.stale = true)
    (ho : Outside k t b) : (timerDelivery k t clock endClock b).2 = false := by
  rw [← Bool.not_eq_true, delivered_iff hb]
  rintro ⟨-, -, h₁, h₂⟩
  exact ho.2.elim h₁ fun h => h.2 h₂

theorem tick_outside (hb : x.buf.mode.stale = true) (ho : Outside k t x.buf) :
    x.tick k t clock = { x with buf := (timerDelivery k t clock x.endClock x.buf).1 } := by
  unfold Thread.tick
  dsimp only
  rw [not_delivered_of_outside hb ho]
  rfl

theorem Calm.start (h₁ : x.buf.standing = 1) (h₂ : x.pc.inExtend = false) : Calm [] x := by
  refine ⟨?_, .inr ⟨h₁, by simp [h₂], by simp⟩⟩
  rintro ⟨pre, post, hl, -⟩
  simp at hl

/-- Any threads, any interleaving of their steps with their ticks. -/
theorem ticks_respected (k : Setup) (vmax : BitVec 64) (lib : Addr → Bool) (i : ι)
    {c d : Config ι (BitVec 64) Thread} {h : List (ι × Event)}
    (hf : (c.loc i).Fresh) (hb : (c.loc i).buf.mode.stale = true) (ha : Apart k lib (c.loc i).buf)
    (hh : Hist (userSystem k vmax ι) (TickOk k lib) event c h d) : Respects k vmax lib i h d := by
  obtain ⟨hx, hp⟩ := reach_ok hb ha hf.placeOk hh
  have hbd : (d.loc i).buf.mode.stale = true := by
    rw [hx.mode]
    exact hb
  refine ⟨fun t _ hd => ?_, fun t ht hd => ?_, fun t hr ho => ?_, fun a clock x hs h₁ h₂ => ?_, ?_⟩
  · obtain ⟨hr, -, -, hs⟩ := (delivered_iff hbd).mp hd
    refine ⟨hr.txOn, hs, hr.behind, fun pre post hl => ?_⟩
    by_contra hne
    obtain ⟨h₁, h₂⟩ := not_or.mp hne
    exact hp ⟨pre, post, hl, h₁, h₂⟩ hr.recent
  · have hpc := hx.app_of_delivered hb ha ht hd
    have hfr := hx.frames
    rw [hpc] at hfr
    exact ⟨hpc, hfr⟩
  · rw [tick_outside hbd ho]
    dsimp only
    rw [standing_of_outside hbd hr ho]
    by_cases h₁ : (d.loc i).buf.secAddrDefined = 0 ∨ (d.loc i).buf.standing = 0
    · rw [if_pos h₁]
      exact ⟨by decide, fun _ => rfl⟩
    · rw [if_neg h₁]
      obtain ⟨-, h₂⟩ := not_or.mp h₁
      exact ⟨h₂, fun h₀ => absurd h₀ h₂⟩
  · exact (cleared hs h₁ h₂).2
  · intro t e h' f mid body ht hr ho hext hm hst hh' hl hbegan
    obtain ⟨g, x, hs, rfl⟩ := move_eq_some hm
    obtain ⟨-, rfl⟩ : g = d.shared ∧ x = (d.loc i).tick k t d.shared := by
      cases hs
      exact ⟨rfl, rfl⟩
    have hpc : ((d.loc i).tick k t d.shared).pc = (d.loc i).pc := by rw [tick_outside hbd ho]
    dsimp only at hst
    rw [Function.update_self] at hst
    have hxe : PlaceOk _ ((d.loc i).tick k t d.shared) := hx.tick hb ha ht
    by_contra hne
    obtain ⟨h₁, h₂⟩ := not_or.mp hne
    have hquiet : ∀ e ∈ own i h', e.answers = false := by
      intro e he
      by_contra hans
      rw [hl] at he
      have hmem : e ∈ mid ++ body := by
        simp only [List.mem_append, List.mem_cons, List.not_mem_nil, or_false] at he ⊢
        rcases he with he | rfl | he | rfl
        · exact .inl he
        · exact absurd rfl hans
        · exact .inr he
        · exact absurd rfl hans
      cases e with
      | extend => exact h₁ hmem
      | abort => exact h₂ hmem
      | began => exact hbegan hmem
      | _ => exact hans rfl
    have hcalm := calm_run hb ha (by simpa using hxe)
      (by simpa using Calm.start hst (by rw [hpc]; exact hext)) hh' hquiet
    exact hcalm.loaded ⟨mid, _, hl, by simp⟩

/-! ### One thread -/

/-- The library and the callback at `0x1000`, kernel code from `0x100000` on. -/
def oneSetup : Setup := ⟨0x1000, 0x100000, 0⟩

def oneLib (ip : Addr) : Bool := 0x1000 ≤ ip && ip < 0x2000

/-- A thread before its first transaction, with ticks delivered in `[0x3000, last)`. -/
def oneThread (mode : Mode) (last : Addr) : Config Unit (BitVec 64) Thread where
  shared := 0
  loc _ :=
    { buf := ⟨0, 0, 0, 0, 0, 0, 0, 1, 0x3000, last, 0, 0, mode⟩
      endClock := 0
      nesting := 0
      noRetry := false
      pc := .app
      frames := [] }

/-- The calls of a schedule of the thread. -/
def runs (l : List Act) : List (Unit × Act) := l.map ((), ·)

/-- `stm_start`. -/
def begins : List Act := [.start false, .go, .go, .setOpt none, .go, .go, .go]

theorem oneApart : Apart oneSetup oneLib ((oneThread .stubborn 0x4000).loc ()).buf := by
  refine ⟨by decide, fun ip hl hs => ?_⟩
  have h₁ : ip < 0x2000 := by
    simp only [oneLib, Bool.and_eq_true, decide_eq_true_eq] at hl
    exact hl.2
  have h₂ : (0x3000 : Addr) ≤ ip := hs.1
  rw [BitVec.lt_def] at h₁
  rw [BitVec.le_def] at h₂
  simp at h₁ h₂
  omega

/-- The thread gets to a state `d` with the history `h`. -/
abbrev Gets (mode : Mode) (last : Addr) (h : List (Unit × Event))
    (d : Config Unit (BitVec 64) Thread) : Prop :=
  Hist (userSystem oneSetup 1000 Unit) (TickOk oneSetup oneLib) event (oneThread mode last) h d

theorem exists_one (mode : Mode) (last : Addr) (l : List Act)
    (p : List (Unit × Event) → Config Unit (BitVec 64) Thread → Prop) [∀ h d, Decidable (p h d)]
    (hp : (((userSystem oneSetup 1000 Unit).history (TickOk oneSetup oneLib) event (runs l)
      (oneThread mode last)).any fun r => decide (p r.1 r.2)) = true) :
    ∃ h d, Gets mode last h d ∧ p h d :=
  exists_hist_of_history _ _ p hp

/-- A tick during a load stays standing; the load extends the snapshot before it returns. -/
theorem ticks_respected_load : ∃ h d, Gets .stubborn 0x4000 h d ∧
    own () h = [.prepared, .began, .loadCall, .tick, .flag, .extend, .loadReturn] ∧
    Respects oneSetup 1000 oneLib () h d := by
  obtain ⟨h, d, hh, hp⟩ := exists_one .stubborn 0x4000
    (begins ++ [.bump, .load, .tick ⟨0x1500, false, 0⟩, .go, .go, .go, .go, .go, .go,
      .validate true none, .go, .go, .go, .go, .go])
    (fun h _ => own () h = [.prepared, .began, .loadCall, .tick, .flag, .extend, .loadReturn])
    (by decide +kernel)
  exact ⟨h, d, hh, hp, ticks_respected oneSetup 1000 oneLib () ⟨rfl, rfl, rfl⟩ rfl oneApart hh⟩

/-- A tick outside the section that hits a transaction behind the clock, with no validation
flagged, and still sets nothing. -/
def Lost (t : Tick) (d : Config Unit (BitVec 64) Thread) : Prop :=
  TickOk oneSetup oneLib d () (.tick t) ∧ (d.loc ()).buf.txOn ≠ 0 ∧
    (d.loc ()).buf.recentlyValidated = 0 ∧ (d.loc ()).endClock < d.shared ∧
    ¬ (d.loc ()).buf.InSection t.ip ∧ ((d.loc ()).tick oneSetup t d.shared).buf.standing = 0

instance (t : Tick) (d : Config Unit (BitVec 64) Thread) : Decidable (Lost t d) :=
  inferInstanceAs (Decidable (_ ∧ _))

/-- A tick is lost at the first instruction of the callback, with an empty section, in kernel
mode, and in the mode of the heuristic without an `opt_clock` or outside its window; and a
validation that was flagged for an aborted attempt holds no tick back. -/
theorem ticks_lost :
    (∃ h d, Gets .stubborn 0x4000 h d ∧ Lost ⟨0x1000, false, 0⟩ d) ∧
    (∃ h d, Gets .stubborn 0x3000 h d ∧ Lost ⟨0x1500, false, 0⟩ d) ∧
    (∃ h d, Gets .stubborn 0x4000 h d ∧ Lost ⟨0x1500, true, 0⟩ d) ∧
    (∃ h d, Gets .quiescentHeuristic 0x4000 h d ∧ (d.loc ()).buf.optClock = 0 ∧
      Lost ⟨0x1500, false, 0⟩ d) ∧
    (∃ h d, Gets .quiescentHeuristic 0x4000 h d ∧ (d.loc ()).buf.optClock ≠ 0 ∧
      Lost ⟨0x1500, false, 0⟩ d) ∧
    ∃ h d t, Gets .stubborn 0x4000 h d ∧ TickOk oneSetup oneLib d () (.tick t) ∧
      (timerDelivery oneSetup t d.shared (d.loc ()).endClock (d.loc ()).buf).2 = true ∧
      .flag ∈ own () h ∧ .tick ∉ own () h := by
  refine ⟨?_, ?_, ?_, ?_, ?_, ?_⟩
  · exact exists_one .stubborn 0x4000 (begins ++ [.bump, .tick ⟨0x3000, false, 0⟩]) _
      (by decide +kernel)
  · exact exists_one .stubborn 0x3000 (begins ++ [.bump, .load]) _ (by decide +kernel)
  · exact exists_one .stubborn 0x4000 (begins ++ [.bump, .load]) _ (by decide +kernel)
  · exact exists_one .quiescentHeuristic 0x4000 (begins ++ [.bump, .load]) _ (by decide +kernel)
  · exact exists_one .quiescentHeuristic 0x4000
      ([.start false, .go, .go, .setOpt (some 500), .go, .go, .go] ++ [.bump, .load]) _
      (by decide +kernel)
  · obtain ⟨h, d, hh, hp⟩ := exists_one .stubborn 0x4000
      (begins ++ [.load, .extend, .go, .go, .go, .validate false none, .go, .go,
        .setOpt none, .go, .go, .go, .go, .go, .go, .go, .bump])
      (fun h d => TickOk oneSetup oneLib d () (.tick ⟨0x3000, false, 0⟩) ∧
        (timerDelivery oneSetup ⟨0x3000, false, 0⟩ d.shared (d.loc ()).endClock
          (d.loc ()).buf).2 = true ∧
        .flag ∈ own () h ∧ .tick ∉ own () h) (by decide +kernel)
    exact ⟨h, d, _, hh, hp⟩

end TinyStm.Kernel
