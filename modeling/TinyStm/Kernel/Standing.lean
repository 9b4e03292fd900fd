import TinyStm.Kernel.Protocol

/-!
# What one step does to the flags of a thread

Where a thread is, what its steps and its ticks do to `standing` and to
`recently_validated`, and what holds from a standing tick on until it is answered.
-/

namespace TinyStm.Kernel

open Interleave

variable {ι : Type*} {k : Setup} {vmax : BitVec 64} {lib : Addr → Bool} {t : Tick}
  {clock clock' : BitVec 64} {a : Act} {x x' : Thread}

/-! ### The place of a thread -/

def Extender.inCallback : Extender → Bool
  | .callback => true
  | _ => false

def Aborter.inCallback : Aborter → Bool
  | .callback => true
  | _ => false

def Preparer.inCallback : Preparer → Bool
  | .start => false
  | .rollback e => e.inCallback

/-- Inside a callback. -/
def Pc.inCallback : Pc → Bool
  | .callback _ => true
  | .extend e _ => e.inCallback
  | .rollback e _ => e.inCallback
  | .prepare e _ => e.inCallback
  | _ => false

/-- Inside `stm_extend`. -/
def Pc.inExtend : Pc → Bool
  | .extend _ _ => true
  | _ => false

/-- A callback is active exactly when there is a place to return to, which is in the
program; a tick changes neither the section nor the mode, and nothing else does. -/
structure PlaceOk (b : ControlBuffer) (x : Thread) : Prop where
  frames : if x.pc.inCallback then x.frames = [.app] else x.frames = []
  mode : x.buf.mode = b.mode
  sec : x.buf.secAddrDefined = b.secAddrDefined ∧ x.buf.secStartAddr = b.secStartAddr ∧
    x.buf.secEndAddr = b.secEndAddr

/-- The library and the callback are outside the section. -/
structure Apart (k : Setup) (lib : Addr → Bool) (b : ControlBuffer) : Prop where
  callback : lib k.callback = true
  away : ∀ ip, lib ip = true → ¬ b.InSection ip

theorem PlaceOk.inSection {b : ControlBuffer} (h : PlaceOk b x) (ip : Addr) :
    x.buf.InSection ip ↔ b.InSection ip := by
  unfold ControlBuffer.InSection
  rw [h.sec.2.1, h.sec.2.2]

/-- The callback is entered from the program only. -/
theorem PlaceOk.app_of_delivered {b : ControlBuffer} (h : PlaceOk b x) (hb : b.mode.stale = true)
    (ha : Apart k lib b) (hat : t.nested = true ∨ x.pc.At k lib t.ip)
    (hd : (timerDelivery k t clock x.endClock x.buf).2 = true) : x.pc = .app := by
  obtain ⟨hr, hdel⟩ := (delivered_iff (by rw [h.mode]; exact hb)).mp hd
  obtain ⟨hc, -, hs⟩ := hdel
  have hat : x.pc.At k lib t.ip := hat.resolve_left (by simp [hr.user.1])
  have hlib : lib t.ip ≠ true := fun hl => ha.away _ hl ((h.inSection _).mp hs)
  cases hpc : x.pc with
  | app => rfl
  | callback st =>
    rw [hpc] at hat
    cases st with
    | entry => exact absurd hat hc
    | _ => exact absurd hat.1 hlib
  | _ =>
    rw [hpc] at hat
    exact absurd hat.1 hlib

theorem PlaceOk.tick {b : ControlBuffer} (h : PlaceOk b x) (hb : b.mode.stale = true)
    (ha : Apart k lib b) (hat : t.nested = true ∨ x.pc.At k lib t.ip) :
    PlaceOk b (x.tick k t clock) := by
  have hkept : Kept x.buf (timerDelivery k t clock x.endClock x.buf).1 := timerDelivery_kept
  unfold Thread.tick
  dsimp only
  by_cases hd : (timerDelivery k t clock x.endClock x.buf).2 = true
  · rw [if_pos hd]
    have hpc := h.app_of_delivered hb ha hat hd
    have hf := h.frames
    rw [hpc] at hf
    refine ⟨?_, hkept.mode.trans h.mode, ?_⟩
    · simpa [hpc, Pc.inCallback] using hf
    · rw [← h.sec.1, ← h.sec.2.1, ← h.sec.2.2]
      exact hkept.sec
  · rw [if_neg hd]
    refine ⟨h.frames, hkept.mode.trans h.mode, ?_⟩
    rw [← h.sec.1, ← h.sec.2.1, ← h.sec.2.2]
    exact hkept.sec

theorem Extender.ret_inCallback (e : Extender) (ok : Bool) :
    (e.ret ok).inCallback = e.inCallback := by
  cases e <;> cases ok <;> rfl

theorem Aborter.ret_inCallback (e : Aborter) : e.ret.inCallback = e.inCallback := by
  cases e with
  | body o => cases o <;> rfl
  | _ => rfl

theorem Preparer.ret_inCallback (e : Preparer) : e.ret.inCallback = e.inCallback := by
  cases e <;> rfl

theorem PlaceOk.user {b : ControlBuffer} (h : PlaceOk b x)
    (hs : x.userStep vmax a clock = some (clock', x')) : PlaceOk b x' := by
  obtain ⟨buf, endClock, nesting, noRetry, pc, frames⟩ := x
  obtain ⟨hf, hm, hsec⟩ := h
  dsimp only at hf hm hsec
  cases pc with
  | app =>
    cases a with
    | commit =>
      cases hs
      split <;> exact ⟨hf, hm, hsec⟩
    | _ => cases hs <;> exact ⟨hf, hm, hsec⟩
  | start noRetry =>
    cases hs
    split <;> exact ⟨hf, hm, hsec⟩
  | started =>
    cases hs
    exact ⟨hf, hm, hsec⟩
  | prepare e st =>
    have hret := e.ret_inCallback
    cases st with
    | rollover | setOpt =>
      cases a <;> cases hs
      exact ⟨hf, hm, hsec⟩
    | testRecent =>
      cases hs
      refine ⟨?_, hm, hsec⟩
      dsimp only
      split
      · exact hf
      · rw [hret]
        exact hf
    | clearRecent =>
      cases hs
      refine ⟨?_, hm, hsec⟩
      rw [hret]
      exact hf
    | _ =>
      cases hs
      exact ⟨hf, hm, hsec⟩
  | op o st =>
    cases st with
    | body => cases a <;> cases hs <;> exact ⟨hf, hm, hsec⟩
    | _ =>
      cases hs
      exact ⟨hf, hm, hsec⟩
  | extend e st =>
    have hret := e.ret_inCallback
    cases st with
    | validate now =>
      cases a with
      | validate ok v =>
        cases hs
        refine ⟨?_, hm, hsec⟩
        dsimp only
        split
        · exact hf
        · rw [hret]
          exact hf
      | _ => cases hs
    | readClock =>
      cases hs
      refine ⟨?_, hm, hsec⟩
      dsimp only
      split
      · rw [hret]
        exact hf
      · exact hf
    | testStanding =>
      cases hs
      refine ⟨?_, hm, hsec⟩
      dsimp only
      split
      · exact hf
      · rw [hret]
        exact hf
    | clearStanding =>
      cases hs
      refine ⟨?_, hm, hsec⟩
      rw [hret]
      exact hf
    | _ =>
      cases hs
      exact ⟨hf, hm, hsec⟩
  | rollback e st =>
    have hret := e.ret_inCallback
    cases st with
    | testRetry =>
      cases hs
      simp only [Thread.rollbackStep]
      split <;> exact ⟨hf, hm, hsec⟩
    | longjmp =>
      cases hs
      exact ⟨rfl, hm, hsec⟩
    | clearTxOn =>
      cases hs
      refine ⟨?_, hm, hsec⟩
      simp only [Thread.rollbackStep, hret]
      exact hf
    | _ =>
      cases hs
      exact ⟨hf, hm, hsec⟩
  | commit =>
    cases a <;> cases hs <;> exact ⟨hf, hm, hsec⟩
  | committed =>
    cases hs
    exact ⟨hf, hm, hsec⟩
  | callback st =>
    cases st with
    | ret =>
      simp only [Pc.inCallback, if_true] at hf
      subst hf
      cases hs
      exact ⟨rfl, hm, hsec⟩
    | _ =>
      cases hs
      exact ⟨hf, hm, hsec⟩

/-! ### The two flags -/

/-- The steps that clear `standing`: in `stm_extend` after a validation, in `stm_rollback`
and in `stm_prepare`. -/
def Pc.clears : Pc → Bool
  | .extend _ .clearStanding | .rollback _ (.clearStanding _) | .prepare _ .clearStanding => true
  | _ => false

/-- The steps that set `recently_validated`. -/
def Pc.flags : Pc → Bool
  | .extend _ .setRecent | .op _ .setRecent => true
  | _ => false

/-- The step that clears `recently_validated`. -/
def Pc.unflags : Pc → Bool
  | .prepare _ .clearRecent => true
  | _ => false

theorem user_flags (hs : x.userStep vmax a clock = some (clock', x')) :
    x'.buf.standing = (if x.pc.clears then 0 else x.buf.standing) ∧
      x'.buf.recentlyValidated =
        (if x.pc.flags then 1 else if x.pc.unflags then 0 else x.buf.recentlyValidated) := by
  obtain ⟨buf, endClock, nesting, noRetry, pc, frames⟩ := x
  cases pc with
  | app =>
    cases a with
    | commit =>
      cases hs
      split <;> exact ⟨rfl, rfl⟩
    | _ => cases hs <;> exact ⟨rfl, rfl⟩
  | start noRetry =>
    cases hs
    split <;> exact ⟨rfl, rfl⟩
  | prepare e st =>
    cases st with
    | rollover | setOpt =>
      cases a <;> cases hs
      exact ⟨rfl, rfl⟩
    | _ =>
      cases hs
      exact ⟨rfl, rfl⟩
  | op o st =>
    cases st with
    | body => cases a <;> cases hs <;> exact ⟨rfl, rfl⟩
    | _ =>
      cases hs
      exact ⟨rfl, rfl⟩
  | extend e st =>
    cases st with
    | validate now =>
      cases a <;> cases hs
      exact ⟨rfl, rfl⟩
    | _ =>
      cases hs
      exact ⟨rfl, rfl⟩
  | rollback e st =>
    cases st with
    | testRetry =>
      cases hs
      simp only [Thread.rollbackStep]
      split <;> exact ⟨rfl, rfl⟩
    | _ =>
      cases hs
      exact ⟨rfl, rfl⟩
  | commit => cases a <;> cases hs <;> exact ⟨rfl, rfl⟩
  | callback st =>
    cases st <;> cases hs <;> exact ⟨rfl, rfl⟩
  | _ =>
    cases hs
    exact ⟨rfl, rfl⟩

theorem tick_kept (x : Thread) : Kept x.buf (x.tick k t clock).buf := by
  have hkept : Kept x.buf (timerDelivery k t clock x.endClock x.buf).1 := timerDelivery_kept
  unfold Thread.tick
  dsimp only
  split <;> exact hkept

/-- `standing` is cleared where the snapshot was extended, or is given up. -/
theorem cleared (hs : x.step k vmax a clock = some (clock', x')) (h : x.buf.standing ≠ 0)
    (h' : x'.buf.standing = 0) : (∀ t, a ≠ .tick t) ∧ x.pc.clears = true := by
  rcases step_cases hs with ⟨t, rfl, -, rfl⟩ | ⟨ha, hu⟩
  · exact absurd h' ((tick_kept x).standing_ne h)
  · refine ⟨ha, ?_⟩
    by_contra hc
    rw [(user_flags hu).1, if_neg hc] at h'
    exact h h'

/-- A flag of a validation that was neither used up by a tick nor reset for a new attempt. -/
def Pending (l : List Event) : Prop :=
  ∃ pre post, l = pre ++ .flag :: post ∧ .tick ∉ post ∧ .prepared ∉ post

theorem Pending.snoc {l : List Event} {e : Event} (h : Pending (l ++ [e])) :
    e = .flag ∨ Pending l ∧ e ≠ .tick ∧ e ≠ .prepared := by
  obtain ⟨pre, post, hl, ht, hp⟩ := h
  rcases List.eq_nil_or_concat post with rfl | ⟨post, e', rfl⟩
  · have hlast := List.append_inj_right' hl rfl
    exact .inl (List.singleton_inj.mp hlast)
  · rw [List.concat_eq_append] at hl ht hp
    rw [← List.cons_append, ← List.append_assoc] at hl
    have he := List.singleton_inj.mp (List.append_inj_right' hl rfl)
    have hpre := List.append_inj_left' hl rfl
    simp only [List.mem_append, List.mem_singleton, not_or] at ht hp
    subst he
    exact .inr ⟨⟨pre, post, hpre, ht.1, hp.1⟩, Ne.symm ht.2, Ne.symm hp.2⟩

theorem shows_of_unflags (h : x.pc.unflags = true) : x.shows a = some .prepared := by
  obtain ⟨buf, endClock, nesting, noRetry, pc, frames⟩ := x
  cases pc with
  | prepare e st =>
    cases st with
    | clearRecent => rfl
    | _ => cases h
  | _ => cases h

theorem flags_of_shows (h : x.shows a = some .flag) : x.pc.flags = true := by
  obtain ⟨buf, endClock, nesting, noRetry, pc, frames⟩ := x
  cases pc with
  | app => cases a <;> cases h
  | prepare e st =>
    cases st with
    | testRecent =>
      simp only [Thread.shows] at h
      split at h <;> cases h
    | _ => cases h
  | op o st =>
    cases st with
    | setRecent => rfl
    | ret => cases o <;> cases h
    | _ => cases o <;> cases h
  | extend e st =>
    cases st with
    | setRecent => rfl
    | _ => cases h
  | rollback e st => cases st <;> cases h
  | _ => cases h

/-- While a flag is pending it is set. -/
theorem pending_step {l : List Event} (h : Pending l → x.buf.recentlyValidated ≠ 0)
    (hs : x.step k vmax a clock = some (clock', x')) (hp : Pending (l ++ (event a x).toList)) :
    x'.buf.recentlyValidated ≠ 0 := by
  rcases step_cases hs with ⟨t, rfl, -, rfl⟩ | ⟨ha, hu⟩
  · rcases hp.snoc with he | ⟨-, he, -⟩
    · cases he
    · exact absurd rfl he
  rw [event_of_user ha] at hp
  rw [(user_flags hu).2]
  by_cases hf : x.pc.flags = true
  · rw [if_pos hf]
    decide
  rw [if_neg hf]
  -- what is pending was so before, for this step neither sets the flag nor resets it
  cases he : x.shows a with
  | none =>
    rw [he, Option.toList_none, List.append_nil] at hp
    have hun : ¬ x.pc.unflags = true := fun hun => by simp [shows_of_unflags hun] at he
    rw [if_neg hun]
    exact h hp
  | some e =>
    rw [he, Option.toList_some] at hp
    rcases hp.snoc with rfl | ⟨hpl, -, hne⟩
    · exact absurd (flags_of_shows he) hf
    · have hun : ¬ x.pc.unflags = true := fun hun => by
        rw [shows_of_unflags hun] at he
        exact hne (Option.some.inj he).symm
      rw [if_neg hun]
      exact h hpl

/-! ### A standing tick -/

/-- Where an attempt ends or begins: `standing` may be cleared, and the step that leaves
shows it. -/
def Pc.between : Pc → Bool
  | .prepare _ _ | .rollback _ _ | .started => true
  | _ => false

/-- A load that is past its look at `standing`. -/
def Pc.looked : Pc → Bool
  | .op .load .setTxOn | .op .load .ret => true
  | _ => false

/-- `stm_extend` is called, or the attempt ends. -/
def Event.answers : Event → Bool
  | .extend | .abort | .began => true
  | _ => false

/-- A load that was called after the tick has returned. -/
def Loaded (l : List Event) : Prop := ∃ pre post, l = pre ++ .loadCall :: post ∧ .loadReturn ∈ post

theorem Loaded.snoc {l : List Event} {e : Event} (h : Loaded (l ++ [e])) :
    Loaded l ∨ e = .loadReturn ∧ .loadCall ∈ l := by
  obtain ⟨pre, post, hl, hr⟩ := h
  rcases List.eq_nil_or_concat post with rfl | ⟨post, e', rfl⟩
  · cases hr
  · rw [List.concat_eq_append] at hl hr
    rw [← List.cons_append, ← List.append_assoc] at hl
    have he := List.singleton_inj.mp (List.append_inj_right' hl rfl)
    have hpre := List.append_inj_left' hl rfl
    rcases List.mem_append.mp hr with hr | hr
    · exact .inl ⟨pre, post, hpre, hr⟩
    · refine .inr ⟨he.trans (List.mem_singleton.mp hr).symm, ?_⟩
      rw [hpre]
      simp

/-- What holds after a tick was left standing, until it is answered. -/
structure Calm (l : List Event) (x : Thread) : Prop where
  loaded : ¬ Loaded l
  pc : x.pc.between = true ∨ x.buf.standing = 1 ∧
    (x.pc.inExtend = true → ∃ e, x.pc = .extend e .testTxOn) ∧
    (.loadCall ∈ l → x.pc.looked = false)

theorem Calm.snoc_tick {l : List Event} (h : Calm l x)
    (hx : x'.pc = x.pc ∨ x.pc = .app ∧ x'.pc = .callback .entry)
    (hs : x.buf.standing = 1 → x'.buf.standing = 1) : Calm (l ++ [.tick]) x' := by
  refine ⟨fun hl => ?_, ?_⟩
  · rcases hl.snoc with hl | ⟨he, -⟩
    · exact h.loaded hl
    · cases he
  rcases hx with hx | ⟨happ, hx⟩
  · rw [hx]
    refine h.pc.imp id fun ⟨h₁, h₂, h₃⟩ => ⟨hs h₁, h₂, fun hm => h₃ ?_⟩
    simpa using hm
  · rw [hx]
    obtain ⟨h₁, -⟩ := h.pc.resolve_left (by simp [happ, Pc.between])
    exact .inr ⟨hs h₁, nofun, fun _ => rfl⟩

/-- From one place between two attempts to another. -/
theorem Calm.next {l : List Event} (h : Calm l x) (hx' : x'.pc.between = true)
    {o : Option Event} (ho : o ≠ some .loadReturn) : Calm (l ++ o.toList) x' := by
  refine ⟨fun hl => ?_, .inl hx'⟩
  cases o with
  | none => exact h.loaded (by simpa using hl)
  | some e =>
    rcases hl.snoc with hl | ⟨he, -⟩
    · exact h.loaded hl
    · exact ho (by rw [he])

/-- A step inside an attempt after which the load, if any, has still to look. -/
theorem Calm.inside {l : List Event} (h : Calm l x) (hb : x.pc.between = false)
    (hs : x'.buf.standing = x.buf.standing)
    (he : x'.pc.inExtend = true → ∃ e, x'.pc = .extend e .testTxOn)
    (hl : x'.pc.looked = true → x.pc.looked = true) {o : Option Event}
    (ho : o = none ∨ o = some .flag) : Calm (l ++ o.toList) x' := by
  obtain ⟨hload, hpc⟩ := h
  obtain ⟨h₁, -, h₃⟩ := hpc.resolve_left (by simp [hb])
  have hmem : .loadCall ∈ l ++ o.toList → x'.pc.looked = false := fun hm => by
    have hm : Event.loadCall ∈ l := by
      rcases ho with rfl | rfl <;> simpa using hm
    by_contra hne
    have hx := h₃ hm
    rw [hl (by simpa using hne)] at hx
    cases hx
  refine ⟨fun hld => ?_, .inr ⟨hs.trans h₁, he, hmem⟩⟩
  rcases ho with rfl | rfl
  · exact hload (by simpa using hld)
  · rcases hld.snoc with hld | ⟨hne, -⟩
    · exact hload hld
    · cases hne

theorem Preparer.ret_between (e : Preparer) : e.ret.between = true := by
  cases e <;> rfl

theorem Calm.user {b : ControlBuffer} {l : List Event} (h : Calm l x) (hx : PlaceOk b x)
    (hs : x.userStep vmax a clock = some (clock', x'))
    (ha : ∀ e, x.shows a = some e → e.answers = false) : Calm (l ++ (x.shows a).toList) x' := by
  obtain ⟨buf, endClock, nesting, noRetry, pc, frames⟩ := x
  cases pc with
  | app =>
    cases a with
    | load =>
      cases hs
      obtain ⟨hload, hpc⟩ := h
      obtain ⟨h₁, -, h₃⟩ := hpc.resolve_left (by simp [Pc.between])
      refine ⟨fun hl => ?_, .inr ⟨h₁, nofun, fun _ => rfl⟩⟩
      rcases hl.snoc with hl | ⟨he, -⟩
      · exact hload hl
      · cases he
    | commit =>
      cases hs
      refine h.inside rfl ?_ ?_ ?_ (.inl rfl)
      · split <;> rfl
      · split <;> nofun
      · split <;> nofun
    | start | write | bump =>
      cases hs
      refine h.inside rfl ?_ ?_ ?_ (.inl rfl)
      exacts [rfl, nofun, nofun]
    | abort =>
      cases hs
      exact h.next rfl nofun
    | _ => cases hs
  | start noRetry =>
    cases hs
    split
    · refine h.inside rfl ?_ ?_ ?_ (.inl rfl)
      exacts [rfl, nofun, nofun]
    · exact h.next rfl nofun
  | started => cases ha _ rfl
  | prepare e st =>
    have hret := e.ret_between
    cases st with
    | rollover =>
      cases a with
      | rollover reset =>
        cases hs
        exact h.next rfl nofun
      | _ => cases hs
    | setOpt =>
      cases a with
      | setOpt v =>
        cases hs
        exact h.next rfl nofun
      | _ => cases hs
    | testRecent =>
      cases hs
      refine h.next ?_ ?_
      · dsimp only
        split
        · rfl
        · exact hret
      · simp only [Thread.shows]
        split <;> nofun
    | clearRecent =>
      cases hs
      exact h.next hret nofun
    | _ =>
      cases hs
      exact h.next rfl nofun
  | op o st =>
    cases st with
    | body =>
      cases a with
      | extend =>
        cases hs
        refine h.inside rfl ?_ ?_ ?_ (.inl ?_)
        exacts [rfl, fun _ => ⟨_, rfl⟩, nofun, by cases o <;> rfl]
      | rollback =>
        cases hs
        refine h.next ?_ ?_
        exacts [rfl, by cases o <;> nofun]
      | go =>
        cases hs
        refine h.inside rfl ?_ ?_ ?_ (.inl ?_)
        exacts [rfl, nofun, by cases o <;> nofun, by cases o <;> rfl]
      | _ => cases hs
    | testStanding =>
      -- a standing tick is seen here, and leads to `stm_extend`
      obtain ⟨h₁, -⟩ := h.pc.resolve_left (by simp [Pc.between])
      cases hs
      refine h.inside rfl ?_ ?_ ?_ (.inl ?_)
      · rfl
      · nofun
      · rw [if_pos h₁]
        cases o <;> nofun
      · cases o <;> rfl
    | clearTxOn =>
      cases hs
      refine h.inside rfl ?_ ?_ ?_ (.inl ?_)
      exacts [rfl, nofun, by cases o <;> nofun, by cases o <;> rfl]
    | setRecent =>
      cases hs
      refine h.inside rfl ?_ ?_ ?_ (.inr ?_)
      exacts [rfl, fun _ => ⟨_, rfl⟩, nofun, by cases o <;> rfl]
    | setTxOn =>
      cases hs
      refine h.inside rfl ?_ ?_ ?_ (.inl ?_)
      exacts [rfl, nofun, by cases o <;> simp [Pc.looked], by cases o <;> rfl]
    | ret =>
      cases o with
      | write =>
        cases hs
        refine h.inside rfl ?_ ?_ ?_ (.inl rfl)
        exacts [rfl, nofun, nofun]
      | load =>
        cases hs
        obtain ⟨hload, hpc⟩ := h
        obtain ⟨h₁, -, h₃⟩ := hpc.resolve_left (by simp [Pc.between])
        have hnot : .loadCall ∉ l := fun hm => by simp [Pc.looked] at h₃; exact h₃ hm
        refine ⟨fun hl => ?_, .inr ⟨h₁, nofun, fun _ => rfl⟩⟩
        rcases hl.snoc with hl | ⟨-, hm⟩
        · exact hload hl
        · exact hnot hm
  | extend e st =>
    obtain ⟨-, he, -⟩ := h.pc.resolve_left (by simp [Pc.between])
    obtain ⟨e', he⟩ := he rfl
    cases he
    cases ha _ rfl
  | rollback e st =>
    cases st with
    | testRetry =>
      cases hs
      refine h.next ?_ nofun
      simp only [Thread.rollbackStep]
      split <;> rfl
    | longjmp | clearTxOn => cases ha _ rfl
    | _ =>
      cases hs
      exact h.next rfl nofun
  | commit =>
    cases a with
    | rollback =>
      cases hs
      exact h.next rfl nofun
    | bump | setOpt | go =>
      cases hs
      refine h.inside rfl ?_ ?_ ?_ (.inl rfl)
      exacts [rfl, nofun, nofun]
    | _ => cases hs
  | committed =>
    cases hs
    refine h.inside rfl ?_ ?_ ?_ (.inl rfl)
    exacts [rfl, nofun, nofun]
  | callback st =>
    cases st with
    | abort =>
      cases hs
      exact h.next rfl nofun
    | save =>
      cases hs
      refine h.inside rfl ?_ ?_ ?_ (.inl rfl)
      exacts [rfl, fun _ => ⟨_, rfl⟩, nofun]
    | ret =>
      have hf : frames = [.app] := hx.frames
      subst hf
      cases hs
      refine h.inside rfl ?_ ?_ ?_ (.inl rfl)
      exacts [rfl, nofun, nofun]
    | _ =>
      cases hs
      refine h.inside rfl ?_ ?_ ?_ (.inl rfl)
      exacts [rfl, nofun, nofun]

end TinyStm.Kernel
