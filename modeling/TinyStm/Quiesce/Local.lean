import TinyStm.Quiesce.Model

/-!
# What one thread relies on

The invariant of a thread says, for each of its positions, whether it is registered,
whether it holds `quiesce_mutex`, whether its status is active and whether it is the
thread in serial mode. Another thread may not touch what the holder of the mutex has
set up: this is the interference a thread has to live with.
-/

namespace TinyStm.Quiesce

/-- The thread holds `quiesce_mutex`, and nobody is in serial mode. -/
def Locked (i : ℕ) (g : Shared) : Prop := g.mutex = some i ∧ g.serialBy = none

def Active (i : ℕ) (g : Shared) : Prop := (g.status i).status.isActive = true

/-- A thread that is irrevocable in serial mode has stopped the others. -/
def Owns (i : ℕ) (g : Shared) (x : Thread) : Prop :=
  x.level = 3 → x.serial = true → g.serialBy = some i

/-- A restart with irrevocability pending finds the status inactive. -/
def Calm (i : ℕ) (g : Shared) (x : Thread) : Prop := x.level ≠ 0 → ¬ Active i g

/-- The first request for irrevocability comes from the program, a later one from a
restart. -/
def AskOk (i : ℕ) (g : Shared) (x : Thread) : Ret → Prop
  | .call => Active i g
  | .prepare => x.level ≠ 0 ∧ ¬ Active i g

def IrrOk (i : ℕ) (g : Shared) (x : Thread) (r : Ret) : Irr → Prop
  | .enter _ | .spin | .quiesce => True
  | .test | .cas | .validate | .status | .writes => r = .call
  | .store => x.serial = true ∧ Locked i g
  | .scan _ | .watch _ _ _ => x.serial = true ∧ Locked i g ∧ g.quiesce = 2
  | .done => x.serial = true → Locked i g ∧ g.quiesce = 2

def ChkOk (i : ℕ) (g : Shared) : Chk → Prop
  | .load | .save => Active i g
  | .setIdle s => Active i g ∧ s.isActive = true
  | .wait s | .restore s => s.isActive = true

def ComOk (i : ℕ) (g : Shared) (x : Thread) : Com → Prop
  | .status | .body | .post => Owns i g x ∧ (x.level = 0 ∨ x.level = 3)
  | .flag => Owns i g x ∧ x.level = 3
  | .release => g.serialBy = some i
  | .unlock => Locked i g
  | .done => True

def PcOk (i : ℕ) (g : Shared) (x : Thread) : Pc → Prop
  | .off | .enterLock => True
  | .enterBody => Locked i g
  | .idle | .exitLock => i ∈ g.threads
  | .exitBody => i ∈ g.threads ∧ Locked i g
  | .prep | .prepStatus => i ∈ g.threads ∧ Owns i g x ∧ Calm i g x
  | .prepIrrevocable => i ∈ g.threads ∧ Owns i g x ∧ Calm i g x ∧ x.level = 3
  | .bar k st => i ∈ g.threads ∧ (k = .prepare → Owns i g x ∧ Calm i g x) ∧
      (st ≠ .lock → st ≠ .sleep → Locked i g)
  | .irr r st => i ∈ g.threads ∧ Owns i g x ∧ AskOk i g x r ∧ IrrOk i g x r st
  | .chk st => i ∈ g.threads ∧ Owns i g x ∧ (x.level = 0 ∨ x.level = 3) ∧ ChkOk i g st
  | .run => i ∈ g.threads ∧ Owns i g x ∧ (x.level = 0 ∨ x.level = 3) ∧ Active i g
  | .com st => i ∈ g.threads ∧ Active i g ∧ ComOk i g x st
  | .rb _ => i ∈ g.threads ∧ Owns i g x ∧ Active i g

structure Local (i : ℕ) (g : Shared) (x : Thread) : Prop where
  pc : PcOk i g x x.pc
  serial : x.serial = true → x.level ≠ 0

/-- The thread in serial mode holds the mutex and has set `quiesce`. -/
def SerialOk (g : Shared) : Prop := ∀ p, g.serialBy = some p → g.mutex = some p ∧ g.quiesce = 2

/-- What thread `j` sees of a step of another thread. -/
structure Interf (j : ℕ) (g g' : Shared) : Prop where
  mutex : g.mutex = some j →
    g'.mutex = some j ∧ g'.quiesce = g.quiesce ∧ g'.threads = g.threads ∧ g'.serialBy = g.serialBy
  serialBy : g.serialBy = some j → g'.serialBy = some j
  threads : j ∈ g.threads → j ∈ g'.threads
  active : (g'.status j).status.isActive = (g.status j).status.isActive
  counter : (g'.status j).counter = (g.status j).counter

theorem Interf.refl (j : ℕ) (g : Shared) : Interf j g g :=
  ⟨fun h => ⟨h, rfl, rfl, rfl⟩, id, id, rfl, rfl⟩

section Stable

variable {i : ℕ} {g g' : Shared} {x : Thread} (hi : Interf i g g')
include hi

theorem Interf.locked (h : Locked i g) : Locked i g' :=
  ⟨(hi.mutex h.1).1, (hi.mutex h.1).2.2.2.trans h.2⟩

theorem Interf.active_iff : Active i g' ↔ Active i g := by
  unfold Active
  rw [hi.active]

theorem Interf.owns (h : Owns i g x) : Owns i g' x :=
  fun h3 hs => hi.serialBy (h h3 hs)

theorem Interf.calm (h : Calm i g x) : Calm i g' x :=
  fun hl => (not_congr hi.active_iff).mpr (h hl)

theorem Interf.irrOk {r : Ret} {st : Irr} (h : IrrOk i g x r st) : IrrOk i g' x r st := by
  cases st with
  | store => exact ⟨h.1, hi.locked h.2⟩
  | scan _ | watch _ _ _ =>
    exact ⟨h.1, hi.locked h.2.1, (hi.mutex h.2.1.1).2.1.trans h.2.2⟩
  | done =>
    exact fun hs => ⟨hi.locked (h hs).1, (hi.mutex (h hs).1.1).2.1.trans (h hs).2⟩
  | _ => exact h

theorem Interf.askOk {r : Ret} (h : AskOk i g x r) : AskOk i g' x r := by
  cases r with
  | call => exact hi.active_iff.mpr h
  | prepare => exact ⟨h.1, (not_congr hi.active_iff).mpr h.2⟩

theorem Interf.chkOk {st : Chk} (h : ChkOk i g st) : ChkOk i g' st := by
  cases st with
  | load | save => exact hi.active_iff.mpr h
  | setIdle s => exact ⟨hi.active_iff.mpr h.1, h.2⟩
  | wait s | restore s => exact h

theorem Interf.comOk {st : Com} (h : ComOk i g x st) : ComOk i g' x st := by
  cases st with
  | status | body | post | flag => exact ⟨hi.owns h.1, h.2⟩
  | release => exact hi.serialBy h
  | unlock => exact hi.locked h
  | done => trivial

theorem Local.stable (h : Local i g x) : Local i g' x := by
  refine ⟨?_, h.serial⟩
  have hp := h.pc
  cases hpc : x.pc with
  | off | enterLock => trivial
  | enterBody => rw [hpc] at hp; exact hi.locked hp
  | idle | exitLock => rw [hpc] at hp; exact hi.threads hp
  | exitBody => rw [hpc] at hp; exact ⟨hi.threads hp.1, hi.locked hp.2⟩
  | prep | prepStatus =>
    rw [hpc] at hp; exact ⟨hi.threads hp.1, hi.owns hp.2.1, hi.calm hp.2.2⟩
  | prepIrrevocable =>
    rw [hpc] at hp; exact ⟨hi.threads hp.1, hi.owns hp.2.1, hi.calm hp.2.2.1, hp.2.2.2⟩
  | bar k st =>
    rw [hpc] at hp
    exact ⟨hi.threads hp.1, fun hk => ⟨hi.owns (hp.2.1 hk).1, hi.calm (hp.2.1 hk).2⟩,
      fun h1 h2 => hi.locked (hp.2.2 h1 h2)⟩
  | irr r st =>
    rw [hpc] at hp
    exact ⟨hi.threads hp.1, hi.owns hp.2.1, hi.askOk hp.2.2.1, hi.irrOk hp.2.2.2⟩
  | chk st =>
    rw [hpc] at hp; exact ⟨hi.threads hp.1, hi.owns hp.2.1, hp.2.2.1, hi.chkOk hp.2.2.2⟩
  | run =>
    rw [hpc] at hp; exact ⟨hi.threads hp.1, hi.owns hp.2.1, hp.2.2.1, hi.active_iff.mpr hp.2.2.2⟩
  | com st =>
    rw [hpc] at hp; exact ⟨hi.threads hp.1, hi.active_iff.mpr hp.2.1, hi.comOk hp.2.2⟩
  | rb st =>
    rw [hpc] at hp; exact ⟨hi.threads hp.1, hi.owns hp.2.1, hi.active_iff.mpr hp.2.2⟩

end Stable

/-! ### One step -/

structure StepOk (i : ℕ) (g g' : Shared) (x' : Thread) : Prop where
  serialOk : SerialOk g'
  loc : Local i g' x'
  others : ∀ j, j ≠ i → Interf j g g'

section Step

variable {i : ℕ} {modular wt c : Bool} {vmax : ℕ} {g g' : Shared} {x x' : Thread}

theorem SerialOk.none_of_free (hg : SerialOk g) (hfree : g.mutex = none) : g.serialBy = none := by
  rw [Option.eq_none_iff_forall_ne_some]
  intro p hp
  have hm := (hg p hp).1
  simp [hfree] at hm

theorem serialOk_of_none (h : g.serialBy = none) : SerialOk g := by
  intro p hp
  simp [h] at hp

/-- A step that changes the descriptor only. -/
theorem StepOk.stay (hg : SerialOk g) (h : Local i g x') : StepOk i g g x' :=
  ⟨hg, h, fun j _ => Interf.refl j g⟩

/-- A step that changes the own status. -/
theorem StepOk.status (hg : SerialOk g) {s : StatusWord}
    (h : Local i { g with status := Function.update g.status i s } x') :
    StepOk i g { g with status := Function.update g.status i s } x' where
  serialOk := hg
  loc := h
  others j hj := ⟨fun hm => ⟨hm, rfl, rfl, rfl⟩, id, id, by simp [hj], by simp [hj]⟩

/-- The mutex is taken. -/
theorem StepOk.acquire (hg : SerialOk g) (hfree : g.mutex = none)
    (h : Locked i { g with mutex := some i } → Local i { g with mutex := some i } x') :
    StepOk i g { g with mutex := some i } x' where
  serialOk := serialOk_of_none (hg.none_of_free hfree)
  loc := h ⟨rfl, hg.none_of_free hfree⟩
  others j _ := ⟨by simp [hfree], id, id, rfl, rfl⟩

/-- The holder of the mutex may change everything that it protects. -/
theorem StepOk.holder (hl : g.mutex = some i) (hs : ∀ j, j ≠ i → g.serialBy ≠ some j)
    (hg : SerialOk g') (hst : g'.status = g.status)
    (ht : ∀ j, j ≠ i → j ∈ g.threads → j ∈ g'.threads) (h : Local i g' x') :
    StepOk i g g' x' where
  serialOk := hg
  loc := h
  others j hj := by
    refine ⟨?_, fun h => absurd h (hs j hj), ht j hj, by rw [hst], by rw [hst]⟩
    intro hj'
    rw [hl, Option.some.injEq] at hj'
    exact absurd hj'.symm hj

theorem StepOk.locked (hl : Locked i g) (hno : g'.serialBy = none) (hst : g'.status = g.status)
    (ht : ∀ j, j ≠ i → j ∈ g.threads → j ∈ g'.threads) (h : Local i g' x') : StepOk i g g' x' :=
  StepOk.holder hl.1 (by simp [hl.2]) (serialOk_of_none hno) hst ht h

theorem barStep_ok (hg : SerialOk g) (h : Local i g x) {k : Back} {st : Bar}
    (hpc : x.pc = .bar k st) (hs : barStep i k g x st = some (g', x')) : StepOk i g g' x' := by
  obtain ⟨hp, hser⟩ := h
  rw [hpc] at hp
  obtain ⟨hreg, hprep, hlock⟩ := hp
  cases st with
  | lock | sleep =>
    simp only [barStep, Option.ite_none_right_eq_some, Option.some.injEq, Prod.mk.injEq] at hs
    obtain ⟨hfree, rfl, rfl⟩ := hs
    exact StepOk.acquire hg hfree fun hl => ⟨⟨hreg, hprep, fun _ _ => hl⟩, hser⟩
  | test =>
    have hl := hlock nofun nofun
    simp only [barStep] at hs
    split_ifs at hs <;> obtain ⟨rfl, rfl⟩ := hs
    · exact StepOk.stay hg ⟨⟨hreg, hprep, fun _ _ => hl⟩, hser⟩
    · exact StepOk.stay hg ⟨⟨hreg, hprep, fun _ _ => hl⟩, hser⟩
    · exact StepOk.locked hl hl.2 rfl (fun _ _ => id) ⟨⟨hreg, hprep, fun _ h => absurd rfl h⟩, hser⟩
  | leave =>
    have hl := hlock nofun nofun
    obtain ⟨rfl, rfl⟩ := hs
    refine StepOk.locked hl hl.2 rfl (fun _ _ => id) ⟨?_, hser⟩
    cases k with
    | prepare => exact ⟨hreg, hprep rfl⟩
    | unit => exact hreg
  | arrive | roll | reset | openUp =>
    have hl := hlock nofun nofun
    obtain ⟨rfl, rfl⟩ := hs
    exact StepOk.locked hl hl.2 rfl (fun _ _ => id) ⟨⟨hreg, hprep, fun _ _ => hl⟩, hser⟩

@[simp] theorem active_setStatus {s : Status} : Active i (g.setStatus i s) ↔ s.isActive = true := by
  simp [Active, Shared.setStatus]

@[simp] theorem active_updateStatus {s : Status} :
    Active i (g.updateStatus modular i s) ↔ s.isActive = true := by
  simp [Active, Shared.updateStatus]

theorem chkStep_ok (hg : SerialOk g) (h : Local i g x) {st : Chk}
    (hpc : x.pc = .chk st) (hs : chkStep i g x st = some (g', x')) : StepOk i g g' x' := by
  obtain ⟨hp, hser⟩ := h
  rw [hpc] at hp
  obtain ⟨hreg, hown, hlev, hst⟩ := hp
  cases st with
  | load =>
    simp only [chkStep] at hs
    split_ifs at hs <;> obtain ⟨rfl, rfl⟩ := hs
    all_goals exact StepOk.stay hg ⟨⟨hreg, hown, hlev, hst⟩, hser⟩
  | save =>
    obtain ⟨rfl, rfl⟩ := hs
    exact StepOk.stay hg ⟨⟨hreg, hown, hlev, hst, hst⟩, hser⟩
  | setIdle s =>
    obtain ⟨rfl, rfl⟩ := hs
    exact StepOk.status hg ⟨⟨hreg, hown, hlev, hst.2⟩, hser⟩
  | wait s =>
    simp only [chkStep] at hs
    split_ifs at hs <;> obtain ⟨rfl, rfl⟩ := hs
    · exact StepOk.stay hg ⟨by rw [hpc]; exact ⟨hreg, hown, hlev, hst⟩, hser⟩
    · exact StepOk.stay hg ⟨⟨hreg, hown, hlev, hst⟩, hser⟩
  | restore s =>
    obtain ⟨rfl, rfl⟩ := hs
    exact StepOk.status hg ⟨⟨hreg, hown, hlev, active_setStatus.mpr hst⟩, hser⟩

theorem rbStep_ok (hg : SerialOk g) (h : Local i g x) {st : Rb}
    (hpc : x.pc = .rb st) (hs : rbStep modular i g x st = some (g', x')) : StepOk i g g' x' := by
  obtain ⟨hp, hser⟩ := h
  rw [hpc] at hp
  obtain ⟨hreg, hown, hact⟩ := hp
  cases st with
  | status =>
    simp only [rbStep] at hs
    split_ifs at hs <;> obtain ⟨rfl, rfl⟩ := hs
    · exact StepOk.status hg ⟨⟨hreg, hown, active_setStatus.mpr rfl⟩, hser⟩
    · exact StepOk.stay hg ⟨⟨hreg, hown, hact⟩, hser⟩
  | body | post =>
    obtain ⟨rfl, rfl⟩ := hs
    exact StepOk.stay hg ⟨⟨hreg, hown, hact⟩, hser⟩
  | done =>
    obtain ⟨rfl, rfl⟩ := hs
    refine StepOk.status hg ⟨⟨hreg, hown, fun _ => ?_⟩, hser⟩
    exact (not_congr active_setStatus).mpr (by decide)

theorem comStep_ok (hg : SerialOk g) (h : Local i g x) {st : Com}
    (hpc : x.pc = .com st) (hs : comStep modular i g x st = some (g', x')) : StepOk i g g' x' := by
  obtain ⟨hp, hser⟩ := h
  rw [hpc] at hp
  obtain ⟨hreg, hact, hst⟩ := hp
  cases st with
  | status =>
    simp only [comStep] at hs
    split_ifs at hs <;> obtain ⟨rfl, rfl⟩ := hs
    · exact StepOk.stay hg ⟨⟨hreg, hst.1, hact⟩, hser⟩
    · exact StepOk.status hg ⟨⟨hreg, active_setStatus.mpr rfl, hst⟩, hser⟩
    · exact StepOk.stay hg ⟨⟨hreg, hact, hst⟩, hser⟩
  | body | post =>
    obtain ⟨rfl, rfl⟩ := hs
    apply StepOk.stay hg
    by_cases hl : x.level = 0
    · simp only [hl, if_true]
      exact ⟨⟨hreg, hact, trivial⟩, fun hs => absurd hl (hser hs)⟩
    · simp only [hl, if_false]
      exact ⟨⟨hreg, hact, hst.1, hst.2.resolve_left hl⟩, hser⟩
  | flag =>
    obtain ⟨rfl, rfl⟩ := hs
    refine ⟨hg, ?_, fun j _ => ⟨fun hm => ⟨hm, rfl, rfl, rfl⟩, id, id, rfl, rfl⟩⟩
    cases hx : x.serial with
    | false => exact ⟨⟨hreg, hact, trivial⟩, fun h => absurd h (by simp)⟩
    | true => exact ⟨⟨hreg, hact, hst.1 hst.2 hx⟩, fun _ => hser hx⟩
  | release =>
    have hm : g.mutex = some i := (hg i hst).1
    obtain ⟨rfl, rfl⟩ := hs
    refine StepOk.holder hm ?_ (serialOk_of_none rfl) rfl (fun _ _ => id)
      ⟨⟨hreg, hact, hm, rfl⟩, hser⟩
    intro j hj
    rw [show g.serialBy = some i from hst]
    exact fun h => hj (Option.some.inj h).symm
  | unlock =>
    obtain ⟨rfl, rfl⟩ := hs
    exact StepOk.locked hst hst.2 rfl (fun _ _ => id) ⟨⟨hreg, hact, trivial⟩, hser⟩
  | done =>
    obtain ⟨rfl, rfl⟩ := hs
    exact StepOk.status hg ⟨hreg, hser⟩

/-- `stm_set_irrevocable` gives up. -/
theorem StepOk.giveUp (hg : SerialOk g) (hreg : i ∈ g.threads) (hown : Owns i g x)
    (hact : Active i g) (hser : x.serial = true → x.level ≠ 0) : StepOk i g g (rollback x) :=
  StepOk.stay hg ⟨⟨hreg, hown, hact⟩, hser⟩

/-- The flag `irrevocable` is of no concern to the others. -/
theorem StepOk.flagged (hg : SerialOk g) {b : Bool} (h : Local i { g with irrevocable := b } x') :
    StepOk i g { g with irrevocable := b } x' :=
  ⟨hg, h, fun _ _ => ⟨fun hm => ⟨hm, rfl, rfl, rfl⟩, id, id, rfl, rfl⟩⟩

/-- Irrevocability is complete: the program goes on, or the restart does. -/
theorem pcOk_return {r : Ret} (hreg : i ∈ g.threads) (hown : Owns i g x) (hask : AskOk i g x r)
    (h3 : x.level = 3) : PcOk i g x r.pc := by
  cases r with
  | call => exact ⟨hreg, hown, .inr h3, hask⟩
  | prepare => exact ⟨hreg, hown, fun _ => hask.2, h3⟩

theorem irrStep_ok (hg : SerialOk g) (h : Local i g x) {r : Ret} {st : Irr}
    (hpc : x.pc = .irr r st) (hs : irrStep modular i c r g x st = some (g', x')) :
    StepOk i g g' x' := by
  obtain ⟨hp, hser⟩ := h
  rw [hpc] at hp
  obtain ⟨hreg, hown, hask, hst⟩ := hp
  cases st with
  | enter s =>
    simp only [irrStep] at hs
    split_ifs at hs with h3 h0 h1 <;> obtain ⟨rfl, rfl⟩ := hs
    · exact StepOk.stay hg ⟨pcOk_return (x := { x with pc := r.pc }) hreg hown hask h3, hser⟩
    · have hcall : r = .call := by
        cases r with
        | call => rfl
        | prepare => exact absurd h0 hask.1
      subst hcall
      exact StepOk.stay hg ⟨⟨hreg, fun h => by simp at h, hask, rfl⟩, fun _ => by simp⟩
    · exact StepOk.stay hg ⟨⟨hreg, hown, hask, trivial⟩, hser⟩
    · exact StepOk.stay hg ⟨⟨hreg, hown, hask, trivial⟩, hser⟩
  | test =>
    subst hst
    simp only [irrStep] at hs
    split_ifs at hs <;> obtain ⟨rfl, rfl⟩ := hs
    · exact StepOk.giveUp hg hreg hown hask hser
    · exact StepOk.stay hg ⟨⟨hreg, hown, hask, rfl⟩, hser⟩
  | cas =>
    subst hst
    simp only [irrStep] at hs
    split_ifs at hs <;> obtain ⟨rfl, rfl⟩ := hs
    · exact StepOk.giveUp hg hreg hown hask hser
    · exact StepOk.flagged hg ⟨⟨hreg, fun h => by simp at h, hask, rfl⟩, fun _ => by simp⟩
  | validate =>
    subst hst
    simp only [irrStep] at hs
    split_ifs at hs <;> obtain ⟨rfl, rfl⟩ := hs
    · exact StepOk.stay hg ⟨⟨hreg, hown, hask, rfl⟩, hser⟩
    · exact StepOk.giveUp hg hreg hown hask hser
  | status =>
    subst hst
    simp only [irrStep] at hs
    split_ifs at hs <;> obtain ⟨rfl, rfl⟩ := hs
    · exact StepOk.status hg ⟨⟨hreg, hown, active_setStatus.mpr rfl, rfl⟩, hser⟩
    · exact StepOk.giveUp hg hreg hown hask hser
    · exact StepOk.stay hg ⟨⟨hreg, hown, hask, rfl⟩, hser⟩
  | writes =>
    subst hst
    simp only [irrStep] at hs
    split_ifs at hs <;> obtain ⟨rfl, rfl⟩ := hs
    · exact StepOk.giveUp hg hreg hown hask hser
    · exact StepOk.stay hg ⟨⟨hreg, hown, hask, trivial⟩, hser⟩
  | spin =>
    simp only [irrStep] at hs
    split_ifs at hs <;> obtain ⟨rfl, rfl⟩ := hs
    · exact StepOk.stay hg ⟨by rw [hpc]; exact ⟨hreg, hown, hask, trivial⟩, hser⟩
    · refine StepOk.flagged hg ⟨⟨hreg, fun h => by simp at h, ?_, trivial⟩, fun _ => by simp⟩
      cases r with
      | call => exact hask
      | prepare => exact ⟨by simp, hask.2⟩
  | quiesce =>
    simp only [irrStep] at hs
    split_ifs at hs with hx hfree hact <;> obtain ⟨rfl, rfl⟩ := hs
    · exact StepOk.acquire hg hfree fun hl => ⟨⟨hreg, hown, hask, hx, hl⟩, hser⟩
    · exact StepOk.giveUp hg hreg hown hact hser
    · exact StepOk.stay hg ⟨⟨hreg, hown, hask, fun h => absurd h hx⟩, hser⟩
  | store =>
    obtain ⟨rfl, rfl⟩ := hs
    exact StepOk.locked hst.2 hst.2.2 rfl (fun _ _ => id)
      ⟨⟨hreg, hown, hask, hst.1, hst.2, rfl⟩, hser⟩
  | scan rest =>
    cases rest with
    | nil =>
      obtain ⟨rfl, rfl⟩ := hs
      exact StepOk.stay hg ⟨⟨hreg, hown, hask, fun _ => hst.2⟩, hser⟩
    | cons t rest =>
      simp only [irrStep] at hs
      split_ifs at hs <;> obtain ⟨rfl, rfl⟩ := hs
      · exact StepOk.stay hg ⟨⟨hreg, hown, hask, hst⟩, hser⟩
      · exact StepOk.stay hg ⟨⟨hreg, hown, hask, hst⟩, hser⟩
      · exact StepOk.stay hg ⟨by rw [hpc]; exact ⟨hreg, hown, hask, hst⟩, hser⟩
      · exact StepOk.stay hg ⟨⟨hreg, hown, hask, hst⟩, hser⟩
  | watch t n rest =>
    simp only [irrStep] at hs
    split_ifs at hs <;> obtain ⟨rfl, rfl⟩ := hs
    · exact StepOk.stay hg ⟨by rw [hpc]; exact ⟨hreg, hown, hask, hst⟩, hser⟩
    · exact StepOk.stay hg ⟨⟨hreg, hown, hask, hst⟩, hser⟩
  | done =>
    obtain ⟨rfl, rfl⟩ := hs
    cases hx : x.serial with
    | false =>
      simp only [Bool.false_eq_true, if_false]
      refine StepOk.stay hg ⟨pcOk_return hreg (fun _ h => by simp at h) ?_ rfl, fun _ => by simp⟩
      cases r with
      | call => exact hask
      | prepare => exact ⟨by simp, hask.2⟩
    | true =>
      obtain ⟨hl, hq⟩ := hst hx
      simp only [if_true]
      refine StepOk.holder hl.1 (by simp [hl.2]) ?_ rfl (fun _ _ => id)
        ⟨pcOk_return hreg (fun _ _ => rfl) ?_ rfl, fun _ => by simp⟩
      · intro p hp
        obtain rfl := Option.some.inj hp
        exact ⟨hl.1, hq⟩
      · cases r with
        | call => exact hask
        | prepare => exact ⟨by simp, hask.2⟩

theorem goStep_ok (hg : SerialOk g) (h : Local i g x)
    (hs : goStep modular vmax i c g x x.pc = some (g', x')) : StepOk i g g' x' := by
  obtain ⟨hp, hser⟩ := h
  cases hpc : x.pc with
  | off | idle | run =>
    rw [hpc] at hs
    exact absurd hs nofun
  | enterLock | exitLock =>
    rw [hpc] at hs hp
    simp only [goStep, Option.ite_none_right_eq_some, Option.some.injEq, Prod.mk.injEq] at hs
    obtain ⟨hfree, rfl, rfl⟩ := hs
    refine StepOk.acquire hg hfree fun hl => ⟨?_, hser⟩
    first | exact hl | exact ⟨hp, hl⟩
  | enterBody =>
    rw [hpc] at hs hp
    obtain ⟨rfl, rfl⟩ := hs
    exact StepOk.locked hp hp.2 rfl (fun _ _ h => List.mem_cons_of_mem _ h)
      ⟨List.mem_cons_self, hser⟩
  | exitBody =>
    rw [hpc] at hs hp
    obtain ⟨rfl, rfl⟩ := hs
    exact StepOk.locked hp.2 hp.2.2 rfl (fun j hj h => (List.mem_erase_of_ne hj).mpr h)
      ⟨trivial, hser⟩
  | prep =>
    rw [hpc] at hs hp
    simp only [goStep] at hs
    split_ifs at hs <;> obtain ⟨rfl, rfl⟩ := hs
    · exact StepOk.stay hg ⟨⟨hp.1, fun _ => hp.2, fun h => absurd rfl h⟩, hser⟩
    · exact StepOk.stay hg ⟨hp, hser⟩
  | prepStatus =>
    rw [hpc] at hs hp
    simp only [goStep] at hs
    split_ifs at hs with hl <;> obtain ⟨rfl, rfl⟩ := hs
    · exact StepOk.status hg ⟨⟨hp.1, hp.2.1, .inl hl, active_updateStatus.mpr rfl⟩, hser⟩
    · exact StepOk.stay hg ⟨⟨hp.1, hp.2.1, ⟨hl, hp.2.2 hl⟩, trivial⟩, hser⟩
  | prepIrrevocable =>
    rw [hpc] at hs hp
    obtain ⟨rfl, rfl⟩ := hs
    exact StepOk.status hg
      ⟨⟨hp.1, hp.2.1, .inr hp.2.2.2, active_updateStatus.mpr rfl⟩, hser⟩
  | bar k st => exact barStep_ok hg ⟨hp, hser⟩ hpc (by rwa [hpc] at hs)
  | irr r st => exact irrStep_ok hg ⟨hp, hser⟩ hpc (by rwa [hpc] at hs)
  | chk st => exact chkStep_ok hg ⟨hp, hser⟩ hpc (by rwa [hpc] at hs)
  | com st => exact comStep_ok hg ⟨hp, hser⟩ hpc (by rwa [hpc] at hs)
  | rb st => exact rbStep_ok hg ⟨hp, hser⟩ hpc (by rwa [hpc] at hs)

theorem Local.stmStart (h : Local i g x) (hreg : i ∈ g.threads) (nr : Bool) :
    Local i g (stmStart nr x) := by
  unfold Quiesce.stmStart
  split_ifs
  · exact ⟨h.pc, h.serial⟩
  · exact ⟨⟨hreg, fun h => by simp at h, fun h => absurd rfl h⟩, fun h => by simp at h⟩

/-- The clock is of no concern to the others. -/
theorem StepOk.fetchInc (hg : SerialOk g) (h : Local i (g.fetchInc vmax i) x') :
    StepOk i g (g.fetchInc vmax i) x' :=
  ⟨hg, h, fun _ _ => ⟨fun hm => ⟨hm, rfl, rfl, rfl⟩, id, id, rfl, rfl⟩⟩

theorem outStep_ok (hg : SerialOk g) (h : Local i g x) (hpc : x.pc = .idle) {a : Act}
    (hs : outStep vmax i g x a = some (g', x')) : StepOk i g g' x' := by
  have hreg : i ∈ g.threads := by
    have := h.pc
    rwa [hpc] at this
  cases a with
  | exit =>
    simp only [outStep] at hs
    split_ifs at hs
    obtain ⟨rfl, rfl⟩ := hs
    exact StepOk.stay hg ⟨hreg, h.serial⟩
  | start nr =>
    obtain ⟨rfl, rfl⟩ := hs
    exact StepOk.stay hg (h.stmStart hreg nr)
  | unitStore =>
    obtain ⟨rfl, rfl⟩ := hs
    refine StepOk.fetchInc hg ⟨?_, h.serial⟩
    split_ifs
    · exact ⟨hreg, nofun, fun h => absurd rfl h⟩
    · exact hreg
  | _ => exact absurd hs nofun

theorem runStep_ok (hg : SerialOk g) (h : Local i g x) (hpc : x.pc = .run) {a : Act}
    (hs : runStep modular i g x a = some (g', x')) : StepOk i g g' x' := by
  have hp := h.pc
  rw [hpc] at hp
  obtain ⟨hreg, hown, hlev, hact⟩ := hp
  cases a with
  | start nr =>
    obtain ⟨rfl, rfl⟩ := hs
    exact StepOk.stay hg (h.stmStart hreg nr)
  | access =>
    obtain ⟨rfl, rfl⟩ := hs
    exact StepOk.stay hg ⟨h.pc, h.serial⟩
  | abort =>
    obtain ⟨rfl, rfl⟩ := hs
    exact StepOk.giveUp hg hreg hown hact h.serial
  | commit =>
    obtain ⟨rfl, rfl⟩ := hs
    refine StepOk.stay hg ⟨?_, h.serial⟩
    split_ifs
    · exact ⟨hreg, hown, hlev, hact⟩
    · exact ⟨hreg, hact, hown, hlev⟩
  | setIrrevocable s =>
    obtain ⟨rfl, rfl⟩ := hs
    exact StepOk.stay hg ⟨⟨hreg, hown, hact, trivial⟩, h.serial⟩
  | kill j =>
    simp only [runStep] at hs
    split_ifs at hs with hk
    obtain ⟨rfl, rfl⟩ := hs
    simp only [Bool.and_eq_true, decide_eq_true_eq] at hk
    have hother : ∀ k, Interf k g (g.setStatus j .killed) := by
      intro k
      refine ⟨fun hm => ⟨hm, rfl, rfl, rfl⟩, id, id, ?_, ?_⟩ <;> by_cases hkj : k = j
      · subst hkj
        simp [Shared.setStatus, hk.2, Status.isActive]
      · simp [Shared.setStatus, hkj]
      · subst hkj
        simp [Shared.setStatus]
      · simp [Shared.setStatus, hkj]
    exact ⟨hg, h.stable (hother i), fun k _ => hother k⟩
  | _ => exact absurd hs nofun

/-- Every step keeps the invariant of its thread and leaves the others what they rely on. -/
theorem stepThread_ok (hg : SerialOk g) (h : Local i g x) {a : Act}
    (hs : stepThread modular wt vmax i a g x = some (g', x')) : StepOk i g g' x' := by
  have hp := h.pc
  unfold stepThread at hs
  split at hs
  · exact goStep_ok hg h hs
  · obtain ⟨rfl, rfl⟩ := hs
    exact StepOk.stay hg ⟨trivial, h.serial⟩
  · rename_i hpc
    exact outStep_ok hg h hpc hs
  · rename_i hpc
    exact runStep_ok hg h hpc hs
  · obtain ⟨rfl, rfl⟩ := hs
    exact StepOk.stay hg ⟨h.pc, h.serial⟩
  · rename_i hpc
    obtain ⟨rfl, rfl⟩ := hs
    rw [hpc] at hp
    exact StepOk.fetchInc hg ⟨hp, h.serial⟩
  · rename_i hpc
    obtain ⟨rfl, rfl⟩ := hs
    rw [hpc] at hp
    exact StepOk.giveUp hg hp.1 hp.2.2.1 hp.2.1 h.serial
  · obtain ⟨rfl, rfl⟩ := hs
    exact StepOk.stay hg ⟨h.pc, h.serial⟩
  · rename_i hpc
    obtain ⟨rfl, rfl⟩ := hs
    rw [hpc] at hp
    exact StepOk.giveUp hg hp.1 hp.2.2.1 hp.2.1 h.serial
  · obtain ⟨rfl, rfl⟩ := hs
    exact StepOk.stay hg ⟨h.pc, h.serial⟩
  · rename_i hpc
    rw [hpc] at hp
    split_ifs at hs
    obtain ⟨rfl, rfl⟩ := hs
    exact StepOk.fetchInc hg ⟨hp, h.serial⟩
  · obtain ⟨rfl, rfl⟩ := hs
    exact StepOk.stay hg ⟨h.pc, h.serial⟩
  · exact absurd hs nofun

end Step

/-- The invariants hold in every state of every run. -/
theorem run_local {modular wt : Bool} {vmax : ℕ} {ok : State → ℕ → Act → Prop} {s : State}
    (h : Interleave.Run (system modular wt vmax) ok initial s) :
    SerialOk s.shared ∧ ∀ i, Local i s.shared (s.loc i) := by
  refine h.rely_guarantee (R := fun j _ g g' => Interf j g g') ?_ ?_ ?_
  · intro c i a g' x' hg hl _ hs
    obtain ⟨h1, h2, h3⟩ := stepThread_ok hg (hl i) hs
    exact ⟨h1, h2, h3⟩
  · intro j g g' y _ _ hi hl
    exact hl.stable hi
  · exact ⟨fun p hp => by simp [initial] at hp, fun i => ⟨trivial, fun h => by simp [initial] at h⟩⟩

end TinyStm.Quiesce
