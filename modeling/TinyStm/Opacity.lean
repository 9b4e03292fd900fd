import TinyStm.Snapshot

/-!
# Opacity

In the commit-time design every attempt, whatever becomes of it, has at all times
seen one snapshot, that of its `tx->end`. The encounter-time designs promise the
same, but a load under an own lock compares no version: it is consistent with the
earlier loads exactly as long as the version the lock had is not newer than the
snapshot, or there is nothing to be consistent with.
-/

namespace TinyStm

open Timeline Interleave

variable {w : ℕ} {b : Build} {P : Mode} {s s₀ : State w}

def Act.isSetExtension : Act w → Bool
  | .setExtension _ _ => true
  | _ => false

/-- The steps of programs that do not use `stm_set_extension`. -/
def NoExtension (_ : State w) (_ : ℕ) (act : Act w) : Prop := act.isSetExtension = false

instance (s : State w) (i : ℕ) (act : Act w) : Decidable (NoExtension s i act) :=
  inferInstanceAs (Decidable (act.isSetExtension = false))

/-- Every attempt, running or finished, has seen the memory at its `tx->end`. -/
structure SeenAtEnd (s : State w) (M : ℕ → ℕ → BitVec w) : Prop where
  running : ∀ tid, (s.loc tid).pc.phase ≠ .out → ∀ r ∈ (s.loc tid).reads,
    Shows (M (s.loc tid).endT) (s.loc tid).stores r
  finished : ∀ A ∈ s.shared.hist, ∀ r ∈ A.reads, Shows (M A.endT) A.stores r

/-- In a build with plain versions and no ticks only the mode adds conditions. -/
theorem cond_plain {i : ℕ} {act : Act w} (hm : b.mbRevalidation = false)
    (he : b.extraTick = false) (hT : TInv b P i s.shared (s.loc i))
    (hown : P.oneTime → b.design ≠ .writeBackCtl → ∀ a,
      ((s.loc i).pc = .readLock a ∨ (s.loc i).pc = .readOwn a ∨
        ∃ l v, (s.loc i).pc = .readLock2 a l v) → OwnLoadOk b i s.shared (s.loc i) a)
    (hext : P.noExt → NoExtension s i act) : Cond b P i act s.shared (s.loc i) where
  fits := by simp [Build.Fits, hm]
  prepare _ := by simp [Build.startOf, Build.startV, Build.endOf, Build.endV, hm]
  unit _ _ _ := by simp [Build.stamp, hm]
  wt _ := hm
  async hp := by
    -- without the option no thread is ever in a tick
    have hpc := hT.pc
    rcases hp with hp | hp <;> rw [hp] at hpc
    · simpa [he] using hpc.2.1 (.inl rfl)
    · simpa [he] using hpc.2.1 (.inr rfl)
  ownLoad := hown
  ext hn en ts ha := by
    have := hext hn
    simp [NoExtension, ha, Act.isSetExtension] at this

theorem run_inv_ctl (hd : b.design = .writeBackCtl) (hm : b.mbRevalidation = false)
    (he : b.extraTick = false) (hi : Initial s₀) (hr : Run (machine b w) NoExtension s₀ s) :
    SInv b ⟨True, True⟩ s.shared ∧ (∀ i, TInv b ⟨True, True⟩ i s.shared (s.loc i)) ∧
      s.shared.mem0 = s₀.shared.mem :=
  run_inv (fun _ _ _ ho _ hT => cond_plain hm he hT (fun _ hc => absurd hd hc) fun _ => ho) hr hi

/-- Opacity of the commit-time design. -/
theorem stm_opacity (b : Build) (hd : b.design = .writeBackCtl) (hm : b.mbRevalidation = false)
    (he : b.extraTick = false) (s₀ s : State w) (hi : Initial s₀)
    (hr : Run (machine b w) NoExtension s₀ s) :
    ∃ M, Produces s₀.shared.mem s M ∧ SeenAtEnd s M := by
  obtain ⟨hS, hT, hm₀⟩ := run_inv_ctl hd hm he hi hr
  have hid : ∀ v, b.stamp v = v := fun v => by simp [Build.stamp, hm]
  refine ⟨s.shared.at b, hm₀ ▸ produces hS hT, ?_, ?_⟩
  · intro tid hph r hr
    have hA := (hT tid).att hph
    obtain ⟨e, -, -, hes, hreads⟩ := hA.consistent trivial
    have hend : e = (s.loc tid).endT := by
      rw [hes hd, ← hA.endEq trivial, hid]
    exact hend ▸ (hreads r hr).shows (hA.pre r hr)
  · intro A hA r hr
    have hok := hS.hist A hA
    obtain ⟨e, -, hes, hreads⟩ := hok.consistent trivial
    have hend : e = A.endT := by
      rw [hes hd, ← hok.endEq trivial, hid]
    exact hend ▸ (hreads r hr).shows (hok.pre r hr)

/-- The commit-time design with sixteen locks. -/
def ctlBuild : Build := ⟨.writeBackCtl, false, false, 0, 4⟩

/-- Thread 0 reads word 0; thread 1 stores to word 8 and commits; the load of word
8 by thread 0 then has to extend its snapshot. -/
def extendRun : List (ℕ × Act 64) :=
  List.flatten [
    turn 0 [.start false, .go, .load 0, .go, .go, .go],
    turn 1 [.start false, .go, .store 8 7 (BitVec.allOnes 64), .go, .commit, .go, .go, .go, .go, .go,
      .go],
    turn 0 [.load 8, .go, .go, .go, .go, .go, .go, .go]]

theorem stm_opacity_extend :
    ∃ s : State 64, (s.loc 0).reads = [⟨0, 0, []⟩, ⟨8, 7, []⟩] ∧ (s.loc 0).endT = 1 ∧
      ∃ M, Produces (fun _ => 0) s M ∧ SeenAtEnd s M := by
  obtain ⟨s, hr, hreads, hend⟩ := exists_run_of_exec (machine ctlBuild 64) NoExtension
    (State.fresh fun _ => 0) extendRun
    (fun s => (s.loc 0).reads = [⟨0, 0, []⟩, ⟨8, 7, []⟩] ∧ (s.loc 0).endT = 1) (by decide +kernel)
  exact ⟨s, hreads, hend, stm_opacity ctlBuild rfl rfl rfl _ s (initial_fresh _) hr⟩

/-! ### The encounter-time designs -/

/-- The address of the load in progress, where the next step may serve it under an
own lock. -/
def Pc.loading : Pc w → Option ℕ
  | .readLock a => some a
  | .readOwn a => some a
  | .readLock2 a _ _ => some a
  | _ => none

instance (b : Build) (tid : ℕ) (g : Shared w) (x : Tx w) (a : ℕ) :
    Decidable (OwnLoadOk b tid g x a) :=
  inferInstanceAs (Decidable (_ → _ ∨ _ ∨ _))

/-- The steps at which a load under an own lock meets `OwnLoadOk`. -/
def OwnLoadsOk (b : Build) (s : State w) (i : ℕ) (_ : Act w) : Prop :=
  ∀ a ∈ (s.loc i).pc.loading, OwnLoadOk b i s.shared (s.loc i) a

instance (b : Build) (s : State w) (i : ℕ) (act : Act w) : Decidable (OwnLoadsOk b s i act) :=
  inferInstanceAs (Decidable (∀ a ∈ (s.loc i).pc.loading, OwnLoadOk b i s.shared (s.loc i) a))

/-- Every attempt, running or finished, has seen the memory of one time. -/
structure SeenAtOnce (s : State w) (M : ℕ → ℕ → BitVec w) : Prop where
  running : ∀ tid, (s.loc tid).pc.phase ≠ .out → ∃ e ≤ s.shared.clock,
    ∀ r ∈ (s.loc tid).reads, Shows (M e) (s.loc tid).stores r
  finished : ∀ A ∈ s.shared.hist, ∃ e ≤ s.shared.clock, ∀ r ∈ A.reads, Shows (M e) A.stores r

theorem cond_ownLoads {i : ℕ} {act : Act w} (hm : b.mbRevalidation = false)
    (he : b.extraTick = false) (ho : OwnLoadsOk b s i act)
    (hT : TInv b ⟨True, False⟩ i s.shared (s.loc i)) :
    Cond b ⟨True, False⟩ i act s.shared (s.loc i) := by
  refine cond_plain hm he hT (fun _ _ a ha => ho a ?_) fun hn => hn.elim
  rcases ha with ha | ha | ⟨l, v, ha⟩ <;> simp [ha, Pc.loading]

theorem seenAtOnce (ho : P.oneTime) (hS : SInv b P s.shared)
    (hT : ∀ i, TInv b P i s.shared (s.loc i)) : SeenAtOnce s (s.shared.at b) where
  running tid hph := by
    have hA := (hT tid).att hph
    obtain ⟨e, -, hle, -, hreads⟩ := hA.consistent ho
    exact ⟨e, hle, fun r hr => (hreads r hr).shows (hA.pre r hr)⟩
  finished A hA := by
    have hok := hS.hist A hA
    obtain ⟨e, hle, -, hreads⟩ := hok.consistent ho
    exact ⟨e, hle, fun r hr => (hreads r hr).shows (hok.pre r hr)⟩

/-- Opacity of the encounter-time designs, in the runs without a load under an own
lock that is newer than the snapshot. -/
theorem stm_opacity_encounter (b : Build) (hm : b.mbRevalidation = false)
    (he : b.extraTick = false) (s₀ s : State w) (hi : Initial s₀)
    (hr : Run (machine b w) (OwnLoadsOk b) s₀ s) :
    ∃ M, Produces s₀.shared.mem s M ∧ SeenAtOnce s M := by
  obtain ⟨hS, hT, hm₀⟩ := run_inv (fun _ _ _ ho _ hT => cond_ownLoads hm he ho hT) hr hi
  exact ⟨s.shared.at b, hm₀ ▸ produces hS hT, seenAtOnce trivial hS hT⟩

/-- Encounter-time write-back with two locks: words 8 and 24 share one. -/
def etlBuild : Build := ⟨.writeBackEtl, false, false, 0, 1⟩

/-- Thread 1 commits stores to words 0 and 8; thread 0 then stores to word 24 and
loads word 8 under the lock it now owns. -/
def ownLoadRun : List (ℕ × Act 64) :=
  List.flatten [
    turn 1 [.start false, .go, .store 0 1 (BitVec.allOnes 64), .go, .go,
      .store 8 1 (BitVec.allOnes 64), .go, .go, .commit, .go, .go, .go, .go, .go, .go],
    turn 0 [.store 24 5 (BitVec.allOnes 64), .go, .go, .load 8, .go, .go]]

theorem stm_opacity_encounter_own :
    ∃ s : State 64, (s.loc 0).reads = [⟨8, 1, [⟨24, 5, BitVec.allOnes 64⟩]⟩] ∧
      (s.loc 0).endT = 0 ∧ ∃ M, Produces (fun _ => 0) s M ∧ SeenAtOnce s M := by
  obtain ⟨s, hr, hreads, hend⟩ := exists_run_of_exec (machine etlBuild 64) (OwnLoadsOk etlBuild)
    (State.fresh fun _ => 0)
    (List.flatten [turn 0 [.start false, .go], ownLoadRun])
    (fun s => (s.loc 0).reads = [⟨8, 1, [⟨24, 5, BitVec.allOnes 64⟩]⟩] ∧ (s.loc 0).endT = 0)
    (by decide +kernel)
  exact ⟨s, hreads, hend, stm_opacity_encounter etlBuild rfl rfl _ s (initial_fresh _) hr⟩

/-- Thread 1 commits stores to words 0 and 8, in the commit-time design. -/
def storeBoth : List (ℕ × Act 64) :=
  turn 1 [.start false, .go, .store 0 1 (BitVec.allOnes 64), .go,
    .store 8 1 (BitVec.allOnes 64), .go, .commit, .go, .go, .go, .go, .go, .go, .go, .go, .go, .go]

/-- One commit sets words 0 and 8 of a zero memory: an attempt that has seen word 0
without it and word 8 with it has seen no single memory. -/
theorem not_seenAtOnce_of_torn {s : State 64} {pre : List (Store 64)}
    (hpre : overlay pre 8 0 = (0 : BitVec 64))
    (h : (s.loc 0).reads = [⟨0, 0, []⟩, ⟨8, 1, pre⟩] ∧ (s.loc 0).pc = .run ∧
      s.shared.clock = 1 ∧ ∃ A ∈ s.shared.hist, A.tid = 1 ∧
        A.stores = [⟨0, 1, BitVec.allOnes 64⟩, ⟨8, 1, BitVec.allOnes 64⟩] ∧
        A.outcome = .committed 1) :
    ¬ ∃ M, Produces (fun _ => 0) s M ∧ SeenAtOnce s M := by
  obtain ⟨hreads, hpc, hclock, A, hA, ht, hstores, hout⟩ := h
  rintro ⟨M, hM, hseen⟩
  obtain ⟨e, he, hshow⟩ := hseen.running 0 (by rw [hpc]; simp [Pc.phase])
  rw [hreads] at hshow
  have h₀ := (hshow ⟨0, 0, []⟩ (by simp)).word
  have h₈ := (hshow ⟨8, 1, pre⟩ (by simp)).word
  have hupd : Update s 1 1 [⟨0, 1, BitVec.allOnes 64⟩, ⟨8, 1, BitVec.allOnes 64⟩] :=
    .finished hA (by simp [Attempt.wrote, hout]) ht hstores
  rw [hclock] at he
  interval_cases e
  · rw [hM.init, hpre] at h₈
    exact absurd h₈ (by decide : (1 : BitVec 64) ≠ 0)
  · rw [hM.update hupd, hM.init] at h₀
    revert h₀
    decide

/-- With a load of word 0 first, the two loads of thread 0 belong to no common
time: word 0 is the old one and word 8 the new one. -/
theorem ownLoad_torn :
    ∃ s : State 64, Run (machine etlBuild 64) (fun _ _ _ => True) (State.fresh fun _ => 0) s ∧
      ¬ ∃ M, Produces (fun _ => 0) s M ∧ SeenAtOnce s M := by
  obtain ⟨s, hr, hs⟩ := exists_run_of_exec (machine etlBuild 64) (fun _ _ _ => True)
    (State.fresh fun _ => 0)
    (List.flatten [turn 0 [.start false, .go, .load 0, .go, .go, .go], ownLoadRun])
    (fun s => (s.loc 0).reads = [⟨0, 0, []⟩, ⟨8, 1, [⟨24, 5, BitVec.allOnes 64⟩]⟩] ∧
      (s.loc 0).pc = .run ∧ s.shared.clock = 1 ∧ ∃ A ∈ s.shared.hist, A.tid = 1 ∧
        A.stores = [⟨0, 1, BitVec.allOnes 64⟩, ⟨8, 1, BitVec.allOnes 64⟩] ∧
        A.outcome = .committed 1)
    (by decide +kernel)
  exact ⟨s, hr, not_seenAtOnce_of_torn (by decide) hs⟩

end TinyStm
