import TinyStm.Opacity

/-!
# Strict serializability

The committed transactions of a run, placed at their timestamps, are a legal
sequential execution of the memories the updates produce: update transactions see
the memory just before their place, read-only ones the memory at the end of their
validity range, and the order agrees with real time.
-/

namespace TinyStm

open Timeline Interleave

variable {w : ℕ} {b : Build} {P : Mode} {s s₀ : State w}

/-- The place of a transaction: its timestamp, or `tx->end` of a read-only one. -/
def Attempt.endPos (A : Attempt w) : Option ℕ :=
  match A.outcome with
  | .committed t => some t
  | .readOnly => some A.endT
  | _ => none

/-- A legal sequential execution over `M` with the transactions placed by `pos`. -/
structure Serial (b : Build) (s : State w) (M : ℕ → ℕ → BitVec w)
    (pos : Attempt w → Option ℕ) : Prop where
  committed : ∀ A ∈ s.shared.hist, ∀ t, A.outcome = .committed t → pos A = some t ∧
    ∀ r ∈ A.reads, Shows (M (t - 1)) A.stores r
  publishing : ∀ tid t i, (s.loc tid).pc.phase = .pub t i →
    ∀ r ∈ (s.loc tid).reads, Shows (M (t - 1)) (s.loc tid).stores r
  readOnly : ∀ A ∈ s.shared.hist, A.outcome = .readOnly → A.stores = [] ∧
    ∃ p ≤ s.shared.clock, pos A = some p ∧ ∀ r ∈ A.reads, r.val = M p r.addr
  distinct : s.shared.hist.Pairwise fun A B => ∀ t, A.wrote = some t → B.wrote ≠ some t
  memory : ∀ a, (s.shared.lock (b.getLock w a)).own = none →
    s.shared.mem a = M s.shared.clock a
  order : ∀ A ∈ s.shared.hist, ∀ B ∈ s.shared.hist, A.finished ≤ B.began →
    ∀ p q, pos A = some p → pos B = some q → p ≤ q ∧ ∀ t, B.outcome = .committed t → p < t

theorem serial_pos (hS : SInv b P s.shared) (hT : ∀ i, TInv b P i s.shared (s.loc i)) :
    Serial b s (s.shared.at b) Attempt.pos where
  committed A hA t ht := by
    have hok := hS.hist A hA
    have hw : A.wrote = some t := by simp [Attempt.wrote, ht]
    refine ⟨by simp [Attempt.pos, ht], fun r hr => ?_⟩
    exact ((hok.commit t hw).2.2.2 r hr).shows (hok.pre r hr)
  publishing tid t i hp r hr := by
    obtain ⟨n, hpub⟩ := pcOk_pub (hT tid).pc hp
    have hA := (hT tid).att (by rw [hp]; simp)
    exact (hpub.reads r hr).shows (hA.pre r hr)
  readOnly A hA ho := by
    have hok := hS.hist A hA
    obtain ⟨hst, hreads⟩ := hok.readOnly ho
    refine ⟨hst, A.snap, hok.snap_le, by simp [Attempt.pos, ho], fun r hr => ?_⟩
    -- there are no own stores to overlay
    have hpre : r.pre = [] := List.prefix_nil.mp (hst ▸ hok.pre r hr)
    have hword := ((hreads r hr).shows (hok.pre r hr)).word
    rw [hpre] at hword
    exact hword
  distinct := hS.uniq
  memory _ hk := hS.mem_now hk
  order A hA B hB hle p q hp hq := by
    obtain ⟨hpq, hlt⟩ := hS.order A hA B hB hle p q hp hq
    exact ⟨hpq, fun t ht => hlt t (by simp [Attempt.wrote, ht])⟩

/-- Without `stm_set_extension` the last validation is the one that set `tx->end`. -/
theorem endPos_eq_pos (hm : b.mbRevalidation = false) (hn : P.noExt) (hS : SInv b P s.shared)
    {A : Attempt w} (hA : A ∈ s.shared.hist) : A.endPos = A.pos := by
  have hend := (hS.hist A hA).endEq hn
  simp only [Build.stamp, hm] at hend
  unfold Attempt.endPos Attempt.pos
  cases A.outcome with
  | readOnly => exact congrArg some hend
  | _ => rfl

theorem Serial.congr {M : ℕ → ℕ → BitVec w} {pos pos' : Attempt w → Option ℕ}
    (h : Serial b s M pos) (hp : ∀ A ∈ s.shared.hist, pos' A = pos A) : Serial b s M pos' where
  committed A hA t ht := by
    rw [hp A hA]
    exact h.committed A hA t ht
  publishing := h.publishing
  readOnly A hA ho := by
    rw [hp A hA]
    exact h.readOnly A hA ho
  distinct := h.distinct
  memory := h.memory
  order A hA B hB hle p q hpA hpB :=
    h.order A hA B hB hle p q (hp A hA ▸ hpA) (hp B hB ▸ hpB)

/-- Strict serializability of the commit-time design. -/
theorem stm_serializable (b : Build) (hd : b.design = .writeBackCtl)
    (hm : b.mbRevalidation = false) (he : b.extraTick = false) (s₀ s : State w) (hi : Initial s₀)
    (hr : Run (machine b w) NoExtension s₀ s) :
    ∃ M, Produces s₀.shared.mem s M ∧ Serial b s M Attempt.endPos := by
  obtain ⟨hS, hT, hm₀⟩ := run_inv_ctl hd hm he hi hr
  refine ⟨s.shared.at b, hm₀ ▸ produces hS hT, ?_⟩
  exact (serial_pos hS hT).congr fun A hA => endPos_eq_pos hm trivial hS hA

/-- A commit without and one with validation, and a read-only transaction. -/
def commitsRun : List (ℕ × Act 64) :=
  List.flatten [
    turn 1 [.start false, .go, .load 8, .go, .go, .go],
    turn 0 [.start false, .go, .load 0, .go, .go, .go, .store 0 1 (BitVec.allOnes 64), .go, .commit,
      .go, .go, .go, .go, .go, .go],
    turn 1 [.store 8 2 (BitVec.allOnes 64), .go, .commit, .go, .go, .go, .go, .go, .go, .go, .go],
    turn 0 [.start true, .go, .load 0, .go, .go, .go, .load 8, .go, .go, .go, .commit]]

theorem stm_serializable_commits :
    ∃ s : State 64, s.shared.hist.map (·.outcome) = [.committed 1, .committed 2, .readOnly] ∧
      ∃ M, Produces (fun _ => 0) s M ∧ Serial ctlBuild s M Attempt.endPos := by
  obtain ⟨s, hr, hout⟩ := exists_run_of_exec (machine ctlBuild 64) NoExtension
    (State.fresh fun _ => 0) commitsRun
    (fun s => s.shared.hist.map (·.outcome) = [.committed 1, .committed 2, .readOnly])
    (by decide +kernel)
  exact ⟨s, hout, stm_serializable ctlBuild rfl rfl rfl _ s (initial_fresh _) hr⟩

/-- Strict serializability of the encounter-time designs. A load under an own lock
that is newer than the snapshot dooms the attempt, or nothing it read has changed. -/
theorem stm_serializable_encounter (b : Build) (hm : b.mbRevalidation = false)
    (he : b.extraTick = false) (s₀ s : State w) (hi : Initial s₀)
    (hr : Run (machine b w) (fun _ _ _ => True) s₀ s) :
    ∃ M, Produces s₀.shared.mem s M ∧ Serial b s M Attempt.pos := by
  have hcond : ∀ (s : State w) i act, True → SInv b ⟨False, False⟩ s.shared →
      TInv b ⟨False, False⟩ i s.shared (s.loc i) → Cond b ⟨False, False⟩ i act s.shared (s.loc i) :=
    fun _ _ _ _ _ hT => cond_plain hm he hT (fun hf => hf.elim) fun hf => hf.elim
  obtain ⟨hS, hT, hm₀⟩ := run_inv hcond hr hi
  exact ⟨s.shared.at b, hm₀ ▸ produces hS hT, serial_pos hS hT⟩

/-- The write-through design with sixteen locks. -/
def wtBuild : Build := ⟨.writeThrough, false, false, 0, 4⟩

/-- An attempt of thread 0 stores in place and is undone; thread 1 commits. -/
def undoneRun : List (ℕ × Act 64) :=
  List.flatten [
    turn 0 [.start false, .go, .store 0 9 (BitVec.allOnes 64), .go, .go, .go, .go, .abort, .go, .go,
      .go],
    turn 1 [.start false, .go, .load 0, .go, .go, .go, .store 0 1 (BitVec.allOnes 64), .go, .go, .go,
      .go, .commit, .go, .go, .go, .go]]

theorem stm_serializable_undone :
    ∃ s : State 64, s.shared.hist.map (·.outcome) = [.aborted .explicit, .committed 1] ∧
      ∃ M, Produces (fun _ => 0) s M ∧ Serial wtBuild s M Attempt.pos := by
  obtain ⟨s, hr, hout⟩ := exists_run_of_exec (machine wtBuild 64) (fun _ _ _ => True)
    (State.fresh fun _ => 0) undoneRun
    (fun s => s.shared.hist.map (·.outcome) = [.aborted .explicit, .committed 1])
    (by decide +kernel)
  exact ⟨s, hout, stm_serializable_encounter wtBuild rfl rfl _ s (initial_fresh _) hr⟩

end TinyStm
