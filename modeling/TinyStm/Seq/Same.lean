import TinyStm.Seq.Ctl
import TinyStm.Seq.Etl
import TinyStm.Seq.Through

/-!
# The three designs have one write-set semantics

Loads, commit and abort of a transaction that runs alone are those of direct
execution on plain memory, in every design and for every sequence of calls.
-/

namespace TinyStm.Seq

variable {w : ℕ}

/-- The state from which the transaction runs: the clock was rolled over if it had to. -/
def Quiescent.prepared (o : Opts w) (q : Quiescent w) : Quiescent w :=
  if o.build.versionMax w ≤ q.clock then ⟨0, fun _ => ⟨0, 0⟩, q.mem, fun _ => le_rfl⟩ else q

theorem stmPrepare_store (o : Opts w) (q : Quiescent w) :
    stmPrepare o q.store = ((q.prepared o).store, (q.prepared o).fresh) := by
  have hclock : q.store.clock = q.clock := rfl
  unfold stmPrepare Quiescent.prepared
  rw [hclock]
  by_cases hmax : o.build.versionMax w ≤ q.clock
  · rw [if_pos hmax, if_pos hmax]
    rfl
  · rw [if_neg hmax, if_neg hmax]
    rfl

theorem prepared_mem (o : Opts w) (q : Quiescent w) : (q.prepared o).mem = q.mem := by
  unfold Quiescent.prepared
  split <;> rfl

theorem exists_refines (o : Opts w) (tid : ℕ) : ∃ I, Refines o tid I := by
  cases hd : o.design with
  | writeBackCtl => exact ⟨_, refines_ctl hd⟩
  | writeBackEtl => exact ⟨_, refines_etl hd⟩
  | writeThrough => exact ⟨_, refines_through hd⟩

theorem Refines.sound {o : Opts w} {tid : ℕ}
    {I : Quiescent w → List (Store w) → Store3 w → Desc w → Prop} (h : Refines o tid I)
    (q : Quiescent w) (ops : List (Op w)) :
    ∃ g x, Seq.exec o tid ops q.store q.fresh = .ok (g, x, (direct ops q.mem).2) ∧
      (∃ q' : Quiescent w, stmCommit o tid g x = .ok q'.store ∧ q'.mem = (direct ops q.mem).1) ∧
      (∃ q' : Quiescent w, stmAbort o g x = .ok q'.store ∧ q'.mem = q.mem) := by
  obtain ⟨g, x, ss, hex, hI, hmem⟩ := h.exec ops (h.start q)
  obtain ⟨q', hc, hqc⟩ := h.commit hI
  exact ⟨g, x, hex, ⟨q', hc, hqc.trans hmem.symm⟩, h.abort hI⟩

/-- Every load returns what plain memory holds at that point; a commit leaves plain
memory, an abort the memory before the start, and both leave every lock free. -/
theorem write_set_semantics (o : Opts w) (tid : ℕ) (q : Quiescent w) (ops : List (Op w)) :
    ∃ g x, exec o tid ops (stmPrepare o q.store).1 (stmPrepare o q.store).2 =
        .ok (g, x, (direct ops q.mem).2) ∧
      (∃ q' : Quiescent w, stmCommit o tid g x = .ok q'.store ∧
        q'.mem = (direct ops q.mem).1 ∧ ∀ k, (q'.store.lock k).own = none) ∧
      (∃ q' : Quiescent w, stmAbort o g x = .ok q'.store ∧ q'.mem = q.mem ∧
        ∀ k, (q'.store.lock k).own = none) := by
  obtain ⟨I, hI⟩ := exists_refines o tid
  obtain ⟨g, x, hex, ⟨q₁, hc, hm₁⟩, q₂, ha, hm₂⟩ := hI.sound (q.prepared o) ops
  rw [prepared_mem] at hex hm₁ hm₂
  rw [stmPrepare_store]
  exact ⟨g, x, hex, ⟨q₁, hc, hm₁, fun _ => rfl⟩, q₂, ha, hm₂, fun _ => rfl⟩

end TinyStm.Seq
