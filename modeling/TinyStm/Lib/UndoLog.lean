import Mathlib.Logic.Function.Basic
import Mathlib.Data.List.Basic

/-!
# Undo logs

A log of saved words, one entry for each place that was going to be written; an entry without a value
saves nothing. `restore` puts the saved words back, the last entry first. Writing a place that the log has
saved does not change what it restores.
-/

namespace TinyStm.UndoLog

variable {α β : Type*} [DecidableEq α]

structure Saved (α β : Type*) where
  addr : α
  value : Option β

def Saved.put (e : Saved α β) (m : α → β) : α → β :=
  match e.value with
  | none => m
  | some v => Function.update m e.addr v

def restore (l : List (Saved α β)) (m : α → β) : α → β := l.foldr Saved.put m

variable {l l₁ l₂ : List (Saved α β)} {e : Saved α β} {m m' : α → β} {a : α}

@[simp] theorem restore_nil (m : α → β) : restore [] m = m := rfl

theorem restore_append (l₁ l₂ : List (Saved α β)) (m : α → β) :
    restore (l₁ ++ l₂) m = restore l₁ (restore l₂ m) := List.foldr_append

theorem restore_snoc (l : List (Saved α β)) (e : Saved α β) (m : α → β) :
    restore (l ++ [e]) m = restore l (e.put m) := restore_append l [e] m

theorem Saved.put_apply (e : Saved α β) (m : α → β) (a : α) :
    e.put m a = if e.addr = a then e.value.getD (m a) else m a := by
  unfold put
  cases e.value with
  | none => exact (ite_self _).symm
  | some v =>
    by_cases ha : e.addr = a
    · rw [if_pos ha, ← ha]
      exact Function.update_self ..
    · rw [if_neg ha]
      exact Function.update_of_ne (Ne.symm ha) _ _

/-- What is restored at a place depends on the present word of this place only. -/
theorem restore_congr (l : List (Saved α β)) (h : m a = m' a) : restore l m a = restore l m' a := by
  induction l with
  | nil => exact h
  | cons e l ih =>
    change e.put (restore l m) a = e.put (restore l m') a
    rw [Saved.put_apply, Saved.put_apply, ih]

/-- Places that are not in the log stay as they are. -/
theorem restore_of_forall_ne (h : ∀ e ∈ l, e.addr ≠ a) (m : α → β) : restore l m a = m a := by
  induction l with
  | nil => rfl
  | cons e l ih =>
    have hrest := ih fun f hf => h f (List.mem_cons_of_mem e hf)
    change e.put (restore l m) a = m a
    rw [Saved.put_apply, if_neg (h e List.mem_cons_self), hrest]

/-- What is restored at a saved place does not depend on its present word. -/
theorem restore_saved (h : ∃ e ∈ l, e.addr = a ∧ e.value ≠ none) (m m' : α → β) :
    restore l m a = restore l m' a := by
  induction l with
  | nil =>
    obtain ⟨e, he, -⟩ := h
    exact absurd he List.not_mem_nil
  | cons e l ih =>
    change e.put (restore l m) a = e.put (restore l m') a
    rw [Saved.put_apply, Saved.put_apply]
    by_cases hrest : ∃ f ∈ l, f.addr = a ∧ f.value ≠ none
    · rw [ih hrest]
    · obtain ⟨f, hf, ha, hval⟩ := h
      obtain rfl | hf := List.mem_cons.mp hf
      · obtain ⟨v, hv⟩ := Option.ne_none_iff_exists'.mp hval
        rw [if_pos ha, if_pos ha, hv]
        rfl
      · exact absurd ⟨f, hf, ha, hval⟩ hrest

/-- A saved place may be written. -/
theorem restore_update (h : ∃ e ∈ l, e.addr = a ∧ e.value ≠ none) (m : α → β) (v : β) :
    restore l (Function.update m a v) = restore l m := by
  funext a'
  by_cases ha : a' = a
  · rw [ha]
    exact restore_saved h _ _
  · exact restore_congr l (Function.update_of_ne ha _ _)

/-- An entry that saves the present word of a place with no entry behind it. -/
theorem restore_save (h : ∀ e ∈ l₂, e.addr ≠ a) (m : α → β) :
    restore (l₁ ++ ⟨a, some (m a)⟩ :: l₂) m = restore (l₁ ++ l₂) m := by
  rw [restore_append, restore_append]
  congr 1
  change Function.update (restore l₂ m) a (m a) = restore l₂ m
  rw [← restore_of_forall_ne h m, Function.update_eq_self]

/-- An entry that saves nothing. -/
theorem restore_none (h : e.value = none) (l₁ l₂ : List (Saved α β)) (m : α → β) :
    restore (l₁ ++ e :: l₂) m = restore (l₁ ++ l₂) m := by
  rw [restore_append, restore_append]
  congr 1
  change e.put (restore l₂ m) = restore l₂ m
  rw [Saved.put, h]

end TinyStm.UndoLog
