import Mathlib.Data.List.Nodup
import Mathlib.Logic.Function.Basic

/-!
# NULL-terminated chains

A singly linked list in a heap, seen as the list of its nodes: `Chain next h l`
says that the pointers from `h` on run through `l` and end in `NULL`. The lemmas
are the writes of a queue: link a node behind the last one, take the first one
away, take one out of the middle.
-/

namespace TinyStm

variable {τ : Type*} {next next' : τ → Option τ} {h : Option τ} {l l₁ l₂ : List τ} {x y t : τ}

def Chain (next : τ → Option τ) : Option τ → List τ → Prop
  | h, [] => h = none
  | h, x :: l => h = some x ∧ Chain next (next x) l

namespace Chain

@[simp] theorem nil_iff : Chain next h [] ↔ h = none := Iff.rfl

@[simp] theorem cons_iff : Chain next h (x :: l) ↔ h = some x ∧ Chain next (next x) l := Iff.rfl

theorem head_eq (hc : Chain next h l) : h = l.head? := by
  cases l with
  | nil => exact hc
  | cons x l => exact hc.1

theorem eq_nil_iff (hc : Chain next h l) : h = none ↔ l = [] := by
  rw [hc.head_eq, List.head?_eq_none_iff]

theorem congr (hc : Chain next h l) (hn : ∀ x ∈ l, next' x = next x) : Chain next' h l := by
  induction l generalizing h with
  | nil => exact hc
  | cons x l ih =>
    refine ⟨hc.1, ?_⟩
    rw [hn x List.mem_cons_self]
    exact ih hc.2 fun y hy => hn y (List.mem_cons_of_mem x hy)

/-- The chain behind one of its nodes. -/
theorem behind (hc : Chain next h l) (hs : x :: l₁ <:+ l) : Chain next (next x) l₁ := by
  obtain ⟨l₂, rfl⟩ := hs
  induction l₂ generalizing h with
  | nil => exact hc.2
  | cons y l₂ ih => exact ih hc.2

/-- An array whose elements point to the next one. -/
theorem range (next : ℕ → Option ℕ) (a len : ℕ)
    (hn : ∀ x, a ≤ x → x < a + len → next x = if x + 1 = a + len then none else some (x + 1)) :
    Chain next (if len = 0 then none else some a) (List.range' a len) := by
  induction len generalizing a with
  | zero => rfl
  | succ len ih =>
    rw [List.range'_succ, if_neg (Nat.succ_ne_zero len)]
    refine ⟨rfl, ?_⟩
    have hrest := ih (a + 1) fun x hx hlt => by
      rw [hn x (by omega) (by omega), show a + 1 + len = a + (len + 1) by omega]
    rw [hn a (Nat.le_refl a) (by omega)]
    by_cases hlen : len = 0
    · rw [if_pos (by omega)]
      rwa [if_pos hlen] at hrest
    · rw [if_neg (by omega)]
      rwa [if_neg hlen] at hrest

variable [DecidableEq τ]

theorem update (hc : Chain next h l) (ht : t ∉ l) (v : Option τ) :
    Chain (Function.update next t v) h l :=
  hc.congr fun _ hx => Function.update_of_ne (ne_of_mem_of_not_mem hx ht) _ _

/-- `x->next = t` behind the last node `x`. -/
theorem link (hc : Chain next h l) (hd : l.Nodup) (hx : l.getLast? = some x) (ht : t ∉ l)
    (hn : next t = none) : Chain (Function.update next x (some t)) h (l ++ [t]) := by
  induction l generalizing h with
  | nil => simp at hx
  | cons y l ih =>
    refine ⟨hc.1, ?_⟩
    have hty : t ≠ y := fun he => ht (he ▸ List.mem_cons_self)
    cases l with
    | nil =>
      obtain rfl : y = x := by simpa using hx
      refine ⟨Function.update_self .., ?_⟩
      rw [Function.update_of_ne hty]
      exact hn
    | cons z l =>
      have hx' : (z :: l).getLast? = some x := by simpa using hx
      have hne : y ≠ x := by
        rintro rfl
        exact (List.nodup_cons.mp hd).1 (List.mem_of_getLast? hx')
      rw [Function.update_of_ne hne]
      exact ih hc.2 (List.nodup_cons.mp hd).2 hx' fun hm => ht (List.mem_cons_of_mem y hm)

/-- `y->next = x->next` for the successor `x` of `y`. -/
theorem unlink (hc : Chain next h (l₁ ++ y :: x :: l₂)) (hd : (l₁ ++ y :: x :: l₂).Nodup) :
    Chain (Function.update next y (next x)) h (l₁ ++ y :: l₂) := by
  induction l₁ generalizing h with
  | nil =>
    refine ⟨hc.1, ?_⟩
    rw [Function.update_self]
    refine hc.2.2.update ?_ _
    simp only [List.nil_append, List.nodup_cons, List.mem_cons, not_or] at hd
    exact hd.1.2
  | cons z l₁ ih =>
    refine ⟨hc.1, ?_⟩
    have hne : z ≠ y := by
      rintro rfl
      simp at hd
    rw [Function.update_of_ne hne]
    exact ih hc.2 (List.nodup_cons.mp hd).2

end Chain

end TinyStm
