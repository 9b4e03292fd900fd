import TinyStm.Client.Program
import TinyStm.Lib.Cells

/-!
# Records in memory

A program on records as the body of a transaction: a layout says where the fields are. A
block that is freed is overwritten with stores that change nothing (`mod_mem.c:120-134`),
so that readers of it conflict.
-/

namespace TinyStm.Client

open Cells

variable {w : ℕ} {F α : Type}

/-- The addresses of the fields, and the words of a block that is freed. -/
structure Layout (w : ℕ) (F : Type) where
  addr : BitVec w → F → ℕ
  freed : BitVec w → List ℕ

/-- The loop of `stm_free2`: `stm_store2(a++, 0, 0)`. -/
def overwrite (p : Prog w α) : List ℕ → Prog w α
  | [] => p
  | a :: as => .store a 0 0 (overwrite p as)

/-- `r₀` is the result where the program gets stuck. -/
def Layout.compile (lay : Layout w F) (r₀ : α) : Cmd F (BitVec w) α → Prog w α
  | .ret r => .ret r
  | .fail => .ret r₀
  | .load o f k => .load (lay.addr o f) fun v => lay.compile r₀ (k v)
  | .store o f v k => .put (lay.addr o f) v (lay.compile r₀ k)
  | .free o k => overwrite (lay.compile r₀ k) (lay.freed o)

theorem run_overwrite (p : Prog w α) (as : List ℕ) (σ : ℕ → BitVec w) :
    (overwrite p as).run σ = p.run σ := by
  induction as with
  | nil => rfl
  | cons a as ih => rw [overwrite, Prog.run, mergeBits_zero, Function.update_eq_self, ih]

variable {lay : Layout w F} {S : BitVec w → F → Prop} {σ : ℕ → BitVec w} {H H' : Heap F (BitVec w)}

/-- The fields in `S` do not overlap. -/
def Layout.Apart (lay : Layout w F) (S : BitVec w → F → Prop) : Prop :=
  ∀ o f o' f', S o f → S o' f' → lay.addr o f = lay.addr o' f' → o = o' ∧ f = f'

/-- The memory `σ` has the records of `H`, whose fields are in `S`. -/
structure Layout.Shows (lay : Layout w F) (S : BitVec w → F → Prop) (σ : ℕ → BitVec w)
    (H : Heap F (BitVec w)) : Prop where
  mem : ∀ o x f v, H o = some x → x f = some v → S o f
  val : ∀ o x f v, H o = some x → x f = some v → σ (lay.addr o f) = v

theorem Layout.Shows.free (h : lay.Shows S σ H) (o : BitVec w) :
    lay.Shows S σ (Function.update H o none) := by
  have hin : ∀ o' x, Function.update H o none o' = some x → H o' = some x := by
    intro o' x ho'
    by_cases hoo : o' = o
    · subst hoo
      simp at ho'
    · rwa [Function.update_of_ne hoo] at ho'
  exact ⟨fun o' x f v ho' hf => h.mem o' x f v (hin o' x ho') hf,
    fun o' x f v ho' hf => h.val o' x f v (hin o' x ho') hf⟩

variable [DecidableEq F]

theorem Layout.Shows.store (hS : lay.Apart S) (h : lay.Shows S σ H) {o : BitVec w}
    {x : F → Option (BitVec w)} {f : F} {u : BitVec w} (ho : H o = some x) (hf : x f = some u)
    (v : BitVec w) :
    lay.Shows S (Function.update σ (lay.addr o f) v)
      (Function.update H o (some (Function.update x f (some v)))) := by
  have hin : ∀ o' x' f' v', Function.update H o (some (Function.update x f (some v))) o' = some x' →
      x' f' = some v' → (o' = o ∧ f' = f ∧ v' = v) ∨ ((o' ≠ o ∨ f' ≠ f) ∧
        ∃ x'', H o' = some x'' ∧ x'' f' = some v') := by
    intro o' x' f' v' ho' hf'
    by_cases hoo : o' = o
    · subst hoo
      rw [Function.update_self] at ho'
      cases ho'
      by_cases hff : f' = f
      · subst hff
        rw [Function.update_self] at hf'
        exact .inl ⟨rfl, rfl, (Option.some.inj hf').symm⟩
      · rw [Function.update_of_ne hff] at hf'
        exact .inr ⟨.inr hff, x, ho, hf'⟩
    · rw [Function.update_of_ne hoo] at ho'
      exact .inr ⟨.inl hoo, x', ho', hf'⟩
  have hof : S o f := h.mem o x f u ho hf
  refine ⟨fun o' x' f' v' ho' hf' => ?_, fun o' x' f' v' ho' hf' => ?_⟩
  · obtain ⟨rfl, rfl, -⟩ | ⟨-, x'', hx'', hv⟩ := hin o' x' f' v' ho' hf'
    · exact hof
    · exact h.mem o' x'' f' v' hx'' hv
  · obtain ⟨rfl, rfl, rfl⟩ | ⟨hne, x'', hx'', hv⟩ := hin o' x' f' v' ho' hf'
    · rw [Function.update_self]
    · rw [Function.update_of_ne, h.val o' x'' f' v' hx'' hv]
      intro heq
      obtain ⟨h₁, h₂⟩ := hS o' f' o f (h.mem o' x'' f' v' hx'' hv) hof heq
      exact hne.elim (fun hn => hn h₁) fun hn => hn h₂

/-- What the program does to the records the body does to the memory. -/
theorem Layout.Shows.run (hS : lay.Apart S) (h : lay.Shows S σ H) {c : Cmd F (BitVec w) α} {r : α}
    (r₀ : α) (hc : c.run H = some (H', r)) :
    ∃ σ', (lay.compile r₀ c).run σ = (σ', r) ∧ lay.Shows S σ' H' := by
  induction c generalizing σ H with
  | ret r' =>
    cases hc
    exact ⟨σ, rfl, h⟩
  | fail => cases hc
  | load o f k ih =>
    simp only [Cmd.run, Option.bind_eq_some_iff] at hc
    obtain ⟨x, ho, v, hf, hc⟩ := hc
    rw [Layout.compile, Prog.run, h.val o x f v ho hf]
    exact ih v h hc
  | store o f v k ih =>
    simp only [Cmd.run, Option.bind_eq_some_iff] at hc
    obtain ⟨x, ho, u, hf, hc⟩ := hc
    rw [Layout.compile, Prog.run_put]
    exact ih (h.store hS ho hf v) hc
  | free o k ih =>
    simp only [Cmd.run, Option.bind_eq_some_iff] at hc
    obtain ⟨x, ho, hc⟩ := hc
    rw [Layout.compile, run_overwrite]
    exact ih (h.free o) hc

end TinyStm.Client
