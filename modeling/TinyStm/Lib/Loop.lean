import Mathlib.Data.Nat.Basic

/-!
# Counting loops

`for (i = 1; i <= n; i++)` over a state, with and without errors, and the
invariant rule of each.
-/

namespace TinyStm.Loop

variable {σ ε : Type*} {n : ℕ}

/-- Run `b 1`, ..., `b n`. -/
def upTo (b : ℕ → σ → σ) : ℕ → σ → σ
  | 0, s => s
  | n + 1, s => b (n + 1) (upTo b n s)

/-- The same loop, stopped by the first error. -/
def upToM (b : ℕ → σ → Except ε σ) : ℕ → σ → Except ε σ
  | 0, s => .ok s
  | n + 1, s =>
    match upToM b n s with
    | .ok s => b (n + 1) s
    | .error e => .error e

theorem upTo_inv {b : ℕ → σ → σ} {P : ℕ → σ → Prop} {s : σ} (h₀ : P 0 s)
    (hs : ∀ i s, i < n → P i s → P (i + 1) (b (i + 1) s)) : P n (upTo b n s) := by
  induction n with
  | zero => exact h₀
  | succ n ih => exact hs n _ (Nat.lt_succ_self n) (ih fun i s hi => hs i s (by omega))

/-- No round fails. -/
theorem upToM_ok {b : ℕ → σ → Except ε σ} {P : ℕ → σ → Prop} {s : σ} (h₀ : P 0 s)
    (hs : ∀ i s, i < n → P i s → ∃ s', b (i + 1) s = .ok s' ∧ P (i + 1) s') :
    ∃ s', upToM b n s = .ok s' ∧ P n s' := by
  induction n with
  | zero => exact ⟨s, rfl, h₀⟩
  | succ n ih =>
    obtain ⟨s₁, h₁, hP⟩ := ih fun i s hi => hs i s (by omega)
    obtain ⟨s₂, h₂, hP'⟩ := hs n s₁ (Nat.lt_succ_self n) hP
    refine ⟨s₂, ?_, hP'⟩
    rw [upToM, h₁]
    exact h₂

/-- What holds after a loop that did not fail. -/
theorem upToM_inv {b : ℕ → σ → Except ε σ} {P : ℕ → σ → Prop} {s s' : σ} (h₀ : P 0 s)
    (hs : ∀ i s s', i < n → P i s → b (i + 1) s = .ok s' → P (i + 1) s')
    (h : upToM b n s = .ok s') : P n s' := by
  induction n generalizing s' with
  | zero =>
    cases h
    exact h₀
  | succ n ih =>
    rw [upToM] at h
    split at h
    · next s₁ h₁ => exact hs n s₁ s' (Nat.lt_succ_self n) (ih (fun i s s' hi => hs i s s' (by omega)) h₁) h
    · cases h

/-- A loop that carries more data, and the same loop without it. -/
theorem upToM_map {τ : Type*} {b : ℕ → σ → Except ε σ} {b' : ℕ → τ → Except ε τ} {f : σ → τ}
    (h : ∀ i s, (b i s).map f = b' i (f s)) (n : ℕ) (s : σ) :
    (upToM b n s).map f = upToM b' n (f s) := by
  induction n with
  | zero => rfl
  | succ n ih =>
    rw [upToM, upToM, ← ih]
    cases upToM b n s with
    | ok s₁ => exact h (n + 1) s₁
    | error e => rfl

end TinyStm.Loop
