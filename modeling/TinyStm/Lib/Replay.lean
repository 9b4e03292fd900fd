import Mathlib.Data.List.Perm.Basic

/-!
# Replay of concurrent transactions

A sequence of states `M 0, M 1, …` in which every change has an author, and readers
that saw one of its states. In the order of their places the transactions form a
sequential execution.
-/

namespace TinyStm.Replay

variable {σ T : Type*} {ok : T → σ → σ → Prop} {M : ℕ → σ} {key : T → ℕ}

/-- The transactions `ds`, one after the other, take the first state to the last. -/
def Explains (ok : T → σ → σ → Prop) : List T → σ → σ → Prop
  | [], x, y => x = y
  | d :: ds, x, z => ∃ y, ok d x y ∧ Explains ok ds y z

/-- An execution of one system is one of the other, if every step is; `R` may depend on
what is still to come. -/
theorem Explains.simulate {τ : Type*} {ok' : T → τ → τ → Prop} {R : List T → σ → τ → Prop}
    {ds : List T} {x y : σ} {a : τ} (h : Explains ok ds x y) (ha : R ds x a)
    (hstep : ∀ d ds x y a, ok d x y → R (d :: ds) x a → ∃ b, ok' d a b ∧ R ds y b) :
    ∃ b, Explains ok' ds a b ∧ R [] y b := by
  induction ds generalizing x a with
  | nil => exact ⟨a, rfl, h ▸ ha⟩
  | cons d ds ih =>
    obtain ⟨z, hd, h⟩ := h
    obtain ⟨b, hb, hz⟩ := hstep d ds x z a hd ha
    obtain ⟨b', hb', hy⟩ := ih h hz
    exact ⟨b', ⟨b, hb, hb'⟩, hy⟩

/-- The places: `2 t` is the change from `M (t - 1)` to `M t`, `2 p + 1` a reader of `M p`. -/
structure Placed (ok : T → σ → σ → Prop) (M : ℕ → σ) (key : T → ℕ) (ds : List T) : Prop where
  change : ∀ d ∈ ds, ∀ t, key d = 2 * t → ok d (M (t - 1)) (M t)
  reader : ∀ d ∈ ds, ∀ p, key d = 2 * p + 1 → ok d (M p) (M p)
  one : ds.Pairwise fun d e => ∀ t, key d = 2 * t → key e ≠ 2 * t

theorem Placed.tail {d : T} {ds : List T} (h : Placed ok M key (d :: ds)) : Placed ok M key ds where
  change e he := h.change e (List.mem_cons_of_mem _ he)
  reader e he := h.reader e (List.mem_cons_of_mem _ he)
  one := h.one.of_cons

end TinyStm.Replay
