import Mathlib.Algebra.BigOperators.Group.Finset.Basic
import Mathlib.Logic.Function.Basic

/-!
# Interleaved processes over a shared state

A system is a family of processes that take atomic steps on one shared state
and their own local state. `Run` collects the runs whose every step meets a
side condition in the state it starts from. Two induction rules: a predicate
kept by every step holds along every run, and the rely/guarantee rule, where a
local invariant only has to survive what the other processes may do to the
shared state.
-/

namespace TinyStm.Interleave

variable {ι G X A : Type*}

/-- One atomic step of process `i` on action `a`; `none` when it is blocked. -/
structure System (ι G X A : Type*) where
  step : ι → A → G → X → Option (G × X)

/-- The shared state and the local state of every process. -/
structure Config (ι G X : Type*) where
  shared : G
  loc : ι → X

variable [DecidableEq ι]

def System.move (S : System ι G X A) (c : Config ι G X) (i : ι) (a : A) :
    Option (Config ι G X) :=
  (S.step i a c.shared (c.loc i)).map fun p => ⟨p.1, Function.update c.loc i p.2⟩

/-- A schedule says which process moves on which action; it is followed as long
as its steps are possible and meet `ok`. -/
def System.exec (S : System ι G X A) (ok : Config ι G X → ι → A → Prop)
    [∀ c i a, Decidable (ok c i a)] : List (ι × A) → Config ι G X → Option (Config ι G X)
  | [], c => some c
  | p :: ps, c => if ok c p.1 p.2 then (S.move c p.1 p.2).bind (S.exec ok ps) else none

/-- The part of a schedule in which process `i` performs `as`. -/
def turn (i : ι) (as : List A) : List (ι × A) := as.map fun a => (i, a)

/-- Runs from `c` whose every step meets `ok` in the state it starts from. -/
inductive Run (S : System ι G X A) (ok : Config ι G X → ι → A → Prop) (c : Config ι G X) :
    Config ι G X → Prop
  | refl : Run S ok c c
  | tail {d e : Config ι G X} {i : ι} {a : A} :
      Run S ok c d → ok d i a → S.move d i a = some e → Run S ok c e

variable {S : System ι G X A} {ok ok' : Config ι G X → ι → A → Prop} {c d e : Config ι G X}

theorem move_eq_some {i : ι} {a : A} (h : S.move c i a = some d) :
    ∃ g x, S.step i a c.shared (c.loc i) = some (g, x) ∧
      d = ⟨g, Function.update c.loc i x⟩ := by
  simp only [System.move, Option.map_eq_some_iff] at h
  obtain ⟨⟨g, x⟩, hs, he⟩ := h
  exact ⟨g, x, hs, he.symm⟩

/-- Only the steps that are possible have to meet the other condition. -/
theorem Run.mono_of_move (hok : ∀ c i a d, S.move c i a = some d → ok c i a → ok' c i a)
    (h : Run S ok c d) : Run S ok' c d := by
  induction h with
  | refl => exact .refl
  | tail _ ho hm ih => exact .tail ih (hok _ _ _ _ hm ho) hm

theorem Run.mono (hok : ∀ c i a, ok c i a → ok' c i a) (h : Run S ok c d) : Run S ok' c d :=
  h.mono_of_move fun c i a _ _ => hok c i a

theorem Run.trans (h₁ : Run S ok c d) (h₂ : Run S ok d e) : Run S ok c e := by
  induction h₂ with
  | refl => exact h₁
  | tail _ ho hm ih => exact .tail ih ho hm

/-- A predicate kept by every admitted step holds along every run. -/
theorem Run.invariant {P : Config ι G X → Prop}
    (hstep : ∀ c i a d, P c → ok c i a → S.move c i a = some d → P d)
    (h : Run S ok c d) (hc : P c) : P d := by
  induction h with
  | refl => exact hc
  | tail _ ho hm ih => exact hstep _ _ _ _ ih ho hm

/-- A step changes one term of a sum over the processes. -/
theorem sum_update_add {α : Type*} (s : Finset ι) (w : α → Nat) (f : ι → α) {i : ι}
    (hi : i ∈ s) (a : α) :
    ∑ j ∈ s, w (Function.update f i a j) + w (f i) = ∑ j ∈ s, w (f j) + w a := by
  have hf := Finset.add_sum_erase s (fun j => w (f j)) hi
  have hu := Finset.add_sum_erase s (fun j => w (Function.update f i a j)) hi
  have heq : ∑ j ∈ s.erase i, w (Function.update f i a j) = ∑ j ∈ s.erase i, w (f j) := by
    refine Finset.sum_congr rfl fun j hj => ?_
    rw [Function.update_of_ne (Finset.ne_of_mem_erase hj)]
  rw [heq, Function.update_self] at hu
  omega

theorem run_of_exec [∀ c i a, Decidable (ok c i a)] (tr : List (ι × A))
    (h : S.exec ok tr c = some d) : Run S ok c d := by
  induction tr generalizing c with
  | nil =>
    simp only [System.exec, Option.some.injEq] at h
    subst h
    exact .refl
  | cons p ps ih =>
    simp only [System.exec, Option.ite_none_right_eq_some, Option.bind_eq_some_iff] at h
    obtain ⟨ho, e, hm, he⟩ := h
    exact Run.trans (.tail .refl ho hm) (ih he)

theorem exists_run_of_exec (S : System ι G X A) (ok : Config ι G X → ι → A → Prop)
    [∀ c i a, Decidable (ok c i a)] (c : Config ι G X) (tr : List (ι × A))
    (p : Config ι G X → Prop) [DecidablePred p]
    (h : ((S.exec ok tr c).any fun d => decide (p d)) = true) : ∃ d, Run S ok c d ∧ p d := by
  obtain ⟨d, hd, hp⟩ := (Option.any_eq_true _ _).mp h
  exact ⟨d, run_of_exec tr hd, of_decide_eq_true hp⟩

/-- Process `i` alone, on its own state and the shared one. -/
def System.solo (S : System ι G X A) (i : ι) : List A → G → X → Option (G × X)
  | [], g, x => some (g, x)
  | a :: as, g, x => (S.step i a g x).bind fun p => S.solo i as p.1 p.2

theorem run_of_solo {i : ι} (as : List A) (hok : ∀ c, ∀ a ∈ as, ok c i a) {g : G} {x : X}
    (h : S.solo i as c.shared (c.loc i) = some (g, x)) :
    Run S ok c ⟨g, Function.update c.loc i x⟩ := by
  induction as generalizing c with
  | nil =>
    simp only [System.solo, Option.some.injEq, Prod.mk.injEq] at h
    obtain ⟨rfl, rfl⟩ := h
    rw [Function.update_eq_self]
    exact .refl
  | cons a as ih =>
    simp only [System.solo, Option.bind_eq_some_iff] at h
    obtain ⟨⟨g', x'⟩, hs, h⟩ := h
    have hm : S.move c i a = some ⟨g', Function.update c.loc i x'⟩ := by
      rw [System.move, hs]
      rfl
    have hrun := ih (c := ⟨g', Function.update c.loc i x'⟩)
      (fun c b hb => hok c b (List.mem_cons_of_mem a hb)) (by simpa using h)
    simp only [Function.update_idem] at hrun
    exact (Run.tail .refl (hok c a List.mem_cons_self) hm).trans hrun

/-- The rely/guarantee rule. `I` is the invariant of the shared state, `L i`
the local invariant of process `i`, and `R j y g g'` what a step of another
process may change as seen by `j` in the local state `y`. -/
theorem Run.rely_guarantee {I : G → Prop} {L : ι → G → X → Prop} {R : ι → X → G → G → Prop}
    (hstep : ∀ (c : Config ι G X) i a g' x', I c.shared →
      (∀ j, L j c.shared (c.loc j)) → ok c i a →
      S.step i a c.shared (c.loc i) = some (g', x') →
      I g' ∧ L i g' x' ∧ ∀ j, j ≠ i → R j (c.loc j) c.shared g')
    (hstable : ∀ j g g' y, I g → I g' → R j y g g' → L j g y → L j g' y)
    (h : Run S ok c d) (hc : I c.shared ∧ ∀ i, L i c.shared (c.loc i)) :
    I d.shared ∧ ∀ i, L i d.shared (d.loc i) := by
  refine h.invariant (P := fun c => I c.shared ∧ ∀ i, L i c.shared (c.loc i)) ?_ hc
  rintro c i a d ⟨hS, hL⟩ ho hm
  obtain ⟨g', x', hs, rfl⟩ := move_eq_some hm
  obtain ⟨hS', hL', hR⟩ := hstep c i a g' x' hS hL ho hs
  refine ⟨hS', fun j => ?_⟩
  by_cases hj : j = i
  · subst hj
    simpa using hL'
  · show L j g' (Function.update c.loc i x' j)
    rw [Function.update_of_ne hj]
    exact hstable j _ _ _ hS hS' (hR j hj) (hL j)

end TinyStm.Interleave
