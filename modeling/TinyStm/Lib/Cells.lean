import Mathlib.Algebra.Group.Basic
import Mathlib.Logic.Function.Basic

/-!
# Programs on records, and what they own

A heap holds records of words, each with its fields. `Cmd` is a program that loads and
stores fields and frees records; it gets stuck on a record or field that is not there. An
assertion owns a part of the heap, and the product of two owns two parts apart, so that
assertions are a commutative monoid. `Acts P c r Q` says that `c`, on a heap whose part
`P` it may use, returns `r` and leaves `Q` in its place, and nothing else changes.
-/

namespace TinyStm.Cells

variable {F W α β : Type}

/-! ### Heaps -/

abbrev Heap (F W : Type) := W → Option (F → Option W)

def Heap.empty : Heap F W := fun _ => none

def Heap.Apart (A B : Heap F W) : Prop := ∀ o, A o = none ∨ B o = none

def Heap.union (A B : Heap F W) : Heap F W := fun o => (A o).or (B o)

theorem Heap.Apart.symm {A B : Heap F W} (h : A.Apart B) : B.Apart A := fun o => (h o).symm

theorem Heap.union_comm {A B : Heap F W} (h : A.Apart B) : A.union B = B.union A := by
  funext o
  rcases h o with h | h <;> simp [Heap.union, h]

theorem Heap.union_assoc (A B C : Heap F W) : (A.union B).union C = A.union (B.union C) := by
  funext o
  simp [Heap.union, Option.or_assoc]

theorem Heap.apart_union {A B C : Heap F W} :
    (A.union B).Apart C ↔ A.Apart C ∧ B.Apart C := by
  simp only [Heap.Apart, Heap.union, Option.or_eq_none_iff]
  constructor
  · intro h
    exact ⟨fun o => (h o).imp_left (·.1), fun o => (h o).imp_left (·.2)⟩
  · rintro ⟨hA, hB⟩ o
    rcases hA o with hA | hC
    · exact (hB o).imp_left fun hB => ⟨hA, hB⟩
    · exact .inr hC

theorem Heap.empty_union (A : Heap F W) : Heap.empty.union A = A := by
  funext o
  simp [Heap.union, Heap.empty]

theorem Heap.empty_apart (A : Heap F W) : Heap.empty.Apart A := fun _ => .inl rfl

/-! ### Assertions -/

/-- A property of the part of the heap that is owned. -/
def Assn (F W : Type) := Heap F W → Prop

instance : Mul (Assn F W) where
  mul P Q := fun H => ∃ A B : Heap F W, A.Apart B ∧ H = A.union B ∧ P A ∧ Q B

instance : One (Assn F W) where
  one := fun H => H = Heap.empty

/-- The heap is `H₀`. -/
def only (H₀ : Heap F W) : Assn F W := fun H => H = H₀

theorem Assn.ext {P Q : Assn F W} (h : ∀ H, P H ↔ Q H) : P = Q := funext fun H => propext (h H)

theorem Assn.mul_comm' (P Q : Assn F W) : P * Q = Q * P := by
  have hle : ∀ (P Q : Assn F W) H, (P * Q) H → (Q * P) H := by
    rintro P Q _ ⟨A, B, hab, rfl, hP, hQ⟩
    exact ⟨B, A, hab.symm, Heap.union_comm hab, hQ, hP⟩
  exact Assn.ext fun H => ⟨hle P Q H, hle Q P H⟩

theorem Assn.mul_assoc' (P Q R : Assn F W) : P * Q * R = P * (Q * R) := by
  have hle : ∀ (P Q R : Assn F W) H, (P * Q * R) H → (P * (Q * R)) H := by
    rintro P Q R _ ⟨_, C, hc, rfl, ⟨A, B, hab, rfl, hP, hQ⟩, hR⟩
    obtain ⟨hac, hbc⟩ := Heap.apart_union.mp hc
    refine ⟨A, B.union C, ?_, Heap.union_assoc A B C, hP, B, C, hbc, rfl, hQ, hR⟩
    exact (Heap.apart_union.mpr ⟨hab.symm, hac.symm⟩).symm
  refine Assn.ext fun H => ⟨hle P Q R H, fun h => ?_⟩
  rw [Assn.mul_comm' P, Assn.mul_comm' Q] at h
  rw [Assn.mul_comm' (P * Q), Assn.mul_comm' P]
  exact hle R Q P H h

instance : CommMonoid (Assn F W) where
  mul_assoc := Assn.mul_assoc'
  mul_comm := Assn.mul_comm'
  one_mul P := by
    refine Assn.ext fun H => ⟨?_, fun h => ⟨.empty, H, H.empty_apart, (Heap.empty_union H).symm, rfl, h⟩⟩
    rintro ⟨A, B, -, rfl, rfl, hP⟩
    rwa [Heap.empty_union]
  mul_one P := by
    rw [Assn.mul_comm']
    refine Assn.ext fun H => ⟨?_, fun h => ⟨.empty, H, H.empty_apart, (Heap.empty_union H).symm, rfl, h⟩⟩
    rintro ⟨A, B, -, rfl, rfl, hP⟩
    rwa [Heap.empty_union]

theorem mul_mono {P P' A : Assn F W} (h : ∀ H, P H → P' H) {H : Heap F W} (hP : (P * A) H) :
    (P' * A) H := by
  obtain ⟨X, Y, hxy, rfl, hX, hY⟩ := hP
  exact ⟨X, Y, hxy, rfl, h X hX, hY⟩

variable [DecidableEq W]

theorem Heap.apart_update {o : W} {x : F → Option W} {B : Heap F W} :
    Heap.Apart (Function.update Heap.empty o (some x)) B ↔ B o = none := by
  constructor
  · intro h
    simpa using h o
  · intro h p
    by_cases hp : p = o
    · exact .inr (hp ▸ h)
    · exact .inl (by rw [Function.update_of_ne hp]; rfl)

theorem Heap.update_union {o : W} {x : F → Option W} {B : Heap F W} :
    Heap.union (Function.update Heap.empty o (some x)) B = Function.update B o (some x) := by
  funext p
  by_cases hp : p = o
  · subst hp
    simp [Heap.union]
  · simp [Heap.union, Function.update_of_ne hp, Heap.empty]

section Records

variable [Zero W] {o p : W} {x y : F → Option W}

/-- The record `x` at `o`; there is none at the null address. -/
def cell (o : W) (x : F → Option W) : Assn F W :=
  fun H => o ≠ 0 ∧ H = Function.update Heap.empty o (some x)

/-- A heap that owns a record consists of it and the rest. -/
theorem cell_mul {o : W} {x : F → Option W} {P : Assn F W} {H : Heap F W} :
    (cell o x * P) H ↔ o ≠ 0 ∧ ∃ B : Heap F W, B o = none ∧ P B ∧ H = Function.update B o (some x) := by
  constructor
  · rintro ⟨A, B, hab, rfl, ⟨ho, rfl⟩, hP⟩
    exact ⟨ho, B, Heap.apart_update.mp hab, hP, Heap.update_union⟩
  · rintro ⟨ho, B, hB, hP, rfl⟩
    exact ⟨_, B, Heap.apart_update.mpr hB, Heap.update_union.symm, ⟨ho, rfl⟩, hP⟩

theorem cell_mul.ne_zero {o : W} {x : F → Option W} {P : Assn F W} {H : Heap F W}
    (h : (cell o x * P) H) : o ≠ 0 := (cell_mul.mp h).1

theorem cell_mul.get {o : W} {x : F → Option W} {P : Assn F W} {H : Heap F W}
    (h : (cell o x * P) H) : H o = some x := by
  obtain ⟨-, B, -, -, rfl⟩ := cell_mul.mp h
  simp

theorem cell_mul.ne {o p : W} {x y : F → Option W} {P : Assn F W} {H : Heap F W}
    (h : (cell o x * (cell p y * P)) H) : o ≠ p := by
  rintro rfl
  obtain ⟨-, B, hB, hP, -⟩ := cell_mul.mp h
  rw [cell_mul.get hP] at hB
  cases hB

end Records

/-! ### Programs -/

inductive Cmd (F W α : Type) where
  | ret (r : α)
  | fail
  | load (o : W) (f : F) (k : W → Cmd F W α)
  | store (o : W) (f : F) (v : W) (k : Cmd F W α)
  | free (o : W) (k : Cmd F W α)

def Cmd.bind : Cmd F W α → (α → Cmd F W β) → Cmd F W β
  | .ret r, g => g r
  | .fail, _ => .fail
  | .load o f k, g => .load o f fun v => (k v).bind g
  | .store o f v k, g => .store o f v (k.bind g)
  | .free o k, g => .free o (k.bind g)

instance : Monad (Cmd F W) where
  pure := .ret
  bind := .bind

/-- The field `f` of the record at `o`. -/
def Cmd.ld (o : W) (f : F) : Cmd F W W := .load o f .ret

def Cmd.st (o : W) (f : F) (v : W) : Cmd F W Unit := .store o f v (.ret ())

def Cmd.release (o : W) : Cmd F W Unit := .free o (.ret ())

variable [DecidableEq F]

/-- Stuck programs have no outcome. -/
def Cmd.run : Cmd F W α → Heap F W → Option (Heap F W × α)
  | .ret r, H => some (H, r)
  | .fail, _ => none
  | .load o f k, H => (H o).bind fun x => (x f).bind fun v => (k v).run H
  | .store o f v k, H => (H o).bind fun x => (x f).bind fun _ =>
      k.run (Function.update H o (some (Function.update x f (some v))))
  | .free o k, H => (H o).bind fun _ => k.run (Function.update H o none)

theorem Cmd.run_bind (c : Cmd F W α) (g : α → Cmd F W β) (H : Heap F W) :
    (c >>= g).run H = (c.run H).bind fun p => (g p.2).run p.1 := by
  show (c.bind g).run H = _
  induction c generalizing H with
  | ret r => rfl
  | fail => rfl
  | load o f k ih => simp [Cmd.bind, Cmd.run, ih, Option.bind_assoc]
  | store o f v k ih => simp [Cmd.bind, Cmd.run, ih, Option.bind_assoc]
  | free o k ih => cases h : H o <;> simp [Cmd.bind, Cmd.run, h, ih]

/-! ### What a program does to the part it owns -/

def Acts (P : Assn F W) (c : Cmd F W α) (r : α) (Q : Assn F W) : Prop :=
  ∀ R H, (P * R) H → ∃ H', c.run H = some (H', r) ∧ (Q * R) H'

variable {P P' Q Q' R A : Assn F W} {c : Cmd F W α} {g : α → Cmd F W β} {r : α} {r' : β}

theorem Acts.pure (P : Assn F W) (r : α) : Acts P (Pure.pure r : Cmd F W α) r P :=
  fun _ H h => ⟨H, rfl, h⟩

theorem Acts.bind (hc : Acts P c r Q) (hg : Acts Q (g r) r' R) : Acts P (c >>= g) r' R := by
  intro S H h
  obtain ⟨H₁, h₁, hQ⟩ := hc S H h
  obtain ⟨H₂, h₂, hR⟩ := hg S H₁ hQ
  exact ⟨H₂, by rw [Cmd.run_bind, h₁]; exact h₂, hR⟩

/-- The frame rule. -/
theorem Acts.frame (h : Acts P c r Q) (A : Assn F W) : Acts (P * A) c r (Q * A) := by
  intro R H hP
  rw [mul_assoc] at hP
  obtain ⟨H', hrun, hQ⟩ := h (A * R) H hP
  exact ⟨H', hrun, by rwa [mul_assoc]⟩

theorem Acts.skip (h : Acts P c r Q) (A : Assn F W) : Acts (A * P) c r (A * Q) := by
  rw [mul_comm A, mul_comm A]
  exact h.frame A

/-- A fact about the heap may be used. -/
theorem Acts.of_fact {φ : Prop} (hφ : ∀ R H, (P * R) H → φ) (h : φ → Acts P c r Q) :
    Acts P c r Q := fun R H hP => h (hφ R H hP) R H hP

theorem Acts.imp (h : Acts P c r Q) (hQ : ∀ H, Q H → Q' H) : Acts P c r Q' := by
  intro R H hP
  obtain ⟨H', hrun, hH'⟩ := h R H hP
  exact ⟨H', hrun, mul_mono hQ hH'⟩

/-- What is owned may be looked at more closely. -/
theorem Acts.of_part {S : Assn F W} (h : ∀ H, S H → ∃ P : Assn F W, P H ∧ Acts (P * A) c r Q) :
    Acts (S * A) c r Q := by
  intro R H hS
  rw [mul_assoc] at hS
  obtain ⟨X, Y, hxy, rfl, hX, hY⟩ := hS
  obtain ⟨P, hP, hact⟩ := h X hX
  exact hact R _ (by rw [mul_assoc]; exact ⟨X, Y, hxy, rfl, hP, hY⟩)

variable [Zero W] {o p : W} {x y : F → Option W}

theorem Acts.ld {f : F} {v : W} (h : x f = some v) :
    Acts (cell o x) (Cmd.ld o f) v (cell o x) := by
  intro R H hP
  refine ⟨H, ?_, hP⟩
  simp [Cmd.ld, Cmd.run, cell_mul.get hP, h]

theorem Acts.st {f : F} {u v : W} (h : x f = some u) :
    Acts (cell o x) (Cmd.st o f v) () (cell o (Function.update x f (some v))) := by
  intro R H hP
  refine ⟨_, by simp [Cmd.st, Cmd.run, cell_mul.get hP, h]; rfl, ?_⟩
  obtain ⟨ho, B, hB, hR, rfl⟩ := cell_mul.mp hP
  exact cell_mul.mpr ⟨ho, B, hB, hR, by simp⟩

theorem Acts.release (o : W) (x : F → Option W) : Acts (cell o x) (Cmd.release o) () 1 := by
  intro R H h
  refine ⟨_, by simp [Cmd.release, Cmd.run, cell_mul.get h]; rfl, ?_⟩
  obtain ⟨-, B, hB, hR, rfl⟩ := cell_mul.mp h
  rw [one_mul, Function.update_idem, ← hB, Function.update_eq_self]
  exact hR

theorem Acts.ne_zero (h : o ≠ 0 → Acts (cell o x * P) c r Q) : Acts (cell o x * P) c r Q :=
  .of_fact (fun _ _ hP => cell_mul.ne_zero (by rw [mul_assoc] at hP; exact hP)) h

end TinyStm.Cells
