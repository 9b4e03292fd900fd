import TinyStm.Machine

/-!
# Bodies of transactions

What a program does between `START` and `COMMIT`: loads and stores of words, each
next one chosen from the values loaded so far. `Prog.run` executes a body on plain
memory; `Leads` says where the loads and stores on record have led it.
-/

namespace TinyStm.Client

variable {w : ℕ} {α : Type*}

/-- The body of a transaction with the result `α`. -/
inductive Prog (w : ℕ) (α : Type*) where
  | ret (r : α)
  | load (a : ℕ) (k : BitVec w → Prog w α)
  | store (a : ℕ) (v m : BitVec w) (k : Prog w α)

/-- A store of the whole word. -/
def Prog.put (a : ℕ) (v : BitVec w) (k : Prog w α) : Prog w α := .store a v (BitVec.allOnes w) k

/-- The body alone on the memory `σ`. -/
def Prog.run : Prog w α → (ℕ → BitVec w) → (ℕ → BitVec w) × α
  | .ret r, σ => (σ, r)
  | .load a k, σ => (k (σ a)).run σ
  | .store a v m k, σ => k.run (Function.update σ a (mergeBits (σ a) v m))

theorem Prog.run_put (a : ℕ) (v : BitVec w) (k : Prog w α) (σ : ℕ → BitVec w) :
    (Prog.put a v k).run σ = k.run (Function.update σ a v) := by
  rw [Prog.put, Prog.run, mergeBits_allOnes]

/-- The body `p` with the loads `R` and the stores `S` on record goes on as `q`. -/
inductive Leads (p : Prog w α) : List (Read w) → List (Store w) → Prog w α → Prop
  | start : Leads p [] [] p
  | load {R S a k} (v : BitVec w) : Leads p R S (.load a k) → Leads p (R ++ [⟨a, v, S⟩]) S (k v)
  | store {R S a v m k} : Leads p R S (.store a v m k) → Leads p R (S ++ [⟨a, v, m⟩]) k

/-- If every load on record returned the word that the stores before it make of the one in
`σ`, then the body runs on `σ` as the record says. -/
theorem Leads.run {p q : Prog w α} {R : List (Read w)} {S : List (Store w)} (h : Leads p R S q)
    {σ : ℕ → BitVec w} (hR : ∀ r ∈ R, r.val = overlay r.pre r.addr (σ r.addr)) :
    p.run σ = q.run fun a => overlay S a (σ a) := by
  induction h with
  | start => rfl
  | @load R S a k v h ih =>
    have hv : v = overlay S a (σ a) := hR ⟨a, v, S⟩ (by simp)
    rw [ih fun r hr => hR r (List.mem_append_left _ hr), Prog.run, ← hv]
  | @store R S a v m k h ih =>
    rw [ih hR, Prog.run]
    congr 1
    funext c
    by_cases hc : c = a
    · subst hc
      rw [Function.update_self, overlay_snoc_self]
    · rw [Function.update_of_ne hc, overlay_snoc_of_ne _ _ _ _ (Ne.symm hc)]

end TinyStm.Client
