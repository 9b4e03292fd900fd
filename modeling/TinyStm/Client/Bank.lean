import TinyStm.Client.Atomic
import Mathlib.Data.BitVec
import Mathlib.Algebra.BigOperators.Group.Finset.Piecewise

/-!
# The bank

The stress test of `test/bank/bank.c`: threads move money between accounts, add all
balances up and reset them. The program prints the total at its end with the remark
`(expected: 0)`. A balance is an `int`, the words stored to it are the sign extension
of one; with 64-bit words a store also covers the number of the next account. A bank
has at most `RW_SET_SIZE` accounts, so that the write set of a reset does not grow.
-/

namespace TinyStm.Client

open Interleave

variable {w : ℕ} {b : Build}

/-- The accounts: eight bytes each, the balance in the second half. -/
structure Bank where
  accounts : ℕ
  size : ℕ

/-- `&bank->accounts[i].balance`. -/
def Bank.balance (bank : Bank) (i : ℕ) : ℕ := bank.accounts + 8 * i + 4

/-- `(int)LOAD(addr)`. -/
def loadInt (a : ℕ) (k : BitVec 32 → Prog w (BitVec 32)) : Prog w (BitVec 32) :=
  .load a fun v => k (v.setWidth 32)

/-- `STORE(addr, i)` of an `int`. -/
def storeInt (a : ℕ) (i : BitVec 32) (k : Prog w (BitVec 32)) : Prog w (BitVec 32) :=
  .put a (i.signExtend w) k

/-- `transfer` (`bank.c:81-100`); overdrafts are allowed. -/
def transfer (src dst : ℕ) (amount : BitVec 32) : Prog w (BitVec 32) :=
  loadInt src fun i => storeInt src (i - amount) <|
    loadInt dst fun i => storeInt dst (i + amount) <| .ret amount

/-- The loop of `total`, `n` accounts from account `i` on. -/
def Bank.totalFrom (bank : Bank) : ℕ → ℕ → BitVec 32 → Prog w (BitVec 32)
  | 0, _, t => .ret t
  | n + 1, i, t => loadInt (bank.balance i) fun v => bank.totalFrom n (i + 1) (t + v)

/-- `total` (`bank.c:102-121`). -/
def Bank.total (bank : Bank) : Prog w (BitVec 32) := bank.totalFrom bank.size 0 0

/-- The loop of `reset`. -/
def Bank.resetFrom (bank : Bank) : ℕ → ℕ → Prog w (BitVec 32)
  | 0, _ => .ret 0
  | n + 1, i => storeInt (bank.balance i) 0 (bank.resetFrom n (i + 1))

/-- `reset` (`bank.c:123-132`). -/
def Bank.reset (bank : Bank) : Prog w (BitVec 32) := bank.resetFrom bank.size 0

/-- The transactions of the test (`bank.c:205-237`). -/
inductive Bank.Call (bank : Bank) : Prog w (BitVec 32) → Prop
  | transfer {i j : ℕ} (amount : BitVec 32) : i < bank.size → j < bank.size → i ≠ j →
      bank.Call (transfer (bank.balance i) (bank.balance j) amount)
  | total : bank.Call bank.total
  | reset : bank.Call bank.reset

/-! ### The bodies alone -/

/-- The balance in the word at `a`. -/
def intAt (m : ℕ → BitVec w) (a : ℕ) : BitVec 32 := (m a).setWidth 32

/-- The memory with the `int` `i` at `a`. -/
def putInt (m : ℕ → BitVec w) (a : ℕ) (i : BitVec 32) : ℕ → BitVec w :=
  Function.update m a (i.signExtend w)

theorem run_loadInt (a : ℕ) (k : BitVec 32 → Prog w (BitVec 32)) (m : ℕ → BitVec w) :
    (loadInt a k).run m = (k (intAt m a)).run m := rfl

theorem run_storeInt (a : ℕ) (i : BitVec 32) (k : Prog w (BitVec 32)) (m : ℕ → BitVec w) :
    (storeInt a i k).run m = k.run (putInt m a i) := Prog.run_put ..

theorem intAt_putInt (hw : 32 ≤ w) (m : ℕ → BitVec w) (a c : ℕ) (i : BitVec 32) :
    intAt (putInt m a i) c = if c = a then i else intAt m c := by
  unfold intAt putInt
  by_cases h : c = a
  · subst h
    rw [Function.update_self, if_pos rfl]
    ext j hj
    have hj' : j < w := by omega
    simp [hj', BitVec.getElem_signExtend, hj]
  · rw [Function.update_of_ne h, if_neg h]

theorem Bank.balance_inj (bank : Bank) {i j : ℕ} : bank.balance i = bank.balance j ↔ i = j := by
  simp [Bank.balance]

/-- The money in the bank. -/
def Bank.sum (bank : Bank) (m : ℕ → BitVec w) : BitVec 32 :=
  ∑ i ∈ Finset.range bank.size, intAt m (bank.balance i)

theorem Bank.sum_putInt (hw : 32 ≤ w) (bank : Bank) (m : ℕ → BitVec w) {i : ℕ}
    (hi : i < bank.size) (v : BitVec 32) :
    bank.sum (putInt m (bank.balance i) v) + intAt m (bank.balance i) = bank.sum m + v := by
  have hmem : i ∈ Finset.range bank.size := Finset.mem_range.mpr hi
  have hrest : ∑ j ∈ (Finset.range bank.size).erase i,
        intAt (putInt m (bank.balance i) v) (bank.balance j) =
      ∑ j ∈ (Finset.range bank.size).erase i, intAt m (bank.balance j) := by
    refine Finset.sum_congr rfl fun j hj => ?_
    rw [intAt_putInt hw, if_neg fun h => Finset.ne_of_mem_erase hj (bank.balance_inj.mp h)]
  rw [Bank.sum, Bank.sum, ← Finset.add_sum_erase _ _ hmem, hrest, intAt_putInt hw, if_pos rfl,
    ← Finset.add_sum_erase _ (fun j => intAt m (bank.balance j)) hmem]
  abel

theorem Bank.run_transfer (hw : 32 ≤ w) (bank : Bank) (m : ℕ → BitVec w) {i j : ℕ}
    (hi : i < bank.size) (hj : j < bank.size) (hij : i ≠ j) (amount : BitVec 32) :
    bank.sum ((Client.transfer (bank.balance i) (bank.balance j) amount).run m).1 = bank.sum m := by
  have hne : bank.balance j ≠ bank.balance i := fun h => hij (bank.balance_inj.mp h).symm
  rw [Client.transfer, run_loadInt, run_storeInt, run_loadInt, run_storeInt, Prog.run,
    intAt_putInt hw, if_neg hne]
  -- what the source loses and what the destination gains
  have hsrc := bank.sum_putInt hw m hi (intAt m (bank.balance i) - amount)
  have hdst := bank.sum_putInt hw (putInt m (bank.balance i) (intAt m (bank.balance i) - amount)) hj
    (intAt m (bank.balance j) + amount)
  rw [intAt_putInt hw, if_neg hne] at hdst
  linear_combination hsrc + hdst

theorem Bank.run_totalFrom (bank : Bank) (m : ℕ → BitVec w) (n i : ℕ) (t : BitVec 32) :
    (bank.totalFrom n i t).run m =
      (m, t + ∑ j ∈ Finset.range n, intAt m (bank.balance (i + j))) := by
  induction n generalizing i t with
  | zero => simp [Bank.totalFrom, Prog.run]
  | succ n ih =>
    rw [Bank.totalFrom, run_loadInt, ih, Finset.sum_range_succ', add_assoc]
    have hshift : ∀ j, i + 1 + j = i + (j + 1) := fun j => by omega
    simp only [hshift, Nat.add_zero, add_comm]

/-- `total` adds up the money there is. -/
theorem Bank.run_total (bank : Bank) (m : ℕ → BitVec w) :
    bank.total.run m = (m, bank.sum m) := by
  rw [Bank.total, bank.run_totalFrom]
  simp [Bank.sum]

theorem Bank.run_resetFrom (hw : 32 ≤ w) (bank : Bank) (m : ℕ → BitVec w) (n i j : ℕ) :
    intAt ((bank.resetFrom n i).run m).1 (bank.balance j) =
      if i ≤ j ∧ j < i + n then 0 else intAt m (bank.balance j) := by
  induction n generalizing i m with
  | zero => rw [Bank.resetFrom, Prog.run, if_neg (by omega)]
  | succ n ih =>
    rw [Bank.resetFrom, run_storeInt, ih, intAt_putInt hw]
    simp only [bank.balance_inj]
    by_cases h : i + 1 ≤ j ∧ j < i + 1 + n
    · rw [if_pos h, if_pos (by omega)]
    · rw [if_neg h]
      by_cases hj : j = i
      · rw [if_pos hj, if_pos (by omega)]
      · rw [if_neg hj, if_neg (by omega)]

theorem Bank.run_reset (hw : 32 ≤ w) (bank : Bank) (m : ℕ → BitVec w) :
    bank.sum (bank.reset.run m).1 = 0 := by
  refine Finset.sum_eq_zero fun j hj => ?_
  rw [Bank.reset, bank.run_resetFrom hw, if_pos]
  simpa using hj

/-- Every transaction of the test keeps an empty balance sheet. -/
theorem Bank.keeps (hw : 32 ≤ w) (bank : Bank) (p : Prog w (BitVec 32)) (hp : bank.Call p)
    (m : ℕ → BitVec w) (h : bank.sum m = 0) : bank.sum (p.run m).1 = 0 := by
  cases hp with
  | transfer amount hi hj hij => rw [bank.run_transfer hw m hi hj hij, h]
  | total => rw [bank.run_total, h]
  | reset => exact bank.run_reset hw m

end TinyStm.Client
