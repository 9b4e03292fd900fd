import TinyStm.Tpcc.Money

/-!
# The consistency check of the population

`checkConsistency1` walks the warehouses from key 0 on, and the districts of a warehouse
from key 0 on, and both walks end at the first key that is missing. The tables are keyed
from 1.
-/

namespace TinyStm.Tpcc

variable {db : Db}

/-- The inner loop over `j < 10`: `n` rounds to go. -/
def sumFrom (m : ℤ → Option District) : ℕ → ℤ → ℚ → ℚ
  | 0, _, sum => sum
  | n + 1, j, sum =>
    match m j with
    | none => sum
    | some d => sumFrom m n (j + 1) (sum + d.dYtd)

/-- The outer loop from `i` on; `none` says that `fuel` rounds do not end it, `false` that an
assertion failed. -/
def checkFrom (m : ℤ → Option Warehouse) : ℕ → ℤ → Option Bool
  | 0, _ => none
  | fuel + 1, i =>
    match m i with
    | none => some true
    | some w => if w.wYtd ≠ sumFrom w.districtMap 10 0 0 then checkFrom m fuel (i + 1) else some false

def checkConsistency1 (db : Db) (fuel : ℕ) : Option Bool := checkFrom db.warehouseMap fuel 0

/-- The check ends, and no assertion failed. -/
def Passes (db : Db) : Prop := ∃ fuel, checkConsistency1 db fuel = some true

/-- Keys as `fill_warehouse` and `fill_district` give them. -/
structure Keyed (db : Db) : Prop where
  warehouses : ∃ n, KeysTo db.warehouseMap n
  districts : ∀ W w, db.warehouseMap W = some w → KeysTo w.districtMap 10

/-- There is no warehouse 0, and the first round ends the check. -/
theorem Keyed.passes (h : Keyed db) : Passes db := by
  obtain ⟨n, hn⟩ := h.warehouses
  have hnone : db.warehouseMap 0 = none := by
    have := hn 0
    simpa using this
  exact ⟨1, by rw [checkConsistency1, checkFrom, hnone]⟩

/-- The check passes whatever the sums are, so its answer is right on the balanced databases
alone. -/
theorem check_right_iff (db : Db) (h : Keyed db) :
    Passes db ∧ ((Passes db ↔ Balanced db) ↔ Balanced db) := by
  have hp := h.passes
  exact ⟨hp, fun hiff => hiff.mp hp, fun hb => ⟨fun _ => hb, fun _ => hp⟩⟩

/-- One warehouse, with ten districts that have received nothing. -/
def oneWarehouse (ytd : ℚ) : Db where
  warehouseMap W := if W = 1 then some ⟨1, 0, ytd, fun D => if 1 ≤ D ∧ D ≤ 10 then
    some ⟨D, 1, 0, 0, 3001, fun _ => none, fun _ => none⟩ else none⟩ else none
  itemMap _ := none
  stockMap _ := none
  neworder := []
  heap _ := none
  next := 0

theorem oneWarehouse_keyed (ytd : ℚ) : Keyed (oneWarehouse ytd) where
  warehouses := by
    refine ⟨1, fun W => ?_⟩
    by_cases hW : W = 1
    · simp [oneWarehouse, hW]
    · simp only [oneWarehouse, if_neg hW, Option.isSome_none, Bool.false_eq_true, false_iff]
      omega
  districts W w hw D := by
    simp only [oneWarehouse] at hw
    split at hw
    · cases hw
      by_cases hD : 1 ≤ D ∧ D ≤ 10 <;> simp [hD]
    · cases hw

theorem oneWarehouse_sum {W : ℤ} {w : Warehouse} {ytd : ℚ}
    (hw : (oneWarehouse ytd).warehouseMap W = some w) : w.wYtd = ytd ∧ sumYtd w = 0 := by
  simp only [oneWarehouse] at hw
  split at hw
  · cases hw
    refine ⟨rfl, Finset.sum_eq_zero fun i _ => ?_⟩
    unfold districtYtd
    dsimp only
    split <;> rfl
  · cases hw

theorem check_right_zero : Keyed (oneWarehouse 0) ∧ (Passes (oneWarehouse 0) ↔ Balanced (oneWarehouse 0)) := by
  refine ⟨oneWarehouse_keyed 0, (check_right_iff _ (oneWarehouse_keyed 0)).2.mpr fun W w hw => ?_⟩
  obtain ⟨h₁, h₂⟩ := oneWarehouse_sum hw
  rw [h₁, h₂]

/-- The warehouse has received 1, and its districts nothing. -/
theorem check_misses_imbalance : Keyed (oneWarehouse 1) ∧
    ¬ (Passes (oneWarehouse 1) ↔ Balanced (oneWarehouse 1)) := by
  have hkeyed := oneWarehouse_keyed 1
  refine ⟨hkeyed, fun hiff => ?_⟩
  have hbal := hiff.mp hkeyed.passes 1 _ rfl
  obtain ⟨h₁, h₂⟩ := @oneWarehouse_sum 1 _ 1 rfl
  rw [h₁, h₂] at hbal
  exact one_ne_zero hbal

end TinyStm.Tpcc
