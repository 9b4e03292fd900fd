import TinyStm.Tpcc.Model

/-!
# Integrity of the tables

What the transactions rely on between the tables of one database. The order and
customer maps of a district refer to the heap; a heap that keeps the keys of its
orders keeps the integrity of every district.
-/

namespace TinyStm.Tpcc

/-! ### Maps with keys from one on -/

section Maps

variable {α : Type} {m : ℤ → Option α} {n : ℤ}

/-- The keys of a map are those from 1 to `n`. -/
def KeysTo (m : ℤ → Option α) (n : ℤ) : Prop := ∀ k, (m k).isSome ↔ 1 ≤ k ∧ k ≤ n

theorem KeysTo.empty : KeysTo (fun _ : ℤ => (none : Option α)) 0 := by
  intro k
  simp only [Option.isSome_none, Bool.false_eq_true, false_iff]
  omega

theorem KeysTo.get (h : KeysTo m n) {k : ℤ} (h₁ : 1 ≤ k) (h₂ : k ≤ n) : ∃ v, m k = some v :=
  Option.isSome_iff_exists.mp ((h k).mpr ⟨h₁, h₂⟩)

theorem KeysTo.bounds (h : KeysTo m n) {k : ℤ} {v : α} (hk : m k = some v) : 1 ≤ k ∧ k ≤ n :=
  (h k).mp (by rw [hk]; rfl)

/-- A row under the next key is a new row. -/
theorem KeysTo.mapInsert_eq (h : KeysTo m n) (v : α) :
    mapInsert m (n + 1) v = Function.update m (n + 1) (some v) := by
  have hnone : ¬ (m (n + 1)).isSome := by
    rw [h]
    omega
  rw [mapInsert, if_neg hnone]

theorem KeysTo.insert (h : KeysTo m n) (hn : 0 ≤ n) (v : α) :
    KeysTo (mapInsert m (n + 1) v) (n + 1) := by
  intro k
  rw [h.mapInsert_eq]
  rcases eq_or_ne k (n + 1) with rfl | hne
  · rw [Function.update_self]
    simp only [Option.isSome_some, true_iff]
    omega
  · rw [Function.update_of_ne hne, h k]
    omega

/-- A row is written again. -/
theorem KeysTo.update (h : KeysTo m n) {k : ℤ} {u v : α} (hk : m k = some u) :
    KeysTo (Function.update m k (some v)) n := by
  intro j
  rcases eq_or_ne j k with rfl | hne
  · rw [Function.update_self, ← h j, hk]
    exact Iff.rfl
  · rw [Function.update_of_ne hne, h j]

theorem update_eq_some {κ : Type} [DecidableEq κ] {m : κ → Option α} {k j : κ} {u v : α}
    (h : Function.update m k (some u) j = some v) :
    (j = k ∧ v = u) ∨ (j ≠ k ∧ m j = some v) := by
  rcases eq_or_ne j k with rfl | hne
  · rw [Function.update_self] at h
    exact .inl ⟨rfl, (Option.some.inj h).symm⟩
  · rw [Function.update_of_ne hne] at h
    exact .inr ⟨hne, h⟩

end Maps

/-! ### Orders -/

/-- Order lines 1 to `n`, for items that exist. -/
structure LinesTo (m : ℤ → Option OrderLine) (n : ℕ) : Prop where
  keys : KeysTo m n
  item : ∀ i l, m i = some l → 1 ≤ l.olIId ∧ l.olIId ≤ 100000

theorem LinesTo.insert {m : ℤ → Option OrderLine} {n : ℕ} (h : LinesTo m n) {l : OrderLine}
    (hl : 1 ≤ l.olIId ∧ l.olIId ≤ 100000) : LinesTo (mapInsert m (n + 1 : ℕ) l) (n + 1) := by
  have hcast : ((n + 1 : ℕ) : ℤ) = (n : ℤ) + 1 := by push_cast; rfl
  constructor
  · rw [hcast]
    exact h.keys.insert (by omega) l
  · intro i l' hi
    rw [hcast, h.keys.mapInsert_eq] at hi
    rcases update_eq_some hi with ⟨-, rfl⟩ | ⟨-, hi⟩
    · exact hl
    · exact h.item i l' hi

structure OrderOk (o : Order) : Prop where
  cnt : 5 ≤ o.oOlCnt ∧ o.oOlCnt ≤ 14
  lines : LinesTo o.orderline o.oOlCnt

/-! ### Districts -/

/-- The order a customer points to is one of the orders of that customer. -/
def LastOk (heap : ℕ → Option Order) (orderMap : ℤ → Option ℕ) (C : ℤ) (c : Customer) : Prop :=
  ∃ k p o, c.lastOrder = some p ∧ orderMap k = some p ∧ heap p = some o ∧ o.oCId = C

structure DistrictOk (heap : ℕ → Option Order) (d : District) : Prop where
  next : 3001 ≤ d.dNextOId
  keys : KeysTo d.orderMap (d.dNextOId - 1)
  order : ∀ k p, d.orderMap k = some p → ∃ o, heap p = some o ∧ o.oId = k ∧ OrderOk o
  customer : KeysTo d.customerMap 3000
  last : ∀ C c, d.customerMap C = some c → LastOk heap d.orderMap C c

/-- Every order stays, with its number, its customer and its integrity. -/
def Keeps (heap heap' : ℕ → Option Order) : Prop :=
  ∀ p o, heap p = some o → ∃ o', heap' p = some o' ∧ o'.oId = o.oId ∧ o'.oCId = o.oCId ∧
    (OrderOk o → OrderOk o')

section Heap

variable {heap heap' : ℕ → Option Order}

theorem Keeps.refl (heap : ℕ → Option Order) : Keeps heap heap := fun _ o h =>
  ⟨o, h, rfl, rfl, id⟩

theorem Keeps.trans {heap'' : ℕ → Option Order} (h : Keeps heap heap') (h' : Keeps heap' heap'') :
    Keeps heap heap'' := by
  intro p o hp
  obtain ⟨o₁, hp₁, hid₁, hc₁, hok₁⟩ := h p o hp
  obtain ⟨o₂, hp₂, hid₂, hc₂, hok₂⟩ := h' p o₁ hp₁
  exact ⟨o₂, hp₂, hid₂.trans hid₁, hc₂.trans hc₁, hok₂ ∘ hok₁⟩

/-- A new order. -/
theorem Keeps.alloc {p : ℕ} (hp : heap p = none) (o : Order) :
    Keeps heap (Function.update heap p (some o)) := by
  intro q o' hq
  have hne : q ≠ p := fun heq => by
    rw [heq, hp] at hq
    cases hq
  exact ⟨o', by rw [Function.update_of_ne hne]; exact hq, rfl, rfl, id⟩

theorem LastOk.keeps {orderMap : ℤ → Option ℕ} {C : ℤ} {c : Customer} (hk : Keeps heap heap')
    (h : LastOk heap orderMap C c) : LastOk heap' orderMap C c := by
  obtain ⟨k, p, o, hl, hm, hp, hC⟩ := h
  obtain ⟨o', hp', -, hC', -⟩ := hk p o hp
  exact ⟨k, p, o', hl, hm, hp', hC'.trans hC⟩

theorem DistrictOk.keeps {d : District} (hk : Keeps heap heap') (h : DistrictOk heap d) :
    DistrictOk heap' d where
  next := h.next
  keys := h.keys
  order k p hp := by
    obtain ⟨o, ho, hid, hok⟩ := h.order k p hp
    obtain ⟨o', ho', hid', -, hok'⟩ := hk p o ho
    exact ⟨o', ho', hid'.trans hid, hok' hok⟩
  customer := h.customer
  last C c hc := (h.last C c hc).keeps hk

end Heap

/-! ### The database -/

def Db.district (db : Db) (W D : ℤ) : Option District :=
  (db.warehouseMap W).bind (·.districtMap D)

theorem Db.district_eq {db : Db} {W D : ℤ} {w : Warehouse} (hw : db.warehouseMap W = some w) :
    db.district W D = w.districtMap D := by
  rw [Db.district, hw]
  rfl

theorem Db.warehouseMap_putDistrict (db : Db) (W : ℤ) (w : Warehouse) (D : ℤ) (d : District)
    (W' : ℤ) : (db.putDistrict W w D d).warehouseMap W' = if W' = W then
      some { w with districtMap := Function.update w.districtMap D (some d) }
    else db.warehouseMap W' :=
  Function.update_apply ..

/-- A district is written back; the other districts stay. -/
theorem Db.district_putDistrict {db : Db} {W D : ℤ} {w w' : Warehouse} {d : District}
    (hw : db.warehouseMap W = some w) (hm : w'.districtMap = w.districtMap) (W' D' : ℤ) :
    (db.putDistrict W w' D d).district W' D' =
      if W' = W ∧ D' = D then some d else db.district W' D' := by
  rcases eq_or_ne W' W with rfl | hne
  · have hput := Db.warehouseMap_putDistrict db W' w' D d W'
    rw [if_pos rfl] at hput
    rw [Db.district_eq hput, Db.district_eq hw, hm]
    rcases eq_or_ne D' D with rfl | hne
    · rw [if_pos ⟨rfl, rfl⟩]
      exact Function.update_self ..
    · rw [if_neg fun h => hne h.2]
      exact Function.update_of_ne hne ..
  · have hput := Db.warehouseMap_putDistrict db W w' D d W'
    rw [if_neg hne] at hput
    rw [if_neg fun h => hne h.1, Db.district, Db.district, hput]

theorem Db.isSome_putDistrict {db : Db} {W D : ℤ} {w w' : Warehouse} {d : District}
    (hw : db.warehouseMap W = some w) (W' : ℤ) :
    ((db.putDistrict W w' D d).warehouseMap W').isSome = (db.warehouseMap W').isSome := by
  rw [Db.warehouseMap_putDistrict]
  split
  · next heq =>
    rw [heq, hw]
    rfl
  · rfl

structure OrdersOk (db : Db) : Prop where
  warehouses : ∀ W, (db.warehouseMap W).isSome ↔ W = 1
  districts : ∀ W D, (db.district W D).isSome ↔ W = 1 ∧ 1 ≤ D ∧ D ≤ 10
  district : ∀ W D d, db.district W D = some d → DistrictOk db.heap d
  stock : KeysTo db.stockMap 100000
  quantity : ∀ i s, db.stockMap i = some s → 10 ≤ s.sQuantity ∧ s.sQuantity ≤ 101
  item : KeysTo db.itemMap 100000
  fresh : ∀ p o, db.heap p = some o → p < db.next

theorem OrdersOk.heap_next {db : Db} (h : OrdersOk db) : db.heap db.next = none := by
  cases hp : db.heap db.next with
  | none => rfl
  | some o => exact absurd (h.fresh _ o hp) (Nat.lt_irrefl _)

end TinyStm.Tpcc
