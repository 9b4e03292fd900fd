import TinyStm.Tpcc.Tables

/-!
# The populated database

`manager_allocation` does not fail and builds tables that fit together. The one
argument with content is the circular customer number of `fill_order2`: the 3000
orders of a district go to its 3000 customers, so that no customer keeps the
uninitialised pointer.
-/

namespace TinyStm.Tpcc

open Loop

/-- The money fields of a customer as `customer_alloc` sets them. -/
structure FreshMoney (c : Customer) : Prop where
  balance : c.cBalance = -10
  ytd : c.cYtdPayment = 10
  cnt : c.cPaymentCnt = 1

theorem fillCustomer2_ok (u : Unknown) (idD : ℤ) (r : Rand) :
    KeysTo (fillCustomer2 u idD r).1 3000 ∧
      ∀ C c, (fillCustomer2 u idD r).1 C = some c → FreshMoney c := by
  refine upTo_inv (n := 3000) (P := fun n (s : (ℤ → Option Customer) × Rand) =>
    KeysTo s.1 n ∧ ∀ C c, s.1 C = some c → FreshMoney c) ⟨KeysTo.empty, by simp⟩ ?_
  rintro i ⟨m, r⟩ - ⟨hkeys, hfresh⟩
  have hcast : ((i + 1 : ℕ) : ℤ) = (i : ℤ) + 1 := by push_cast; rfl
  refine ⟨?_, fun C c hc => ?_⟩
  · rw [hcast]
    exact hkeys.insert (by omega) _
  · simp only [hcast, hkeys.mapInsert_eq] at hc
    rcases update_eq_some hc with ⟨-, rfl⟩ | ⟨-, hc⟩
    · exact ⟨rfl, rfl, rfl⟩
    · exact hfresh C c hc

theorem fillOrderline_ok (idO idD idW : ℤ) (cnt : ℕ) (r : Rand) :
    LinesTo (fillOrderline idO idD idW cnt r).1 cnt := by
  refine upTo_inv (n := cnt) (P := fun n (s : (ℤ → Option OrderLine) × Rand) => LinesTo s.1 n)
    ⟨KeysTo.empty, by simp⟩ ?_
  rintro i ⟨m, r⟩ - h
  refine h.insert ?_
  have hlt := Nat.mod_lt (r 1) (by decide : 100000 > 0)
  simp only
  omega

theorem orderAlloc_ok (idO idD idC idW entry carrier : ℤ) {cnt : ℕ} (hcnt : 5 ≤ cnt ∧ cnt ≤ 14)
    (l : ℤ) (r : Rand) : OrderOk (orderAlloc idO idD idC idW entry carrier cnt l r).1 :=
  ⟨hcnt, fillOrderline_ok ..⟩

/-! ### The orders of a district -/

/-- The customer of the order after `i` orders. -/
def visit (first : ℤ) (i : ℕ) : ℤ := (first - 1 + i) % 3000 + 1

theorem visit_bounds (first : ℤ) (i : ℕ) : 1 ≤ visit first i ∧ visit first i ≤ 3000 := by
  unfold visit
  omega

/-- The circular increment of the source. -/
theorem visit_succ (first : ℤ) (i : ℕ) :
    (if (visit first i + 1) % 3000 = 0 then 3000 else (visit first i + 1) % 3000) =
      visit first (i + 1) := by
  unfold visit
  push_cast
  split <;> omega

/-- Every customer has an order. -/
theorem exists_visit (first : ℤ) {C : ℤ} (h₁ : 1 ≤ C) (h₂ : C ≤ 3000) :
    ∃ i < 3000, visit first i = C := by
  refine ⟨((C - first) % 3000).toNat, by omega, ?_⟩
  unfold visit
  have hcast : (((C - first) % 3000).toNat : ℤ) = (C - first) % 3000 := by omega
  rw [hcast]
  omega

/-- The loop of `fill_order2` after `i` rounds, from the heap `heap₀`. -/
structure FillOk (heap₀ : ℕ → Option Order) (first : ℤ) (i : ℕ) (s : OrderFill) : Prop where
  idC : s.idC = visit first i
  keys : KeysTo s.orderMap i
  order : ∀ k p, s.orderMap k = some p → ∃ o, s.heap p = some o ∧ o.oId = k ∧ OrderOk o
  customer : KeysTo s.customerMap 3000
  money : ∀ C c, s.customerMap C = some c → FreshMoney c
  last : ∀ j < i, ∀ c, s.customerMap (visit first j) = some c →
    LastOk s.heap s.orderMap (visit first j) c
  fresh : ∀ p o, s.heap p = some o → p < s.next
  keeps : Keeps heap₀ s.heap

theorem fillOrderRound_ok {u : Unknown} {idW idD : ℤ} {heap₀ : ℕ → Option Order} {first : ℤ}
    {i : ℕ} {s : OrderFill} (h : FillOk heap₀ first i s) :
    ∃ s', fillOrderRound u idW idD (i + 1) s = .ok s' ∧ FillOk heap₀ first (i + 1) s' := by
  obtain ⟨hlo, hhi⟩ := visit_bounds first i
  obtain ⟨c, hc⟩ := h.customer.get hlo hhi
  have hnone : s.heap s.next = none := by
    cases hp : s.heap s.next with
    | none => rfl
    | some o => exact absurd (h.fresh _ o hp) (Nat.lt_irrefl _)
  have hcast : ((i + 1 : ℕ) : ℤ) = (i : ℤ) + 1 := by push_cast; rfl
  unfold fillOrderRound
  set carr : ℤ × Rand := if i + 1 < 2101 then ((s.rand 0 % 10 : ℕ) + 1, s.rand.skip 1)
    else (-1, s.rand)
  have hcnt : 5 ≤ carr.2 0 % 10 + 5 ∧ carr.2 0 % 10 + 5 ≤ 14 := by omega
  set o := (orderAlloc ((i + 1 : ℕ) : ℤ) idD (visit first i) idW u.sec carr.1 (carr.2 0 % 10 + 5) 1
    (carr.2.skip 1)).1 with ho
  have hok : OrderOk o := orderAlloc_ok _ _ _ _ _ _ hcnt _ _
  have hkeep : Keeps s.heap (Function.update s.heap s.next (some o)) := Keeps.alloc hnone o
  have hold : ∀ k p, s.orderMap k = some p → Function.update s.orderMap (i + 1) (some s.next) k
      = some p := by
    intro k p hk
    have hne : k ≠ (i : ℤ) + 1 := by
      have := (h.keys.bounds hk).2
      omega
    rw [Function.update_of_ne hne]
    exact hk
  rw [h.idC, if_neg (by omega)]
  simp only [hc]
  refine ⟨_, rfl, ?_⟩
  constructor
  case idC => exact visit_succ first i
  case keys =>
    rw [hcast]
    exact h.keys.insert (by omega) _
  case order =>
    intro k p hk
    simp only [hcast, h.keys.mapInsert_eq] at hk
    rcases update_eq_some hk with ⟨rfl, rfl⟩ | ⟨-, hk⟩
    · exact ⟨o, Function.update_self .., hcast, hok⟩
    · obtain ⟨o', ho', hid, hok'⟩ := h.order k p hk
      obtain ⟨o'', ho'', hid', -, hok''⟩ := hkeep p o' ho'
      exact ⟨o'', ho'', hid'.trans hid, hok'' hok'⟩
  case customer => exact h.customer.update hc
  case money =>
    intro C c' hc'
    rcases update_eq_some hc' with ⟨rfl, rfl⟩ | ⟨-, hc'⟩
    · exact ⟨(h.money _ c hc).balance, (h.money _ c hc).ytd, (h.money _ c hc).cnt⟩
    · exact h.money C c' hc'
  case last =>
    intro j hj c' hc'
    simp only [hcast, h.keys.mapInsert_eq]
    rcases update_eq_some hc' with ⟨heq, rfl⟩ | ⟨hne, hc'⟩
    · exact ⟨(i : ℤ) + 1, s.next, o, rfl, Function.update_self .., Function.update_self .., heq.symm⟩
    · have hlt : j < i := by
        rcases Nat.lt_succ_iff_lt_or_eq.mp hj with hlt | rfl
        · exact hlt
        · exact absurd rfl hne
      obtain ⟨k, p, o', hl, hk, hp, hC⟩ := h.last j hlt c' hc'
      obtain ⟨o'', hp', -, hC', -⟩ := hkeep p o' hp
      exact ⟨k, p, o'', hl, hold k p hk, hp', hC'.trans hC⟩
  case fresh =>
    intro p o' hp
    rcases update_eq_some hp with ⟨rfl, -⟩ | ⟨-, hp⟩
    · exact Nat.lt_succ_self _
    · exact Nat.lt_succ_of_lt (h.fresh p o' hp)
  case keeps => exact h.keeps.trans hkeep

theorem fillOrder2_ok (u : Unknown) {customerMap : ℤ → Option Customer}
    {heap : ℕ → Option Order} {next : ℕ} (idW idD : ℤ) (r : Rand)
    (hcust : KeysTo customerMap 3000) (hmoney : ∀ C c, customerMap C = some c → FreshMoney c)
    (hfresh : ∀ p o, heap p = some o → p < next) :
    ∃ first s, fillOrder2 u customerMap heap next idW idD r = .ok s ∧ FillOk heap first 3000 s := by
  refine ⟨(r 0 % 3000 : ℕ) + 1, ?_⟩
  refine upToM_ok (n := 3000) (P := FillOk heap ((r 0 % 3000 : ℕ) + 1)) ?_
    fun i s _ h => fillOrderRound_ok h
  have hlt := Nat.mod_lt (r 0) (by decide : 3000 > 0)
  refine ⟨?_, KeysTo.empty, by simp, hcust, hmoney, fun j hj => absurd hj (Nat.not_lt_zero j),
    hfresh, Keeps.refl heap⟩
  unfold visit
  simp only
  omega

/-! ### Districts and warehouse -/

/-- A district before the first transaction. -/
structure FreshDistrict (heap : ℕ → Option Order) (d : District) : Prop where
  ok : DistrictOk heap d
  ytd : d.dYtd = 30000
  money : ∀ C c, d.customerMap C = some c → FreshMoney c

theorem districtAlloc_ok (u : Unknown) (dId dWId : ℤ) (dTax : ℚ) {heap : ℕ → Option Order}
    {next : ℕ} (r : Rand) (hfresh : ∀ p o, heap p = some o → p < next) :
    ∃ a, districtAlloc u dId dWId dTax heap next r = .ok a ∧ FreshDistrict a.heap a.val ∧
      (∀ p o, a.heap p = some o → p < a.next) ∧ Keeps heap a.heap := by
  obtain ⟨hkeys, hmoney⟩ := fillCustomer2_ok u dId r
  obtain ⟨first, s, hs, h⟩ := fillOrder2_ok u dWId dId (fillCustomer2 u dId r).2 hkeys hmoney hfresh
  unfold districtAlloc
  simp only [hs]
  refine ⟨_, rfl, ⟨⟨Int.le_refl _, h.keys, h.order, h.customer, fun C c hc => ?_⟩, rfl, h.money⟩, h.fresh,
    h.keeps⟩
  obtain ⟨hlo, hhi⟩ := h.customer.bounds hc
  obtain ⟨i, hi, rfl⟩ := exists_visit first hlo hhi
  exact h.last i hi c hc

theorem fillDistrict_ok (u : Unknown) {heap : ℕ → Option Order} {next : ℕ} (r : Rand)
    (hfresh : ∀ p o, heap p = some o → p < next) :
    ∃ a, fillDistrict u heap next r = .ok a ∧ KeysTo a.val 10 ∧
      (∀ D d, a.val D = some d → FreshDistrict a.heap d) ∧
      ∀ p o, a.heap p = some o → p < a.next := by
  refine upToM_ok (n := 10) (P := fun n (a : Alloc (ℤ → Option District)) => KeysTo a.val n ∧
    (∀ D d, a.val D = some d → FreshDistrict a.heap d) ∧
    ∀ p o, a.heap p = some o → p < a.next) ⟨KeysTo.empty, by simp, hfresh⟩ ?_
  rintro i s - ⟨hkeys, hd, hf⟩
  have hcast : ((i + 1 : ℕ) : ℤ) = (i : ℤ) + 1 := by push_cast; rfl
  obtain ⟨a, ha, hnew, hf', hkeep⟩ := districtAlloc_ok u ((i + 1 : ℕ) : ℤ) 1
    ((s.rand 0 % 2000 : ℕ) / 10000) (s.rand.skip 1) hf
  simp only [ha]
  refine ⟨_, rfl, ?_, fun D d hD => ?_, hf'⟩
  · rw [hcast]
    exact hkeys.insert (by omega) _
  · simp only [hcast, hkeys.mapInsert_eq] at hD
    rcases update_eq_some hD with ⟨-, rfl⟩ | ⟨-, hD⟩
    · exact hnew
    · obtain ⟨hok, hytd, hmoney⟩ := hd D d hD
      exact ⟨hok.keeps hkeep, hytd, hmoney⟩

theorem fillItem_ok (r : Rand) : KeysTo (fillItem r).1 100000 := by
  refine upTo_inv (n := 100000) (P := fun n (s : (ℤ → Option Item) × Rand) => KeysTo s.1 n)
    KeysTo.empty ?_
  rintro i ⟨m, r⟩ - h
  have hcast : ((i + 1 : ℕ) : ℤ) = (i : ℤ) + 1 := by push_cast; rfl
  simp only [hcast]
  exact h.insert (by omega) _

theorem fillStock_ok (u : Unknown) (r : Rand) : KeysTo (fillStock u r).1 100000 ∧
    ∀ i s, (fillStock u r).1 i = some s → 10 ≤ s.sQuantity ∧ s.sQuantity ≤ 101 := by
  refine upTo_inv (n := 100000) (P := fun n (s : (ℤ → Option Stock) × Rand) =>
    KeysTo s.1 n ∧ ∀ i t, s.1 i = some t → 10 ≤ t.sQuantity ∧ t.sQuantity ≤ 101)
    ⟨KeysTo.empty, by simp⟩ ?_
  rintro i ⟨m, r⟩ - ⟨h, hq⟩
  have hcast : ((i + 1 : ℕ) : ℤ) = (i : ℤ) + 1 := by push_cast; rfl
  simp only [hcast]
  refine ⟨h.insert (by omega) _, fun j t ht => ?_⟩
  rw [h.mapInsert_eq] at ht
  rcases update_eq_some ht with ⟨-, rfl⟩ | ⟨-, ht⟩
  · have hlt := Nat.mod_lt (r 0) (by decide : 90 > 0)
    simp only
    omega
  · exact hq j t ht

/-! ### The database -/

/-- The database before the first transaction. -/
structure FreshDb (u : Unknown) (db : Db) : Prop where
  ok : OrdersOk db
  neworder : db.neworder = fillNeworder u
  warehouse : ∀ W w, db.warehouseMap W = some w → w.wYtd = 300000
  district : ∀ W D d, db.district W D = some d → FreshDistrict db.heap d

theorem fillWarehouse_ok (u : Unknown) (r : Rand) :
    ∃ a, fillWarehouse u r = .ok a ∧ (∃ w, a.val 1 = some w) ∧
      (∀ W w, a.val W = some w → W = 1 ∧ w.wYtd = 300000 ∧ KeysTo w.districtMap 10 ∧
        ∀ D d, w.districtMap D = some d → FreshDistrict a.heap d) ∧
      ∀ p o, a.heap p = some o → p < a.next := by
  obtain ⟨a, ha, hkeys, hd, hf⟩ := @fillDistrict_ok u (fun _ => none) 0 (r.skip 1) (by simp)
  unfold fillWarehouse warehouseAlloc
  rw [ha]
  refine ⟨_, rfl, ⟨⟨1, ((r 0 % 2000 : ℕ) / 10000), 300000, a.val⟩, ?_⟩, fun W w hW => ?_, hf⟩
  · simp [mapInsert]
  · have hW : Function.update (fun _ : ℤ => (none : Option Warehouse)) 1 (some _) W = some w := hW
    rcases update_eq_some hW with ⟨rfl, rfl⟩ | ⟨-, hW⟩
    · exact ⟨rfl, rfl, hkeys, hd⟩
    · cases hW

theorem managerAllocation_ok (u : Unknown) (r : Rand) :
    ∃ db, managerAllocation u r = .ok db ∧ FreshDb u db := by
  obtain ⟨a, ha, ⟨w, hw⟩, hd, hf⟩ := fillWarehouse_ok u r
  have hitem := fillItem_ok a.rand
  obtain ⟨hstock, hquant⟩ := fillStock_ok u (fillItem a.rand).2
  rw [managerAllocation, ha]
  refine ⟨⟨a.val, (fillItem a.rand).1, (fillStock u (fillItem a.rand).2).1, fillNeworder u, a.heap,
    a.next⟩, rfl, ?_⟩
  generalize (fillStock u (fillItem a.rand).2).1 = stock at hstock hquant
  generalize (fillItem a.rand).1 = item at hitem
  set db : Db := ⟨a.val, item, stock, fillNeworder u, a.heap, a.next⟩ with hdb
  have hdist : ∀ W D d, db.district W D = some d → FreshDistrict db.heap d ∧
      W = 1 ∧ 1 ≤ D ∧ D ≤ 10 := by
    intro W D d h
    obtain ⟨w', hw', hD⟩ := Option.bind_eq_some_iff.mp h
    obtain ⟨rfl, -, hkeys, hfresh⟩ := hd W w' hw'
    exact ⟨hfresh D d hD, rfl, hkeys.bounds hD⟩
  have hok : OrdersOk db := by
    refine ⟨fun W => ⟨fun h => ?_, ?_⟩, fun W D => ⟨fun h => ?_, ?_⟩,
      fun W D d h => (hdist W D d h).1.ok, hstock, hquant, hitem, hf⟩
    · obtain ⟨w', hw'⟩ := Option.isSome_iff_exists.mp h
      exact (hd W w' hw').1
    · rintro rfl
      exact Option.isSome_iff_exists.mpr ⟨w, hw⟩
    · obtain ⟨d, hD⟩ := Option.isSome_iff_exists.mp h
      exact (hdist W D d hD).2
    · rintro ⟨rfl, h₁, h₂⟩
      obtain ⟨d, hD⟩ := (hd 1 w hw).2.2.1.get h₁ h₂
      rw [Db.district_eq hw]
      exact Option.isSome_iff_exists.mpr ⟨d, hD⟩
  exact ⟨hok, rfl, fun W w' h => (hd W w' h).2.1, fun W D d h => (hdist W D d h).1⟩

end TinyStm.Tpcc
