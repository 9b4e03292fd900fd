import TinyStm.Tpcc.Money

/-!
# Deliveries

`fill_neworder` writes 0 as the warehouse of every new-order entry, the only warehouse
has number 1, and New-Order does not insert entries. So no delivery finds an entry.
-/

namespace TinyStm.Tpcc

open Loop

variable {db db' : Db} {u : Unknown}

/-- What a delivery owes a district: one entry of the district leaves the list, its order
gets the carrier and the delivery dates, and its customer the amount. -/
def DeliversOne (db db' : Db) (W D carrier : ℤ) : Prop :=
  ∃ e l₁ l₂ d p o o' c c', e.noDId = D ∧ e.noWId = W ∧
    db.neworder.filter (isNext W D) = l₁ ++ e :: l₂ ∧
    db'.neworder.filter (isNext W D) = l₁ ++ l₂ ∧
    db.district W D = some d ∧ d.orderMap e.noOId = some p ∧ db.heap p = some o ∧
    db'.heap p = some o' ∧ o'.oCarrierId = carrier ∧
    (∀ i l, o'.orderline i = some l → 0 ≤ l.olDeliveryD) ∧
    db.customer W D o.oCId = some c ∧ db'.customer W D o.oCId = some c' ∧
    c'.cBalance = c.cBalance + orderAmount o ∧ c'.cDeliveryCnt = c.cDeliveryCnt + 1

/-- Every district with an undelivered new-order entry is served. -/
def DeliveryProgress (db db' : Db) (W carrier : ℤ) : Prop :=
  ∀ D, 1 ≤ D → D ≤ 10 → (∃ e ∈ db.neworder, e.noDId = D) → DeliversOne db db' W D carrier

/-! ### The new-order list -/

theorem fillNeworder_warehouse (u : Unknown) : ∀ e ∈ fillNeworder u, e.noWId = 0 := by
  refine upTo_inv (n := 10) (P := fun _ (l : List NewOrder) => ∀ e ∈ l, e.noWId = 0) (by simp) ?_
  intro D l _ hl
  refine upTo_inv (n := 900) (P := fun _ (l : List NewOrder) => ∀ e ∈ l, e.noWId = 0) hl ?_
  intro n l _ hl e he
  rcases List.eq_or_mem_of_mem_insertIdx he with rfl | he
  · rfl
  · exact hl e he

theorem mem_insertIdx_mod {l : List NewOrder} (n : ℕ) (a e : NewOrder) (h : e = a ∨ e ∈ l) :
    e ∈ l.insertIdx (n % (l.length + 1)) a := by
  have hlt : n % (l.length + 1) < l.length + 1 := Nat.mod_lt n (by omega)
  exact (List.mem_insertIdx (by omega)).mpr h

theorem fillNeworder_district (u : Unknown) {D : ℤ} (h₁ : 1 ≤ D) (h₂ : D ≤ 10) :
    ∃ e ∈ fillNeworder u, e.noDId = D := by
  refine upTo_inv (n := 10) (P := fun n (l : List NewOrder) => ∀ D : ℤ, 1 ≤ D → D ≤ n →
    ∃ e ∈ l, e.noDId = D) (by intro D h₁ h₂; omega) ?_ D h₁ h₂
  intro n l _ hl D h₁ h₂
  -- the rounds of one district keep the entries and add one of this district
  have hinner := upTo_inv (n := 900) (s := l)
    (b := fun k l => l.insertIdx (u.place l.length % (l.length + 1))
      ⟨(k : ℤ) + 2100, ((n + 1 : ℕ) : ℤ), 0⟩)
    (P := fun k (l' : List NewOrder) => (∀ e ∈ l, e ∈ l') ∧
      (1 ≤ k → ∃ e ∈ l', e.noDId = ((n + 1 : ℕ) : ℤ)))
    ⟨fun _ he => he, fun h => absurd h (by omega)⟩
    fun k l' _ ⟨hold, _⟩ => ⟨fun e he => mem_insertIdx_mod _ _ e (.inr (hold e he)),
      fun _ => ⟨_, mem_insertIdx_mod _ _ _ (.inl rfl), rfl⟩⟩
  rcases eq_or_ne D ((n + 1 : ℕ) : ℤ) with rfl | hne
  · exact hinner.2 (by omega)
  · obtain ⟨e, he, heD⟩ := hl D h₁ (by omega)
    exact ⟨e, hinner.1 e he, heD⟩

/-! ### Runs -/

/-- No entry is of a warehouse that exists. -/
theorem find_isNext_none (hok : OrdersOk db) (hno : db.neworder = fillNeworder u) {W : ℤ}
    (hw : (db.warehouseMap W).isSome) (D : ℤ) : db.neworder.filter (isNext W D) = [] := by
  rw [List.filter_eq_nil_iff]
  intro e he hnext
  rw [hno] at he
  have hW := (hok.warehouses W).mp hw
  simp only [isNext, Bool.and_eq_true, beq_iff_eq] at hnext
  rw [fillNeworder_warehouse u e he, hW] at hnext
  exact absurd hnext.2 (by decide)

theorem deliverDistrict_stalls (hok : OrdersOk db) (hno : db.neworder = fillNeworder u) {W : ℤ}
    (hw : (db.warehouseMap W).isSome) (D carrier : ℤ) (sec : ℕ → ℤ) :
    deliverDistrict db W D carrier sec = .ok (db, 1) := by
  obtain ⟨w, hw'⟩ := Option.isSome_iff_exists.mp hw
  have hnone : db.neworder.find? (isNext W D) = none := by
    rw [← List.head?_filter, find_isNext_none hok hno hw D]
    rfl
  simp only [deliverDistrict, hw', hnone]

theorem neworder_run (hok : OrdersOk db) (hno : db.neworder = fillNeworder u) {c : Call} {v : ℤ}
    (hres : c.run db = .ok (db', v)) : db'.neworder = fillNeworder u := by
  cases c with
  | newOrder W D C sec r =>
    rcases newOrder_cases hok W D C sec r with hrun | ⟨w, d, c, st, o, -, -, -, -, -, -, -, -, hrun⟩
    · rw [Call.run, hrun] at hres
      cases hres
      exact hno
    · rw [Call.run, hrun] at hres
      cases hres
      exact hno
  | payment W D C hAmount r =>
    rcases payment_cases hres with ⟨rfl, -⟩ | ⟨w, d, k, c, -, -, -, -, -, rfl⟩
    · exact hno
    · exact hno
  | orderStatus W D C =>
    obtain ⟨v', hrun⟩ := hok.orderStatus W D C
    rw [Call.run, hrun] at hres
    cases hres
    exact hno
  | stockLevel W D t =>
    obtain ⟨v', hrun⟩ := hok.stockLevel W D t
    rw [Call.run, hrun] at hres
    cases hres
    exact hno
  | delivery W D carrier sec =>
    cases hw : db.warehouseMap W with
    | none =>
      simp only [Call.run, deliverDistrict, hw] at hres
      cases hres
      exact hno
    | some w =>
      rw [Call.run, deliverDistrict_stalls hok hno (by rw [hw]; rfl)] at hres
      cases hres
      exact hno

theorem managerDelivery_stalls (hok : OrdersOk db) (hno : db.neworder = fillNeworder u) {W : ℤ}
    (hw : (db.warehouseMap W).isSome) (carrier : ℤ) (sec : ℕ → ℕ → ℤ) :
    managerDeliverytransaction db W carrier sec = .ok (db, 1) := by
  have hround : ∀ (D : ℕ) (s : Db × ℤ), D < 10 → s = (db, 1) →
      ∃ s', deliveryRound W carrier sec (D + 1) s = .ok s' ∧ s' = (db, 1) := by
    rintro D s - rfl
    refine ⟨(db, 1), ?_, rfl⟩
    have hne : ¬ ((db, (1 : ℤ)).2 = -1) := by simp
    rw [deliveryRound, if_neg hne, deliverDistrict_stalls hok hno hw]
  obtain ⟨s, hs, rfl⟩ := upToM_ok (P := fun _ s => s = (db, (1 : ℤ))) rfl hround
  exact hs

theorem not_progress (hok : OrdersOk db) (hno : db.neworder = fillNeworder u) {W : ℤ}
    (hw : (db.warehouseMap W).isSome) (carrier : ℤ) : ¬ DeliveryProgress db db' W carrier := by
  intro h
  have hentry := fillNeworder_district u (D := 1) (by decide) (by decide)
  rw [← hno] at hentry
  obtain ⟨e, l₁, l₂, -, -, -, -, -, -, -, -, hf, -⟩ := h 1 (by decide) (by decide) hentry
  rw [find_isNext_none hok hno hw 1] at hf
  simp at hf

/-- In every state that the transactions reach, a delivery to an existing warehouse
changes nothing, although every district has an entry in the list. -/
theorem delivery_stalls (u : Unknown) (r : Rand) : ∃ db₀, managerAllocation u r = .ok db₀ ∧
    ∀ calls db, exec calls db₀ = some db → ∀ W carrier sec, (db.warehouseMap W).isSome →
      managerDeliverytransaction db W carrier sec = .ok (db, 1) ∧
      (∀ D, 1 ≤ D → D ≤ 10 → ∃ e ∈ db.neworder, e.noDId = D) ∧
      ¬ DeliveryProgress db db W carrier := by
  obtain ⟨db₀, h₀, hfresh⟩ := managerAllocation_ok u r
  refine ⟨db₀, h₀, fun calls db hex W carrier sec hw => ?_⟩
  obtain ⟨hok, hno⟩ := exec_inv (P := fun db => OrdersOk db ∧ db.neworder = fillNeworder u)
    (fun _ _ _ _ h hrun => ⟨h.1.run hrun, neworder_run h.1 h.2 hrun⟩) calls
    ⟨hfresh.ok, hfresh.neworder⟩ hex
  refine ⟨managerDelivery_stalls hok hno hw carrier sec, fun D h₁ h₂ => ?_,
    not_progress hok hno hw carrier⟩
  rw [hno]
  exact fillNeworder_district u h₁ h₂

/-- Memory that `malloc` happens to return cleared, entries in the order of allocation. -/
def cleared : Unknown := ⟨fun _ _ => none, fun _ _ => 0, fun _ => 0, fun _ => 0, id, 0⟩

/-- The first delivery to warehouse 1 on the populated database. -/
theorem delivery_initial : ∃ db₀ db', managerAllocation cleared (fun _ => 0) = .ok db₀ ∧
    (db₀.warehouseMap 1).isSome ∧
    managerDeliverytransaction db₀ 1 7 (fun _ _ => 0) = .ok (db', 1) ∧
    ¬ DeliveryProgress db₀ db' 1 7 := by
  obtain ⟨db₀, h₀, hfresh⟩ := managerAllocation_ok cleared (fun _ => 0)
  have hw : (db₀.warehouseMap 1).isSome := (hfresh.ok.warehouses 1).mpr rfl
  exact ⟨db₀, db₀, h₀, hw, managerDelivery_stalls hfresh.ok hfresh.neworder hw 7 _,
    not_progress hfresh.ok hfresh.neworder hw 7⟩

end TinyStm.Tpcc
