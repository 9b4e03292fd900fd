import TinyStm.Tpcc.Populate

/-!
# Orders under all transactions

What each transaction does to the database, and that it keeps the integrity of the
orders. Order-Status and Stock-Level then always reach their end.
-/

namespace TinyStm.Tpcc

open Loop

variable {db db' : Db} {W D C : ℤ} {w : Warehouse} {d : District}

/-- A district and the heap were written. -/
theorem OrdersOk.put (h : OrdersOk db) (hw : db.warehouseMap W = some w)
    (hd : w.districtMap D = some d) {d' : District}
    (hware : ∀ W', (db'.warehouseMap W').isSome = (db.warehouseMap W').isSome)
    (hdist : ∀ W' D', db'.district W' D' = if W' = W ∧ D' = D then some d' else db.district W' D')
    (hd' : DistrictOk db'.heap d') (hkeep : Keeps db.heap db'.heap)
    (hstock : KeysTo db'.stockMap 100000)
    (hquant : ∀ i s, db'.stockMap i = some s → 10 ≤ s.sQuantity ∧ s.sQuantity ≤ 101)
    (hitem : db'.itemMap = db.itemMap) (hfresh : ∀ p o, db'.heap p = some o → p < db'.next) :
    OrdersOk db' where
  warehouses W' := by rw [hware]; exact h.warehouses W'
  districts W' D' := by
    rw [hdist, ← h.districts]
    by_cases heq : W' = W ∧ D' = D
    · rw [if_pos heq, heq.1, heq.2, Db.district_eq hw, hd]
      rfl
    · rw [if_neg heq]
  district W' D' d₁ hd₁ := by
    rw [hdist] at hd₁
    split at hd₁
    · cases hd₁
      exact hd'
    · exact (h.district W' D' d₁ hd₁).keeps hkeep
  stock := hstock
  quantity := hquant
  item := by rw [hitem]; exact h.item
  fresh := hfresh

/-! ### New orders -/

/-- The quantity stays in its range. -/
theorem Stock.take_bounds {s : Stock} {q : ℤ} (hs : 10 ≤ s.sQuantity ∧ s.sQuantity ≤ 101)
    (hq : 1 ≤ q ∧ q ≤ 10) : 10 ≤ (s.take q).sQuantity ∧ (s.take q).sQuantity ≤ 101 := by
  simp only [Stock.take]
  split <;> omega

/-- The loop over the lines of the new order `p` after `i` rounds: the stock has changed,
and the order has `i` lines. -/
structure LineLoop (db₁ : Db) (p : ℕ) (o₁ : Order) (i : ℕ) (s : Db) : Prop where
  shape : ∃ st o, s = { db₁ with stockMap := st, heap := Function.update db₁.heap p (some o) } ∧
    o = { o₁ with orderline := o.orderline } ∧ LinesTo o.orderline i
  stock : KeysTo s.stockMap 100000
  quantity : ∀ i t, s.stockMap i = some t → 10 ≤ t.sQuantity ∧ t.sQuantity ≤ 101

theorem newOrderLine_ok {db₁ s : Db} {p i : ℕ} {o₁ : Order} (hitem : KeysTo db₁.itemMap 100000)
    (dNext : ℤ) (r : Rand) (h : LineLoop db₁ p o₁ i s) :
    ∃ s', newOrderLine W D dNext p r (i + 1) s = .ok s' ∧ LineLoop db₁ p o₁ (i + 1) s' := by
  obtain ⟨⟨st, o, rfl, ho, hlines⟩, hstock, hquant⟩ := h
  have hr := Nat.mod_lt (r (2 * (i + 1))) (by decide : 100000 > 0)
  have hq := Nat.mod_lt (r (2 * (i + 1) + 1)) (by decide : 10 > 0)
  set iId : ℤ := (r (2 * (i + 1)) % 100000 : ℕ) + 1 with hiId
  have hstock : KeysTo st 100000 := hstock
  obtain ⟨item, hitem⟩ := hitem.get (k := iId) (by omega) (by omega)
  obtain ⟨stock, hst⟩ := hstock.get (k := iId) (by omega) (by omega)
  have hheap : Function.update db₁.heap p (some o) p = some o := Function.update_self ..
  unfold newOrderLine
  simp only [← hiId, hitem, hst, hheap, Function.update_idem]
  set q : ℤ := (r (2 * (i + 1) + 1) % 10 : ℕ) + 1
  set l : OrderLine := ⟨dNext, D, W, (i + 1 : ℕ), iId, W, -1, q, q * item.iPrice⟩
  set o₂ : Order := { o with orderline := mapInsert o.orderline (i + 1 : ℕ) l } with ho₂
  refine ⟨_, rfl, ⟨⟨_, o₂, rfl, ?_, hlines.insert ?_⟩, hstock.update hst, fun j t ht => ?_⟩⟩
  · rw [ho₂, ho]
  · show 1 ≤ iId ∧ iId ≤ 100000
    omega
  · rcases update_eq_some ht with ⟨-, rfl⟩ | ⟨-, ht⟩
    · exact Stock.take_bounds (hquant _ _ hst) (by omega)
    · exact hquant j t ht

/-- What a new order does: it is appended to the orders of the district, becomes the
last order of the customer, and takes the stock of its lines. -/
theorem newOrder_cases (h : OrdersOk db) (W D C sec : ℤ) (r : Rand) :
    managerNewordertransaction db W D C sec r = .ok (db, -1) ∨
    ∃ w d c st o, db.warehouseMap W = some w ∧ w.districtMap D = some d ∧
      d.customerMap C = some c ∧ o.oId = d.dNextOId ∧ o.oCId = C ∧ OrderOk o ∧
      KeysTo st 100000 ∧ (∀ i t, st i = some t → 10 ≤ t.sQuantity ∧ t.sQuantity ≤ 101) ∧
      managerNewordertransaction db W D C sec r =
        .ok ({ db.putDistrict W w D { d with
            dNextOId := d.dNextOId + 1
            orderMap := mapInsert d.orderMap d.dNextOId db.next
            customerMap := Function.update d.customerMap C
              (some { c with lastOrder := some db.next }) } with
          stockMap := st
          heap := Function.update db.heap db.next (some o)
          next := db.next + 1 }, 1) := by
  unfold managerNewordertransaction
  cases hw : db.warehouseMap W with
  | none => exact .inl rfl
  | some w =>
    cases hd : w.districtMap D with
    | none =>
      simp only [hd]
      exact .inl trivial
    | some d =>
      cases hc : d.customerMap C with
      | none =>
        simp only [hd, hc]
        exact .inl trivial
      | some c =>
        right
        simp only [hd, hc]
        set cnt := r 0 % 10 + 5 with hcnt
        set o₁ : Order := ⟨d.dNextOId, D, C, W, sec, -1, cnt, 1, fun _ => none⟩ with ho₁
        set db₁ : Db := { db.putDistrict W w D { d with
            dNextOId := d.dNextOId + 1
            orderMap := mapInsert d.orderMap d.dNextOId db.next
            customerMap := Function.update d.customerMap C
              (some { c with lastOrder := some db.next }) } with
          heap := Function.update db.heap db.next (some o₁)
          next := db.next + 1 } with hdb₁
        have hstart : LineLoop db₁ db.next o₁ 0 db₁ := by
          refine ⟨⟨db.stockMap, o₁, ?_, rfl, ⟨KeysTo.empty, by simp [ho₁]⟩⟩, h.stock, h.quantity⟩
          simp only [hdb₁, Function.update_idem]
          rfl
        obtain ⟨s, hs, ⟨st, o, rfl, ho, hlines⟩, hstock, hquant⟩ := upToM_ok (n := cnt) hstart
          fun i s _ hi => newOrderLine_ok (W := W) (D := D)
            (show KeysTo db₁.itemMap 100000 from h.item) d.dNextOId r hi
        simp only [hs]
        refine ⟨w, d, c, st, o, rfl, hd, hc, by rw [ho], by rw [ho], ⟨?_, ?_⟩, hstock, hquant, ?_⟩
        · rw [ho]
          simp only [ho₁]
          omega
        · have hc' : o.oOlCnt = cnt := by rw [ho]
          rw [hc']
          exact hlines
        · simp only [hdb₁, Function.update_idem]

theorem OrdersOk.newOrder (h : OrdersOk db) (W D C sec : ℤ) (r : Rand) :
    ∃ db' v, managerNewordertransaction db W D C sec r = .ok (db', v) ∧ OrdersOk db' := by
  rcases newOrder_cases h W D C sec r with hres | ⟨w, d, c, st, o, hw, hd, hc, hid, hC, hok, hstock,
    hquant, hres⟩
  · exact ⟨db, -1, hres, h⟩
  · refine ⟨_, _, hres, ?_⟩
    have hD := h.district W D d (by rw [Db.district_eq hw, hd])
    have hkeep : Keeps db.heap (Function.update db.heap db.next (some o)) :=
      Keeps.alloc h.heap_next o
    have hnext : d.dNextOId = d.dNextOId - 1 + 1 := by omega
    have hins : mapInsert d.orderMap d.dNextOId db.next =
        Function.update d.orderMap d.dNextOId (some db.next) := by
      have := hD.keys.mapInsert_eq db.next
      rwa [← hnext] at this
    have hold : ∀ {k p}, d.orderMap k = some p →
        Function.update d.orderMap d.dNextOId (some db.next) k = some p := by
      intro k p hk
      have hne : k ≠ d.dNextOId := by
        have := (hD.keys.bounds hk).2
        omega
      rw [Function.update_of_ne hne]
      exact hk
    have hd' : DistrictOk (Function.update db.heap db.next (some o)) { d with
        dNextOId := d.dNextOId + 1
        orderMap := mapInsert d.orderMap d.dNextOId db.next
        customerMap := Function.update d.customerMap C
          (some { c with lastOrder := some db.next }) } := by
      constructor
      case next =>
        have := hD.next
        simp only
        omega
      case keys =>
        have := hD.keys.insert (by have := hD.next; omega) db.next
        rw [← hnext] at this
        simpa using this
      case order =>
        intro k p hk
        simp only [hins] at hk
        rcases update_eq_some hk with ⟨rfl, rfl⟩ | ⟨-, hk⟩
        · exact ⟨o, Function.update_self .., hid, hok⟩
        · exact (hD.keeps hkeep).order k p hk
      case customer => exact hD.customer.update hc
      case last =>
        intro C' c' hc'
        simp only [hins]
        rcases update_eq_some hc' with ⟨rfl, rfl⟩ | ⟨-, hc'⟩
        · exact ⟨d.dNextOId, db.next, o, rfl, Function.update_self .., Function.update_self .., hC⟩
        · obtain ⟨k, p, o', hl, hk, hp, hC'⟩ := (hD.keeps hkeep).last C' c' hc'
          exact ⟨k, p, o', hl, hold hk, hp, hC'⟩
    refine h.put hw hd (Db.isSome_putDistrict hw) (fun W' D' => Db.district_putDistrict hw rfl W' D')
      hd' hkeep hstock hquant rfl fun p o' hp => ?_
    rcases update_eq_some hp with ⟨rfl, -⟩ | ⟨-, hp⟩
    · exact Nat.lt_succ_self _
    · exact Nat.lt_succ_of_lt (h.fresh p o' hp)

/-! ### Payments -/

/-- What a committed payment does. -/
theorem payment_cases {hAmount : ℚ} {r : Rand} {v : ℤ}
    (hres : managerPaymenttransaction db W D C hAmount r = .ok (db', v)) :
    (db' = db ∧ db.district W D = none) ∨
    ∃ w d k c, db.warehouseMap W = some w ∧ w.districtMap D = some d ∧
      payer d C r = .ok (some k) ∧ d.customerMap k = some c ∧ v = 1 ∧
      db' = db.putDistrict W { w with wYtd := w.wYtd + hAmount } D { d with
        dYtd := d.dYtd + hAmount
        customerMap := Function.update d.customerMap k (some { c with
          cBalance := c.cBalance - hAmount
          cYtdPayment := c.cYtdPayment + hAmount
          cPaymentCnt := c.cPaymentCnt + 1 }) } := by
  unfold managerPaymenttransaction at hres
  cases hw : db.warehouseMap W with
  | none =>
    simp only [hw] at hres
    cases hres
    exact .inl ⟨rfl, by rw [Db.district, hw]; rfl⟩
  | some w =>
    simp only [hw] at hres
    cases hd : w.districtMap D with
    | none =>
      simp only [hd] at hres
      cases hres
      exact .inl ⟨rfl, by rw [Db.district_eq hw, hd]⟩
    | some d =>
      simp only [hd] at hres
      cases hp : payer d C r with
      | error e =>
        rw [hp] at hres
        cases hres
      | ok k? =>
        rw [hp] at hres
        cases k? with
        | none => cases hres
        | some k =>
          simp only [Except.bind] at hres
          cases hc : d.customerMap k with
          | none =>
            simp only [hc] at hres
            cases hres
          | some c =>
            simp only [hc] at hres
            cases hres
            exact .inr ⟨w, d, k, c, rfl, hd, hp, hc, rfl, rfl⟩

/-- The money of a customer and of the district is written. -/
theorem DistrictOk.setCustomer {heap : ℕ → Option Order} (h : DistrictOk heap d) {c c' : Customer}
    (hc : d.customerMap C = some c) (hl : c'.lastOrder = c.lastOrder) (y : ℚ) :
    DistrictOk heap { d with
      dYtd := y
      customerMap := Function.update d.customerMap C (some c') } := by
  refine ⟨h.next, h.keys, h.order, h.customer.update hc, fun C' c₁ hc₁ => ?_⟩
  rcases update_eq_some hc₁ with ⟨rfl, rfl⟩ | ⟨-, hc₁⟩
  · obtain ⟨k, p, o, hlast, hrest⟩ := h.last _ c hc
    exact ⟨k, p, o, hl.trans hlast, hrest⟩
  · exact h.last C' c₁ hc₁

theorem OrdersOk.payment (h : OrdersOk db) {hAmount : ℚ} {r : Rand} {v : ℤ}
    (hres : managerPaymenttransaction db W D C hAmount r = .ok (db', v)) : OrdersOk db' := by
  rcases payment_cases hres with ⟨rfl, -⟩ | ⟨w, d, k, c, hw, hd, -, hc, -, rfl⟩
  · exact h
  · have hD := h.district W D d (by rw [Db.district_eq hw, hd])
    exact h.put hw hd (Db.isSome_putDistrict hw)
      (fun W' D' => Db.district_putDistrict hw (by rfl) W' D') (hD.setCustomer hc (by rfl) _) (Keeps.refl _) h.stock h.quantity rfl h.fresh

/-! ### Order-Status and Stock-Level -/

theorem OrdersOk.orderStatus (h : OrdersOk db) (W D C : ℤ) :
    ∃ v, managerOrderstatustransaction db W D C = .ok (db, v) := by
  unfold managerOrderstatustransaction
  cases hw : db.warehouseMap W with
  | none => exact ⟨-1, rfl⟩
  | some w =>
    cases hd : w.districtMap D with
    | none =>
      simp only [hd]
      exact ⟨-1, rfl⟩
    | some d =>
      cases hc : d.customerMap C with
      | none =>
        simp only [hd, hc]
        exact ⟨-1, rfl⟩
      | some c =>
        have hD := h.district W D d (by rw [Db.district_eq hw, hd])
        obtain ⟨k, p, o, hl, hk, hp, -⟩ := hD.last C c hc
        obtain ⟨o', hp', -, hok⟩ := hD.order k p hk
        rw [hp] at hp'
        cases hp'
        simp only [hd, hc, hl, hp]
        have hround : ∀ i s, i < o.oOlCnt → True →
            ∃ s', orderStatusLine o (i + 1) s = .ok s' ∧ True := by
          intro i s hi _
          obtain ⟨l, hline⟩ := hok.lines.keys.get (k := ((i + 1 : ℕ) : ℤ)) (by omega) (by omega)
          simp only [orderStatusLine, hline]
          exact ⟨_, rfl, trivial⟩
        obtain ⟨res, hres, -⟩ := upToM_ok (s := []) (P := fun _ _ => True) trivial hround
        exact ⟨1, by rw [hres]⟩

theorem OrdersOk.stockLevel (h : OrdersOk db) (W D treshold : ℤ) :
    ∃ v, managerStockleveltransaction db W D treshold = .ok (db, v) := by
  unfold managerStockleveltransaction
  cases hw : db.warehouseMap W with
  | none => exact ⟨-1, rfl⟩
  | some w =>
    cases hd : w.districtMap D with
    | none =>
      simp only [hd]
      exact ⟨-1, rfl⟩
    | some d =>
      have hD := h.district W D d (by rw [Db.district_eq hw, hd])
      have hround : ∀ n s, n < 20 → True →
          ∃ s', stockLevelOrder db d treshold (n + 1) s = .ok s' ∧ True := by
        intro n s hn _
        have hnext := hD.next
        obtain ⟨p, hp⟩ := hD.keys.get (k := d.dNextOId - 21 + (n + 1 : ℕ)) (by omega) (by omega)
        obtain ⟨o, ho, -, hok⟩ := hD.order _ p hp
        unfold stockLevelOrder
        simp only [hp, ho]
        refine upToM_ok (P := fun _ _ => True) trivial fun i s hi _ => ?_
        obtain ⟨l, hline⟩ := hok.lines.keys.get (k := ((i + 1 : ℕ) : ℤ)) (by omega) (by omega)
        obtain ⟨hlo, hhi⟩ := hok.lines.item _ l hline
        obtain ⟨st, hst⟩ := h.stock.get hlo hhi
        unfold stockLevelLine
        simp only [hline, hst]
        split
        · exact ⟨_, rfl, trivial⟩
        · exact ⟨_, rfl, trivial⟩
      obtain ⟨s, hs, -⟩ := upToM_ok (s := (⟨fun _ => false, 0⟩ : Level)) (P := fun _ _ => True)
        trivial hround
      simp only [hd, hs]
      exact ⟨1, rfl⟩

/-! ### Deliveries -/

/-- The order a delivery to a district is about. -/
def dueOrder (db : Db) (W D : ℤ) : Option Order :=
  (db.district W D).bind fun d => (db.neworder.find? (isNext W D)).bind fun e =>
    (d.orderMap e.noOId).bind db.heap

/-- What a committed delivery to a district does. -/
theorem delivery_cases {carrier v : ℤ} {sec : ℕ → ℤ}
    (hres : deliverDistrict db W D carrier sec = .ok (db', v)) :
    (dueOrder db W D = none ∧
      (db' = db ∨ db' = { db with neworder := db.neworder.eraseP (isNext W D) })) ∨
    ∃ w d p o, db.warehouseMap W = some w ∧ w.districtMap D = some d ∧
      dueOrder db W D = some o ∧ db.heap p = some o ∧
      db' = { deliverOrder db W w D d carrier sec p o with
        neworder := db.neworder.eraseP (isNext W D) } := by
  unfold deliverDistrict at hres
  unfold dueOrder
  cases hw : db.warehouseMap W with
  | none =>
    simp only [hw] at hres
    cases hres
    exact .inl ⟨by simp [Db.district, hw], .inl rfl⟩
  | some w =>
    simp only [hw] at hres
    rw [Db.district_eq hw]
    cases he : db.neworder.find? (isNext W D) with
    | none =>
      simp only [he] at hres
      cases hres
      exact .inl ⟨by simp, .inl rfl⟩
    | some e =>
      simp only [he] at hres
      cases hd : w.districtMap D with
      | none =>
        simp only [hd] at hres
        cases hres
      | some d =>
        simp only [hd] at hres
        cases hp : d.orderMap e.noOId with
        | none =>
          simp only [hp] at hres
          cases hres
          exact .inl ⟨by simp [hp], .inr rfl⟩
        | some p =>
          simp only [hp] at hres
          cases ho : db.heap p with
          | none =>
            simp only [ho] at hres
            cases hres
          | some o =>
            simp only [ho] at hres
            cases hres
            exact .inr ⟨w, d, p, o, rfl, hd, by simp [hp, ho], ho, rfl⟩

theorem deliverLines_ok (sec : ℕ → ℤ) {o : Order} {n : ℕ} (h : LinesTo o.orderline n) :
    LinesTo (deliverLines sec o).1 n := by
  refine upTo_inv (n := o.oOlCnt) (P := fun _ (s : (ℤ → Option OrderLine) × ℚ) => LinesTo s.1 n)
    h ?_
  rintro i ⟨m, t⟩ - hm
  simp only
  split
  · exact hm
  · next l hl =>
    refine ⟨hm.keys.update hl, fun j l' hj => ?_⟩
    rcases update_eq_some hj with ⟨-, rfl⟩ | ⟨-, hj⟩
    · exact hm.item _ l hl
    · exact hm.item j l' hj

theorem OrdersOk.delivery (h : OrdersOk db) {carrier v : ℤ} {sec : ℕ → ℤ}
    (hres : deliverDistrict db W D carrier sec = .ok (db', v)) : OrdersOk db' := by
  rcases delivery_cases hres with ⟨-, rfl | rfl⟩ | ⟨w, d, p, o, hw, hd, -, ho, rfl⟩
  · exact h
  · exact ⟨h.warehouses, h.districts, h.district, h.stock, h.quantity, h.item, h.fresh⟩
  · have hD := h.district W D d (by rw [Db.district_eq hw, hd])
    set o' : Order := { o with oCarrierId := carrier, orderline := (deliverLines sec o).1 } with ho'
    have hkeep : Keeps db.heap (Function.update db.heap p (some o')) := by
      intro q oq hq
      rcases eq_or_ne q p with rfl | hne
      · rw [ho] at hq
        cases hq
        exact ⟨o', Function.update_self .., rfl, rfl, fun hok =>
          ⟨hok.cnt, deliverLines_ok sec hok.lines⟩⟩
      · exact ⟨oq, by rw [Function.update_of_ne hne]; exact hq, rfl, rfl, id⟩
    have hfresh : ∀ q oq, Function.update db.heap p (some o') q = some oq → q < db.next := by
      intro q oq hq
      rcases update_eq_some hq with ⟨rfl, -⟩ | ⟨-, hq⟩
      · exact h.fresh _ o ho
      · exact h.fresh q oq hq
    cases hc : d.customerMap o.oCId with
    | none =>
      simp only [deliverOrder, hc]
      exact ⟨h.warehouses, h.districts, fun W' D' d' hd' => (h.district W' D' d' hd').keeps hkeep, h.stock,
        h.quantity, h.item, hfresh⟩
    | some c =>
      simp only [deliverOrder, hc]
      set c' : Customer := { c with
        cBalance := c.cBalance + (deliverLines sec o).2
        cDeliveryCnt := c.cDeliveryCnt + 1 }
      have hlast : c'.lastOrder = c.lastOrder := rfl
      have hd' := (hD.keeps hkeep).setCustomer hc hlast d.dYtd
      set db₁ : Db := { db with heap := Function.update db.heap p (some o') }
      have hw₁ : db₁.warehouseMap W = some w := hw
      exact h.put hw hd (Db.isSome_putDistrict hw₁)
        (fun W' D' => Db.district_putDistrict hw₁ rfl W' D') hd' hkeep h.stock h.quantity rfl hfresh

/-! ### Runs -/

theorem OrdersOk.run (h : OrdersOk db) {c : Call} {v : ℤ} (hres : c.run db = .ok (db', v)) :
    OrdersOk db' := by
  cases c with
  | newOrder W D C sec r =>
    obtain ⟨db₁, v₁, hok, h₁⟩ := h.newOrder W D C sec r
    rw [Call.run, hok] at hres
    cases hres
    exact h₁
  | payment W D C hAmount r => exact h.payment hres
  | orderStatus W D C =>
    obtain ⟨v₁, hok⟩ := h.orderStatus W D C
    rw [Call.run, hok] at hres
    cases hres
    exact h
  | stockLevel W D t =>
    obtain ⟨v₁, hok⟩ := h.stockLevel W D t
    rw [Call.run, hok] at hres
    cases hres
    exact h
  | delivery W D carrier sec => exact h.delivery hres

theorem exec_inv {P : Db → Prop} (hstep : ∀ db db' c v, P db → Call.run db c = .ok (db', v) → P db')
    (calls : List Call) (h : P db) (hex : exec calls db = some db') : P db' := by
  induction calls generalizing db with
  | nil =>
    cases hex
    exact h
  | cons c cs ih =>
    rw [exec] at hex
    split at hex
    · next db₁ v hrun => exact ih (hstep _ _ c v h hrun) hex
    · cases hex

/-- From the populated database on, every sequence of committed transactions keeps the
orders intact, and Stock-Level and Order-Status never look for a row in vain. -/
theorem order_integrity (u : Unknown) (r : Rand) : ∃ db₀, managerAllocation u r = .ok db₀ ∧
    ∀ calls db, exec calls db₀ = some db → OrdersOk db ∧
      (∀ W D treshold, ∃ v, managerStockleveltransaction db W D treshold = .ok (db, v)) ∧
      ∀ W D C, ∃ v, managerOrderstatustransaction db W D C = .ok (db, v) := by
  obtain ⟨db₀, h₀, hfresh⟩ := managerAllocation_ok u r
  refine ⟨db₀, h₀, fun calls db hex => ?_⟩
  have hok : OrdersOk db := exec_inv (fun _ _ _ _ h hrun => h.run hrun) calls hfresh.ok hex
  exact ⟨hok, hok.stockLevel, hok.orderStatus⟩

end TinyStm.Tpcc
