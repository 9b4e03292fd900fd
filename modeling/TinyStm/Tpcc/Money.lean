import Mathlib.Algebra.BigOperators.Intervals
import Mathlib.Algebra.Order.Ring.Rat
import Mathlib.Data.Int.Interval
import Mathlib.Tactic.Ring
import TinyStm.Tpcc.Orders

/-!
# Conservation of money

A payment adds the same amount to the warehouse, to the district and to the customer;
only a delivery adds to a customer what was not paid.
-/

namespace TinyStm.Tpcc

open Loop

variable {db db' : Db} {W D C : ℤ} {w : Warehouse} {d : District}

/-! ### Warehouse and districts -/

def districtYtd (m : ℤ → Option District) (D : ℤ) : ℚ := ((m D).map (·.dYtd)).getD 0

/-- The sum of `D_YTD` over the ten districts. -/
def sumYtd (w : Warehouse) : ℚ := ∑ i ∈ Finset.range 10, districtYtd w.districtMap (i + 1)

theorem sumYtd_update {w' : Warehouse} {d' : District} (hd : w.districtMap D = some d)
    (hD : 1 ≤ D ∧ D ≤ 10)
    (hm : w'.districtMap = Function.update w.districtMap D (some d')) :
    sumYtd w' = sumYtd w + (d'.dYtd - d.dYtd) := by
  obtain ⟨i, rfl⟩ : ∃ i : ℕ, D = i + 1 := ⟨(D - 1).toNat, by omega⟩
  have hmem : i ∈ Finset.range 10 := Finset.mem_range.mpr (by omega)
  have hself : districtYtd w'.districtMap (i + 1) =
      districtYtd w.districtMap (i + 1) + (d'.dYtd - d.dYtd) := by
    simp [districtYtd, hm, hd]
  have hrest : ∑ j ∈ (Finset.range 10).erase i, districtYtd w'.districtMap (j + 1) =
      ∑ j ∈ (Finset.range 10).erase i, districtYtd w.districtMap (j + 1) := by
    refine Finset.sum_congr rfl fun j hj => ?_
    have hne : (j : ℤ) + 1 ≠ i + 1 := by
      have := Finset.ne_of_mem_erase hj
      omega
    rw [districtYtd, hm, Function.update_of_ne hne, districtYtd]
  rw [sumYtd, sumYtd, ← Finset.add_sum_erase _ _ hmem, ← Finset.add_sum_erase _ _ hmem, hself, hrest]
  ring

def Balanced (db : Db) : Prop := ∀ W w, db.warehouseMap W = some w → w.wYtd = sumYtd w

/-- The same amount goes to a warehouse and to one of its districts. -/
theorem Balanced.put (h : Balanced db) (hok : OrdersOk db) (hw : db.warehouseMap W = some w)
    (hd : w.districtMap D = some d) (d' : District) {w' : Warehouse}
    (hm : w'.districtMap = w.districtMap) (hytd : w'.wYtd - w.wYtd = d'.dYtd - d.dYtd) :
    Balanced (db.putDistrict W w' D d') := by
  intro W₁ w₁ hw₁
  rw [Db.warehouseMap_putDistrict] at hw₁
  split at hw₁
  · cases hw₁
    have hsome : (db.district W D).isSome := by
      rw [Db.district_eq hw, hd]
      rfl
    rw [sumYtd_update (w := w) hd ((hok.districts W D).mp hsome).2 (by rw [hm]), ← hytd,
      ← h W w hw]
    show w'.wYtd = _
    ring
  · exact h W₁ w₁ hw₁

theorem Balanced.run (h : Balanced db) (hok : OrdersOk db) {c : Call} {v : ℤ}
    (hres : c.run db = .ok (db', v)) : Balanced db' := by
  cases c with
  | newOrder W D C sec r =>
    rcases newOrder_cases hok W D C sec r with hrun | ⟨w, d, c, st, o, hw, hd, -, -, -, -, -, -, hrun⟩
    · rw [Call.run, hrun] at hres
      cases hres
      exact h
    · rw [Call.run, hrun] at hres
      cases hres
      exact h.put hok hw hd _ rfl (by simp)
  | payment W D C hAmount r =>
    rcases payment_cases hres with ⟨rfl, -⟩ | ⟨w, d, k, c, hw, hd, -, -, -, rfl⟩
    · exact h
    · exact h.put hok hw hd _ rfl (by simp)
  | orderStatus W D C =>
    obtain ⟨v', hrun⟩ := hok.orderStatus W D C
    rw [Call.run, hrun] at hres
    cases hres
    exact h
  | stockLevel W D t =>
    obtain ⟨v', hrun⟩ := hok.stockLevel W D t
    rw [Call.run, hrun] at hres
    cases hres
    exact h
  | delivery W D carrier sec =>
    rcases delivery_cases hres with ⟨-, rfl | rfl⟩ | ⟨w, d, p, o, hw, hd, -, -, rfl⟩
    · exact h
    · exact h
    · intro W₁ w₁ hw₁
      cases hc : d.customerMap o.oCId with
      | none =>
        simp only [deliverOrder, hc] at hw₁
        exact h W₁ w₁ hw₁
      | some c =>
        simp only [deliverOrder, hc] at hw₁
        exact h.put hok hw hd _ rfl (by simp) W₁ w₁ hw₁

/-! ### Customers -/

def Db.customer (db : Db) (W D C : ℤ) : Option Customer :=
  (db.district W D).bind (·.customerMap C)

theorem Db.customer_putDistrict {w' : Warehouse} {d' : District} (hw : db.warehouseMap W = some w)
    (hm : w'.districtMap = w.districtMap) (W' D' C' : ℤ) :
    (db.putDistrict W w' D d').customer W' D' C' =
      if W' = W ∧ D' = D then d'.customerMap C' else db.customer W' D' C' := by
  rw [Db.customer, Db.district_putDistrict hw hm]
  split <;> rfl

/-- The sum of the `OL_AMOUNT`s of an order. -/
def orderAmount (o : Order) : ℚ :=
  ∑ i ∈ Finset.Icc 1 o.oOlCnt, ((o.orderline (i : ℕ)).map (·.olAmount)).getD 0

theorem deliverLines_amount (sec : ℕ → ℤ) (o : Order) :
    (deliverLines sec o).2 = orderAmount o := by
  refine (upTo_inv (n := o.oOlCnt) (P := fun n (s : (ℤ → Option OrderLine) × ℚ) =>
    s.2 = ∑ i ∈ Finset.Icc 1 n, ((o.orderline (i : ℕ)).map (·.olAmount)).getD 0 ∧
    ∀ k, (s.1 k).map (·.olAmount) = (o.orderline k).map (·.olAmount)) ⟨by simp, fun _ => rfl⟩ ?_).1
  rintro i ⟨m, t⟩ - ⟨hsum, hsame⟩
  simp only at hsum hsame ⊢
  rw [Finset.sum_Icc_succ_top (by omega), ← hsum, ← hsame]
  cases hl : m ((i + 1 : ℕ) : ℤ) with
  | none => exact ⟨(add_zero t).symm, hsame⟩
  | some l =>
    refine ⟨rfl, fun k => ?_⟩
    simp only
    rcases eq_or_ne k ((i + 1 : ℕ) : ℤ) with rfl | hne
    · rw [Function.update_self, ← hsame, hl]
      rfl
    · rw [Function.update_of_ne hne]
      exact hsame k

/-- What a call credits to a customer. -/
def credited (W D C : ℤ) (db : Db) : Call → ℚ
  | .delivery W' D' _ _ =>
    if W = W' ∧ D = D' then
      match dueOrder db W' D' with
      | some o => if o.oCId = C then orderAmount o else 0
      | none => 0
    else 0
  | _ => 0

/-- Whether a call is a payment of a customer. -/
def paid (W D C : ℤ) (db : Db) : Call → ℤ
  | .payment W' D' C' _ r =>
    if W = W' ∧ D = D' ∧
      ((db.district W' D').bind fun d => (payer d C' r).toOption.join) = some C then 1 else 0
  | _ => 0

/-- What a step does to the customers. -/
def MoneyStep (db db' : Db) (c : Call) : Prop :=
  ∀ W D C cu, db.customer W D C = some cu → ∃ cu', db'.customer W D C = some cu' ∧
    cu'.cBalance + cu'.cYtdPayment = cu.cBalance + cu.cYtdPayment + credited W D C db c ∧
    cu'.cPaymentCnt = cu.cPaymentCnt + paid W D C db c

theorem moneyStep_refl (c : Call) (hcr : ∀ W D C, credited W D C db c = 0)
    (hpd : ∀ W D C, paid W D C db c = 0) : MoneyStep db db c := by
  intro W D C cu hcu
  refine ⟨cu, hcu, ?_, ?_⟩
  · rw [hcr, add_zero]
  · rw [hpd, add_zero]

/-- One customer is written. -/
theorem moneyStep_put {call : Call} (hw : db.warehouseMap W = some w)
    (hd : w.districtMap D = some d) {w' : Warehouse} (hm : w'.districtMap = w.districtMap)
    {d' : District} {c c' : Customer} (hc : d.customerMap C = some c)
    (hd' : d'.customerMap = Function.update d.customerMap C (some c'))
    (hbal : c'.cBalance + c'.cYtdPayment = c.cBalance + c.cYtdPayment + credited W D C db call)
    (hcnt : c'.cPaymentCnt = c.cPaymentCnt + paid W D C db call)
    (hother : ∀ W' D' C', ¬ (W' = W ∧ D' = D ∧ C' = C) →
      credited W' D' C' db call = 0 ∧ paid W' D' C' db call = 0)
    (hdb' : ∀ W' D' C', db'.customer W' D' C' = (db.putDistrict W w' D d').customer W' D' C') :
    MoneyStep db db' call := by
  intro W₁ D₁ C₁ cu hcu
  rw [hdb', Db.customer_putDistrict hw hm, hd']
  by_cases heq : W₁ = W ∧ D₁ = D
  · obtain ⟨rfl, rfl⟩ := heq
    rw [if_pos ⟨rfl, rfl⟩]
    have hcu : d.customerMap C₁ = some cu := by
      rw [Db.customer, Db.district_eq hw, hd] at hcu
      exact hcu
    rcases eq_or_ne C₁ C with rfl | hne
    · rw [hc] at hcu
      cases hcu
      exact ⟨c', Function.update_self .., hbal, hcnt⟩
    · obtain ⟨h₁, h₂⟩ := hother W₁ D₁ C₁ fun h => hne h.2.2
      exact ⟨cu, by rw [Function.update_of_ne hne]; exact hcu, by rw [h₁, add_zero],
        by rw [h₂, add_zero]⟩
  · obtain ⟨h₁, h₂⟩ := hother W₁ D₁ C₁ fun h => heq ⟨h.1, h.2.1⟩
    rw [if_neg heq]
    exact ⟨cu, hcu, by rw [h₁, add_zero], by rw [h₂, add_zero]⟩

theorem moneyStep_payment {hAmount : ℚ} {r : Rand} {v : ℤ}
    (hres : managerPaymenttransaction db W D C hAmount r = .ok (db', v)) :
    MoneyStep db db' (.payment W D C hAmount r) := by
  rcases payment_cases hres with ⟨rfl, hnone⟩ | ⟨w, d, k, c, hw, hd, hp, hc, -, rfl⟩
  · refine moneyStep_refl _ (fun _ _ _ => rfl) fun W' D' C' => ?_
    rw [paid, hnone]
    simp
  · have hpay : ((db.district W D).bind fun d => (payer d C r).toOption.join) = some k := by
      rw [Db.district_eq hw, hd]
      show (payer d C r).toOption.join = some k
      rw [hp]
      rfl
    refine moneyStep_put hw hd (by rfl) hc (by rfl) ?_ ?_ (fun W' D' C' hne => ⟨rfl, ?_⟩)
      fun _ _ _ => rfl
    · simp only [credited]
      ring
    · rw [paid, if_pos ⟨rfl, rfl, hpay⟩]
    · rw [paid, hpay, if_neg fun h => hne ⟨h.1, h.2.1, (Option.some.inj h.2.2).symm⟩]

theorem moneyStep_delivery {carrier v : ℤ} {sec : ℕ → ℤ}
    (hres : deliverDistrict db W D carrier sec = .ok (db', v)) :
    MoneyStep db db' (.delivery W D carrier sec) := by
  rcases delivery_cases hres with ⟨hdue, hdb⟩ | ⟨w, d, p, o, hw, hd, hdue, -, rfl⟩
  · have hzero : ∀ W' D' C', credited W' D' C' db (.delivery W D carrier sec) = 0 := by
      intro W' D' C'
      simp [credited, hdue]
    rcases hdb with rfl | rfl
    · exact moneyStep_refl _ hzero fun _ _ _ => rfl
    · exact moneyStep_refl _ hzero fun _ _ _ => rfl
  · have hother : ∀ W' D' C', ¬ (W' = W ∧ D' = D ∧ C' = o.oCId) →
        credited W' D' C' db (.delivery W D carrier sec) = 0 := by
      intro W' D' C' hne
      rw [credited, hdue]
      split
      · next h => exact if_neg fun hC => hne ⟨h.1, h.2, hC.symm⟩
      · rfl
    cases hc : d.customerMap o.oCId with
    | none =>
      simp only [deliverOrder, hc]
      -- the order has no customer in this district
      intro W' D' C' cu hcu
      have hne : ¬ (W' = W ∧ D' = D ∧ C' = o.oCId) := by
        rintro ⟨rfl, rfl, rfl⟩
        rw [Db.customer, Db.district_eq hw, hd] at hcu
        rw [show d.customerMap o.oCId = some cu from hcu] at hc
        cases hc
      exact ⟨cu, hcu, by rw [hother _ _ _ hne, add_zero], by simp [paid]⟩
    | some c =>
      simp only [deliverOrder, hc]
      refine moneyStep_put hw hd (by rfl) hc (by rfl) ?_ ?_ (fun W' D' C' hne =>
        ⟨hother W' D' C' hne, rfl⟩) fun _ _ _ => rfl
      · simp only [credited, hdue, deliverLines_amount, and_self, if_true]
        ring
      · simp [paid]

theorem moneyStep_run (hok : OrdersOk db) {c : Call} {v : ℤ} (hres : c.run db = .ok (db', v)) :
    MoneyStep db db' c := by
  cases c with
  | newOrder W D C sec r =>
    rcases newOrder_cases hok W D C sec r with hrun | ⟨w, d, c, st, o, hw, hd, hc, -, -, -, -, -, hrun⟩
    · rw [Call.run, hrun] at hres
      cases hres
      exact moneyStep_refl _ (fun _ _ _ => rfl) fun _ _ _ => rfl
    · rw [Call.run, hrun] at hres
      cases hres
      exact moneyStep_put hw hd (by rfl) hc (by rfl) (by simp [credited]) (by simp [paid])
        (fun _ _ _ _ => ⟨rfl, rfl⟩) fun _ _ _ => rfl
  | payment W D C hAmount r => exact moneyStep_payment hres
  | orderStatus W D C =>
    obtain ⟨v', hrun⟩ := hok.orderStatus W D C
    rw [Call.run, hrun] at hres
    cases hres
    exact moneyStep_refl _ (fun _ _ _ => rfl) fun _ _ _ => rfl
  | stockLevel W D t =>
    obtain ⟨v', hrun⟩ := hok.stockLevel W D t
    rw [Call.run, hrun] at hres
    cases hres
    exact moneyStep_refl _ (fun _ _ _ => rfl) fun _ _ _ => rfl
  | delivery W D carrier sec => exact moneyStep_delivery hres

/-! ### Runs -/

/-- The sum of a quantity over the calls of a run. -/
def total {α : Type} [Add α] [Zero α] (f : Db → Call → α) : List Call → Db → α
  | [], _ => 0
  | c :: cs, db =>
    match c.run db with
    | .ok (db', _) => f db c + total f cs db'
    | .error _ => 0

theorem money_run (calls : List Call) (hok : OrdersOk db) (hex : exec calls db = some db') {c : Customer}
    (hc : db.customer W D C = some c) : ∃ c', db'.customer W D C = some c' ∧
      c'.cBalance + c'.cYtdPayment =
        c.cBalance + c.cYtdPayment + total (credited W D C) calls db ∧
      c'.cPaymentCnt = c.cPaymentCnt + total (paid W D C) calls db := by
  induction calls generalizing db c with
  | nil =>
    cases hex
    exact ⟨c, hc, (add_zero _).symm, (add_zero _).symm⟩
  | cons call calls ih =>
    rw [exec] at hex
    split at hex
    · next db₁ v hrun =>
      obtain ⟨c₁, hc₁, hbal, hcnt⟩ := moneyStep_run hok hrun W D C c hc
      obtain ⟨c₂, hc₂, hbal₂, hcnt₂⟩ := ih (hok.run hrun) hex hc₁
      refine ⟨c₂, hc₂, ?_, ?_⟩
      · rw [hbal₂, hbal, total, hrun]
        ring
      · rw [hcnt₂, hcnt, total, hrun]
        ring
    · cases hex

theorem sumYtd_fresh (h : ∀ D, 1 ≤ D → D ≤ 10 → ∃ d, w.districtMap D = some d ∧ d.dYtd = 30000) :
    sumYtd w = 300000 := by
  have hconst : ∀ i ∈ Finset.range 10, districtYtd w.districtMap ((i : ℕ) + 1) = 30000 := by
    intro i hi
    have hi' := Finset.mem_range.mp hi
    obtain ⟨d, hd, hytd⟩ := h (i + 1) (by omega) (by omega)
    simp [districtYtd, hd, hytd]
  rw [sumYtd, Finset.sum_congr rfl hconst, Finset.sum_const, Finset.card_range]
  norm_num

theorem FreshDb.balanced {u : Unknown} (h : FreshDb u db) : Balanced db := by
  intro W w hw
  rw [h.warehouse W w hw, sumYtd_fresh]
  intro D h₁ h₂
  have hW : W = 1 := (h.ok.warehouses W).mp (by rw [hw]; rfl)
  obtain ⟨d, hd⟩ := Option.isSome_iff_exists.mp ((h.ok.districts W D).mpr ⟨hW, h₁, h₂⟩)
  refine ⟨d, ?_, (h.district W D d hd).ytd⟩
  rw [← Db.district_eq hw]
  exact hd

/-- From the populated database on, the warehouse has taken what its districts have
taken, and a customer's balance and payments change only by deliveries and payments. -/
theorem money_conservation (u : Unknown) (r : Rand) : ∃ db₀, managerAllocation u r = .ok db₀ ∧
    ∀ calls db, exec calls db₀ = some db →
      (∀ W w, db.warehouseMap W = some w → w.wYtd = sumYtd w) ∧
      ∀ W D C c₀, db₀.customer W D C = some c₀ → ∃ c, db.customer W D C = some c ∧
        c.cBalance + c.cYtdPayment =
          c₀.cBalance + c₀.cYtdPayment + total (credited W D C) calls db₀ ∧
        c.cPaymentCnt = c₀.cPaymentCnt + total (paid W D C) calls db₀ := by
  obtain ⟨db₀, h₀, hfresh⟩ := managerAllocation_ok u r
  refine ⟨db₀, h₀, fun calls db hex => ⟨?_, fun W D C c₀ hc => ?_⟩⟩
  · exact (exec_inv (P := fun db => OrdersOk db ∧ Balanced db)
      (fun _ _ _ _ h hrun => ⟨h.1.run hrun, h.2.run h.1 hrun⟩) calls
      ⟨hfresh.ok, hfresh.balanced⟩ hex).2
  · exact money_run calls hfresh.ok hex hc

end TinyStm.Tpcc
