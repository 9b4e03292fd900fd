import Mathlib.Data.Rat.Defs
import Mathlib.Logic.Function.Basic
import TinyStm.Lib.Loop

/-!
# The TPC-C server (`TPCC/Server`)

The tables of `dataTable/` and the five transactions of `manager.c`, each as one
atomic step. Maps are functions from keys to rows, the new-order list is a list in
the order of its iterator, and an order, which a map and a customer point to, lives
in a heap. Floats are read as rationals. `random_generate` is a stream of numbers, and
what `malloc` leaves in fields that are never initialised is arbitrary.
-/

namespace TinyStm.Tpcc

open Loop

/-! ### Tables -/

structure OrderLine where
  olOId : ℤ
  olDId : ℤ
  olWId : ℤ
  olNumber : ℤ
  olIId : ℤ
  olSupplyWId : ℤ
  olDeliveryD : ℤ
  olQuantity : ℤ
  olAmount : ℚ

structure Order where
  oId : ℤ
  oDId : ℤ
  oCId : ℤ
  oWId : ℤ
  oEntryD : ℤ
  oCarrierId : ℤ
  oOlCnt : ℕ
  oAllLocal : ℤ
  orderline : ℤ → Option OrderLine

/-- A pointer to an order; `none` is NULL. -/
abbrev OrderPtr := Option ℕ

structure Customer where
  cId : ℤ
  cDId : ℤ
  cWId : ℤ
  cLast : String
  cBalance : ℚ
  cYtdPayment : ℚ
  cPaymentCnt : ℤ
  cDeliveryCnt : ℤ
  lastOrder : OrderPtr

structure District where
  dId : ℤ
  dWId : ℤ
  dTax : ℚ
  dYtd : ℚ
  dNextOId : ℤ
  customerMap : ℤ → Option Customer
  orderMap : ℤ → Option ℕ

structure Warehouse where
  wId : ℤ
  wTax : ℚ
  wYtd : ℚ
  districtMap : ℤ → Option District

structure Item where
  iId : ℤ
  iImId : ℤ
  iPrice : ℚ

structure Stock where
  sIId : ℤ
  sWId : ℤ
  sQuantity : ℤ
  sYtd : ℤ
  sOrderCnt : ℤ

structure NewOrder where
  noOId : ℤ
  noDId : ℤ
  noWId : ℤ
  deriving DecidableEq, Repr

/-- `manager_t` and the orders that were allocated, those below `next`. -/
structure Db where
  warehouseMap : ℤ → Option Warehouse
  itemMap : ℤ → Option Item
  stockMap : ℤ → Option Stock
  neworder : List NewOrder
  heap : ℕ → Option Order
  next : ℕ

/-- `MAP_INSERT` and `TMMAP_INSERT`: a key that is present keeps its row. -/
def mapInsert {α : Type} (m : ℤ → Option α) (k : ℤ) (v : α) : ℤ → Option α :=
  if (m k).isSome then m else Function.update m k (some v)

/-- Why a transaction does not reach its end. -/
inductive Stop where
  | customerMissing
  | orderLineMissing
  | orderMissing
  | nullPointer
  | assertion
  deriving DecidableEq, Repr

/-! ### Population of the tables -/

/-- The numbers `random_generate` returns next. -/
abbrev Rand := ℕ → ℕ

def Rand.skip (r : Rand) (n : ℕ) : Rand := fun i => r (i + n)

/-- What the program does not determine: fields that stay uninitialised, the order of
the addresses of the new-order entries, and the time. -/
structure Unknown where
  lastOrder : ℤ → ℤ → OrderPtr
  cDeliveryCnt : ℤ → ℤ → ℤ
  sYtd : ℤ → ℤ
  sOrderCnt : ℤ → ℤ
  place : ℕ → ℕ
  sec : ℤ

/-- `generate_CLAST` and `TM_generate_CLAST`. -/
def generateClast (seed : ℕ) : String :=
  let syllable := fun i : ℕ =>
    ["BAR", "OUGHT", "ABLE", "PRI", "PRES", "ESE", "ANTI", "CALLY", "ACTION", "EING"].getD i ""
  syllable (seed / 10 / 10) ++ syllable (seed / 10 % 10) ++ syllable (seed % 10)

def customerAlloc (u : Unknown) (cId cDId cWId : ℤ) (cLast : String) : Customer where
  cId := cId
  cDId := cDId
  cWId := cWId
  cLast := cLast
  cBalance := -10
  cYtdPayment := 10
  cPaymentCnt := 1
  cDeliveryCnt := u.cDeliveryCnt cDId cId
  lastOrder := u.lastOrder cDId cId

/-- Each round draws the last name, the credit and the discount; the last two are not
stored. -/
def fillCustomer2 (u : Unknown) (idD : ℤ) (r : Rand) : (ℤ → Option Customer) × Rand :=
  upTo (fun idC s => (mapInsert s.1 idC
    (customerAlloc u idC idD 1 (generateClast (s.2 0 % 999))), s.2.skip 3)) 3000 (fun _ => none, r)

def fillOrderline (idO idD idW : ℤ) (cnt : ℕ) (r : Rand) : (ℤ → Option OrderLine) × Rand :=
  upTo (fun i s =>
    let deliv : ℤ × ℚ := if idO < 2101 then ((s.2 0 % 10 : ℕ) + 1, 0)
      else (-1, ((s.2 0 % 999999 + 1) / 100 : ℕ))
    let idItem : ℤ := (s.2 1 % 100000 : ℕ) + 1
    (mapInsert s.1 i ⟨idO, idD, idW, i, idItem, idW, deliv.1, 5, deliv.2⟩, s.2.skip 2))
    cnt (fun _ => none, r)

def orderAlloc (idO idD idC idW entry carrier : ℤ) (cnt : ℕ) (local_ : ℤ) (r : Rand) :
    Order × Rand :=
  let p := fillOrderline idO idD idW cnt r
  (⟨idO, idD, idC, idW, entry, carrier, cnt, local_, p.1⟩, p.2)

/-- The variables of the loop of `fill_order2`. -/
structure OrderFill where
  orderMap : ℤ → Option ℕ
  customerMap : ℤ → Option Customer
  heap : ℕ → Option Order
  next : ℕ
  idC : ℤ
  rand : Rand

/-- One round. -/
def fillOrderRound (u : Unknown) (idW idD : ℤ) (idO : ℕ) (s : OrderFill) :
    Except Stop OrderFill :=
  let carr : ℤ × Rand := if idO < 2101 then ((s.rand 0 % 10 : ℕ) + 1, s.rand.skip 1)
    else (-1, s.rand)
  let cnt := carr.2 0 % 10 + 5
  if ¬ (s.idC < 3001 ∧ 0 < s.idC) then .error .assertion
  else
    let p := orderAlloc idO idD s.idC idW u.sec carr.1 cnt 1 (carr.2.skip 1)
    match s.customerMap s.idC with
    | none => .error .nullPointer
    | some c =>
      let idC := (s.idC + 1) % 3000
      let c' := { c with lastOrder := some s.next }
      .ok {
        orderMap := mapInsert s.orderMap idO s.next
        customerMap := Function.update s.customerMap s.idC (some c')
        heap := Function.update s.heap s.next (some p.1)
        next := s.next + 1
        idC := if idC = 0 then 3000 else idC
        rand := p.2 }

def fillOrder2 (u : Unknown) (customerMap : ℤ → Option Customer) (heap : ℕ → Option Order)
    (next : ℕ) (idW idD : ℤ) (r : Rand) : Except Stop OrderFill :=
  upToM (fillOrderRound u idW idD) 3000
    ⟨fun _ => none, customerMap, heap, next, (r 0 % 3000 : ℕ) + 1, r.skip 1⟩

/-- The heap and the generator, and a district or the districts so far. -/
structure Alloc (α : Type) where
  val : α
  heap : ℕ → Option Order
  next : ℕ
  rand : Rand

def districtAlloc (u : Unknown) (dId dWId : ℤ) (dTax : ℚ) (heap : ℕ → Option Order) (next : ℕ)
    (r : Rand) : Except Stop (Alloc District) :=
  let c := fillCustomer2 u dId r
  (fillOrder2 u c.1 heap next dWId dId c.2).map fun f =>
    ⟨⟨dId, dWId, dTax, 30000, 3001, f.customerMap, f.orderMap⟩, f.heap, f.next, f.rand⟩

def fillDistrict (u : Unknown) (heap : ℕ → Option Order) (next : ℕ) (r : Rand) :
    Except Stop (Alloc (ℤ → Option District)) :=
  upToM (fun id s =>
    (districtAlloc u id 1 ((s.rand 0 % 2000 : ℕ) / 10000) s.heap s.next (s.rand.skip 1)).map
      fun a => ⟨mapInsert s.val id a.val, a.heap, a.next, a.rand⟩)
    10 ⟨fun _ => none, heap, next, r⟩

def warehouseAlloc (u : Unknown) (id : ℤ) (wTax : ℚ) (r : Rand) : Except Stop (Alloc Warehouse) :=
  (fillDistrict u (fun _ => none) 0 r).map fun a =>
    ⟨⟨id, wTax, 300000, a.val⟩, a.heap, a.next, a.rand⟩

def fillWarehouse (u : Unknown) (r : Rand) : Except Stop (Alloc (ℤ → Option Warehouse)) :=
  (warehouseAlloc u 1 ((r 0 % 2000 : ℕ) / 10000) (r.skip 1)).map fun a =>
    ⟨mapInsert (fun _ => none) 1 a.val, a.heap, a.next, a.rand⟩

/-- The names of an item, whose lengths the second and the third number give, are left
out. -/
def fillItem (r : Rand) : (ℤ → Option Item) × Rand :=
  upTo (fun id s => (mapInsert s.1 id
    ⟨id, (s.2 0 % 10000 : ℕ), (((s.2 3 % 9900 : ℕ) : ℚ) + 100) / 100⟩, s.2.skip 4))
    100000 (fun _ => none, r)

/-- `list_insert` puts the entry where its address belongs. -/
def fillNeworder (u : Unknown) : List NewOrder :=
  upTo (fun idD l => upTo (fun n l =>
    l.insertIdx (u.place l.length % (l.length + 1)) ⟨(n : ℤ) + 2100, idD, 0⟩) 900 l) 10 []

def fillStock (u : Unknown) (r : Rand) : (ℤ → Option Stock) × Rand :=
  upTo (fun id s => (mapInsert s.1 id
    ⟨id, 0, (s.2 0 % 90 : ℕ) + 10, u.sYtd id, u.sOrderCnt id⟩, s.2.skip 1)) 100000 (fun _ => none, r)

/-- `manager_allocation`; the history table, which no transaction reads, is left out. -/
def managerAllocation (u : Unknown) (r : Rand) : Except Stop Db :=
  (fillWarehouse u r).map fun w =>
    let i := fillItem w.rand
    ⟨w.val, i.1, (fillStock u i.2).1, fillNeworder u, w.heap, w.next⟩

/-! ### Transactions -/

/-- Write a district, and the fields of its warehouse, back. -/
def Db.putDistrict (db : Db) (W : ℤ) (w : Warehouse) (D : ℤ) (d : District) : Db :=
  let w' := { w with districtMap := Function.update w.districtMap D (some d) }
  { db with warehouseMap := Function.update db.warehouseMap W (some w') }

/-- The stock after `quantity` pieces were taken. -/
def Stock.take (s : Stock) (quantity : ℤ) : Stock :=
  let q := s.sQuantity - quantity
  { s with
    sQuantity := if q ≤ 10 then q + 91 else q
    sYtd := s.sYtd + quantity
    sOrderCnt := s.sOrderCnt + 1 }

/-- One round of the loop of `manager_newordertransaction` on the order `p`. -/
def newOrderLine (W D dNext : ℤ) (p : ℕ) (r : Rand) (i : ℕ) (db : Db) : Except Stop Db :=
  let iId : ℤ := (r (2 * i) % 100000 : ℕ) + 1
  match db.itemMap iId, db.stockMap iId, db.heap p with
  | some item, some stock, some o =>
    let quantity : ℤ := (r (2 * i + 1) % 10 : ℕ) + 1
    let l : OrderLine := ⟨dNext, D, W, i, iId, W, -1, quantity, quantity * item.iPrice⟩
    .ok { db with
      stockMap := Function.update db.stockMap iId (some (stock.take quantity))
      heap := Function.update db.heap p (some { o with orderline := mapInsert o.orderline i l }) }
  | _, _, _ => .error .nullPointer

/-- `manager_newordertransaction`. The total with tax, which is not used, is left out. -/
def managerNewordertransaction (db : Db) (W D C sec : ℤ) (r : Rand) : Except Stop (Db × ℤ) :=
  match db.warehouseMap W with
  | none => .ok (db, -1)
  | some w =>
    match w.districtMap D with
    | none => .ok (db, -1)
    | some d =>
      match d.customerMap C with
      | none => .ok (db, -1)
      | some c =>
        let dNext := d.dNextOId
        let cnt := r 0 % 10 + 5
        let o : Order := ⟨dNext, D, C, W, sec, -1, cnt, 1, fun _ => none⟩
        let c' := { c with lastOrder := some db.next }
        let d' := { d with
          dNextOId := dNext + 1
          orderMap := mapInsert d.orderMap dNext db.next
          customerMap := Function.update d.customerMap C (some c') }
        let db₁ := { db.putDistrict W w D d' with
          heap := Function.update db.heap db.next (some o)
          next := db.next + 1 }
        match upToM (newOrderLine W D dNext db.next r) cnt db₁ with
        | .error e => .error e
        | .ok db₂ => .ok (db₂, 1)

/-- The loop of the payment over the customers from `i` on, by last name. -/
def findByName (m : ℤ → Option Customer) (name : String) : ℕ → ℤ → Except Stop (Option ℤ)
  | 0, _ => .ok none
  | n + 1, i =>
    match m i with
    | none => .error .nullPointer
    | some c => if name = c.cLast then .ok (some i) else findByName m name n (i + 1)

/-- The key of the customer who pays. -/
def payer (d : District) (C : ℤ) (r : Rand) : Except Stop (Option ℤ) :=
  if C ≠ -1 then .ok (if (d.customerMap C).isSome then some C else none)
  else findByName d.customerMap
    (generateClast ((BitVec.ofNat 32 (r 0)).toInt.tmod 999).natAbs) 3000 1

/-- `manager_paymenttransaction`. -/
def managerPaymenttransaction (db : Db) (W D C : ℤ) (hAmount : ℚ) (r : Rand) :
    Except Stop (Db × ℤ) :=
  match db.warehouseMap W with
  | none => .ok (db, -1)
  | some w =>
    match w.districtMap D with
    | none => .ok (db, -1)
    | some d =>
      (payer d C r).bind fun
      | none => .error .customerMissing
      | some k =>
        match d.customerMap k with
        | none => .error .nullPointer
        | some c =>
          let c' := { c with
            cBalance := c.cBalance - hAmount
            cYtdPayment := c.cYtdPayment + hAmount
            cPaymentCnt := c.cPaymentCnt + 1 }
          let d' := { d with
            dYtd := d.dYtd + hAmount
            customerMap := Function.update d.customerMap k (some c') }
          .ok (db.putDistrict W { w with wYtd := w.wYtd + hAmount } D d', 1)

/-- One order line of `manager_orderstatustransaction`: its item, and whether it is
delivered. -/
def orderStatusLine (o : Order) (count : ℕ) (result : List (ℤ × Bool)) :
    Except Stop (List (ℤ × Bool)) :=
  match o.orderline count with
  | none => .error .orderLineMissing
  | some l => .ok (result ++ [(l.olIId, decide (l.olDeliveryD < 0))])

/-- `manager_orderstatustransaction`; the array with the status is local. -/
def managerOrderstatustransaction (db : Db) (W D C : ℤ) : Except Stop (Db × ℤ) :=
  match db.warehouseMap W with
  | none => .ok (db, -1)
  | some w =>
    match w.districtMap D with
    | none => .ok (db, -1)
    | some d =>
      match d.customerMap C with
      | none => .ok (db, -1)
      | some c =>
        match c.lastOrder with
        | none => .ok (db, 1)
        | some p =>
          match db.heap p with
          | none => .error .nullPointer
          | some o =>
            match upToM (orderStatusLine o) o.oOlCnt [] with
            | .error e => .error e
            | .ok _ => .ok (db, 1)

/-- The items seen and the number of those below the threshold. -/
structure Level where
  item : ℤ → Bool
  count : ℕ

/-- One order line of `manager_stockleveltransaction`. -/
def stockLevelLine (db : Db) (treshold : ℤ) (o : Order) (count : ℕ) (s : Level) :
    Except Stop Level :=
  match o.orderline count with
  | none => .ok s
  | some l =>
    if s.item l.olIId then .ok s
    else
      match db.stockMap l.olIId with
      | none => .error .nullPointer
      | some st => .ok ⟨Function.update s.item l.olIId true,
          if st.sQuantity < treshold then s.count + 1 else s.count⟩

/-- One order; a missing order is looked for again for ever. -/
def stockLevelOrder (db : Db) (d : District) (treshold : ℤ) (n : ℕ) (s : Level) :
    Except Stop Level :=
  match d.orderMap (d.dNextOId - 21 + n) with
  | none => .error .orderMissing
  | some p =>
    match db.heap p with
    | none => .error .nullPointer
    | some o => upToM (stockLevelLine db treshold o) o.oOlCnt s

/-- `manager_stockleveltransaction`: the last twenty orders. -/
def managerStockleveltransaction (db : Db) (W D treshold : ℤ) : Except Stop (Db × ℤ) :=
  match db.warehouseMap W with
  | none => .ok (db, -1)
  | some w =>
    match w.districtMap D with
    | none => .ok (db, -1)
    | some d =>
      match upToM (stockLevelOrder db d treshold) 20 ⟨fun _ => false, 0⟩ with
      | .error e => .error e
      | .ok _ => .ok (db, 1)

/-- The loop of a delivery over the order lines: the delivery dates and the amount. -/
def deliverLines (sec : ℕ → ℤ) (o : Order) : (ℤ → Option OrderLine) × ℚ :=
  upTo (fun count s =>
    match s.1 count with
    | none => s
    | some l => (Function.update s.1 count (some { l with olDeliveryD := sec count }),
        s.2 + l.olAmount)) o.oOlCnt (o.orderline, 0)

/-- The order of a new-order entry is delivered. -/
def deliverOrder (db : Db) (W : ℤ) (w : Warehouse) (D : ℤ) (d : District) (carrier : ℤ)
    (sec : ℕ → ℤ) (p : ℕ) (o : Order) : Db :=
  let s := deliverLines sec o
  let o' := { o with oCarrierId := carrier, orderline := s.1 }
  let db₁ := { db with heap := Function.update db.heap p (some o') }
  match d.customerMap o.oCId with
  | none => db₁
  | some c =>
    let c' := { c with cBalance := c.cBalance + s.2, cDeliveryCnt := c.cDeliveryCnt + 1 }
    let d' := { d with customerMap := Function.update d.customerMap o.oCId (some c') }
    db₁.putDistrict W w D d'

/-- The entry the iteration of `manager_deliverytransaction` stops at. -/
def isNext (W D : ℤ) (e : NewOrder) : Bool := e.noDId == D && e.noWId == W

/-- The transaction of `manager_deliverytransaction` for one district. -/
def deliverDistrict (db : Db) (W D carrier : ℤ) (sec : ℕ → ℤ) : Except Stop (Db × ℤ) :=
  match db.warehouseMap W with
  | none => .ok (db, -1)
  | some w =>
    match db.neworder.find? (isNext W D) with
    | none => .ok (db, 1)
    | some e =>
      match w.districtMap D with
      | none => .error .nullPointer
      | some d =>
        let done := db.neworder.eraseP (isNext W D)
        match d.orderMap e.noOId with
        | none => .ok ({ db with neworder := done }, 1)
        | some p =>
          match db.heap p with
          | none => .error .nullPointer
          | some o => .ok ({ deliverOrder db W w D d carrier sec p o with neworder := done }, 1)

/-- One round over the districts; a missing warehouse has ended the function. -/
def deliveryRound (W carrier : ℤ) (sec : ℕ → ℕ → ℤ) (D : ℕ) (s : Db × ℤ) :
    Except Stop (Db × ℤ) :=
  if s.2 = -1 then .ok s else deliverDistrict s.1 W D carrier (sec D)

/-- `manager_deliverytransaction`, with no other transaction between its ten. -/
def managerDeliverytransaction (db : Db) (W carrier : ℤ) (sec : ℕ → ℕ → ℤ) :
    Except Stop (Db × ℤ) :=
  upToM (deliveryRound W carrier sec) 10 (db, 1)

/-! ### Runs -/

/-- A committed transaction with its arguments, the time and the numbers it draws; the
ten transactions of a delivery are separate ones. -/
inductive Call where
  | newOrder (W D C sec : ℤ) (r : Rand)
  | payment (W D C : ℤ) (hAmount : ℚ) (r : Rand)
  | orderStatus (W D C : ℤ)
  | stockLevel (W D treshold : ℤ)
  | delivery (W D carrier : ℤ) (sec : ℕ → ℤ)

def Call.run (db : Db) : Call → Except Stop (Db × ℤ)
  | .newOrder W D C sec r => managerNewordertransaction db W D C sec r
  | .payment W D C h r => managerPaymenttransaction db W D C h r
  | .orderStatus W D C => managerOrderstatustransaction db W D C
  | .stockLevel W D t => managerStockleveltransaction db W D t
  | .delivery W D carrier sec => deliverDistrict db W D carrier sec

/-- The database after a sequence of transactions that all commit. -/
def exec : List Call → Db → Option Db
  | [], db => some db
  | c :: cs, db =>
    match c.run db with
    | .ok (db', _) => exec cs db'
    | .error _ => none

end TinyStm.Tpcc
