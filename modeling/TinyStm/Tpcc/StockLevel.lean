import Mathlib.Data.Finset.Card
import Mathlib.Data.Finset.Filter
import TinyStm.Tpcc.Orders

/-!
# Stock-Level

The marker array of `manager_stockleveltransaction` has 100000 entries and is indexed with
item numbers, which go from 1 to 100000. The triple loop visits the lines of the last
twenty orders and counts an item at its first line.
-/

namespace TinyStm.Tpcc

open Loop

variable {db : Db} {d : District} {o : Order} {treshold : ℤ} {items : List ℤ}

/-- The state of the loop, and the indices into `item` it used so far. -/
structure Traced where
  level : Level
  index : List ℤ

def tracedLine (db : Db) (treshold : ℤ) (o : Order) (count : ℕ) (s : Traced) :
    Except Stop Traced :=
  match o.orderline count with
  | none => .ok s
  | some l => (stockLevelLine db treshold o count s.level).map fun v => ⟨v, s.index ++ [l.olIId]⟩

def tracedOrder (db : Db) (d : District) (treshold : ℤ) (n : ℕ) (s : Traced) :
    Except Stop Traced :=
  match d.orderMap (d.dNextOId - 21 + n) with
  | none => .error .orderMissing
  | some p =>
    match db.heap p with
    | none => .error .nullPointer
    | some o => upToM (tracedLine db treshold o) o.oOlCnt s

def stockLevelTrace (db : Db) (d : District) (treshold : ℤ) : Except Stop Traced :=
  upToM (tracedOrder db d treshold) 20 ⟨⟨fun _ => false, 0⟩, []⟩

/-- Without the indices it is the loop of the transaction. -/
theorem stockLevelTrace_level (db : Db) (d : District) (treshold : ℤ) :
    (stockLevelTrace db d treshold).map Traced.level =
      upToM (stockLevelOrder db d treshold) 20 ⟨fun _ => false, 0⟩ := by
  have hline : ∀ o i s, (tracedLine db treshold o i s).map Traced.level =
      stockLevelLine db treshold o i s.level := by
    intro o i s
    unfold tracedLine
    cases hl : o.orderline i with
    | none => simp [stockLevelLine, hl, Except.map]
    | some l =>
      simp only
      cases stockLevelLine db treshold o i s.level <;> rfl
  refine upToM_map (fun n s => ?_) 20 _
  unfold tracedOrder stockLevelOrder
  cases d.orderMap (d.dNextOId - 21 + n) with
  | none => rfl
  | some p =>
    simp only
    cases db.heap p with
    | none => rfl
    | some o => exact upToM_map (hline o) o.oOlCnt s

/-! ### What is to be counted -/

/-- The items of the first `n` lines of an order. -/
def lineItems (o : Order) (n : ℕ) : List ℤ :=
  (List.range n).filterMap fun c => (o.orderline (c + 1 : ℕ)).map (·.olIId)

/-- The items in the lines of the order numbered `n` of the last twenty. -/
def orderItems (db : Db) (d : District) (n : ℕ) : List ℤ :=
  match (d.orderMap (d.dNextOId - 21 + n)).bind db.heap with
  | none => []
  | some o => lineItems o o.oOlCnt

def recentItems (db : Db) (d : District) : List ℤ :=
  (List.range 20).flatMap fun n => orderItems db d (n + 1)

/-- The stock of the item is below the threshold. -/
def below (db : Db) (treshold i : ℤ) : Bool := (db.stockMap i).any (·.sQuantity < treshold)

def lowItems (db : Db) (treshold : ℤ) (items : List ℤ) : ℕ :=
  (items.toFinset.filter fun i => below db treshold i = true).card

/-- The transaction finds every row, stays in the array and counts the items. -/
def StockLevelOk (db : Db) (d : District) (treshold : ℤ) : Prop :=
  ∃ s, stockLevelTrace db d treshold = .ok s ∧ (∀ i ∈ s.index, 0 ≤ i ∧ i < 100000) ∧
    s.level.count = lowItems db treshold (recentItems db d)

/-! ### The loops -/

/-- The lines of `items` were visited. -/
structure Seen (db : Db) (treshold : ℤ) (items : List ℤ) (s : Traced) : Prop where
  index : s.index = items
  item : ∀ i, s.level.item i = true ↔ i ∈ items
  count : s.level.count = lowItems db treshold items

theorem Seen.line {s : Traced} (h : Seen db treshold items s) {i : ℤ} {st : Stock} {l : OrderLine}
    {n : ℕ} (hl : o.orderline n = some l) (hi : l.olIId = i) (hst : db.stockMap i = some st) :
    ∃ s', tracedLine db treshold o n s = .ok s' ∧ Seen db treshold (items ++ [i]) s' := by
  subst hi
  unfold tracedLine stockLevelLine
  simp only [hl, hst]
  have hins : (items ++ [l.olIId]).toFinset = insert l.olIId items.toFinset := by
    ext i
    simp
  by_cases hseen : s.level.item l.olIId = true
  · rw [if_pos hseen]
    have hmem : l.olIId ∈ items := (h.item _).mp hseen
    refine ⟨_, rfl, by simp [h.index], fun i => ?_, ?_⟩
    · rw [h.item, List.mem_append, List.mem_singleton]
      exact ⟨.inl, fun hi => hi.elim id fun he => he ▸ hmem⟩
    · rw [h.count, lowItems, lowItems, hins, Finset.insert_eq_of_mem (List.mem_toFinset.mpr hmem)]
  · rw [if_neg hseen]
    have hmem : l.olIId ∉ items := fun hm => hseen ((h.item _).mpr hm)
    refine ⟨_, rfl, by simp [h.index], fun i => ?_, ?_⟩
    · show Function.update s.level.item l.olIId true i = true ↔ _
      by_cases hi : i = l.olIId
      · subst hi
        simp
      · rw [Function.update_of_ne hi, h.item]
        simp [hi]
    · have hbelow : below db treshold l.olIId = decide (st.sQuantity < treshold) := by
        simp [below, hst]
      show (if st.sQuantity < treshold then s.level.count + 1 else s.level.count) = _
      rw [lowItems, hins, Finset.filter_insert, hbelow, h.count]
      by_cases hlow : st.sQuantity < treshold
      · rw [if_pos hlow, if_pos (by simpa using hlow), Finset.card_insert_of_notMem (by simp [hmem])]
        rfl
      · rw [if_neg hlow, if_neg (by simpa using hlow)]
        rfl

theorem lineItems_succ (o : Order) (n : ℕ) :
    lineItems o (n + 1) = lineItems o n ++ ((o.orderline (n + 1 : ℕ)).map (·.olIId)).toList := by
  rw [lineItems, List.range_succ, List.filterMap_append]
  cases h : (o.orderline (n + 1 : ℕ)).map (·.olIId) <;> simp only [List.filterMap_cons, h] <;> rfl

theorem Seen.lines (hok : OrdersOk db) (ho : OrderOk o) {s : Traced} (h : Seen db treshold items s) :
    ∃ s', upToM (tracedLine db treshold o) o.oOlCnt s = .ok s' ∧
      Seen db treshold (items ++ lineItems o o.oOlCnt) s' := by
  refine upToM_ok (P := fun i s => Seen db treshold (items ++ lineItems o i) s)
    (by simpa [lineItems] using h) fun i s hi hs => ?_
  obtain ⟨l, hl⟩ := ho.lines.keys.get (k := ((i + 1 : ℕ) : ℤ)) (by omega) (by omega)
  obtain ⟨hlo, hhi⟩ := ho.lines.item _ l hl
  obtain ⟨st, hst⟩ := hok.stock.get hlo hhi
  rw [lineItems_succ, hl, ← List.append_assoc]
  exact hs.line hl rfl hst

/-- The last twenty orders are there. -/
theorem recent_order (hD : DistrictOk db.heap d) {n : ℕ} (hn : n < 20) :
    ∃ p o, d.orderMap (d.dNextOId - 21 + (n + 1 : ℕ)) = some p ∧ db.heap p = some o ∧
      OrderOk o ∧ orderItems db d (n + 1) = lineItems o o.oOlCnt := by
  have hnext := hD.next
  obtain ⟨p, hp⟩ := hD.keys.get (k := d.dNextOId - 21 + (n + 1 : ℕ)) (by omega) (by omega)
  obtain ⟨o, ho, -, hok⟩ := hD.order _ p hp
  refine ⟨p, o, hp, ho, hok, ?_⟩
  rw [orderItems, hp, Option.bind_some, ho]

theorem stockLevelTrace_ok (hok : OrdersOk db) (hD : DistrictOk db.heap d) (treshold : ℤ) :
    ∃ s, stockLevelTrace db d treshold = .ok s ∧ Seen db treshold (recentItems db d) s := by
  refine upToM_ok
    (P := fun n s => Seen db treshold ((List.range n).flatMap fun n => orderItems db d (n + 1)) s)
    ⟨rfl, by simp, rfl⟩ fun n s hn hs => ?_
  obtain ⟨p, o, hp, ho, hord, hitems⟩ := recent_order hD hn
  rw [List.range_succ, List.flatMap_append, List.flatMap_singleton, hitems]
  unfold tracedOrder
  simp only [hp, ho]
  exact hs.lines hok hord

theorem recentItems_bounds (hD : DistrictOk db.heap d) {i : ℤ} (hi : i ∈ recentItems db d) :
    1 ≤ i ∧ i ≤ 100000 := by
  obtain ⟨n, hn, hi⟩ := List.mem_flatMap.mp hi
  obtain ⟨p, o, -, -, hord, hitems⟩ := recent_order hD (List.mem_range.mp hn)
  rw [hitems, lineItems, List.mem_filterMap] at hi
  obtain ⟨c, -, hc⟩ := hi
  obtain ⟨l, hl, rfl⟩ := Option.map_eq_some_iff.mp hc
  exact hord.lines.item _ l hl

theorem stockLevelOk_iff (hok : OrdersOk db) (hD : DistrictOk db.heap d) (treshold : ℤ) :
    StockLevelOk db d treshold ↔ 100000 ∉ recentItems db d := by
  obtain ⟨s, hs, hseen⟩ := stockLevelTrace_ok hok hD treshold
  constructor
  · rintro ⟨s', hs', hidx, -⟩ hmem
    obtain rfl : s = s' := Except.ok.inj (hs.symm.trans hs')
    rw [hseen.index] at hidx
    exact absurd (hidx _ hmem).2 (by omega)
  · intro hnot
    refine ⟨s, hs, fun i hi => ?_, hseen.count⟩
    rw [hseen.index] at hi
    obtain ⟨hlo, hhi⟩ := recentItems_bounds hD hi
    have hne : i ≠ 100000 := fun he => hnot (he ▸ hi)
    omega

/-- From the populated database on, Stock-Level does what it should for a district exactly
when no line of its last twenty orders is for the item 100000. -/
theorem stock_level_iff (u : Unknown) (r : Rand) : ∃ db₀, managerAllocation u r = .ok db₀ ∧
    ∀ calls db, exec calls db₀ = some db → ∀ W D d, db.district W D = some d → ∀ treshold,
      (StockLevelOk db d treshold ↔ 100000 ∉ recentItems db d) := by
  obtain ⟨db₀, h₀, hfresh⟩ := managerAllocation_ok u r
  refine ⟨db₀, h₀, fun calls db hex W D d hd treshold => ?_⟩
  have hok : OrdersOk db := exec_inv (fun _ _ _ _ h hrun => h.run hrun) calls hfresh.ok hex
  exact stockLevelOk_iff hok (hok.district W D d hd) treshold

/-! ### An order for the last item -/

/-- The random numbers of a new order whose lines are all for the item 100000. -/
def lastItem : Rand := fun _ => 99999

theorem newOrderLine_lastItem {W D dNext : ℤ} {p i : ℕ} {s s' : Db}
    (h : ∃ o, s.heap p = some o ∧ ∀ k l, o.orderline k = some l → l.olIId = 100000)
    (hs : newOrderLine W D dNext p lastItem i s = .ok s') :
    ∃ o, s'.heap p = some o ∧ ∀ k l, o.orderline k = some l → l.olIId = 100000 := by
  obtain ⟨o, ho, hlines⟩ := h
  unfold newOrderLine at hs
  simp only [ho] at hs
  split at hs
  · next item stock o' hitem hstock ho' =>
    cases ho'
    cases hs
    refine ⟨_, Function.update_self .., fun k l hl => ?_⟩
    simp only [mapInsert] at hl
    split at hl
    · exact hlines k l hl
    · rcases update_eq_some hl with ⟨-, rfl⟩ | ⟨-, hl⟩
      · rfl
      · exact hlines k l hl
  · cases hs

/-- After such an order Stock-Level leaves its array. -/
theorem newOrder_lastItem (h : OrdersOk db) : ∃ db' d',
    Call.run db (.newOrder 1 1 1 0 lastItem) = .ok (db', 1) ∧ OrdersOk db' ∧
      db'.district 1 1 = some d' ∧ 100000 ∈ recentItems db' d' := by
  obtain ⟨d, hd⟩ := Option.isSome_iff_exists.mp ((h.districts 1 1).mpr ⟨rfl, by decide, by decide⟩)
  obtain ⟨w, hw⟩ := Option.isSome_iff_exists.mp ((h.warehouses 1).mpr rfl)
  have hd' : w.districtMap 1 = some d := by rwa [Db.district_eq hw] at hd
  have hD := h.district 1 1 d hd
  obtain ⟨c, hc⟩ := hD.customer.get (k := 1) (by decide) (by decide)
  obtain ⟨db', v, hrun, hok'⟩ := h.newOrder 1 1 1 0 lastItem
  have hlines : ∃ o, db'.heap db.next = some o ∧ ∀ k l, o.orderline k = some l → l.olIId = 100000 := by
    unfold managerNewordertransaction at hrun
    simp only [hw, hd', hc] at hrun
    split at hrun
    · cases hrun
    · next db₂ hloop =>
      cases hrun
      refine upToM_inv (P := fun _ s => ∃ o, s.heap db.next = some o ∧
        ∀ k l, o.orderline k = some l → l.olIId = 100000) ?_
        (fun i s s' _ hP hs => newOrderLine_lastItem hP hs) hloop
      exact ⟨_, Function.update_self .., fun k l hl => by cases hl⟩
  rcases newOrder_cases h 1 1 1 0 lastItem with hres | ⟨w₁, d₁, c₁, st, o, hw₁, hd₁, hc₁, -, -, ho, -, -,
    hres⟩
  · rw [hrun] at hres
    cases hres
    -- a new order that was refused does not change the heap
    obtain ⟨o, ho, -⟩ := hlines
    exact absurd ho (by simp [h.heap_next])
  · obtain rfl : w = w₁ := Option.some.inj (hw.symm.trans hw₁)
    obtain rfl : d = d₁ := Option.some.inj (hd'.symm.trans hd₁)
    rw [hrun] at hres
    cases hres
    refine ⟨_, { d with
      dNextOId := d.dNextOId + 1
      orderMap := mapInsert d.orderMap d.dNextOId db.next
      customerMap := Function.update d.customerMap 1
        (some { c₁ with lastOrder := some db.next }) }, hrun, hok', ?_, ?_⟩
    · exact (Db.district_putDistrict hw rfl 1 1).trans (if_pos ⟨rfl, rfl⟩)
    · obtain ⟨o', ho', hitem⟩ := hlines
      have hself : Function.update db.heap db.next (some o) db.next = some o := Function.update_self ..
      obtain rfl : o = o' := Option.some.inj (hself.symm.trans ho')
      obtain ⟨l, hl⟩ := ho.lines.keys.get (k := ((0 + 1 : ℕ) : ℤ)) (by decide)
        (by have := ho.cnt.1; omega)
      have hnew : mapInsert d.orderMap d.dNextOId db.next d.dNextOId = some db.next := by
        have hnone : ¬ (d.orderMap d.dNextOId).isSome = true := fun hs => by
          have := ((hD.keys _).mp hs).2
          omega
        rw [mapInsert, if_neg hnone, Function.update_self]
      refine List.mem_flatMap.mpr ⟨19, List.mem_range.mpr (by decide), ?_⟩
      have hkey : d.dNextOId + 1 - 21 + ((19 + 1 : ℕ) : ℤ) = d.dNextOId := by omega
      rw [orderItems]
      simp only [hkey, hnew, Option.bind_some, Function.update_self]
      rw [lineItems, List.mem_filterMap]
      refine ⟨0, List.mem_range.mpr (by have := ho.cnt.1; omega), ?_⟩
      rw [hl, Option.map_some, hitem _ l hl]

/-- One new order on the populated database. -/
theorem stock_level_last_item : ∃ db₀ db d,
    managerAllocation ⟨fun _ _ => none, fun _ _ => 0, fun _ => 0, fun _ => 0, id, 0⟩ (fun _ => 0) =
      .ok db₀ ∧
    exec [.newOrder 1 1 1 0 lastItem] db₀ = some db ∧ db.district 1 1 = some d ∧
    ¬ StockLevelOk db d 15 := by
  obtain ⟨db₀, h₀, hfresh⟩ := managerAllocation_ok
    ⟨fun _ _ => none, fun _ _ => 0, fun _ => 0, fun _ => 0, id, 0⟩ (fun _ => 0)
  obtain ⟨db, d, hrun, hok, hd, hmem⟩ := newOrder_lastItem hfresh.ok
  refine ⟨db₀, db, d, h₀, by simp only [exec, hrun], hd, fun h => ?_⟩
  exact (stockLevelOk_iff hok (hok.district 1 1 d hd) 15).mp h hmem

end TinyStm.Tpcc
