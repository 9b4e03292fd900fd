import TinyStm.Mb.Table

/-!
# The invariant of the table

What holds of the shared memory and of every thread, and what a thread may count on while the others
go on. The lists of free nodes and of the buckets never share a node, and a node that has left the
first never comes back.
-/

namespace TinyStm.Mb

open Interleave

variable {ι C : Type*} {cfg : KeyConfig} {approx : Bool} {g g' : Table ι C} {i j : ι} {k : Key}
  {n d : ℕ} {seen : Bool} {l l' : List ℕ}

/-- A node of the list has the key. -/
def Table.Holds (g : Table ι C) (k : Key) (l : List ℕ) : Prop :=
  ∃ n ∈ l, (g.mem n).matches k = true

structure SharedOk (approx : Bool) (cfg : KeyConfig) (g : Table ι C) : Prop where
  free : Chain (fun n => (g.mem n).nextFree) g.freeHEAD g.free
  free_nodup : g.free.Nodup
  free_lt : ∀ n ∈ g.free, n < cfg.node (g.poolHEAD + 1) 0
  free_new : ∀ n ∈ g.free, n ∉ g.nodes
  nodes_nodup : g.nodes.Nodup
  nodes_lt : ∀ n ∈ g.nodes, n < cfg.node (g.poolHEAD + 1) 0
  bucket (b : ℕ) : Chain (fun n => (g.mem n).nextData) (g.hashT b) (g.pushed b)
  pushed_nodup (b : ℕ) : (g.pushed b).Nodup
  pushed_nodes (b : ℕ) : ∀ n ∈ g.pushed b, n ∈ g.nodes
  answered : ∀ k ∈ g.answered, IsKey approx cfg k ∧ g.Holds k (g.pushed k.idx.toNat)

/-! ### Threads -/

/-- The assignments to the node `d` are made, but for those of `todo`. -/
structure Assigned (d v : Node C) (todo : List Field) : Prop where
  nextFree : .nextFree ∉ todo → d.nextFree = v.nextFree
  tValidation : .tValidation ∉ todo → d.tValidation = v.tValidation
  uRate : .uRate ∉ todo → d.uRate = v.uRate
  aRead : .aRead ∉ todo → d.aRead = v.aRead

/-- The node `n` is that of the thread `i`, and on no bucket. -/
structure Owned (g : Table ι C) (i : ι) (n : ℕ) : Prop where
  handed : (i, n) ∈ g.handed
  fresh (b : ℕ) : n ∉ g.pushed b

/-- The thread `i` has the lock of the pools, and the list of free nodes is empty. -/
structure Refills (g : Table ι C) (i : ι) : Prop where
  lock : g.poolLOCK = some i
  empty : g.freeHEAD = none

/-- The nodes of the new pool are still unused. -/
structure Clears (cfg : KeyConfig) (g : Table ι C) (i : ι) (pool : ℕ) : Prop extends Refills g i where
  last : g.poolHEAD = pool
  unused (e : ℕ) : cfg.node pool e ∉ g.nodes

/-- The nodes before `e` are cleared. -/
def ClearTo [Zero C] (cfg : KeyConfig) (g : Table ι C) (pool e : ℕ) : Prop :=
  ∀ e' < e, Assigned (g.mem (cfg.node pool e')) (.empty (poolNext cfg pool e')) []

/-- The node is in use or it is free and `p` holds. -/
def Popped (g : Table ι C) (d : ℕ) (p : Prop) : Prop := (d ∈ g.free ∧ p) ∨ d ∈ g.nodes

/-- What holds at a step of the call for `k` by the thread `i`. -/
def StageOk [Zero C] (cfg : KeyConfig) (optOf : BitVec 64 → BitVec 64 → BitVec 64 → C) (i : ι)
    (g : Table ι C) (k : Key) (seen : Bool) : Stage → Prop
  | .loadBucket => seen = true → g.Holds k (g.pushed k.idx.toNat)
  | .walk data =>
    ∃ l, l <:+ g.pushed k.idx.toNat ∧ data = l.head? ∧ (seen = true → g.Holds k l)
  | .testTv data =>
    ∃ l, data :: l <:+ g.pushed k.idx.toNat ∧ (seen = true → g.Holds k (data :: l))
  | .testUr data =>
    (∃ l, data :: l <:+ g.pushed k.idx.toNat ∧ (seen = true → g.Holds k (data :: l))) ∧
      k.tv = (g.mem data).tValidation
  | .testAcc data =>
    (∃ l, data :: l <:+ g.pushed k.idx.toNat ∧ (seen = true → g.Holds k (data :: l))) ∧
      k.tv = (g.mem data).tValidation ∧ dblEq k.ur (g.mem data).uRate = true
  | .loadNext data =>
    ∃ l, data :: l <:+ g.pushed k.idx.toNat ∧ (seen = true → g.Holds k l)
  | .again | .lockPool => seen = false
  | .loadFree data => seen = false ∧ Popped g data True
  | .popFree data next => seen = false ∧ Popped g data ((g.mem data).nextFree = next)
  | .checkFree | .giveUp => seen = false ∧ g.poolLOCK = some i
  | .malloc => seen = false ∧ Refills g i
  | .newPool pool => seen = false ∧ Refills g i ∧ pool = g.poolHEAD + 1
  | .clear pool e todo =>
    seen = false ∧ Clears cfg g i pool ∧ e < cfg.size ∧ ClearTo cfg g pool e ∧
      Assigned (g.mem (cfg.node pool e)) (.empty (poolNext cfg pool e)) todo
  | .setHead pool => seen = false ∧ Clears cfg g i pool ∧ ClearTo cfg g pool cfg.size
  | .unlockPool pool =>
    seen = false ∧ g.poolLOCK = some i ∧ g.poolHEAD = pool ∧ cfg.node pool 0 ∉ g.nodes ∧
      cfg.node pool 0 ∉ g.free
  | .fill data todo => seen = false ∧ Owned g i data ∧ Assigned (g.mem data) (.ofKey optOf k) todo
  | .loadHead data | .storeNext data _ | .push data =>
    seen = false ∧ Owned g i data ∧ (g.mem data).matches k = true
  | .done data hit =>
    data ∈ g.pushed k.idx.toNat ∧ (g.mem data).matches k = true ∧ (seen = true → hit = true)

def CallerOk [Zero C] (approx : Bool) (cfg : KeyConfig) (optOf : BitVec 64 → BitVec 64 → BitVec 64 → C)
    (i : ι) (g : Table ι C) : Caller → Prop
  | .idle => True
  | .get k seen s => IsKey approx cfg k ∧ StageOk cfg optOf i g k seen s

/-! ### What the other threads may do -/

/-- What a step of another thread leaves to the thread `j`. -/
structure Rely (j : ι) (g g' : Table ι C) : Prop where
  nodes : ∀ n ∈ g.nodes, n ∈ g'.nodes
  free : ∀ n ∈ g.free, (n ∈ g'.free ∧ (g'.mem n).nextFree = (g.mem n).nextFree) ∨ n ∈ g'.nodes
  pushed (b : ℕ) : g.pushed b <:+ g'.pushed b
  mem (b : ℕ) : ∀ n ∈ g.pushed b, g'.mem n = g.mem n
  own : ∀ n, Owned g j n → Owned g' j n ∧ g'.mem n = g.mem n
  lock : g.poolLOCK = some j → g'.poolLOCK = some j ∧ g'.poolHEAD = g.poolHEAD
  empty : g.poolLOCK = some j → g.freeHEAD = none → g'.freeHEAD = none
  unused : g.poolLOCK = some j → ∀ n, n ∉ g.nodes → n ∉ g.free →
    g'.mem n = g.mem n ∧ n ∉ g'.nodes ∧ n ∉ g'.free

theorem Rely.holds (h : Rely j g g') {b : ℕ} (hl : l <:+ g.pushed b) (hg : g.Holds k l) :
    g'.Holds k l := by
  obtain ⟨n, hn, hk⟩ := hg
  refine ⟨n, hn, ?_⟩
  rw [h.mem b n (hl.subset hn)]
  exact hk

theorem Table.Holds.mono (h : g.Holds k l) (hsub : l ⊆ l') : g.Holds k l' := by
  obtain ⟨n, hn, hk⟩ := h
  exact ⟨n, hsub hn, hk⟩

theorem Rely.popped (h : Rely j g g') {next : Option ℕ}
    (hp : Popped g d ((g.mem d).nextFree = next)) : Popped g' d ((g'.mem d).nextFree = next) := by
  obtain ⟨hfree, hnext⟩ | hd := hp
  · obtain ⟨hfree', hnext'⟩ | hd := h.free d hfree
    · exact .inl ⟨hfree', hnext'.trans hnext⟩
    · exact .inr hd
  · exact .inr (h.nodes d hd)

theorem SharedOk.free_eq_nil (hg : SharedOk approx cfg g) (h : g.freeHEAD = none) : g.free = [] :=
  hg.free.eq_nil_iff.mp h

theorem Rely.refills (h : Rely j g g') (hr : Refills g j) : Refills g' j :=
  ⟨(h.lock hr.lock).1, h.empty hr.lock hr.empty⟩

/-- The nodes of the new pool stay as they are. -/
theorem Rely.clears (h : Rely j g g') (hg : SharedOk approx cfg g) {pool : ℕ}
    (hc : Clears cfg g j pool) :
    Clears cfg g' j pool ∧ ∀ e, g'.mem (cfg.node pool e) = g.mem (cfg.node pool e) := by
  have hkeep e := h.unused hc.lock (cfg.node pool e) (hc.unused e)
    (by rw [hg.free_eq_nil hc.empty]; exact List.not_mem_nil)
  exact ⟨⟨h.refills hc.toRefills, (h.lock hc.lock).2.trans hc.last, fun e => (hkeep e).2.1⟩,
    fun e => (hkeep e).1⟩

theorem Rely.cursor (h : Rely j g g') {b : ℕ} (hl : l <:+ g.pushed b) (hl' : l' ⊆ l)
    (hs : seen = true → g.Holds k l') : l <:+ g'.pushed b ∧ (seen = true → g'.Holds k l') := by
  refine ⟨hl.trans (h.pushed b), fun hseen => ?_⟩
  obtain ⟨n, hn, hk⟩ := hs hseen
  refine ⟨n, hn, ?_⟩
  rw [h.mem b n (hl.subset (hl' hn))]
  exact hk

variable [Zero C] {optOf : BitVec 64 → BitVec 64 → BitVec 64 → C}

/-- What holds of a thread goes on to hold when another one moves. -/
theorem StageOk.stable {s : Stage} (hg : SharedOk approx cfg g) (h : Rely j g g')
    (hs : StageOk cfg optOf j g k seen s) : StageOk cfg optOf j g' k seen s := by
  cases s with
  | loadBucket => exact fun hseen => (h.holds List.suffix_rfl (hs hseen)).mono (h.pushed _).subset
  | walk data =>
    obtain ⟨l, hl, hd, hm⟩ := hs
    obtain ⟨hl', hm'⟩ := h.cursor hl (List.Subset.refl l) hm
    exact ⟨l, hl', hd, hm'⟩
  | testTv data =>
    obtain ⟨l, hl, hm⟩ := hs
    exact ⟨l, h.cursor hl (List.Subset.refl _) hm⟩
  | testUr data =>
    obtain ⟨⟨l, hl, hm⟩, htv⟩ := hs
    refine ⟨⟨l, h.cursor hl (List.Subset.refl _) hm⟩, ?_⟩
    rwa [h.mem _ data (hl.subset List.mem_cons_self)]
  | testAcc data =>
    obtain ⟨⟨l, hl, hm⟩, htv, hur⟩ := hs
    refine ⟨⟨l, h.cursor hl (List.Subset.refl _) hm⟩, ?_⟩
    rw [h.mem _ data (hl.subset List.mem_cons_self)]
    exact ⟨htv, hur⟩
  | loadNext data =>
    obtain ⟨l, hl, hm⟩ := hs
    exact ⟨l, h.cursor hl (List.subset_cons_self _ _) hm⟩
  | again => exact hs
  | lockPool => exact hs
  | loadFree data =>
    obtain ⟨hseen, hp⟩ := hs
    refine ⟨hseen, ?_⟩
    obtain ⟨hfree, -⟩ | hd := hp
    · obtain ⟨hfree', -⟩ | hd := h.free data hfree
      · exact .inl ⟨hfree', trivial⟩
      · exact .inr hd
    · exact .inr (h.nodes data hd)
  | popFree data next => exact ⟨hs.1, h.popped hs.2⟩
  | checkFree => exact ⟨hs.1, (h.lock hs.2).1⟩
  | giveUp => exact ⟨hs.1, (h.lock hs.2).1⟩
  | malloc => exact ⟨hs.1, h.refills hs.2⟩
  | newPool pool =>
    obtain ⟨hseen, hr, hpool⟩ := hs
    exact ⟨hseen, h.refills hr, by rw [(h.lock hr.lock).2, hpool]⟩
  | clear pool e todo =>
    obtain ⟨hseen, hc, he, hto, ha⟩ := hs
    obtain ⟨hc', hmem⟩ := h.clears hg hc
    refine ⟨hseen, hc', he, fun e' he' => ?_, ?_⟩
    · rw [hmem]
      exact hto e' he'
    · rw [hmem]
      exact ha
  | setHead pool =>
    obtain ⟨hseen, hc, hto⟩ := hs
    obtain ⟨hc', hmem⟩ := h.clears hg hc
    refine ⟨hseen, hc', fun e' he' => ?_⟩
    rw [hmem]
    exact hto e' he'
  | unlockPool pool =>
    obtain ⟨hseen, hlock, hlast, hnode, hfree⟩ := hs
    obtain ⟨hlock', hlast'⟩ := h.lock hlock
    exact ⟨hseen, hlock', hlast'.trans hlast, (h.unused hlock _ hnode hfree).2⟩
  | fill data todo =>
    obtain ⟨hseen, ho, ha⟩ := hs
    obtain ⟨ho', hmem⟩ := h.own data ho
    exact ⟨hseen, ho', by rwa [hmem]⟩
  | loadHead data =>
    obtain ⟨hseen, ho, hk⟩ := hs
    obtain ⟨ho', hmem⟩ := h.own data ho
    exact ⟨hseen, ho', by rwa [hmem]⟩
  | storeNext data head =>
    obtain ⟨hseen, ho, hk⟩ := hs
    obtain ⟨ho', hmem⟩ := h.own data ho
    exact ⟨hseen, ho', by rwa [hmem]⟩
  | push data =>
    obtain ⟨hseen, ho, hk⟩ := hs
    obtain ⟨ho', hmem⟩ := h.own data ho
    exact ⟨hseen, ho', by rwa [hmem]⟩
  | done data hit =>
    obtain ⟨hd, hk, hhit⟩ := hs
    exact ⟨(h.pushed _).subset hd, by rwa [h.mem _ data hd], hhit⟩

theorem CallerOk.stable {x : Caller} (hg : SharedOk approx cfg g) (h : Rely j g g')
    (hx : CallerOk approx cfg optOf j g x) : CallerOk approx cfg optOf j g' x := by
  cases x with
  | idle => trivial
  | get k seen s => exact ⟨hx.1, hx.2.stable hg h⟩

end TinyStm.Mb
