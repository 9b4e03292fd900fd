import TinyStm.Rbtree.Verify
import TinyStm.Lib.Replay
import Mathlib.Data.List.Perm.Subperm
import Mathlib.Data.Set.Card

/-!
# Runs of the map

A tree is made, used and freed; every node comes from `malloc` with any contents. The
calls return what a finite map would, and in the end the heap is what it was. The keys
are those that `compare` orders: the difference of two words may overflow, and is no
order on all of them.
-/

namespace TinyStm.Rbtree

open Cells Entries Replay

variable {w : ℕ} {s : BitVec w} {compare : BitVec w → BitVec w → ℤ} {D : BitVec w → Prop}
  {L : List (BitVec w × BitVec w)} {fuel : ℕ} {R : Assn Field (BitVec w)}
  {H H₁ H₂ : Heap Field (BitVec w)}

/-- The calls of the interface; `node` is what `malloc` returns. -/
inductive Call (w : ℕ) where
  | insert (key val node : BitVec w)
  | delete (key : BitVec w)
  | update (key val node : BitVec w)
  | get (key : BitVec w)
  | contains (key : BitVec w)
  deriving DecidableEq

def Call.key : Call w → BitVec w
  | .insert key _ _ | .delete key | .update key _ _ | .get key | .contains key => key

def Call.node : Call w → Option (BitVec w)
  | .insert _ _ node | .update _ _ node => some node
  | .delete _ | .get _ | .contains _ => none

/-- `TRUE` and `FALSE`. -/
def flag (b : Bool) : BitVec w := if b then 1 else 0

def Call.body (compare : BitVec w → BitVec w → ℤ) (fuel : ℕ) (s : BitVec w) :
    Call w → M w (BitVec w)
  | .insert key val node => do pure (flag (← rbtreeInsert compare fuel s key val node))
  | .delete key => do pure (flag (← rbtreeDelete compare fuel s key))
  | .update key val node => do pure (flag (← rbtreeUpdate compare fuel s key val node))
  | .get key => rbtreeGet compare fuel s key
  | .contains key => do pure (flag (← rbtreeContains compare fuel s key))

/-- What the call does to a map, and its result. -/
def Call.onMap (m : BitVec w → Option (BitVec w)) :
    Call w → (BitVec w → Option (BitVec w)) × BitVec w
  | .insert key val _ =>
    (if m key = none then Function.update m key (some val) else m, flag (decide (m key = none)))
  | .delete key => (Function.update m key none, flag (decide (m key ≠ none)))
  | .update key val _ => (Function.update m key (some val), flag (decide (m key ≠ none)))
  | .get key => (m, (m key).getD NULL)
  | .contains key => (m, flag (decide (m key ≠ none)))

/-- What a call owns besides the tree. -/
def Call.own (c : Call w) : Assn Field (BitVec w) := (c.node.map spare).getD 1

/-! ### One call -/

theorem keys_nodup (hD : Ordered compare D) (hL : Sorted compare D L) : (L.map (·.1)).Nodup := by
  rw [List.nodup_iff_pairwise_ne, List.pairwise_map]
  refine hL.lt.imp_of_mem fun {a b} ha hb hab h => ?_
  rw [h, hD.refl (hL.mem b hb)] at hab
  omega

/-- Keys are different words. -/
theorem length_le (hD : Ordered compare D) (hL : Sorted compare D L) : L.length ≤ 2 ^ w := by
  have hnodup : ((L.map (·.1)).map BitVec.toNat).Nodup :=
    (keys_nodup hD hL).map fun _ _ => BitVec.eq_of_toNat_eq
  have hsub : (L.map (·.1)).map BitVec.toNat ⊆ List.range (2 ^ w) := fun n hn => by
    obtain ⟨k, -, rfl⟩ := List.mem_map.mp hn
    exact List.mem_range.mpr k.isLt
  simpa using (hnodup.subperm hsub).length_le

theorem enough (hw : 0 < w) (hD : Ordered compare D) (hL : Sorted compare D L) (hf : 2 * w < fuel) :
    2 * Nat.log 2 (L.length + 1) < fuel := by
  have hlt : L.length + 1 < 2 ^ (w + 1) := by
    have := length_le hD hL
    have := Nat.one_lt_two_pow (Nat.ne_of_gt hw)
    rw [pow_succ]
    omega
  have hlog := Nat.log_lt_of_lt_pow (by omega) hlt
  omega

/-- A call does to the tree what it does to the map. -/
theorem Call.body_on (hw : 0 < w) (hf : 2 * w < fuel) (hD : Ordered compare D)
    (hL : Sorted compare D L) (c : Call w) (hk : D c.key) :
    ∃ L', Sorted compare D L' ∧ (fun k => L'.lookup k) = (c.onMap fun k => L.lookup k).1 ∧
      Acts (IsMap s L * c.own) (c.body compare fuel s) (c.onMap fun k => L.lookup k).2
        (IsMap s L') := by
  have hfuel := enough hw hD hL hf
  cases c with
  | insert key val node =>
    refine ⟨_, ?_, ?_, .bind (rbtreeInsert_on hD hk hL hfuel hw) (Acts.pure _ _)⟩
    · split
      · exact hL.put hD hk
      · exact hL
    · simp only [Call.onMap]
      split
      · exact hL.lookup_put hD hk
      · rfl
  | delete key =>
    rw [show (Call.delete key).own = 1 from rfl, mul_one]
    exact ⟨_, hL.erase hD hk, hL.lookup_erase hD hk,
      .bind (rbtreeDelete_on hD hk hL hfuel hw) (Acts.pure _ _)⟩
  | update key val node =>
    exact ⟨_, hL.put hD hk, hL.lookup_put hD hk,
      .bind (rbtreeUpdate_on hD hk hL hfuel hw) (Acts.pure _ _)⟩
  | get key =>
    rw [show (Call.get key).own = 1 from rfl, mul_one]
    exact ⟨L, hL, rfl, rbtreeGet_on hD hk hL hfuel⟩
  | contains key =>
    rw [show (Call.contains key).own = 1 from rfl, mul_one]
    exact ⟨L, hL, rfl, .bind (rbtreeContains_on hD hk hL hfuel) (Acts.pure _ _)⟩

/-! ### From `rbtree_alloc` to `rbtree_free` -/

theorem freeNode_on {t : Tree w} {p : BitVec w} {n : ℕ} (hn : t.height < n) :
    Acts (t.own p) (freeNode n t.ptr) () 1 := by
  obtain ⟨n, rfl⟩ : ∃ m, n = m + 1 := ⟨n - 1, by omega⟩
  induction t generalizing p n with
  | nil =>
    rw [Tree.ptr, freeNode, onlyIf, if_neg (not_not.mpr rfl)]
    exact Acts.pure _ _
  | node c l i r ihl ihr =>
    simp only [Tree.height] at hn
    obtain ⟨n, rfl⟩ : ∃ m, n = m + 1 := ⟨n - 1, by omega⟩
    refine Acts.ne_zero fun hi : i.n ≠ NULL => ?_
    rw [Tree.ptr, freeNode, onlyIf, if_pos hi]
    refine .bind ((i.ld_field (d := .l)).frame _) (.bind (((ihl n (by omega)).frame _).skip _) ?_)
    refine .bind ((i.ld_field (d := .r)).frame _) (.bind (((ihr n (by omega)).skip _).skip _) ?_)
    rw [mul_one, mul_one]
    exact Acts.release _ _

theorem rbtreeFree_on (hf : 2 * Nat.log 2 (L.length + 1) < fuel) :
    Acts (IsMap s L) (rbtreeFree fuel s) () 1 := by
  refine isMap_only fun t h ht hL => .bind (On.root t) (.bind (r := ())
    (Q := cell s (head t.ptr) * 1) ?_ ?_)
  · exact (freeNode_on (Nat.lt_of_le_of_lt ht.height_log (hL ▸ hf))).skip _
  · rw [mul_one]
    exact Acts.release _ _

theorem rbtreeAlloc_on (hs : s ≠ NULL) (x : BitVec w) :
    Acts (cell s (head x)) (rbtreeAlloc s) s (IsMap s []) := by
  rw [rbtreeAlloc, onlyIf, if_pos hs]
  refine .imp (.bind (head_st s x NULL) (Acts.pure _ _)) fun H hH => ⟨.nil, 0, .nil, rfl, ?_⟩
  rwa [whole, Tree.own, mul_one]

/-- `malloc` before a call. -/
inductive Alloc (H : Heap Field (BitVec w)) : Call w → Heap Field (BitVec w) → Prop
  | node {call : Call w} {n : BitVec w} (c k v p l r : BitVec w) : call.node = some n → n ≠ NULL →
      H n = none → Alloc H call (Function.update H n (some (obj c k v p l r)))
  | none {call : Call w} : call.node = none → Alloc H call H

theorem Alloc.owns {call : Call w} (h : Alloc H call H₁) (hR : R H) : (R * call.own) H₁ := by
  cases h with
  | node c k v p l r hn hne hnew =>
    rw [Call.own, hn, Option.map_some, Option.getD_some, mul_comm]
    exact mul_mono (fun H hH => ⟨c, k, v, p, l, r, hH⟩) (cell_mul.mpr ⟨hne, H, hnew, hR, rfl⟩)
  | none hn =>
    rw [Call.own, hn, Option.map_none, Option.getD_none, mul_one]
    exact hR

/-- A call with its result takes the heap `H` to `H'`. -/
def Performs (compare : BitVec w → BitVec w → ℤ) (fuel : ℕ) (s : BitVec w)
    (p : Call w × BitVec w) (H H' : Heap Field (BitVec w)) : Prop :=
  ∃ H₁, Alloc H p.1 H₁ ∧ (p.1.body compare fuel s).run H₁ = some (H', p.2)

/-- The map goes from `m` to `m'`. -/
def Maps (p : Call w × BitVec w) (m m' : BitVec w → Option (BitVec w)) : Prop :=
  p.1.onMap m = (m', p.2)

/-- The heap holds the map `m`, and `R` besides. -/
def Holds (compare : BitVec w → BitVec w → ℤ) (D : BitVec w → Prop) (s : BitVec w)
    (R : Assn Field (BitVec w)) (H : Heap Field (BitVec w)) (m : BitVec w → Option (BitVec w)) :
    Prop :=
  ∃ L, Sorted compare D L ∧ (fun k => L.lookup k) = m ∧ (IsMap s L * R) H

/-- After `rbtree_alloc` the map is empty. -/
theorem holds_alloc {H₀ : Heap Field (BitVec w)} {x r : BitVec w} (hs : s ≠ NULL) (hnew : H₀ s = none)
    (ha : (rbtreeAlloc s).run (Function.update H₀ s (some (head x))) = some (H, r)) :
    Holds compare D s (only H₀) H (fun _ => none) := by
  obtain ⟨H', hrun, hH'⟩ := rbtreeAlloc_on hs x (only H₀) _
    (cell_mul.mpr ⟨hs, H₀, hnew, rfl, rfl⟩)
  obtain ⟨rfl, -⟩ := Prod.mk.inj (Option.some.inj (hrun.symm.trans ha))
  exact ⟨[], ⟨by simp, .nil⟩, rfl, hH'⟩

/-- The calls `cs` with their results, every node from `malloc` being new. -/
def performAll (compare : BitVec w → BitVec w → ℤ) (fuel : ℕ) (s : BitVec w) :
    List (Call w) → Heap Field (BitVec w) → Option (Heap Field (BitVec w) × List (BitVec w))
  | [], H => some (H, [])
  | c :: cs, H => do
    let H₁ ← (match c.node with
      | none => some H
      | some n => if n ≠ NULL ∧ (H n).isNone then
          some (Function.update H n (some (obj 0 0 0 0 0 0))) else none)
    let (H₂, r) ← (c.body compare fuel s).run H₁
    let (H₃, rs) ← performAll compare fuel s cs H₂
    some (H₃, r :: rs)

theorem explains_of_performAll {cs : List (Call w)} {rs : List (BitVec w)}
    (h : performAll compare fuel s cs H = some (H₂, rs)) :
    Explains (Performs compare fuel s) (cs.zip rs) H H₂ := by
  induction cs generalizing H rs with
  | nil =>
    cases h
    rfl
  | cons c cs ih =>
    simp only [performAll, Option.bind_eq_bind, Option.bind_eq_some_iff] at h
    obtain ⟨H₁, hA, ⟨H₂, r⟩, hrun, ⟨H₃, rs'⟩, hrest, h⟩ := h
    cases h
    refine ⟨H₂, ⟨H₁, ?_, hrun⟩, ih hrest⟩
    split at hA
    · next hn =>
      cases hA
      exact .none hn
    · next n hn =>
      split_ifs at hA with hnew
      cases hA
      exact .node 0 0 0 0 0 0 hn hnew.1 (Option.isNone_iff_eq_none.mp hnew.2)

/-- The difference orders the words that are not negative. -/
theorem ordered_compareKeysDefault : Ordered (compareKeysDefault (w := w)) fun k => k.msb = false := by
  have hint : ∀ {a b : BitVec w}, a.msb = false → b.msb = false →
      compareKeysDefault a b = (a.toNat : ℤ) - b.toNat := by
    intro a b ha hb
    have hlt := BitVec.msb_eq_false_iff_two_mul_lt.mp ha
    have hlt' := BitVec.msb_eq_false_iff_two_mul_lt.mp hb
    rw [compareKeysDefault, BitVec.toInt_sub, BitVec.toInt_eq_toNat_of_msb ha,
      BitVec.toInt_eq_toNat_of_msb hb]
    exact Int.bmod_eq_of_le_mul_two (by omega) (by omega)
  refine ⟨fun {a b} ha hb h => ?_, fun {a} ha => ?_, fun {a b} ha hb => ?_, fun {a b c} ha hb hc h h' => ?_⟩
  · rw [hint ha hb] at h
    exact BitVec.eq_of_toNat_eq (by omega)
  · rw [hint ha ha]
    omega
  · rw [hint ha hb, hint hb ha]
    omega
  · rw [hint ha hb] at h
    rw [hint hb hc] at h'
    rw [hint ha hc]
    omega

section Runs

variable (hw : 0 < w) (hf : 2 * w < fuel) (hD : Ordered compare D) {m : BitVec w → Option (BitVec w)}

include hw hf hD

/-- A call returns what it would on the map. -/
theorem Holds.call {c : Call w} (hk : D c.key) (h : Holds compare D s R H m)
    (ha : Alloc H c H₁) :
    ∃ H₂, (c.body compare fuel s).run H₁ = some (H₂, (c.onMap m).2) ∧
      Holds compare D s R H₂ (c.onMap m).1 := by
  obtain ⟨L, hL, rfl, hH⟩ := h
  obtain ⟨L', hL', hmap, hact⟩ := c.body_on (s := s) hw hf hD hL hk
  have hown := ha.owns hH
  rw [mul_assoc, mul_comm R, ← mul_assoc] at hown
  obtain ⟨H₂, hrun, hH₂⟩ := hact R H₁ hown
  exact ⟨H₂, hrun, L', hL', hmap, hH₂⟩

theorem Holds.performs {p : Call w × BitVec w} (hk : D p.1.key) (h : Holds compare D s R H m)
    (hp : Performs compare fuel s p H H₂) :
    ∃ m', Maps p m m' ∧ Holds compare D s R H₂ m' := by
  obtain ⟨H₁, ha, hrun⟩ := hp
  obtain ⟨H', hrun', hH'⟩ := h.call hw hf hD hk ha
  obtain ⟨rfl, hr⟩ := Prod.mk.inj (Option.some.inj (hrun'.symm.trans hrun))
  exact ⟨_, Prod.ext rfl hr, hH'⟩

/-- A run is one of a map. -/
theorem exists_maps {tr : List (Call w × BitVec w)} (hH : Holds compare D s R H m)
    (hk : ∀ p ∈ tr, D p.1.key) (hrun : Explains (Performs compare fuel s) tr H H₂) :
    ∃ m', Explains Maps tr m m' ∧ Holds compare D s R H₂ m' := by
  obtain ⟨m', hm', -, hH'⟩ := hrun.simulate
    (R := fun ds H m => (∀ p ∈ ds, D p.1.key) ∧ Holds compare D s R H m) ⟨hk, hH⟩
    fun p ds H H' m hp ⟨hk, h⟩ => by
      obtain ⟨m', hm', h'⟩ := h.performs hw hf hD (hk p List.mem_cons_self) hp
      exact ⟨m', hm', fun q hq => hk q (List.mem_cons_of_mem _ hq), h'⟩
  exact ⟨m', hm', hH'⟩

omit hw hf hD in
theorem run_rbtreeAlloc {H₀ : Heap Field (BitVec w)} (hs : s ≠ NULL) (x : BitVec w) :
    (rbtreeAlloc s).run (Function.update H₀ s (some (head x))) =
      some (Function.update H₀ s (some (head NULL)), s) := by
  have hhead : Function.update (head x) .root (some NULL) = head NULL :=
    funext fun f => by cases f <;> rfl
  rw [rbtreeAlloc, onlyIf, if_pos hs, Cmd.run_bind]
  simp only [Cmd.st, Cmd.run, Function.update_self, Option.bind_some, head, Function.update_idem]
  rw [hhead]
  rfl

/-- Calls on a tree at 8. -/
def someCalls : List (Call 64) :=
  [.insert 5 50 16, .insert 6 60 24, .insert 7 70 32, .insert 6 61 40, .update 5 51 48, .delete 6,
    .get 6, .get 5, .contains 7]

def someResults : List (BitVec 64) := [1, 1, 1, 0, 1, 1, 0, 51, 1]

omit hw hf hD in
theorem exists_someCalls : ∃ H, Explains (Performs compareKeysDefault 129 8)
    (someCalls.zip someResults) (Function.update Heap.empty 8 (some (head NULL))) H := by
  have hrun : (performAll compareKeysDefault 129 8 someCalls
      (Function.update Heap.empty 8 (some (head NULL)))).map (·.2) = some someResults := by
    decide +kernel
  obtain ⟨⟨H, rs⟩, hall, rfl⟩ := Option.map_eq_some_iff.mp hrun
  exact ⟨H, explains_of_performAll hall⟩

/-- Between `rbtree_alloc` and `rbtree_free` all calls return what they would on a finite
map; the next one does as well, whatever node `malloc` returns; and `rbtree_free` leaves
the heap as it was in the beginning. -/
theorem rbtree_refines_map (s x : BitVec w) (hs : s ≠ NULL) (H₀ H₁ H : Heap Field (BitVec w))
    (hnew : H₀ s = none)
    (ha : (rbtreeAlloc s).run (Function.update H₀ s (some (head x))) = some (H₁, s))
    (tr : List (Call w × BitVec w)) (hk : ∀ p ∈ tr, D p.1.key)
    (hrun : Explains (Performs compare fuel s) tr H₁ H) :
    ∃ m, Explains Maps tr (fun _ => none) m ∧
      (∀ c : Call w, D c.key → ∀ H', Alloc H c H' →
        ∃ H'', (c.body compare fuel s).run H' = some (H'', (c.onMap m).2)) ∧
      (rbtreeFree fuel s).run H = some (H₀, ()) := by
  obtain ⟨m, hm, hH⟩ := exists_maps hw hf hD (holds_alloc hs hnew ha) hk hrun
  refine ⟨m, hm, fun c hc H' hA => ?_, ?_⟩
  · obtain ⟨H'', hrun', -⟩ := hH.call hw hf hD hc hA
    exact ⟨H'', hrun'⟩
  · obtain ⟨L, hL, -, hH⟩ := hH
    obtain ⟨H', hfree, hH'⟩ := rbtreeFree_on (enough hw hD hL hf) _ H hH
    rw [one_mul] at hH'
    exact hH' ▸ hfree

omit hw hf hD in
theorem rbtree_refines_map_calls :
    ∃ (H : Heap Field (BitVec 64)) (m : BitVec 64 → Option (BitVec 64)),
      Explains Maps (someCalls.zip someResults) (fun _ => none) m ∧
      (∀ c : Call 64, c.key.msb = false → ∀ H', Alloc H c H' →
        ∃ H'', (c.body compareKeysDefault 129 8).run H' = some (H'', (c.onMap m).2)) ∧
      (rbtreeFree 129 8).run H = some (Heap.empty, ()) := by
  obtain ⟨H, hrun⟩ := exists_someCalls
  exact ⟨H, rbtree_refines_map (by decide) (by decide) ordered_compareKeysDefault 8 7 (by decide)
    Heap.empty _ H rfl (run_rbtreeAlloc (by decide) 7) _ (by decide) hrun⟩

/-- After any calls the self-check passes: it counts the keys, prints nothing and returns
a black height. -/
theorem rbtree_verify_passes (s x : BitVec w) (hs : s ≠ NULL) (H₀ H₁ H : Heap Field (BitVec w))
    (hnew : H₀ s = none)
    (ha : (rbtreeAlloc s).run (Function.update H₀ s (some (head x))) = some (H₁, s))
    (tr : List (Call w × BitVec w)) (hk : ∀ p ∈ tr, D p.1.key)
    (hrun : Explains (Performs compare fuel s) tr H₁ H) :
    ∃ m h, Explains Maps tr (fun _ => none) m ∧ ∀ n, 2 ^ w < n → ∃ H' : Heap Field (BitVec w),
      (rbtreeVerify compare n s).run H =
        some (H', (((h + 1 : ℕ) : ℤ), {k | m k ≠ none}.ncard, [])) := by
  obtain ⟨m, hm, L, hL, hLm, hH⟩ := exists_maps hw hf hD (holds_alloc hs hnew ha) hk hrun
  obtain ⟨t, h, ht, rfl, hwhole⟩ : ∃ t h, RB .black h t ∧ t.toList = L ∧ (whole s t * only H₀) H := by
    obtain ⟨A, B, hab, rfl, ⟨t, h, ht, hLt, hA⟩, hB⟩ := hH
    exact ⟨t, h, ht, hLt, A, B, hab, rfl, hA, hB⟩
  have hcount : {k | m k ≠ none}.ncard = t.toList.length := by
    have hset : {k | m k ≠ none} = ↑(t.toList.map (·.1)).toFinset := by
      ext k
      rw [Set.mem_ofPred_eq, ← hLm, lookup_ne_none, List.coe_toFinset, Set.mem_ofPred_eq]
    rw [hset, Set.ncard_coe_finset, List.toFinset_card_of_nodup (keys_nodup hD hL), List.length_map]
  refine ⟨m, h, hm, fun n hn => ?_⟩
  obtain ⟨H', hrun', -⟩ := rbtreeVerify_on hw ht hL (Nat.lt_of_le_of_lt (length_le hD hL) hn) _ H hwhole
  exact ⟨H', hcount ▸ hrun'⟩

omit hw hf hD in
theorem rbtree_verify_passes_calls :
    ∃ (H : Heap Field (BitVec 64)) (m : BitVec 64 → Option (BitVec 64)) (h : ℕ),
      Explains Maps (someCalls.zip someResults) (fun _ => none) m ∧
      ∀ n, 2 ^ 64 < n → ∃ H' : Heap Field (BitVec 64), (rbtreeVerify compareKeysDefault n 8).run H =
        some (H', (((h + 1 : ℕ) : ℤ), {k | m k ≠ none}.ncard, [])) := by
  obtain ⟨H, hrun⟩ := exists_someCalls
  exact ⟨H, rbtree_verify_passes (by decide) (by decide) ordered_compareKeysDefault 8 7 (by decide)
    Heap.empty _ H rfl (run_rbtreeAlloc (by decide) 7) _ (by decide) hrun⟩

end Runs

end TinyStm.Rbtree
