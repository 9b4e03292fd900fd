import TinyStm.Client.Atomic
import TinyStm.Client.Records
import TinyStm.Rbtree.Runs

/-!
# The map between transactions

Threads call the transactional functions of the red-black tree, one call a transaction,
as the map of the TPC-C server and the test of `test/intset` do. The keys are those that
`compare` orders. The nodes that `malloc` returns are all different, nothing that was
freed coming back, and a call has one node in all its attempts.
-/

namespace TinyStm.Client

open Interleave Replay Cells

variable {w : ℕ} {compare : BitVec w → BitVec w → ℤ} {D : BitVec w → Prop} {fuel words : ℕ}
  {root : BitVec w}

/-- `node_t` and `rbtree_t` as arrays of words; `words` of a node are overwritten when it
is freed (one with `TPCC/lib/tm.h:489`, all six with `test/intset/intset.c:452`). -/
def nodeLayout (words : ℕ) : Layout w Rbtree.Field where
  addr o f := o.toNat + w / 8 * match f with
    | .root => 0
    | .k => 0
    | .v => 1
    | .p => 2
    | .l => 3
    | .r => 4
    | .c => 5
  freed o := (List.range words).map fun j => o.toNat + w / 8 * j

/-- A call with its result. -/
def callBody (compare : BitVec w → BitVec w → ℤ) (fuel : ℕ) (root : BitVec w) (c : Rbtree.Call w) :
    Rbtree.M w (Rbtree.Call w × BitVec w) := do
  let r ← c.body compare fuel root
  pure (c, r)

/-- The transaction that makes a call. -/
def callProg (compare : BitVec w → BitVec w → ℤ) (fuel words : ℕ) (root : BitVec w)
    (c : Rbtree.Call w) : Prog w (Rbtree.Call w × BitVec w) :=
  (nodeLayout words).compile (c, 0) (callBody compare fuel root c)

/-- The result tells the call, whatever memory the body runs on. -/
theorem run_callProg_fst (c : Rbtree.Call w) (σ : ℕ → BitVec w) :
    ((callProg compare fuel words root c).run σ).2.1 = c := by
  have hall : ∀ (m : Rbtree.M w (BitVec w)) (σ : ℕ → BitVec w),
      (((nodeLayout words).compile (c, 0) (m.bind fun r => .ret (c, r))).run σ).2.1 = c := by
    intro m
    induction m with
    | ret r => exact fun σ => rfl
    | fail => exact fun σ => rfl
    | load o f k ih => exact fun σ => ih _ _
    | store o f v k ih => exact fun σ => ih _
    | free o k ih =>
      intro σ
      rw [Cmd.bind, Layout.compile, run_overwrite]
      exact ih σ
  exact hall _ σ

/-- The memory holds the map `m` and the nodes of the calls in `ds`. -/
def HoldsMap (compare : BitVec w → BitVec w → ℤ) (D : BitVec w → Prop) (words : ℕ)
    (S : BitVec w → Rbtree.Field → Prop) (root : BitVec w)
    (ds : List (Done w (Rbtree.Call w × BitVec w))) (σ : ℕ → BitVec w)
    (m : BitVec w → Option (BitVec w)) : Prop :=
  ∃ H, (nodeLayout words).Shows S σ H ∧
    Rbtree.Holds compare D root (ds.map fun d => d.result.1.own).prod H m

/-- A transaction that runs alone does to the memory what its call does to the map. -/
theorem HoldsMap.runs {S : BitVec w → Rbtree.Field → Prop} (hw : 0 < w) (hf : 2 * w < fuel)
    (hD : Entries.Ordered compare D) (hS : (nodeLayout words).Apart S)
    {d : Done w (Rbtree.Call w × BitVec w)} {ds : List (Done w (Rbtree.Call w × BitVec w))}
    {σ σ' : ℕ → BitVec w} {m : BitVec w → Option (BitVec w)}
    (hcode : ∃ c : Rbtree.Call w, D c.key ∧ d.code = callProg compare fuel words root c)
    (hd : d.Runs σ σ') (h : HoldsMap compare D words S root (d :: ds) σ m) :
    ∃ m', Rbtree.Maps d.result m m' ∧ HoldsMap compare D words S root ds σ' m' := by
  obtain ⟨c, hk, hc⟩ := hcode
  have hfst : d.result.1 = c := by
    have hfst : ((callProg compare fuel words root c).run σ).2.1 = c := run_callProg_fst c σ
    rwa [← hc, show d.code.run σ = _ from hd] at hfst
  obtain ⟨H, hsh, L, hL, rfl, hH⟩ := h
  obtain ⟨L', hL', hmap, hact⟩ := c.body_on (s := root) hw hf hD hL hk
  rw [List.map_cons, List.prod_cons, hfst, ← mul_assoc] at hH
  have hbody : Acts (Rbtree.IsMap root L * c.own) (callBody compare fuel root c)
      (c, (c.onMap fun k => L.lookup k).2) (Rbtree.IsMap root L') := .bind hact (Acts.pure _ _)
  obtain ⟨H', hrun, hH'⟩ := hbody _ H hH
  obtain ⟨σ'', hσ, hsh'⟩ := hsh.run hS (c, 0) hrun
  rw [Done.Runs, hc] at hd
  obtain ⟨rfl, hres⟩ := Prod.mk.inj (hσ.symm.trans hd)
  refine ⟨_, ?_, H', hsh', L', hL', hmap, hH'⟩
  rw [Rbtree.Maps, ← hres]

end TinyStm.Client
