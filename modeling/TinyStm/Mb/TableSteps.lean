import TinyStm.Mb.TableInv

/-!
# What a step does to the table

Every kind of write keeps the invariant of the shared memory and leaves to the other threads what they
count on.
-/

namespace TinyStm.Mb

open Interleave

variable {ι C : Type*} {cfg : KeyConfig} {approx : Bool} {g : Table ι C} {i j : ι} {k : Key}
  {n : ℕ} {seen : Bool}

theorem Table.mem_nodes (h : (i, n) ∈ g.handed) : n ∈ g.nodes := List.mem_map.mpr ⟨(i, n), h, rfl⟩

theorem SharedOk.owner_unique (hg : SharedOk approx cfg g) (hi : (i, n) ∈ g.handed)
    (hj : (j, n) ∈ g.handed) : i = j := by
  have hinj := List.inj_on_of_nodup_map hg.nodes_nodup hi hj rfl
  exact congrArg Prod.fst hinj

theorem SharedOk.not_owned (hg : SharedOk approx cfg g) (hi : Owned g i n) (hij : j ≠ i) :
    ¬ Owned g j n := fun hj => hij (hg.owner_unique hj.handed hi.handed)

/-- An owned node is not free. -/
theorem SharedOk.owned_not_free (hg : SharedOk approx cfg g) (hi : Owned g i n) : n ∉ g.free :=
  fun hf => hg.free_new n hf (Table.mem_nodes hi.handed)

theorem Owned.setNode (ho : Owned g i n) (v : Node C) : Owned (g.setNode n v) i n :=
  ⟨ho.handed, ho.fresh⟩

theorem lock_ne (h : g.poolLOCK = some i) (hij : j ≠ i) : g.poolLOCK ≠ some j := by
  rw [h]
  exact fun he => hij (Option.some.inj he).symm

theorem Rely.refl (g : Table ι C) (j : ι) : Rely j g g where
  nodes _ hn := hn
  free _ hn := .inl ⟨hn, rfl⟩
  pushed _ := List.suffix_rfl
  mem _ _ _ := rfl
  own _ ho := ⟨ho, rfl⟩
  lock h := ⟨h, rfl⟩
  empty _ h := h
  unused _ _ hn hf := ⟨rfl, hn, hf⟩

/-! ### A node that nobody else looks at -/

theorem SharedOk.setNode (hg : SharedOk approx cfg g) (hfree : n ∉ g.free)
    (hpushed : ∀ b, n ∉ g.pushed b) (d : Node C) : SharedOk approx cfg (g.setNode n d) where
  free := hg.free.congr fun x hx => by rw [Table.setNode_of_ne d (ne_of_mem_of_not_mem hx hfree)]
  free_nodup := hg.free_nodup
  free_lt := hg.free_lt
  free_new := hg.free_new
  nodes_nodup := hg.nodes_nodup
  nodes_lt := hg.nodes_lt
  bucket b := (hg.bucket b).congr fun x hx => by
    rw [Table.setNode_of_ne d (ne_of_mem_of_not_mem hx (hpushed b))]
  pushed_nodup := hg.pushed_nodup
  pushed_nodes := hg.pushed_nodes
  answered k hk := by
    obtain ⟨hkey, x, hx, hmatch⟩ := hg.answered k hk
    refine ⟨hkey, x, hx, ?_⟩
    rwa [Table.setNode_of_ne d (ne_of_mem_of_not_mem hx (hpushed _))]

theorem Rely.setNode (hfree : n ∉ g.free) (hpushed : ∀ b, n ∉ g.pushed b) (hown : ¬ Owned g j n)
    (hlock : g.poolLOCK = some j → n ∈ g.nodes) (d : Node C) : Rely j g (g.setNode n d) where
  nodes _ hn := hn
  free x hx := .inl ⟨hx, by rw [Table.setNode_of_ne d (ne_of_mem_of_not_mem hx hfree)]⟩
  pushed _ := List.suffix_rfl
  mem b x hx := Table.setNode_of_ne d (ne_of_mem_of_not_mem hx (hpushed b))
  own x ho := ⟨⟨ho.handed, ho.fresh⟩, Table.setNode_of_ne d fun he => hown (he ▸ ho)⟩
  lock h := ⟨h, rfl⟩
  empty _ h := h
  unused h x hn hf := ⟨Table.setNode_of_ne d fun he => hn (he ▸ hlock h), hn, hf⟩

/-! ### The lock and the pools -/

theorem SharedOk.setLock (hg : SharedOk approx cfg g) (o : Option ι) :
    SharedOk approx cfg { g with poolLOCK := o } :=
  ⟨hg.free, hg.free_nodup, hg.free_lt, hg.free_new, hg.nodes_nodup, hg.nodes_lt, hg.bucket,
    hg.pushed_nodup, hg.pushed_nodes, hg.answered⟩

theorem Rely.setLock (h : g.poolLOCK ≠ some j) (o : Option ι) :
    Rely j g { g with poolLOCK := o } where
  nodes _ hn := hn
  free _ hn := .inl ⟨hn, rfl⟩
  pushed _ := List.suffix_rfl
  mem _ _ _ := rfl
  own _ ho := ⟨⟨ho.handed, ho.fresh⟩, rfl⟩
  lock hj := absurd hj h
  empty hj := absurd hj h
  unused hj := absurd hj h

theorem KeyConfig.node_succ (cfg : KeyConfig) (m e : ℕ) :
    cfg.node (m + 1) e = cfg.node m 0 + cfg.size + e := by
  unfold KeyConfig.node
  ring

theorem SharedOk.newPool (hg : SharedOk approx cfg g) :
    SharedOk approx cfg { g with poolHEAD := g.poolHEAD + 1 } := by
  have hle : cfg.node (g.poolHEAD + 1) 0 ≤ cfg.node (g.poolHEAD + 1 + 1) 0 := by
    rw [cfg.node_succ (g.poolHEAD + 1)]
    omega
  exact ⟨hg.free, hg.free_nodup, fun n hn => (hg.free_lt n hn).trans_le hle, hg.free_new,
    hg.nodes_nodup, fun n hn => (hg.nodes_lt n hn).trans_le hle, hg.bucket, hg.pushed_nodup,
    hg.pushed_nodes, hg.answered⟩

theorem Rely.newPool (h : g.poolLOCK ≠ some j) (m : ℕ) : Rely j g { g with poolHEAD := m } where
  nodes _ hn := hn
  free _ hn := .inl ⟨hn, rfl⟩
  pushed _ := List.suffix_rfl
  mem _ _ _ := rfl
  own _ ho := ⟨⟨ho.handed, ho.fresh⟩, rfl⟩
  lock hj := absurd hj h
  empty hj := absurd hj h
  unused hj := absurd hj h

/-- The nodes of a cleared pool from the second on. -/
theorem ClearTo.chain [Zero C] {pool : ℕ} (h : ClearTo cfg g pool cfg.size) :
    Chain (fun n => (g.mem n).nextFree) (some (cfg.node pool 1))
      (List.range' (cfg.node pool 1) (cfg.size - 1)) := by
  have hsize := cfg.size_ge
  have hchain := Chain.range (fun n => (g.mem n).nextFree) (cfg.node pool 1)
    (cfg.size - 1) fun x hx hlt => by
      obtain ⟨e, rfl⟩ := Nat.exists_eq_add_of_le hx
      have hnode : cfg.node pool 1 + e = cfg.node pool (e + 1) := by
        unfold KeyConfig.node
        omega
      rw [hnode, (h (e + 1) (by omega)).nextFree List.not_mem_nil, Node.empty, poolNext]
      unfold KeyConfig.node
      split <;> split <;> first | rfl | omega
  rwa [if_neg (by omega)] at hchain

theorem SharedOk.setHead [Zero C] (hg : SharedOk approx cfg g) {pool : ℕ} (hc : Clears cfg g i pool)
    (hto : ClearTo cfg g pool cfg.size) :
    SharedOk approx cfg { g with
      freeHEAD := some (cfg.node pool 1)
      free := List.range' (cfg.node pool 1) (cfg.size - 1) } where
  free := hto.chain
  free_nodup := List.nodup_range'
  free_lt n hn := by
    have hmem := List.mem_range'_1.mp hn
    have hsucc := cfg.node_succ g.poolHEAD 0
    rw [hc.last] at hsucc ⊢
    unfold KeyConfig.node at *
    omega
  free_new n hn := by
    obtain ⟨e, -, rfl⟩ := List.mem_range'.mp hn
    have hunused := hc.unused (1 + 1 * e)
    rwa [KeyConfig.node, ← add_assoc] at hunused
  nodes_nodup := hg.nodes_nodup
  nodes_lt := hg.nodes_lt
  bucket := hg.bucket
  pushed_nodup := hg.pushed_nodup
  pushed_nodes := hg.pushed_nodes
  answered := hg.answered

theorem Rely.setHead (hg : SharedOk approx cfg g) (hr : Refills g i) (hij : j ≠ i) (h : Option ℕ)
    (l : List ℕ) : Rely j g { g with freeHEAD := h, free := l } := by
  have hlock := lock_ne hr.lock hij
  have hnil := hg.free_eq_nil hr.empty
  exact
    { nodes := fun _ hn => hn
      free := fun _ hn => absurd hn (by rw [hnil]; exact List.not_mem_nil)
      pushed := fun _ => List.suffix_rfl
      mem := fun _ _ _ => rfl
      own := fun _ ho => ⟨⟨ho.handed, ho.fresh⟩, rfl⟩
      lock := fun hj => absurd hj hlock
      empty := fun hj => absurd hj hlock
      unused := fun hj => absurd hj hlock }

/-! ### Handing out a node -/

theorem SharedOk.hand (hg : SharedOk approx cfg g) (hnew : n ∉ g.nodes) (hfree : n ∉ g.free)
    (hlt : n < cfg.node (g.poolHEAD + 1) 0) (i : ι) :
    SharedOk approx cfg { g with handed := (i, n) :: g.handed } where
  free := hg.free
  free_nodup := hg.free_nodup
  free_lt := hg.free_lt
  free_new x hx := List.not_mem_cons_of_ne_of_not_mem (ne_of_mem_of_not_mem hx hfree) (hg.free_new x hx)
  nodes_nodup := List.nodup_cons.mpr ⟨hnew, hg.nodes_nodup⟩
  nodes_lt := List.forall_mem_cons.mpr ⟨hlt, hg.nodes_lt⟩
  bucket := hg.bucket
  pushed_nodup := hg.pushed_nodup
  pushed_nodes b x hx := List.mem_cons_of_mem _ (hg.pushed_nodes b x hx)
  answered := hg.answered

/-- The node gets its owner. -/
theorem SharedOk.owned_hand (hg : SharedOk approx cfg g) (hnew : n ∉ g.nodes) (i : ι) :
    Owned { g with handed := (i, n) :: g.handed } i n :=
  ⟨List.mem_cons_self, fun b hb => hnew (hg.pushed_nodes b n hb)⟩

theorem Rely.handPool (h : g.poolLOCK ≠ some j) (o : Option ι) (i : ι) :
    Rely j g { g with poolLOCK := o, handed := (i, n) :: g.handed } where
  nodes _ hn := List.mem_cons_of_mem _ hn
  free _ hn := .inl ⟨hn, rfl⟩
  pushed _ := List.suffix_rfl
  mem _ _ _ := rfl
  own _ ho := ⟨⟨List.mem_cons_of_mem _ ho.handed, ho.fresh⟩, rfl⟩
  lock hj := absurd hj h
  empty hj := absurd hj h
  unused hj := absurd hj h

/-- `freeHEAD = data->next_free` for the first free node. -/
theorem SharedOk.dropHead (hg : SharedOk approx cfg g) (hhead : g.freeHEAD = some n)
    {next : Option ℕ} (hnext : (g.mem n).nextFree = next) :
    ∃ l, g.free = n :: l ∧ SharedOk approx cfg { g with freeHEAD := next, free := l } := by
  have hfree := hg.free
  cases hl : g.free with
  | nil =>
    rw [hl, hhead] at hfree
    cases hfree
  | cons x l =>
    rw [hl, hhead] at hfree
    obtain ⟨hx, hrest⟩ := hfree
    cases hx
    dsimp only at hrest
    rw [hnext] at hrest
    have hsub : ∀ y ∈ l, y ∈ g.free := fun y hy => hl ▸ List.mem_cons_of_mem n hy
    have hnodup := hg.free_nodup
    rw [hl] at hnodup
    exact ⟨l, rfl, hrest, (List.nodup_cons.mp hnodup).2, fun y hy => hg.free_lt y (hsub y hy),
      fun y hy => hg.free_new y (hsub y hy), hg.nodes_nodup, hg.nodes_lt, hg.bucket, hg.pushed_nodup,
      hg.pushed_nodes, hg.answered⟩

/-- A compare-and-swap that succeeds has seen the first free node: nodes never come back. -/
theorem Popped.free_of_head (hg : SharedOk approx cfg g) (hhead : g.freeHEAD = some n) {p : Prop}
    (hp : Popped g n p) : p := by
  obtain ⟨-, h⟩ | hn := hp
  · exact h
  · have hmem : n ∈ g.free := by
      rw [hg.free.head_eq] at hhead
      exact List.mem_of_mem_head? hhead
    exact absurd hn (hg.free_new n hmem)

theorem Rely.pop (hhead : g.freeHEAD = some n) {l : List ℕ} (hl : g.free = n :: l)
    (next : Option ℕ) (i j : ι) :
    Rely j g { g with freeHEAD := next, free := l, handed := (i, n) :: g.handed } where
  nodes _ hn := List.mem_cons_of_mem _ hn
  free x hx := by
    rw [hl] at hx
    obtain rfl | hx := List.mem_cons.mp hx
    · exact .inr List.mem_cons_self
    · exact .inl ⟨hx, rfl⟩
  pushed _ := List.suffix_rfl
  mem _ _ _ := rfl
  own _ ho := ⟨⟨List.mem_cons_of_mem _ ho.handed, ho.fresh⟩, rfl⟩
  lock hj := ⟨hj, rfl⟩
  empty _ hnone := absurd (hnone.symm.trans hhead) (by simp)
  unused _ x hx hf := by
    rw [hl, List.mem_cons, not_or] at hf
    exact ⟨rfl, List.not_mem_cons_of_ne_of_not_mem hf.1 hx, hf.2⟩

/-! ### Pushing a node on its bucket -/

theorem Table.pushed_suffix (g : Table ι C) (b b' n : ℕ) : g.pushed b' <:+ (g.pushNode b n).pushed b' := by
  by_cases hb : b' = b
  · subst hb
    rw [Table.pushNode_pushed_self]
    exact List.suffix_cons n _
  · rw [Table.pushNode_pushed_of_ne hb]

theorem SharedOk.push (hg : SharedOk approx cfg g) (ho : Owned g i n) {b : ℕ}
    (hhead : g.hashT b = (g.mem n).nextData) : SharedOk approx cfg (g.pushNode b n) where
  free := hg.free
  free_nodup := hg.free_nodup
  free_lt := hg.free_lt
  free_new := hg.free_new
  nodes_nodup := hg.nodes_nodup
  nodes_lt := hg.nodes_lt
  bucket b' := by
    by_cases hb : b' = b
    · subst hb
      rw [Table.pushNode_hashT_self, Table.pushNode_pushed_self]
      refine ⟨rfl, ?_⟩
      have hbucket := hg.bucket b'
      rwa [hhead] at hbucket
    · rw [Table.pushNode_hashT_of_ne hb, Table.pushNode_pushed_of_ne hb]
      exact hg.bucket b'
  pushed_nodup b' := by
    by_cases hb : b' = b
    · subst hb
      rw [Table.pushNode_pushed_self]
      exact List.nodup_cons.mpr ⟨ho.fresh b', hg.pushed_nodup b'⟩
    · rw [Table.pushNode_pushed_of_ne hb]
      exact hg.pushed_nodup b'
  pushed_nodes b' x hx := by
    by_cases hb : b' = b
    · subst hb
      rw [Table.pushNode_pushed_self] at hx
      obtain rfl | hx := List.mem_cons.mp hx
      · exact Table.mem_nodes ho.handed
      · exact hg.pushed_nodes b' x hx
    · rw [Table.pushNode_pushed_of_ne hb] at hx
      exact hg.pushed_nodes b' x hx
  answered k hk := by
    obtain ⟨hkey, x, hx, hmatch⟩ := hg.answered k hk
    exact ⟨hkey, x, (g.pushed_suffix b _ n).subset hx, hmatch⟩

theorem Rely.push (hg : SharedOk approx cfg g) (ho : Owned g i n) (hij : j ≠ i) (b : ℕ) :
    Rely j g (g.pushNode b n) where
  nodes _ hn := hn
  free _ hn := .inl ⟨hn, rfl⟩
  pushed b' := g.pushed_suffix b b' n
  mem _ _ _ := rfl
  own x hx := by
    refine ⟨⟨hx.handed, fun b' hb' => ?_⟩, rfl⟩
    by_cases hb : b' = b
    · subst hb
      rw [Table.pushNode_pushed_self] at hb'
      obtain rfl | hb' := List.mem_cons.mp hb'
      · exact hg.not_owned ho hij hx
      · exact hx.fresh b' hb'
    · rw [Table.pushNode_pushed_of_ne hb] at hb'
      exact hx.fresh b' hb'
  lock h := ⟨h, rfl⟩
  empty _ h := h
  unused _ _ hn hf := ⟨rfl, hn, hf⟩

/-! ### Returning -/

theorem SharedOk.ret (hg : SharedOk approx cfg g) (hk : IsKey approx cfg k)
    (hn : g.Holds k (g.pushed k.idx.toNat)) :
    SharedOk approx cfg { g with answered := k :: g.answered } :=
  ⟨hg.free, hg.free_nodup, hg.free_lt, hg.free_new, hg.nodes_nodup, hg.nodes_lt, hg.bucket,
    hg.pushed_nodup, hg.pushed_nodes, List.forall_mem_cons.mpr ⟨⟨hk, hn⟩, hg.answered⟩⟩

theorem Rely.ret (ks : List Key) (j : ι) : Rely j g { g with answered := ks } where
  nodes _ hn := hn
  free _ hn := .inl ⟨hn, rfl⟩
  pushed _ := List.suffix_rfl
  mem _ _ _ := rfl
  own _ ho := ⟨⟨ho.handed, ho.fresh⟩, rfl⟩
  lock h := ⟨h, rfl⟩
  empty _ h := h
  unused _ _ hn hf := ⟨rfl, hn, hf⟩

end TinyStm.Mb
