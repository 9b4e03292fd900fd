import TinyStm.Mb.TableSteps

/-!
# Runs of the table

Every step of a thread keeps the invariant, so it holds in every run that starts after `hashT_init`.
-/

namespace TinyStm.Mb

open Interleave

variable {ι C : Type*} {cfg : KeyConfig} {approx : Bool} {g g' : Table ι C} {i j : ι} {k : Key}
  {n d : ℕ} {seen : Bool} {s s' : Stage} {l : List ℕ} {todo : List Field}
  {optOf : BitVec 64 → BitVec 64 → BitVec 64 → C}

/-! ### One step of a call -/

theorem Assigned.assign {d v : Node C} {f : Field} (h : Assigned d v (f :: todo)) :
    Assigned (d.assign v f) v todo where
  nextFree hf := by
    cases f with
    | nextFree => rfl
    | _ => exact h.nextFree (List.not_mem_cons_of_ne_of_not_mem (by decide) hf)
  tValidation hf := by
    cases f with
    | tValidation => rfl
    | _ => exact h.tValidation (List.not_mem_cons_of_ne_of_not_mem (by decide) hf)
  uRate hf := by
    cases f with
    | uRate => rfl
    | _ => exact h.uRate (List.not_mem_cons_of_ne_of_not_mem (by decide) hf)
  aRead hf := by
    cases f with
    | aRead => rfl
    | _ => exact h.aRead (List.not_mem_cons_of_ne_of_not_mem (by decide) hf)

/-- Before the first assignment. -/
theorem Assigned.none (d v : Node C) (h : keyFields ⊆ todo) : Assigned d v todo where
  nextFree hf := absurd (h (by decide)) hf
  tValidation hf := absurd (h (by decide)) hf
  uRate hf := absurd (h (by decide)) hf
  aRead hf := absurd (h (by decide)) hf

theorem matches_iff (d : Data C) (k : Key) : d.matches k = true ↔
    k.tv = d.tValidation ∧ dblEq k.ur d.uRate = true ∧ dblEq k.acc d.aRead = true := by
  rw [Data.matches, Bool.and_eq_true, Bool.and_eq_true, decide_eq_true_eq, and_assoc]

theorem matches_of_same {d : Data C} {k k' : Key} (h : k.Same k') (hm : d.matches k' = true) :
    d.matches k = true := by
  have hnode : k'.Same ⟨k'.idx, d.tValidation, d.uRate, d.aRead⟩ := (matches_iff d k').mp hm
  exact (matches_iff d k).mpr (h.trans hnode)

theorem Assigned.matches {d : Node C} (h : Assigned d (.ofKey optOf k) []) (hk : IsKey approx cfg k) :
    d.matches k = true := by
  rw [matches_iff, h.tValidation List.not_mem_nil, h.uRate List.not_mem_nil, h.aRead List.not_mem_nil]
  exact hk.same_refl

theorem Table.Holds.of_cons (h : g.Holds k (d :: l)) (hd : ¬ (g.mem d).matches k = true) :
    g.Holds k l := by
  obtain ⟨n, hn, hm⟩ := h
  obtain rfl | hn := List.mem_cons.mp hn
  · exact absurd hm hd
  · exact ⟨n, hn, hm⟩

/-- A key that a call has returned for is in its bucket. -/
theorem SharedOk.call (hg : SharedOk approx cfg g) (hk : IsKey approx cfg k)
    (hseen : (g.answered.any fun k' => decide (k.Same k')) = true) :
    g.Holds k (g.pushed k.idx.toNat) := by
  obtain ⟨k', hmem, hsame⟩ := List.any_eq_true.mp hseen
  have hsame := of_decide_eq_true hsame
  obtain ⟨hk', n, hn, hm⟩ := hg.answered k' hmem
  rw [hk.idx_eq hk' hsame]
  exact ⟨n, hn, matches_of_same hsame hm⟩

/-- A comparison fails. -/
theorem StageOk.loadNext [Zero C] (hs : ∃ l, d :: l <:+ g.pushed k.idx.toNat ∧
    (seen = true → g.Holds k (d :: l))) (hd : ¬ (g.mem d).matches k = true) :
    StageOk cfg optOf i g k seen (.loadNext d) := by
  obtain ⟨l, hl, hm⟩ := hs
  exact ⟨l, hl, fun hseen => (hm hseen).of_cons hd⟩

theorem KeyConfig.node_le (cfg : KeyConfig) (m e : ℕ) : cfg.node m 0 ≤ cfg.node m e := by
  unfold KeyConfig.node
  omega

theorem KeyConfig.node_inj {m e e' : ℕ} (h : cfg.node m e = cfg.node m e') : e = e' := by
  unfold KeyConfig.node at h
  omega

/-- What a step of the thread `i` leaves. -/
structure StepOk [Zero C] (approx : Bool) (cfg : KeyConfig)
    (optOf : BitVec 64 → BitVec 64 → BitVec 64 → C) (i : ι) (g g' : Table ι C) (k : Key) (seen : Bool)
    (s' : Stage) : Prop where
  shared : SharedOk approx cfg g'
  stage : StageOk cfg optOf i g' k seen s'
  rely (j : ι) : j ≠ i → Rely j g g'

variable [Zero C]

theorem StageOk.quiet (hg : SharedOk approx cfg g) (hs : StageOk cfg optOf i g k seen s') :
    StepOk approx cfg optOf i g g k seen s' := ⟨hg, hs, fun j _ => Rely.refl g j⟩

theorem SharedOk.popFree (hg : SharedOk approx cfg g) {next : Option ℕ} (hhead : g.freeHEAD = some d)
    (hs : StageOk cfg optOf i g k seen (.popFree d next)) :
    StepOk approx cfg optOf i g
      { g with freeHEAD := next, free := g.free.tail, handed := (i, d) :: g.handed } k seen
      (.fill d keyFields) := by
  obtain ⟨hseen, hp⟩ := hs
  obtain ⟨l, hl, hg'⟩ := hg.dropHead hhead (hp.free_of_head hg hhead)
  have hd : d ∈ g.free := hl ▸ List.mem_cons_self
  have hnodup := hg.free_nodup
  rw [hl] at hnodup
  rw [hl, List.tail_cons]
  exact ⟨hg'.hand (hg.free_new d hd) (List.nodup_cons.mp hnodup).1 (hg.free_lt d hd) i,
    ⟨hseen, hg'.owned_hand (hg.free_new d hd) i, Assigned.none _ _ (List.Subset.refl _)⟩,
    fun j _ => Rely.pop hhead hl next i j⟩

theorem SharedOk.newPool_ok (hg : SharedOk approx cfg g) {pool : ℕ}
    (hs : StageOk cfg optOf i g k seen (.newPool pool)) :
    StepOk approx cfg optOf i g { g with poolHEAD := pool } k seen (.clear pool 0 clearFields) := by
  obtain ⟨hseen, hr, rfl⟩ := hs
  refine ⟨hg.newPool, ⟨hseen, ⟨⟨hr.lock, hr.empty⟩, rfl, fun e he => ?_⟩, ?_, ?_, ?_⟩, fun j hij => ?_⟩
  · exact absurd (hg.nodes_lt _ he) (not_lt.mpr (cfg.node_le _ e))
  · exact Nat.lt_of_lt_of_le (by decide) cfg.size_ge
  · exact fun e he => absurd he (Nat.not_lt_zero e)
  · exact Assigned.none _ _ (by decide)
  · exact Rely.newPool (lock_ne hr.lock hij) _

/-- One assignment to a node of the new pool. -/
theorem SharedOk.clear_ok (hg : SharedOk approx cfg g) {pool e : ℕ} {f : Field}
    (hs : StageOk cfg optOf i g k seen (.clear pool e (f :: todo))) :
    StepOk approx cfg optOf i g
      (g.setNode (cfg.node pool e)
        ((g.mem (cfg.node pool e)).assign (.empty (poolNext cfg g.poolHEAD e)) f)) k seen
      (.clear pool e todo) := by
  obtain ⟨hseen, hc, he, hto, ha⟩ := hs
  have hfree : cfg.node pool e ∉ g.free := by
    rw [hg.free_eq_nil hc.empty]
    exact List.not_mem_nil
  have hpushed : ∀ b, cfg.node pool e ∉ g.pushed b := fun b hb =>
    hc.unused e (hg.pushed_nodes b _ hb)
  refine ⟨hg.setNode hfree hpushed _, ⟨hseen, ⟨⟨hc.lock, hc.empty⟩, hc.last, hc.unused⟩, he, ?_, ?_⟩,
    fun j hij => ?_⟩
  · intro e' he'
    rw [Table.setNode_of_ne _ fun heq => he'.ne (KeyConfig.node_inj heq)]
    exact hto e' he'
  · rw [Table.setNode_self, hc.last]
    exact ha.assign
  · exact Rely.setNode hfree hpushed (fun ho => hc.unused e (Table.mem_nodes ho.handed))
      (fun hj => absurd hj (lock_ne hc.lock hij)) _

theorem SharedOk.setHead_ok (hg : SharedOk approx cfg g) {pool : ℕ}
    (hs : StageOk cfg optOf i g k seen (.setHead pool)) :
    StepOk approx cfg optOf i g { g with
      freeHEAD := some (cfg.node pool 1)
      free := List.range' (cfg.node pool 1) (cfg.size - 1) } k seen (.unlockPool pool) := by
  obtain ⟨hseen, hc, hto⟩ := hs
  refine ⟨hg.setHead hc hto, ⟨hseen, hc.lock, hc.last, hc.unused 0, fun hn => ?_⟩, fun j hij =>
    Rely.setHead hg hc.toRefills hij _ _⟩
  have hle := (List.mem_range'_1.mp hn).1
  unfold KeyConfig.node at hle
  omega

theorem SharedOk.unlockPool_ok (hg : SharedOk approx cfg g) {pool : ℕ}
    (hs : StageOk cfg optOf i g k seen (.unlockPool pool)) :
    StepOk approx cfg optOf i g
      { g with poolLOCK := none, handed := (i, cfg.node pool 0) :: g.handed } k seen
      (.fill (cfg.node pool 0) keyFields) := by
  obtain ⟨hseen, hlock, hlast, hnew, hfree⟩ := hs
  have hlt : cfg.node pool 0 < cfg.node (g.poolHEAD + 1) 0 := by
    have hsize := cfg.size_ge
    rw [cfg.node_succ, hlast]
    omega
  exact ⟨(hg.hand hnew hfree hlt i).setLock none,
    ⟨hseen, ⟨List.mem_cons_self, fun b hb => hnew (hg.pushed_nodes b _ hb)⟩,
      Assigned.none _ _ (List.Subset.refl _)⟩,
    fun j hij => Rely.handPool (lock_ne hlock hij) none i⟩

/-- An assignment to a node that the thread has to itself. -/
theorem SharedOk.setOwn (hg : SharedOk approx cfg g) (ho : Owned g i d) (v : Node C)
    (hs : StageOk cfg optOf i (g.setNode d v) k seen s') :
    StepOk approx cfg optOf i g (g.setNode d v) k seen s' :=
  ⟨hg.setNode (hg.owned_not_free ho) ho.fresh v, hs, fun _ hij =>
    Rely.setNode (hg.owned_not_free ho) ho.fresh (hg.not_owned ho hij)
      (fun _ => Table.mem_nodes ho.handed) v⟩

theorem StepOk.go (hg : SharedOk approx cfg g) (hk : IsKey approx cfg k)
    (hs : StageOk cfg optOf i g k seen s) (hgo : g.go cfg optOf i k s = some (g', s')) :
    StepOk approx cfg optOf i g g' k seen s' := by
  cases s with
  | loadBucket =>
    cases hgo
    exact StageOk.quiet hg ⟨_, List.suffix_rfl, (hg.bucket _).head_eq, hs⟩
  | walk data =>
    obtain ⟨l, hl, hd, hm⟩ := hs
    cases data with
    | none =>
      cases hgo
      obtain rfl := List.head?_eq_none_iff.mp hd.symm
      refine StageOk.quiet hg (Bool.eq_false_iff.mpr fun hseen => ?_)
      obtain ⟨n, hn, -⟩ := hm hseen
      exact List.not_mem_nil hn
    | some data =>
      cases hgo
      cases l with
      | nil => cases hd
      | cons x l =>
        cases hd
        exact StageOk.quiet hg ⟨l, hl, hm⟩
  | testTv data =>
    cases hgo
    split
    · next htv => exact StageOk.quiet hg ⟨hs, htv⟩
    · next htv =>
      exact StageOk.quiet hg (StageOk.loadNext hs fun hm => htv ((matches_iff _ _).mp hm).1)
  | testUr data =>
    cases hgo
    split
    · next hur => exact StageOk.quiet hg ⟨hs.1, hs.2, hur⟩
    · next hur =>
      exact StageOk.quiet hg (StageOk.loadNext hs.1 fun hm => hur ((matches_iff _ _).mp hm).2.1)
  | testAcc data =>
    cases hgo
    split
    · next hacc =>
      obtain ⟨⟨l, hl, -⟩, htv, hur⟩ := hs
      exact StageOk.quiet hg ⟨hl.subset List.mem_cons_self, (matches_iff _ _).mpr ⟨htv, hur, hacc⟩,
        fun _ => rfl⟩
    · next hacc =>
      exact StageOk.quiet hg (StageOk.loadNext hs.1 fun hm => hacc ((matches_iff _ _).mp hm).2.2)
  | loadNext data =>
    cases hgo
    obtain ⟨l, hl, hm⟩ := hs
    exact StageOk.quiet hg ⟨l, (List.suffix_cons data l).trans hl, ((hg.bucket _).behind hl).head_eq, hm⟩
  | again =>
    cases hgo
    cases hhead : g.freeHEAD with
    | none => exact StageOk.quiet hg hs
    | some data =>
      refine StageOk.quiet hg ⟨hs, .inl ⟨?_, trivial⟩⟩
      rw [hg.free.head_eq] at hhead
      exact List.mem_of_mem_head? hhead
  | loadFree data =>
    cases hgo
    exact StageOk.quiet hg ⟨hs.1, hs.2.imp (fun h => ⟨h.1, rfl⟩) id⟩
  | popFree data next =>
    simp only [Table.go] at hgo
    split at hgo
    · next hhead =>
      cases hgo
      exact hg.popFree hhead hs
    · cases hgo
      exact StageOk.quiet hg hs.1
  | lockPool =>
    simp only [Table.go] at hgo
    split at hgo
    · next hfree =>
      cases hgo
      have hnone := Option.isNone_iff_eq_none.mp hfree
      exact ⟨hg.setLock _, ⟨hs, rfl⟩, fun j _ => Rely.setLock (by rw [hnone]; exact nofun) _⟩
    · cases hgo
      exact StageOk.quiet hg hs
  | checkFree =>
    cases hgo
    split
    · exact StageOk.quiet hg hs
    · next hhead =>
      exact StageOk.quiet hg ⟨hs.1, hs.2, Option.not_isSome_iff_eq_none.mp hhead⟩
  | giveUp =>
    cases hgo
    exact ⟨hg.setLock _, hs.1, fun j hij => Rely.setLock (lock_ne hs.2 hij) _⟩
  | malloc =>
    cases hgo
    exact StageOk.quiet hg ⟨hs.1, hs.2, rfl⟩
  | newPool pool =>
    cases hgo
    exact hg.newPool_ok hs
  | clear pool e todo =>
    cases todo with
    | nil =>
      cases hgo
      obtain ⟨hseen, hc, he, hto, ha⟩ := hs
      have hto' : ClearTo cfg g pool (e + 1) := fun e' he' => by
        obtain hlt | rfl := Nat.lt_succ_iff_lt_or_eq.mp he'
        · exact hto e' hlt
        · exact ha
      split
      · next hlt =>
        exact StageOk.quiet hg ⟨hseen, hc, hlt, hto', Assigned.none _ _ (by decide)⟩
      · next hge =>
        have hall : cfg.size = e + 1 := by omega
        rw [← hall] at hto'
        exact StageOk.quiet hg ⟨hseen, hc, hto'⟩
    | cons f todo =>
      cases hgo
      exact hg.clear_ok hs
  | setHead pool =>
    cases hgo
    exact hg.setHead_ok hs
  | unlockPool pool =>
    cases hgo
    exact hg.unlockPool_ok hs
  | fill data todo =>
    obtain ⟨hseen, ho, ha⟩ := hs
    cases todo with
    | nil =>
      cases hgo
      exact StageOk.quiet hg ⟨hseen, ho, ha.matches hk⟩
    | cons f todo =>
      cases hgo
      refine hg.setOwn ho _ ⟨hseen, ho.setNode _, ?_⟩
      rw [Table.setNode_self]
      exact ha.assign
  | loadHead data =>
    cases hgo
    exact StageOk.quiet hg hs
  | storeNext data head =>
    cases hgo
    obtain ⟨hseen, ho, hm⟩ := hs
    refine hg.setOwn ho _ ⟨hseen, ho.setNode _, ?_⟩
    rw [Table.setNode_self]
    exact hm
  | push data =>
    obtain ⟨hseen, ho, hm⟩ := hs
    simp only [Table.go] at hgo
    split at hgo
    · next hhead =>
      cases hgo
      refine ⟨hg.push ho hhead, ⟨?_, hm, fun h => ?_⟩, fun j hij => Rely.push hg ho hij _⟩
      · rw [Table.pushNode_pushed_self]
        exact List.mem_cons_self
      · rw [hseen] at h
        cases h
    · cases hgo
      exact StageOk.quiet hg ⟨hseen, ho, hm⟩
  | done data hit => cases hgo

/-! ### Runs -/

theorem tableStep_ok {a : TableAct} {x x' : Caller} (hg : SharedOk approx cfg g)
    (hx : CallerOk approx cfg optOf i g x)
    (hfin : ∀ tv ur acc, a = .call tv ur acc → Finite ur ∧ Finite acc)
    (hstep : tableStep cfg optOf approx i a g x = some (g', x')) :
    SharedOk approx cfg g' ∧ CallerOk approx cfg optOf i g' x' ∧ ∀ j, j ≠ i → Rely j g g' := by
  cases a with
  | call tv ur acc =>
    cases x with
    | idle =>
      simp only [tableStep] at hstep
      obtain ⟨hur, hacc⟩ := hfin tv ur acc rfl
      split at hstep
      · cases hstep
        exact ⟨hg, trivial, fun j _ => Rely.refl g j⟩
      · next k hk =>
        cases hstep
        have hkey : IsKey approx cfg k := ⟨tv, ur, acc, hur, hacc, hk⟩
        exact ⟨hg, ⟨hkey, fun hseen => hg.call hkey hseen⟩, fun j _ => Rely.refl g j⟩
    | get k seen s => cases hstep
  | go =>
    cases x with
    | idle => cases hstep
    | get k seen s =>
      simp only [tableStep, Option.map_eq_some_iff, Prod.mk.injEq] at hstep
      obtain ⟨⟨g₁, s₁⟩, hgo, rfl, rfl⟩ := hstep
      have h := StepOk.go hg hx.1 hx.2 hgo
      exact ⟨h.shared, ⟨hx.1, h.stage⟩, h.rely⟩
  | fail =>
    cases x with
    | idle => cases hstep
    | get k seen s =>
      cases s with
      | malloc =>
        cases hstep
        obtain ⟨hk, hseen, hr⟩ := hx
        exact ⟨hg, ⟨hk, hseen, hr.lock⟩, fun j _ => Rely.refl g j⟩
      | _ => cases hstep
  | ret =>
    cases x with
    | idle => cases hstep
    | get k seen s =>
      cases s with
      | done data hit =>
        cases hstep
        obtain ⟨hk, hd, hm, -⟩ := hx
        exact ⟨hg.ret hk ⟨data, hd, hm⟩, trivial, fun j _ => Rely.ret _ j⟩
      | _ => cases hstep

theorem SharedOk.init : SharedOk approx cfg (hashTInit ι C cfg) where
  free := by
    have hsize := cfg.size_ge
    have hchain := Chain.range (fun n => ((hashTInit ι C cfg).mem n).nextFree) 0
      cfg.size fun x _ hx => by
        simp only [hashTInit, Node.empty, initNext, KeyConfig.node]
        rw [if_pos (by omega)]
        split <;> split <;> first | rfl | omega | (congr 1; omega)
    rw [if_neg (by omega), ← List.range_eq_range'] at hchain
    exact hchain
  free_nodup := List.nodup_range
  free_lt n hn := by
    have hlt := List.mem_range.mp hn
    change n < cfg.size * 1 + 0
    omega
  free_new n _ := List.not_mem_nil
  nodes_nodup := List.nodup_nil
  nodes_lt n hn := absurd hn List.not_mem_nil
  bucket _ := rfl
  pushed_nodup _ := List.nodup_nil
  pushed_nodes _ n hn := absurd hn List.not_mem_nil
  answered k hk := absurd hk List.not_mem_nil

/-- Nothing is taken from a bucket. -/
theorem Table.go_pushed (hgo : g.go cfg optOf i k s = some (g', s')) (b : ℕ) :
    g.pushed b <:+ g'.pushed b := by
  cases s with
  | walk data =>
    cases data <;> cases hgo <;> exact List.suffix_rfl
  | popFree data next =>
    simp only [Table.go] at hgo
    split at hgo <;> cases hgo <;> exact List.suffix_rfl
  | lockPool =>
    simp only [Table.go] at hgo
    split at hgo <;> cases hgo <;> exact List.suffix_rfl
  | clear pool e todo =>
    cases todo <;> cases hgo <;> exact List.suffix_rfl
  | fill data todo =>
    cases todo <;> cases hgo <;> exact List.suffix_rfl
  | push data =>
    simp only [Table.go] at hgo
    split at hgo
    · cases hgo
      exact g.pushed_suffix _ b data
    · cases hgo
      exact List.suffix_rfl
  | done data hit => cases hgo
  | _ =>
    cases hgo
    exact List.suffix_rfl

theorem tableStep_pushed {a : TableAct} {x x' : Caller}
    (hstep : tableStep cfg optOf approx i a g x = some (g', x')) (b : ℕ) :
    g.pushed b <:+ g'.pushed b := by
  unfold tableStep at hstep
  split at hstep
  · split at hstep <;> cases hstep <;> exact List.suffix_rfl
  · simp only [Option.map_eq_some_iff, Prod.mk.injEq] at hstep
    obtain ⟨⟨g₁, s₁⟩, hgo, rfl, -⟩ := hstep
    exact Table.go_pushed hgo b
  · cases hstep
    exact List.suffix_rfl
  · cases hstep
    exact List.suffix_rfl
  · cases hstep

variable [DecidableEq ι] {c : Config ι (Table ι C) Caller}

theorem pushed_mono {e : Config ι (Table ι C) Caller}
    (hrun : Run (tableSystem cfg optOf approx ι) FiniteCalls c e) (b : ℕ) :
    c.shared.pushed b <:+ e.shared.pushed b := by
  induction hrun with
  | refl => exact List.suffix_rfl
  | tail _ _ hm ih =>
    obtain ⟨g₁, x₁, hs, rfl⟩ := move_eq_some hm
    exact ih.trans (tableStep_pushed hs b)

/-- The start of a run. -/
def tableInit (ι C : Type*) [Zero C] (cfg : KeyConfig) : Config ι (Table ι C) Caller :=
  ⟨hashTInit ι C cfg, fun _ => .idle⟩

theorem run_ok (hrun : Run (tableSystem cfg optOf approx ι) FiniteCalls (tableInit ι C cfg) c) :
    SharedOk approx cfg c.shared ∧ ∀ i, CallerOk approx cfg optOf i c.shared (c.loc i) := by
  refine hrun.rely_guarantee (R := fun j _ => Rely j) ?_ (fun j g g' y hg _ h hy => hy.stable hg h)
    ⟨SharedOk.init, fun _ => trivial⟩
  intro c i a g' x' hg hL hok hs
  refine tableStep_ok hg (hL i) (fun tv ur acc ha => ?_) hs
  subst ha
  exact hok

/-- In every run the nodes that `get_mb_data` returns are distinct, the chain of every bucket ends and
has the pushed nodes, each once, and pushes only add to it; a call ends with a node of its bucket that
has its key, and with a hit if a call for the key had returned when it began. -/
theorem table_correct
    (hrun : Run (tableSystem cfg optOf approx ι) FiniteCalls (tableInit ι C cfg) c) :
    c.shared.nodes.Nodup ∧
    (∀ b, Chain (fun n => (c.shared.mem n).nextData) (c.shared.hashT b) (c.shared.pushed b) ∧
      (c.shared.pushed b).Nodup) ∧
    (∀ e, Run (tableSystem cfg optOf approx ι) FiniteCalls c e →
      ∀ b, c.shared.pushed b <:+ e.shared.pushed b) ∧
    ∀ i k seen data hit, c.loc i = .get k seen (.done data hit) →
      data ∈ c.shared.pushed k.idx.toNat ∧ (c.shared.mem data).matches k = true ∧
        (seen = true → hit = true) := by
  obtain ⟨hg, hL⟩ := run_ok hrun
  refine ⟨hg.nodes_nodup, fun b => ⟨hg.bucket b, hg.pushed_nodup b⟩, fun e he b => pushed_mono he b,
    fun i k seen data hit hloc => ?_⟩
  have hx := hL i
  rw [hloc] at hx
  exact hx.2

/-- One bit of the period and one of the update rate. -/
def smallConfig : KeyConfig :=
  { KeyConfig.default with
    tvBits := 1
    urBits := 1
    accBits := 0
    tvBits_pos := by decide
    bits_le := by decide }

/-- A call misses and returns; then a call of another thread for this key hits. -/
theorem table_correct_hit : ∃ c : Config Bool (Table Bool ℕ) Caller,
    c.loc true = .get ⟨2, 4096, 0x4330000000000000, 0x4330000000000000⟩ true (.done 0 true) ∧
      c.shared.nodes.Nodup ∧
      (c.shared.mem 0).matches ⟨2, 4096, 0x4330000000000000, 0x4330000000000000⟩ = true := by
  obtain ⟨c, hrun, hloc⟩ := exists_run_of_exec
    (tableSystem smallConfig (fun _ _ _ => 0) true Bool) FiniteCalls (tableInit Bool ℕ smallConfig)
    ((false, .call 5000 0x4330000000000000 0x4330000000000000) :: List.replicate 14 (false, .go) ++
      [(false, .ret), (true, .call 5001 0x4330000000000000 0x4330000000000000)] ++
      List.replicate 5 (true, .go))
    (fun c => c.loc true =
      .get ⟨2, 4096, 0x4330000000000000, 0x4330000000000000⟩ true (.done 0 true)) (by decide +kernel)
  have h := table_correct hrun
  exact ⟨c, hloc, h.1, (h.2.2.2 true _ _ _ _ hloc).2.1⟩

end TinyStm.Mb
