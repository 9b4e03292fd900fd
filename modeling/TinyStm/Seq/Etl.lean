import TinyStm.Seq.Base

/-!
# Encounter-time write-back without concurrency

A store takes the lock, and the write set holds one entry for each address, with
the word as the commit will write it. The entries of one lock are linked, the lock
points to the first of them, and the last one releases it.
-/

namespace TinyStm.Seq

variable {w : ℕ} {o : Opts w} {tid : ℕ} {q : Quiescent w} {ss : List (Store w)} {g : Store3 w}
  {x : Desc w}

structure EtlInv (o : Opts w) (tid : ℕ) (q : Quiescent w) (ss : List (Store w)) (g : Store3 w)
    (x : Desc w) : Prop where
  calm : Calm q g x
  mem : g.mem = q.mem
  own : ∀ k, (g.lock k).own = none ∨ ∃ i e, (g.lock k).own = some (.entry tid i) ∧
    x.wset[i]? = some e ∧ o.getLock e.addr = k ∧
    ∀ {j : ℕ} {f : WEntry w}, x.wset[j]? = some f → o.getLock f.addr = k → i ≤ j
  taken : ∀ e ∈ x.wset, (g.lock (o.getLock e.addr)).own ≠ none
  chain : Chained o.getLock x.wset
  inj : ∀ {i j : ℕ} {e e' : WEntry w}, x.wset[i]? = some e → x.wset[j]? = some e' →
    e.addr = e'.addr → i = j
  val : ∀ e ∈ x.wset, (e.mask = 0 ∧ ∀ y, overlay ss e.addr y = y) ∨
    (e.mask ≠ 0 ∧ e.value = q.after ss e.addr)
  written : ∀ s ∈ ss, s.mask ≠ 0 → ∃ e ∈ x.wset, e.addr = s.addr
  version : ∀ e ∈ x.wset, e.version = q.ver (o.getLock e.addr)

/-- An array with one entry more, and links that may have changed. -/
structure Extends (ws ws' : List (WEntry w)) (e : WEntry w) : Prop where
  get : ∀ {j : ℕ} {f : WEntry w}, ws'[j]? = some f →
    (∃ p, ws[j]? = some p ∧ f.addr = p.addr ∧ f.value = p.value ∧ f.mask = p.mask ∧
      f.version = p.version) ∨ (j = ws.length ∧ f = e)
  old : ∀ {j : ℕ} {p : WEntry w}, ws[j]? = some p → ∃ f, ws'[j]? = some f ∧ f.addr = p.addr
  new : ws'[ws.length]? = some e

theorem Extends.snoc (ws : List (WEntry w)) (e : WEntry w) : Extends ws (ws ++ [e]) e where
  get hj := (getElem?_snoc.mp hj).imp_left fun hp => ⟨_, hp, rfl, rfl, rfl, rfl⟩
  old hj := ⟨_, getElem?_snoc.mpr (.inl hj), rfl⟩
  new := getElem?_snoc.mpr (.inr ⟨rfl, rfl⟩)

theorem Extends.link (ws : List (WEntry w)) (prev : ℕ) (e : WEntry w) :
    Extends ws (linkEntry ws prev e) e where
  get hj := by
    rcases getElem?_linkEntry.mp hj with ⟨p, hp, rfl⟩ | hnew
    · refine .inl ⟨p, hp, ?_⟩
      split <;> exact ⟨rfl, rfl, rfl, rfl⟩
    · exact .inr hnew
  old hj := by
    refine ⟨_, getElem?_linkEntry.mpr (.inl ⟨_, hj, rfl⟩), ?_⟩
    split <;> rfl
  new := getElem?_linkEntry.mpr (.inr ⟨rfl, rfl⟩)

/-- The chain of a lock that has an entry ends. -/
theorem exists_last {ws : List (WEntry w)} {lk : ℕ → ℕ} (hc : Chained lk ws) {i : ℕ}
    {e : WEntry w} (hi : ws[i]? = some e) :
    ∃ f ∈ ws, f.next = none ∧ lk f.addr = lk e.addr := by
  induction hn : ws.length - i using Nat.strong_induction_on generalizing i e with
  | _ n ih =>
    cases hnext : e.next with
    | none => exact ⟨e, List.mem_of_getElem? hi, hnext, rfl⟩
    | some j =>
      obtain ⟨hij, ⟨e', hj, hlk⟩, -⟩ := hc.link hi hnext
      have hlt := getElem?_lt hj
      obtain ⟨f, hf, hfn, hfl⟩ := ih (ws.length - j) (by omega) hj rfl
      exact ⟨f, hf, hfn, hfl.trans hlk⟩

namespace EtlInv

/-- No entry: the transaction has not changed the word. -/
theorem after_of_absent (h : EtlInv o tid q ss g x) {a : ℕ} (ha : ∀ e ∈ x.wset, e.addr ≠ a)
    (y : BitVec w) : overlay ss a y = y := by
  refine overlay_eq_self (fun s hs hsa => ?_) y
  by_contra hm
  obtain ⟨e, he, hea⟩ := h.written s hs hm
  exact ha e he (hea.trans hsa)

/-- What the entry of an address says of its word. -/
theorem current (h : EtlInv o tid q ss g x) {e : WEntry w} (he : e ∈ x.wset) :
    (if e.mask = 0 then g.mem e.addr else e.value) = q.after ss e.addr := by
  rcases h.val e he with ⟨hm, hov⟩ | ⟨hm, hv⟩
  · rw [if_pos hm, h.mem]
    exact (hov _).symm
  · rw [if_neg hm, hv]

theorem absent_of_free (h : EtlInv o tid q ss g x) {a : ℕ}
    (hfree : (g.lock (o.getLock a)).own = none) : ∀ e ∈ x.wset, o.getLock e.addr ≠ o.getLock a := by
  intro e he heq
  exact h.taken e he (by rw [heq]; exact hfree)

/-- The walk from the head of a lock that is held finds the entry of the address. -/
theorem walk (h : EtlInv o tid q ss g x) {a i : ℕ} {e : WEntry w} (hi : x.wset[i]? = some e)
    (hlk : o.getLock e.addr = o.getLock a)
    (hmin : ∀ {j : ℕ} {f : WEntry w}, x.wset[j]? = some f → o.getLock f.addr = o.getLock a → i ≤ j) :
    match chainWalk x.wset a x.wset.length i with
    | .found j => ∃ f, x.wset[j]? = some f ∧ f.addr = a
    | .last j => ∃ f, x.wset[j]? = some f ∧ f.next = none ∧ o.getLock f.addr = o.getLock a ∧
        ∀ f' ∈ x.wset, f'.addr ≠ a := by
  have hspec := chainWalk_spec h.chain a x.wset.length hi (Nat.le_add_left _ _)
  cases hw : chainWalk x.wset a x.wset.length i with
  | found j =>
    rw [hw] at hspec
    obtain ⟨f, hf, hfa, -⟩ := hspec
    exact ⟨f, hf, hfa⟩
  | last j =>
    rw [hw] at hspec
    obtain ⟨f, hf, hfn, hfl, hno⟩ := hspec
    refine ⟨f, hf, hfn, hfl.trans hlk, fun f' hf' hfa' => ?_⟩
    obtain ⟨n, hn⟩ := List.mem_iff_getElem?.mp hf'
    have hfl' : o.getLock f'.addr = o.getLock a := congrArg _ hfa'
    exact hno n f' (hmin hn hfl') hn (hfl'.trans hlk.symm) hfa'

theorem load (hd : o.design = .writeBackEtl) (h : EtlInv o tid q ss g x) (a : ℕ) :
    ∃ x', stmLoad o tid g x a = .ok (q.after ss a, x') ∧ EtlInv o tid q ss g x' := by
  obtain ⟨rs, hrs⟩ := addToReadSet_eq (o := o) x (o.getLock a) (g.lock (o.getLock a)).ver.ts
  simp only [stmLoad, hd, h.calm.readFree, hrs, Except.map]
  rcases h.own (o.getLock a) with hfree | ⟨i, e, hown, hi, hlk, hmin⟩
  · rw [hfree]
    refine ⟨{ x with rset := rs }, ?_, ⟨⟨h.calm.clock, h.calm.start, h.calm.endT, h.calm.ver⟩,
      h.mem, h.own, h.taken, h.chain, h.inj, h.val, h.written, h.version⟩⟩
    have hab : ∀ e ∈ x.wset, e.addr ≠ a := fun e he hea =>
      h.absent_of_free hfree e he (congrArg _ hea)
    rw [h.mem, Quiescent.after, h.after_of_absent hab]
  · rw [hown]
    simp only [if_true]
    refine ⟨x, ?_, h⟩
    have hwalk := h.walk hi hlk hmin
    cases hw : chainWalk x.wset a x.wset.length i with
    | found j =>
      rw [hw] at hwalk
      obtain ⟨f, hf, rfl⟩ := hwalk
      simp only [hf]
      rw [h.current (List.mem_of_getElem? hf)]
    | last j =>
      rw [hw] at hwalk
      obtain ⟨-, -, -, -, hab⟩ := hwalk
      simp only
      rw [h.mem, Quiescent.after, h.after_of_absent hab]

/-- A new entry for an address that has none. -/
theorem grow {g' : Store3 w} {ws' : List (WEntry w)} {e : WEntry w} (h : EtlInv o tid q ss g x)
    (hx : Extends x.wset ws' e) (hchain : Chained o.getLock ws') (v : BitVec w)
    (hval : e.mask ≠ 0 → e.value = mergeBits (g.mem e.addr) v e.mask)
    (hver : e.version = q.ver (o.getLock e.addr)) (hab : ∀ f ∈ x.wset, f.addr ≠ e.addr)
    (hclock : g'.clock = g.clock) (hmem : g'.mem = g.mem)
    (hlock : ∀ k, g'.lock k = g.lock k ∨ (k = o.getLock e.addr ∧ (g.lock k).own = none ∧
      g'.lock k = ⟨(g.lock k).ver, some (.entry tid x.wset.length)⟩))
    (hheld : (g'.lock (o.getLock e.addr)).own ≠ none) :
    EtlInv o tid q (ss ++ [⟨e.addr, v, e.mask⟩]) g' { x with wset := ws' } := by
  have hmem' : ∀ f ∈ ws', (∃ p ∈ x.wset, f.addr = p.addr ∧ f.value = p.value ∧ f.mask = p.mask ∧
      f.version = p.version) ∨ f = e := by
    intro f hf
    obtain ⟨j, hj⟩ := List.mem_iff_getElem?.mp hf
    rcases hx.get hj with ⟨p, hp, hpf⟩ | ⟨-, rfl⟩
    · exact .inl ⟨p, List.mem_of_getElem? hp, hpf⟩
    · exact .inr rfl
  constructor
  case calm =>
    refine ⟨hclock.trans h.calm.clock, h.calm.start, h.calm.endT, fun k => ?_⟩
    rw [← h.calm.ver]
    rcases hlock k with hk | ⟨-, -, hk⟩ <;> rw [hk]
  case mem => exact hmem.trans h.mem
  case own =>
    intro k
    rcases hlock k with hk | ⟨rfl, hfree, hk⟩
    · rw [hk]
      rcases h.own k with hf | ⟨i, p, ho, hi, hlk, hmin⟩
      · exact .inl hf
      · obtain ⟨f, hf, hfa⟩ := hx.old hi
        refine .inr ⟨i, f, ho, hf, by rw [hfa]; exact hlk, fun {j f'} hj hlk' => ?_⟩
        rcases hx.get hj with ⟨p', hp', ha', -⟩ | ⟨rfl, -⟩
        · exact hmin hp' (by rw [← ha']; exact hlk')
        · exact (getElem?_lt hi).le
    · refine .inr ⟨_, e, by rw [hk], hx.new, rfl, fun {j f} hj hlk' => ?_⟩
      rcases hx.get hj with ⟨p', hp', ha', -⟩ | ⟨rfl, -⟩
      · exact absurd (by rw [← ha']; exact hlk')
          (h.absent_of_free hfree p' (List.mem_of_getElem? hp'))
      · exact le_rfl
  case taken =>
    intro f hf
    rcases hmem' f hf with ⟨p, hp, ha, -⟩ | rfl
    · rw [ha]
      have hne := h.taken p hp
      rcases hlock (o.getLock p.addr) with hk | ⟨-, hfree, -⟩
      · rw [hk]
        exact hne
      · exact absurd hfree hne
    · exact hheld
  case chain => exact hchain
  case inj =>
    intro i j f f' hi hj heq
    rcases hx.get hi with ⟨p, hp, ha, -⟩ | ⟨rfl, rfl⟩ <;>
      rcases hx.get hj with ⟨p', hp', ha', -⟩ | ⟨rfl, rfl⟩
    · exact h.inj hp hp' (by rw [← ha, ← ha', heq])
    · exact absurd (ha.symm.trans heq) (hab p (List.mem_of_getElem? hp))
    · exact absurd (ha'.symm.trans heq.symm) (hab p' (List.mem_of_getElem? hp'))
    · rfl
  case val =>
    intro f hf
    rcases hmem' f hf with ⟨p, hp, ha, hv, hm, -⟩ | rfl
    · have hne : p.addr ≠ e.addr := hab p hp
      rw [ha, hm, hv, after_snoc, Function.update_of_ne hne]
      refine (h.val p hp).imp_left fun hz => ⟨hz.1, fun y => ?_⟩
      rw [overlay_snoc_of_ne _ _ _ _ (Ne.symm hne)]
      exact hz.2 y
    · by_cases hm : f.mask = 0
      · refine .inl ⟨hm, fun y => ?_⟩
        rw [overlay_snoc_self, hm, mergeBits_zero, h.after_of_absent hab]
      · refine .inr ⟨hm, ?_⟩
        rw [hval hm, after_snoc, Function.update_self, h.mem, Quiescent.after,
          h.after_of_absent hab]
  case written =>
    intro s hs hm
    rcases List.mem_append.mp hs with hs | hs
    · obtain ⟨p, hp, hpa⟩ := h.written s hs hm
      obtain ⟨j, hj⟩ := List.mem_iff_getElem?.mp hp
      obtain ⟨f, hf, hfa⟩ := hx.old hj
      exact ⟨f, List.mem_of_getElem? hf, hfa.trans hpa⟩
    · rw [List.mem_singleton.mp hs]
      exact ⟨e, List.mem_of_getElem? hx.new, rfl⟩
  case version =>
    intro f hf
    rcases hmem' f hf with ⟨p, hp, ha, -, -, hv⟩ | rfl
    · rw [ha, hv]
      exact h.version p hp
    · exact hver

/-- A store to an address that has an entry. -/
theorem merge (h : EtlInv o tid q ss g x) {j : ℕ} {e : WEntry w} (he : x.wset[j]? = some e)
    (v : BitVec w) {m : BitVec w} (hm : m ≠ 0) :
    EtlInv o tid q (ss ++ [⟨e.addr, v, m⟩]) g { x with wset := x.wset.modify j fun f =>
      { f with value := mergeWord (if f.mask = 0 then g.mem e.addr else f.value) v m
               mask := f.mask ||| m } } := by
  set put : WEntry w → WEntry w := fun f =>
    { f with value := mergeWord (if f.mask = 0 then g.mem e.addr else f.value) v m
             mask := f.mask ||| m } with hput
  have hsh : SameShape x.wset (x.wset.modify j put) := sameShape_modify j fun _ => rfl
  have hback : ∀ f ∈ x.wset.modify j put, ∃ p ∈ x.wset, p.addr = f.addr ∧
      p.version = f.version := by
    intro f hf
    obtain ⟨i, hi⟩ := List.mem_iff_getElem?.mp hf
    obtain ⟨p, hp, ha, hv, -⟩ := hsh.get hi
    exact ⟨p, List.mem_of_getElem? hp, ha, hv⟩
  constructor
  case calm => exact ⟨h.calm.clock, h.calm.start, h.calm.endT, h.calm.ver⟩
  case mem => exact h.mem
  case own =>
    intro k
    rcases h.own k with hf | ⟨i, p, ho, hi, hlk, hmin⟩
    · exact .inl hf
    · obtain ⟨f, hf, hfa, -⟩ := hsh.symm.get hi
      refine .inr ⟨i, f, ho, hf, by rw [hfa]; exact hlk, fun hn hlk' => ?_⟩
      obtain ⟨p', hp', ha', -⟩ := hsh.get hn
      exact hmin hp' (by rw [ha']; exact hlk')
  case taken =>
    intro f hf
    obtain ⟨p, hp, ha, -⟩ := hback f hf
    rw [← ha]
    exact h.taken p hp
  case chain => exact h.chain.reshape hsh
  case inj =>
    intro i n f f' hi hn heq
    obtain ⟨p, hp, ha, -⟩ := hsh.get hi
    obtain ⟨p', hp', ha', -⟩ := hsh.get hn
    exact h.inj hp hp' (by rw [ha, ha', heq])
  case val =>
    intro f hf
    obtain ⟨i, hi⟩ := List.mem_iff_getElem?.mp hf
    by_cases hij : j = i
    · subst hij
      rw [List.getElem?_modify_eq, he] at hi
      cases hi
      refine .inr ⟨fun hz => hm ?_, ?_⟩
      · exact (BitVec.or_eq_zero_iff.mp hz).2
      · show mergeWord _ v m = q.after _ e.addr
        rw [h.current (List.mem_of_getElem? he), mergeWord_eq, after_snoc, Function.update_self]
    · have hold : x.wset[i]? = some f := by simpa [hij] using hi
      have hne : f.addr ≠ e.addr := fun heq => hij (h.inj he hold heq.symm)
      rw [after_snoc, Function.update_of_ne hne]
      refine (h.val f (List.mem_of_getElem? hold)).imp_left fun hz => ⟨hz.1, fun y => ?_⟩
      rw [overlay_snoc_of_ne _ _ _ _ (Ne.symm hne)]
      exact hz.2 y
  case written =>
    intro s hs hsm
    have hex : ∃ p ∈ x.wset, p.addr = s.addr := by
      rcases List.mem_append.mp hs with hs | hs
      · exact h.written s hs hsm
      · rw [List.mem_singleton.mp hs]
        exact ⟨e, List.mem_of_getElem? he, rfl⟩
    obtain ⟨p, hp, hpa⟩ := hex
    obtain ⟨i, hi⟩ := List.mem_iff_getElem?.mp hp
    obtain ⟨f, hf, hfa, -⟩ := hsh.symm.get hi
    exact ⟨f, List.mem_of_getElem? hf, hfa.trans hpa⟩
  case version =>
    intro f hf
    obtain ⟨p, hp, ha, hv⟩ := hback f hf
    rw [← ha, ← hv]
    exact h.version p hp

theorem write (hd : o.design = .writeBackEtl) (h : EtlInv o tid q ss g x) (a : ℕ)
    (v m : BitVec w) : ∃ g' x', stmWrite o tid g x a v m = .ok (g', x') ∧
      EtlInv o tid q (ss ++ [⟨a, v, m⟩]) g' x' := by
  simp only [stmWrite, hd, writeEtl, h.calm.writeConflict, Bool.false_eq_true, if_false]
  have hnew : m ≠ 0 → newValue o g x.wset.length a v m = mergeBits (g.mem a) v m := fun hm => by
    rw [newValue, if_neg hm, mergeWord_eq]
  rcases h.own (o.getLock a) with hfree | ⟨i, e, hown, hi, hlk, hmin⟩
  · rw [hfree]
    have hab := h.absent_of_free hfree
    refine ⟨_, _, rfl, h.grow (Extends.snoc x.wset ⟨a, newValue o g x.wset.length a v m, m, _, true, none⟩)
      (h.chain.snoc rfl hab) v hnew (h.calm.ver _) (fun f hf heq => hab f hf (congrArg _ heq))
      rfl rfl (fun k => ?_) (by simp [Store3.setLock])⟩
    rcases eq_or_ne k (o.getLock a) with rfl | hne
    · exact .inr ⟨rfl, hfree, by simp [Store3.setLock]⟩
    · exact .inl (by simp [Store3.setLock, Function.update_of_ne hne])
  · rw [hown]
    simp only [if_true]
    by_cases hm : m = 0
    · -- nothing is written
      rw [if_pos hm]
      have hafter : ∀ c y, overlay (ss ++ [⟨a, v, m⟩]) c y = overlay ss c y := by
        intro c y
        rcases eq_or_ne a c with rfl | hne
        · rw [overlay_snoc_self, hm, mergeBits_zero]
        · exact overlay_snoc_of_ne _ _ _ _ hne
      refine ⟨g, x, rfl, ⟨h.calm, h.mem, h.own, h.taken, h.chain, h.inj, fun f hf => ?_,
        fun s hs hsm => ?_, h.version⟩⟩
      · simp only [Quiescent.after, hafter]
        exact h.val f hf
      · rcases List.mem_append.mp hs with hs | hs
        · exact h.written s hs hsm
        · rw [List.mem_singleton.mp hs] at hsm
          exact absurd hm hsm
    · rw [if_neg hm]
      have hwalk := h.walk hi hlk hmin
      cases hw : chainWalk x.wset a x.wset.length i with
      | found j =>
        rw [hw] at hwalk
        obtain ⟨f, hf, rfl⟩ := hwalk
        exact ⟨_, _, rfl, h.merge hf v hm⟩
      | last j =>
        rw [hw] at hwalk
        obtain ⟨f, hf, hfn, hfl, hab⟩ := hwalk
        have hver : f.version = q.ver (o.getLock a) := by
          rw [← hfl]
          exact h.version f (List.mem_of_getElem? hf)
        simp only [hf, Option.map_some, Option.getD_some]
        refine ⟨_, _, rfl, h.grow (Extends.link x.wset j ⟨a, newValue o g x.wset.length a v m, m, _, true, none⟩)
          (h.chain.linkEntry hf hfn rfl hfl.symm) v hnew hver hab rfl rfl (fun _ => .inl rfl) ?_⟩
        rw [hown]
        simp

/-- Every lock that is held has a last entry, which releases it. -/
theorem covers (h : EtlInv o tid q ss g x) : Covers o (fun e => e.next.isNone) x.wset g := by
  intro k
  rcases h.own k with hk | ⟨i, e, -, hi, hlk, -⟩
  · exact .inl hk
  · obtain ⟨f, hf, hfn, hfl⟩ := exists_last h.chain hi
    exact .inr ⟨f, hf, by simp [hfn], hfl.trans hlk⟩

/-- The store that the commit makes of an entry. -/
def finalStore (e : WEntry w) : Store w :=
  ⟨e.addr, e.value, if e.mask ≠ 0 then BitVec.allOnes w else 0⟩

theorem publish_etl (hd : o.design = .writeBackEtl) (t : ℕ) (g : Store3 w) (e : WEntry w) :
    (publish o t g e).clock = g.clock ∧
    (publish o t g e).lock = (if e.next.isNone = true then
      Function.update g.lock (o.getLock e.addr) ⟨⟨t, 0⟩, none⟩ else g.lock) ∧
    (publish o t g e).mem = Function.update g.mem e.addr
      (mergeBits (g.mem e.addr) (finalStore e).value (finalStore e).mask) := by
  have hstore : (if e.mask ≠ 0 then g.setMem e.addr e.value else g) = g.setMem e.addr
      (mergeBits (g.mem e.addr) (finalStore e).value (finalStore e).mask) := by
    by_cases hm : e.mask = 0
    · rw [if_neg (not_not.mpr hm), finalStore, if_neg (not_not.mpr hm), mergeBits_zero]
      simp [Store3.setMem]
    · rw [if_pos hm, finalStore, if_pos hm, mergeBits_allOnes]
  unfold publish
  simp only [hd]
  rw [hstore]
  cases e.next.isNone <;> exact ⟨rfl, rfl, rfl⟩

theorem commit (hd : o.design = .writeBackEtl) (h : EtlInv o tid q ss g x) :
    ∃ q' : Quiescent w, stmCommit o tid g x = .ok q'.store ∧ q'.mem = q.after ss := by
  have hle : ∀ k, (g.lock k).ver.ts ≤ q.clock := fun k => by
    rw [h.calm.ver]
    exact q.ver_le k
  have habsent : ∀ {a : ℕ}, (∀ e ∈ x.wset, e.addr ≠ a) → q.after ss a = q.mem a :=
    fun ha => h.after_of_absent ha _
  unfold stmCommit
  split
  · next hempty =>
    obtain ⟨q', hq', hqm⟩ := Quiescent.of_free (g := g)
      (fun k => (h.own k).resolve_right (by simp [hempty]))
      (fun k => by rw [h.calm.clock]; exact hle k)
    refine ⟨q', by rw [hq'], ?_⟩
    funext a
    rw [hqm, h.mem, habsent (by simp [hempty])]
  · simp only [hd]
    show ∃ q' : Quiescent w, (if x.start = g.clock || _ then _ else _) = _ ∧ _
    rw [h.calm.start, h.calm.clock]
    simp only [decide_true, Bool.true_or, if_true, Except.ok.injEq, publishAll, hd]
    have hpub := publish_etl (o := o) hd (q.clock + 1)
    obtain ⟨hc, hfree⟩ := foldl_release (o := o) (g := { g with clock := q.clock + 1 })
      (f := publish o (q.clock + 1)) (v := fun _ => ⟨q.clock + 1, 0⟩) (fun e => e.next.isNone)
      x.wset (q.clock + 1) (fun g e _ => ⟨(hpub g e).1, (hpub g e).2.1⟩) (fun _ _ _ => le_rfl)
      h.covers (fun k => (hle k).trans (Nat.le_succ _))
    obtain ⟨q', hq', hqm⟩ := Quiescent.of_free (fun k => (hfree k).1)
      (fun k => by rw [hc]; exact (hfree k).2)
    refine ⟨q', hq', ?_⟩
    rw [hqm]
    funext a
    rw [foldl_mem finalStore _ (fun _ => rfl) (fun g e => (hpub g e).2.2)]
    show overlay _ a (g.mem a) = _
    rw [h.mem]
    by_cases ha : ∃ e ∈ x.wset, e.addr = a
    · obtain ⟨e, he, rfl⟩ := ha
      rw [overlay_map_eq (fun _ => rfl) h.inj he, ← h.current he, h.mem]
      by_cases hm : e.mask = 0
      · rw [if_pos hm, finalStore, if_neg (not_not.mpr hm), mergeBits_zero]
      · rw [if_neg hm, finalStore, if_pos hm, mergeBits_allOnes]
    · rw [overlay_of_forall_ne, habsent fun e he hea => ha ⟨e, he, hea⟩]
      intro s hs hsa
      obtain ⟨e, he, rfl⟩ := List.mem_map.mp hs
      exact ha ⟨e, he, hsa⟩

theorem abort (hd : o.design = .writeBackEtl) (h : EtlInv o tid q ss g x) :
    ∃ q' : Quiescent w, stmAbort o g x = .ok q'.store ∧ q'.mem = q.mem := by
  simp only [stmAbort, hd, Except.ok.injEq]
  set drop : Store3 w → WEntry w → Store3 w := fun g e =>
    if e.next.isNone then release o g e e.version else g with hdrop
  have hround : ∀ (g : Store3 w) (e : WEntry w), (drop g e).clock = g.clock ∧
      (drop g e).lock = (if e.next.isNone = true then
        Function.update g.lock (o.getLock e.addr) ⟨e.version, none⟩ else g.lock) ∧
      (drop g e).mem = g.mem := by
    intro g e
    simp only [hdrop]
    cases e.next.isNone <;> exact ⟨rfl, rfl, rfl⟩
  have hmem : ∀ (ws : List (WEntry w)) (g : Store3 w), (ws.foldl drop g).mem = g.mem := by
    intro ws
    induction ws with
    | nil => exact fun _ => rfl
    | cons e ws ih => exact fun g => (ih _).trans (hround g e).2.2
  obtain ⟨hc, hfree⟩ := foldl_release (o := o) (g := g) (f := drop) (v := fun e => e.version)
    (fun e => e.next.isNone) x.wset q.clock (fun g e _ => ⟨(hround g e).1, (hround g e).2.1⟩)
    (fun e he _ => by rw [h.version e he]; exact q.ver_le _) h.covers
    (fun k => by rw [h.calm.ver]; exact q.ver_le k)
  obtain ⟨q', hq', hqm⟩ := Quiescent.of_free (fun k => (hfree k).1)
    (fun k => by rw [hc, h.calm.clock]; exact (hfree k).2)
  exact ⟨q', hq', by rw [hqm, hmem, h.mem]⟩

end EtlInv

theorem refines_etl (hd : o.design = .writeBackEtl) : Refines o tid (EtlInv o tid) where
  start q := ⟨⟨rfl, rfl, rfl, fun _ => rfl⟩, rfl, fun _ => .inl rfl, by simp [Quiescent.fresh],
    ⟨by simp [Quiescent.fresh], by simp [Quiescent.fresh]⟩, by simp [Quiescent.fresh],
    by simp [Quiescent.fresh], by simp, by simp [Quiescent.fresh]⟩
  load h a := h.load hd a
  write h a v m := h.write hd a v m
  commit h := h.commit hd
  abort h := h.abort hd

end TinyStm.Seq
