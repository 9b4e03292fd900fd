import TinyStm.Seq.Base

/-!
# Write-through without concurrency

Stores go to memory at once; the write set is the undo log. With duplicates an
address may have several entries, and the first one that was written decides
what an abort restores; NO_DUPLICATES_IN_RW_SETS keeps one entry, which is filled
at the first store with a mask.
-/

namespace TinyStm.Seq

variable {w : ℕ} {o : Opts w} {tid : ℕ} {q : Quiescent w} {ss : List (Store w)} {g : Store3 w}
  {x : Desc w}

/-- What undoing the entries makes of the word `y` at `a`. -/
def undone : List (WEntry w) → ℕ → BitVec w → BitVec w
  | [], _, y => y
  | e :: ws, a, y => if e.addr = a ∧ e.mask ≠ 0 then e.value else undone ws a y

/-- The undo log holds a value for the address. -/
def Logged (ws : List (WEntry w)) (a : ℕ) : Prop := ∃ e ∈ ws, e.addr = a ∧ e.mask ≠ 0

theorem undone_of_not_logged {ws : List (WEntry w)} {a : ℕ} (h : ¬ Logged ws a) (y : BitVec w) :
    undone ws a y = y := by
  induction ws with
  | nil => rfl
  | cons e ws ih =>
    rw [undone, if_neg fun he => h ⟨e, List.mem_cons_self .., he⟩]
    exact ih fun ⟨f, hf, hfa⟩ => h ⟨f, List.mem_cons_of_mem _ hf, hfa⟩

/-- A logged word does not matter. -/
theorem undone_of_logged {ws : List (WEntry w)} {a : ℕ} (h : Logged ws a) (y y' : BitVec w) :
    undone ws a y = undone ws a y' := by
  induction ws with
  | nil =>
    obtain ⟨e, he, -⟩ := h
    simp at he
  | cons e ws ih =>
    simp only [undone]
    split
    · rfl
    · next hne =>
      obtain ⟨f, hf, hfa⟩ := h
      rcases List.mem_cons.mp hf with rfl | hf
      · exact absurd hfa hne
      · exact ih ⟨f, hf, hfa⟩

theorem undone_append (ws vs : List (WEntry w)) (a : ℕ) (y : BitVec w) :
    undone (ws ++ vs) a y = undone ws a (undone vs a y) := by
  induction ws with
  | nil => rfl
  | cons e ws ih =>
    simp only [List.cons_append, undone]
    split
    · rfl
    · exact ih

structure WtInv (o : Opts w) (tid : ℕ) (q : Quiescent w) (ss : List (Store w)) (g : Store3 w)
    (x : Desc w) : Prop where
  calm : Calm q g x
  own : ∀ k, (g.lock k).own = none ∨ ((g.lock k).own = some (.entry tid 0) ∧
    ∃ e ∈ x.wset, (!e.noDrop) = true ∧ o.getLock e.addr = k)
  taken : ∀ e ∈ x.wset, (g.lock (o.getLock e.addr)).own ≠ none
  mem : ∀ a, g.mem a = q.after ss a
  undo : ∀ a, undone x.wset a (g.mem a) = q.mem a
  version : ∀ e ∈ x.wset, e.noDrop = false → e.version = q.ver (o.getLock e.addr)
  inj : o.noDuplicatesInRwSets = true → ∀ {i j : ℕ} {e e' : WEntry w}, x.wset[i]? = some e →
    x.wset[j]? = some e' → e.addr = e'.addr → i = j

namespace WtInv

theorem load (hd : o.design = .writeThrough) (h : WtInv o tid q ss g x) (a : ℕ) :
    ∃ x', stmLoad o tid g x a = .ok (q.after ss a, x') ∧ WtInv o tid q ss g x' := by
  obtain ⟨rs, hrs⟩ := addToReadSet_eq (o := o) x (o.getLock a) (g.lock (o.getLock a)).ver.ts
  simp only [stmLoad, hd, h.calm.readFree, hrs, Except.map, h.mem]
  rcases h.own (o.getLock a) with hfree | ⟨hown, -⟩
  · rw [hfree]
    exact ⟨_, rfl, ⟨⟨h.calm.clock, h.calm.start, h.calm.endT, h.calm.ver⟩, h.own, h.taken, h.mem,
      h.undo, h.version, h.inj⟩⟩
  · rw [hown]
    simp only [if_true]
    exact ⟨x, rfl, h⟩

/-- A new entry at the end of the log, with the lock `g'` already held. -/
theorem append {g' : Store3 w} (h : WtInv o tid q ss g x) (a : ℕ) (v m : BitVec w) (dup : Bool)
    (hclock : g'.clock = g.clock) (hmem : g'.mem = g.mem)
    (hlock : ∀ k, g'.lock k = g.lock k ∨
      (k = o.getLock a ∧ g'.lock k = ⟨(g.lock k).ver, some (.entry tid 0)⟩ ∧ dup = false))
    (hheld : (g'.lock (o.getLock a)).own ≠ none)
    (hnew : o.noDuplicatesInRwSets = true → ∀ e ∈ x.wset, e.addr ≠ a) :
    WtInv o tid q (ss ++ [⟨a, v, m⟩])
      (appendWt o g' x a v m (g.lock (o.getLock a)).ver dup).1
      (appendWt o g' x a v m (g.lock (o.getLock a)).ver dup).2 := by
  have hg : (appendWt o g' x a v m (g.lock (o.getLock a)).ver dup).1.lock = g'.lock ∧
      (appendWt o g' x a v m (g.lock (o.getLock a)).ver dup).1.clock = g'.clock := by
    unfold appendWt
    split <;> exact ⟨rfl, rfl⟩
  have hw : (appendWt o g' x a v m (g.lock (o.getLock a)).ver dup).1.mem =
      Function.update g.mem a (mergeBits (g.mem a) v m) := by
    simp only [appendWt]
    split
    · next hm =>
      rw [hm, mergeBits_zero, hmem, Function.update_eq_self]
    · rw [Store3.setMem, mergeWord_eq, hmem]
  have hver : ∀ k, (g'.lock k).ver = (g.lock k).ver := by
    intro k
    rcases hlock k with hk | ⟨-, hk, -⟩ <;> rw [hk]
  have hown' : ∀ k, (g.lock k).own ≠ none → (g'.lock k).own = (g.lock k).own := by
    intro k hne
    rcases hlock k with hk | ⟨-, hk, -⟩
    · rw [hk]
    · rcases h.own k with hf | ⟨ho, -⟩
      · exact absurd hf hne
      · rw [hk, ho]
  constructor
  case calm =>
    refine ⟨by rw [hg.2, hclock, h.calm.clock], h.calm.start, h.calm.endT, fun k => ?_⟩
    rw [hg.1, hver, h.calm.ver]
  case own =>
    intro k
    rw [hg.1]
    rcases hlock k with hk | ⟨rfl, hk, hdup⟩
    · rw [hk]
      rcases h.own k with hf | ⟨ho, e, he, hed, hlk⟩
      · exact .inl hf
      · exact .inr ⟨ho, e, List.mem_append_left _ he, hed, hlk⟩
    · refine .inr ⟨by rw [hk], _, List.mem_append_right _ (List.mem_singleton_self _), ?_, rfl⟩
      simp [hdup]
  case taken =>
    intro e he
    rw [hg.1]
    rcases List.mem_append.mp he with he | he
    · rw [hown' _ (h.taken e he)]
      exact h.taken e he
    · rw [List.mem_singleton.mp he]
      exact hheld
  case mem =>
    intro c
    rw [hw, after_snoc]
    rcases eq_or_ne c a with rfl | hne
    · rw [Function.update_self, Function.update_self, h.mem]
    · rw [Function.update_of_ne hne, Function.update_of_ne hne, h.mem]
  case undo =>
    intro c
    rw [hw]
    show undone (x.wset ++ [_]) c _ = _
    rw [undone_append, ← h.undo c]
    congr 1
    rcases eq_or_ne c a with rfl | hne
    · rw [Function.update_self]
      by_cases hm : m = 0
      · rw [undone, if_neg fun hc => hc.2 hm, hm, mergeBits_zero]
        rfl
      · rw [undone, if_pos ⟨rfl, hm⟩, if_neg hm, hmem]
    · rw [undone, if_neg fun hc => hne hc.1.symm, Function.update_of_ne hne]
      rfl
  case version =>
    intro e he hed
    rcases List.mem_append.mp he with he | he
    · exact h.version e he hed
    · rw [List.mem_singleton.mp he]
      exact h.calm.ver _
  case inj =>
    intro hdup i j e e' hi hj heq
    rcases getElem?_snoc.mp hi with hi | ⟨rfl, rfl⟩ <;>
      rcases getElem?_snoc.mp hj with hj | ⟨rfl, rfl⟩
    · exact h.inj hdup hi hj heq
    · exact absurd heq (hnew hdup e (List.mem_of_getElem? hi))
    · exact absurd heq.symm (hnew hdup e' (List.mem_of_getElem? hj))
    · rfl

/-- Filling the one entry of an address. -/
theorem undone_fill {ws : List (WEntry w)} {i a : ℕ} {e : WEntry w} (he : ws[i]? = some e)
    (ha : e.addr = a) (hm : e.mask = 0)
    (hinj : ∀ {j : ℕ} {f : WEntry w}, ws[j]? = some f → f.addr = a → j = i)
    {m : BitVec w} (hm' : m ≠ 0) (u : BitVec w) (c : ℕ) (y : BitVec w) :
    undone (ws.modify i fun e => if e.mask = 0 then { e with value := u, mask := m } else e) c y =
      if c = a then u else undone ws c y := by
  obtain ⟨hi, hget⟩ := List.getElem?_eq_some_iff.mp he
  have hsplit : ws = ws.take i ++ e :: ws.drop (i + 1) := by
    rw [← hget, ← List.drop_eq_getElem_cons hi, List.take_append_drop]
  have hmod : ws.modify i (fun e => if e.mask = 0 then { e with value := u, mask := m } else e) =
      ws.take i ++ { e with value := u, mask := m } :: ws.drop (i + 1) := by
    rw [List.modify_eq_take_cons_drop hi, hget, if_pos hm]
  have hpre : ¬ Logged (ws.take i) a := by
    rintro ⟨f, hf, hfa, -⟩
    obtain ⟨j, hj⟩ := List.mem_iff_getElem?.mp hf
    rw [List.getElem?_take] at hj
    split at hj
    · next hlt =>
      have := hinj hj hfa
      omega
    · cases hj
  rw [hmod, undone_append, undone]
  by_cases hc : c = a
  · rw [if_pos hc, if_pos ⟨ha.trans hc.symm, hm'⟩, hc]
    exact undone_of_not_logged hpre u
  · rw [if_neg hc, if_neg fun h => hc (h.1.symm.trans ha)]
    conv_rhs => rw [hsplit, undone_append, undone, if_neg fun h => h.2 hm]

/-- A store to an address that has an entry. -/
theorem rewrite (h : WtInv o tid q ss g x) (hno : o.noDuplicatesInRwSets = true) {i a : ℕ}
    {e : WEntry w} (he : x.wset[i]? = some e) (ha : e.addr = a) (v m : BitVec w) :
    WtInv o tid q (ss ++ [⟨a, v, m⟩]) (rewriteWt g x i a v m).1 (rewriteWt g x i a v m).2 := by
  by_cases hm : m = 0
  · have hafter : q.after (ss ++ [⟨a, v, m⟩]) = q.after ss := by
      rw [after_snoc, hm, mergeBits_zero, Function.update_eq_self]
    simp only [rewriteWt, if_pos hm]
    exact ⟨h.calm, h.own, h.taken, fun c => by rw [hafter]; exact h.mem c, h.undo, h.version, h.inj⟩
  · simp only [rewriteWt, if_neg hm]
    set fill : WEntry w → WEntry w := fun e =>
      if e.mask = 0 then { e with value := g.mem a, mask := m } else e with hfill
    have hsh : SameShape x.wset (x.wset.modify i fill) := by
      refine sameShape_modify i fun f => ?_
      simp only [hfill]
      split <;> rfl
    have hback : ∀ f ∈ x.wset.modify i fill, ∃ f' ∈ x.wset, f'.addr = f.addr ∧
        f'.noDrop = f.noDrop ∧ f'.version = f.version := by
      intro f hf
      obtain ⟨j, hj⟩ := List.mem_iff_getElem?.mp hf
      obtain ⟨f', hf', h₁, h₂, h₃, -⟩ := hsh.get hj
      exact ⟨f', List.mem_of_getElem? hf', h₁, h₃, h₂⟩
    constructor
    case calm => exact ⟨h.calm.clock, h.calm.start, h.calm.endT, h.calm.ver⟩
    case own =>
      intro k
      rcases h.own k with hf | ⟨ho, f, hf, hfd, hlk⟩
      · exact .inl hf
      · obtain ⟨j, hj⟩ := List.mem_iff_getElem?.mp hf
        obtain ⟨f', hf', h₁, -, h₃, -⟩ := hsh.symm.get hj
        refine .inr ⟨ho, f', List.mem_of_getElem? hf', ?_, ?_⟩
        · rw [h₃]
          exact hfd
        · rw [h₁]
          exact hlk
    case taken =>
      intro f hf
      obtain ⟨f', hf', h₁, -⟩ := hback f hf
      rw [← h₁]
      exact h.taken f' hf'
    case mem =>
      intro c
      rw [after_snoc]
      show Function.update g.mem a _ c = _
      rw [mergeWord_eq]
      rcases eq_or_ne c a with rfl | hne
      · rw [Function.update_self, Function.update_self, h.mem]
      · rw [Function.update_of_ne hne, Function.update_of_ne hne, h.mem]
    case undo =>
      intro c
      show undone (x.wset.modify i fill) c (Function.update g.mem a _ c) = _
      have hone : ∀ {j : ℕ} {f : WEntry w}, x.wset[j]? = some f → f.addr = a → j = i :=
        fun hj hfa => h.inj hno hj he (hfa.trans ha.symm)
      by_cases hmask : e.mask = 0
      · -- the entry was empty: nothing is logged for this address yet
        rw [undone_fill he ha hmask hone hm]
        have hnl : ¬ Logged x.wset a := by
          rintro ⟨f, hf, hfa, hfm⟩
          obtain ⟨j, hj⟩ := List.mem_iff_getElem?.mp hf
          have hji := hone hj hfa
          subst hji
          rw [he] at hj
          cases hj
          exact hfm hmask
        split
        · next hc =>
          rw [hc, ← h.undo a]
          exact (undone_of_not_logged hnl _).symm
        · next hc =>
          rw [Function.update_of_ne hc]
          exact h.undo c
      · have hsame : x.wset.modify i fill = x.wset := by
          refine List.ext_getElem? fun j => ?_
          by_cases hij : i = j
          · subst hij
            rw [List.getElem?_modify_eq, he]
            exact congrArg some (if_neg hmask)
          · simp [hij]
        rw [hsame, ← h.undo c]
        rcases eq_or_ne c a with rfl | hne
        · exact undone_of_logged ⟨e, List.mem_of_getElem? he, ha, hmask⟩ _ _
        · rw [Function.update_of_ne hne]
    case version =>
      intro f hf hfd
      obtain ⟨f', hf', h₁, h₂, h₃⟩ := hback f hf
      rw [← h₁, ← h₃]
      exact h.version f' hf' (h₂.trans hfd)
    case inj =>
      intro hdup j j' f f' hj hj' heq
      obtain ⟨f₁, hf₁, h₁, -⟩ := hsh.get hj
      obtain ⟨f₂, hf₂, h₂, -⟩ := hsh.get hj'
      exact h.inj hdup hf₁ hf₂ (by rw [h₁, h₂, heq])

theorem write (hd : o.design = .writeThrough) (h : WtInv o tid q ss g x) (a : ℕ)
    (v m : BitVec w) : ∃ g' x', stmWrite o tid g x a v m = .ok (g', x') ∧
      WtInv o tid q (ss ++ [⟨a, v, m⟩]) g' x' := by
  simp only [stmWrite, hd, writeWt, h.calm.writeConflict, Bool.false_eq_true, if_false]
  rcases h.own (o.getLock a) with hfree | ⟨hown, -⟩
  · rw [hfree]
    refine ⟨_, _, rfl, h.append a v m false rfl rfl (fun k => ?_) ?_ fun _ e he hea => ?_⟩
    · rcases eq_or_ne k (o.getLock a) with rfl | hne
      · exact .inr ⟨rfl, by simp [Store3.setLock], rfl⟩
      · exact .inl (by simp [Store3.setLock, Function.update_of_ne hne])
    · simp [Store3.setLock]
    · exact h.taken e he (by rw [hea]; exact hfree)
  · rw [hown]
    simp only [if_true]
    have happ : ∀ hnew : (o.noDuplicatesInRwSets = true → ∀ e ∈ x.wset, e.addr ≠ a), _ :=
      fun hnew => h.append a v m true rfl rfl (fun _ => .inl rfl) (by rw [hown]; simp) hnew
    by_cases hno : o.noDuplicatesInRwSets = true
    · simp only [hno, if_true]
      cases hw : stmHasWritten x.wset a with
      | some i =>
        obtain ⟨e, he, ha⟩ := stmHasWritten_some hw
        exact ⟨_, _, rfl, h.rewrite hno he ha v m⟩
      | none => exact ⟨_, _, rfl, happ fun _ e he => stmHasWritten_none hw he⟩
    · simp only [hno, Bool.false_eq_true, if_false]
      exact ⟨_, _, rfl, happ fun h' => absurd h' hno⟩

theorem commit (hd : o.design = .writeThrough) (h : WtInv o tid q ss g x) :
    ∃ q' : Quiescent w, stmCommit o tid g x = .ok q'.store ∧ q'.mem = q.after ss := by
  have hafter : g.mem = q.after ss := funext h.mem
  unfold stmCommit
  split
  · next hempty =>
    obtain ⟨q', hq', hqm⟩ := Quiescent.of_free (g := g)
      (fun k => (h.own k).resolve_right (by simp [hempty]))
      (fun k => by rw [h.calm.ver, h.calm.clock]; exact q.ver_le k)
    exact ⟨q', by rw [hq'], by rw [hqm, hafter]⟩
  · simp only [hd]
    show ∃ q' : Quiescent w, (if x.start = g.clock || _ then _ else _) = _ ∧ _
    rw [h.calm.start, h.calm.clock]
    simp only [decide_true, Bool.true_or, if_true, Except.ok.injEq, publishAll, hd]
    have hpub : ∀ (g : Store3 w) (e : WEntry w), (publish o (q.clock + 1) g e).mem = g.mem ∧
        (publish o (q.clock + 1) g e).clock = g.clock ∧
        (publish o (q.clock + 1) g e).lock = if (!e.noDrop) = true then
          Function.update g.lock (o.getLock e.addr) ⟨⟨q.clock + 1, 0⟩, none⟩ else g.lock := by
      intro g e
      simp only [publish, hd]
      cases e.noDrop <;> exact ⟨rfl, rfl, rfl⟩
    have hmem : ∀ (ws : List (WEntry w)) (g : Store3 w),
        (ws.foldl (publish o (q.clock + 1)) g).mem = g.mem := by
      intro ws
      induction ws with
      | nil => exact fun _ => rfl
      | cons e ws ih => exact fun g => (ih _).trans (hpub g e).1
    obtain ⟨hc, hfree⟩ := foldl_release (o := o) (g := { g with clock := q.clock + 1 })
      (f := publish o (q.clock + 1)) (v := fun _ => ⟨q.clock + 1, 0⟩) (fun e => !e.noDrop)
      x.wset.reverse (q.clock + 1)
      (fun g e _ => (hpub g e).2) (fun _ _ _ => le_rfl)
      (fun k => (h.own k).imp_right fun ⟨_, e, he, hed, hlk⟩ =>
        ⟨e, List.mem_reverse.mpr he, hed, hlk⟩)
      (fun k => by
        show (g.lock k).ver.ts ≤ _
        rw [h.calm.ver]
        exact (q.ver_le k).trans (Nat.le_succ _))
    obtain ⟨q', hq', hqm⟩ := Quiescent.of_free (fun k => (hfree k).1)
      (fun k => by rw [hc]; exact (hfree k).2)
    refine ⟨q', hq', ?_⟩
    rw [hqm, hmem]
    exact hafter

/-- One round of the undo loop. -/
theorem undo_spec (p : Store3 w × ℕ) (e : WEntry w) (hp : p.2 ≤ p.1.clock) :
    (Seq.undo o p e).1.mem =
      (if e.mask ≠ 0 then Function.update p.1.mem e.addr e.value else p.1.mem) ∧
    p.1.clock ≤ (Seq.undo o p e).1.clock ∧ (Seq.undo o p e).2 ≤ (Seq.undo o p e).1.clock ∧
    ∃ v : Ver, (v.ts ≤ (Seq.undo o p e).1.clock ∨ v.ts = e.version.ts) ∧
      (Seq.undo o p e).1.lock = if (!e.noDrop) = true then
        Function.update p.1.lock (o.getLock e.addr) ⟨v, none⟩ else p.1.lock := by
  have hset : (if e.mask ≠ 0 then p.1.setMem e.addr e.value else p.1) =
      { p.1 with mem := if e.mask ≠ 0 then Function.update p.1.mem e.addr e.value else p.1.mem } := by
    split <;> rfl
  unfold Seq.undo
  rw [hset]
  cases hnd : e.noDrop with
  | true => exact ⟨rfl, le_rfl, hp, ⟨0, 0⟩, .inl (Nat.zero_le _), rfl⟩
  | false =>
    simp only [Bool.false_eq_true, if_false, Bool.not_false, if_true]
    split
    · split
      · exact ⟨rfl, Nat.le_succ _, le_rfl, ⟨_, 0⟩, .inl le_rfl, rfl⟩
      · exact ⟨rfl, le_rfl, hp, ⟨_, 0⟩, .inl hp, rfl⟩
    · exact ⟨rfl, le_rfl, hp, ⟨e.version.ts, e.version.inc + 1⟩, .inr rfl, rfl⟩

/-- The undo loop restores the words and leaves all locks free. -/
theorem undo_loop (ws : List (WEntry w)) (p : Store3 w × ℕ) (hp : p.2 ≤ p.1.clock)
    (hv : ∀ e ∈ ws, e.noDrop = false → e.version.ts ≤ p.1.clock)
    (hc : Covers o (fun e => !e.noDrop) ws p.1) (hle : ∀ k, (p.1.lock k).ver.ts ≤ p.1.clock) :
    ∀ k, (((ws.foldl (Seq.undo o) p).1.lock k).own = none ∧
      ((ws.foldl (Seq.undo o) p).1.lock k).ver.ts ≤ (ws.foldl (Seq.undo o) p).1.clock) := by
  induction ws generalizing p with
  | nil => exact fun k => ⟨hc.nil k, hle k⟩
  | cons e ws ih =>
    obtain ⟨-, hclock, ht, v, hvts, hlock⟩ := undo_spec (o := o) p e hp
    refine ih (Seq.undo o p e) ht (fun e' he' hd' => ?_) (hc.tail hlock) fun k => ?_
    · exact (hv e' (List.mem_cons_of_mem _ he') hd').trans hclock
    · rw [hlock]
      split
      · next hr =>
        rcases eq_or_ne k (o.getLock e.addr) with rfl | hne
        · rw [Function.update_self]
          rcases hvts with hvts | hvts
          · exact hvts
          · have := hv e (List.mem_cons_self ..) (by simpa using hr)
            show v.ts ≤ _
            omega
        · rw [Function.update_of_ne hne]
          exact (hle k).trans hclock
      · exact (hle k).trans hclock

theorem undo_mem (ws : List (WEntry w)) (p : Store3 w × ℕ) (hp : p.2 ≤ p.1.clock) (a : ℕ) :
    (ws.reverse.foldl (Seq.undo o) p).1.mem a = undone ws a (p.1.mem a) := by
  have hbound : ∀ (vs : List (WEntry w)) (p : Store3 w × ℕ), p.2 ≤ p.1.clock →
      (vs.foldl (Seq.undo o) p).2 ≤ (vs.foldl (Seq.undo o) p).1.clock := by
    intro vs
    induction vs with
    | nil => exact fun _ hp => hp
    | cons e vs ih => exact fun p hp => ih _ (undo_spec (o := o) p e hp).2.2.1
  induction ws with
  | nil => rfl
  | cons e ws ih =>
    rw [List.reverse_cons, List.foldl_append, List.foldl_cons, List.foldl_nil,
      (undo_spec (o := o) _ e (hbound _ p hp)).1, undone, ← ih]
    by_cases hm : e.mask = 0
    · rw [if_neg (not_not.mpr hm), if_neg fun h => h.2 hm]
    · rw [if_pos hm]
      rcases eq_or_ne a e.addr with rfl | hne
      · rw [if_pos ⟨rfl, hm⟩, Function.update_self]
      · rw [Function.update_of_ne hne, if_neg fun h => hne h.1.symm]

theorem abort (hd : o.design = .writeThrough) (h : WtInv o tid q ss g x) :
    ∃ q' : Quiescent w, stmAbort o g x = .ok q'.store ∧ q'.mem = q.mem := by
  simp only [stmAbort, hd, Except.ok.injEq]
  have hfree := undo_loop (o := o) x.wset.reverse (g, 0) (Nat.zero_le _)
    (fun e he hed => by
      rw [h.version e (List.mem_reverse.mp he) hed, h.calm.clock]
      exact q.ver_le _)
    (fun k => (h.own k).imp_right fun ⟨_, e, he, hed, hlk⟩ =>
      ⟨e, List.mem_reverse.mpr he, hed, hlk⟩)
    (fun k => by rw [h.calm.ver, h.calm.clock]; exact q.ver_le k)
  obtain ⟨q', hq', hqm⟩ := Quiescent.of_free (fun k => (hfree k).1) (fun k => (hfree k).2)
  refine ⟨q', hq', ?_⟩
  rw [hqm]
  funext a
  rw [undo_mem _ _ (Nat.zero_le _)]
  exact h.undo a

end WtInv

theorem refines_through (hd : o.design = .writeThrough) : Refines o tid (WtInv o tid) where
  start q := ⟨⟨rfl, rfl, rfl, fun _ => rfl⟩, fun _ => .inl rfl, by simp [Quiescent.fresh],
    fun _ => rfl, fun _ => rfl, by simp [Quiescent.fresh], by simp [Quiescent.fresh]⟩
  load h a := h.load hd a
  write h a v m := h.write hd a v m
  commit h := h.commit hd
  abort h := h.abort hd

end TinyStm.Seq
