import TinyStm.Seq.Model

/-!
# Refinement of plain memory, one call at a time

`Refines` lists what a design has to show of its calls, for a relation between
the state before the transaction, the stores made so far and the present state.
The induction over the calls is done once. The lemmas on loops that release locks
are shared by commit and abort.
-/

namespace TinyStm.Seq

variable {w : ℕ} {o : Opts w} {tid : ℕ} {q : Quiescent w} {ss : List (Store w)} {g : Store3 w}
  {x : Desc w}

/-- Plain memory after the stores `ss`. -/
def Quiescent.after (q : Quiescent w) (ss : List (Store w)) (a : ℕ) : BitVec w :=
  overlay ss a (q.mem a)

/-- The descriptor `stm_prepare` leaves. -/
def Quiescent.fresh (q : Quiescent w) : Desc w := ⟨q.clock, q.clock, [], [], 0, 0⟩

theorem after_snoc (q : Quiescent w) (ss : List (Store w)) (a : ℕ) (v m : BitVec w) :
    q.after (ss ++ [⟨a, v, m⟩]) =
      Function.update (q.after ss) a (mergeBits (q.after ss a) v m) := by
  funext c
  rcases eq_or_ne c a with rfl | hne
  · rw [Function.update_self]
    exact overlay_snoc_self ..
  · rw [Function.update_of_ne hne]
    exact overlay_snoc_of_ne _ _ _ _ (Ne.symm hne)

theorem mergeWord_eq (old v m : BitVec w) : mergeWord old v m = mergeBits old v m := by
  unfold mergeWord
  split
  · next h => rw [h, mergeBits_allOnes]
  · rfl

/-- What the calls of a design do, in terms of the stores made so far. -/
structure Refines (o : Opts w) (tid : ℕ)
    (I : Quiescent w → List (Store w) → Store3 w → Desc w → Prop) : Prop where
  start : ∀ q, I q [] q.store q.fresh
  load : ∀ {q ss g x}, I q ss g x → ∀ a, ∃ x', stmLoad o tid g x a = .ok (q.after ss a, x') ∧
    I q ss g x'
  write : ∀ {q ss g x}, I q ss g x → ∀ a v m, ∃ g' x', stmWrite o tid g x a v m = .ok (g', x') ∧
    I q (ss ++ [⟨a, v, m⟩]) g' x'
  commit : ∀ {q ss g x}, I q ss g x →
    ∃ q', stmCommit o tid g x = .ok (Quiescent.store q') ∧ q'.mem = q.after ss
  abort : ∀ {q ss g x}, I q ss g x →
    ∃ q', stmAbort o g x = .ok (Quiescent.store q') ∧ q'.mem = q.mem

theorem Refines.exec {I : Quiescent w → List (Store w) → Store3 w → Desc w → Prop}
    (h : Refines o tid I) (ops : List (Op w)) (hI : I q ss g x) :
    ∃ g' x' ss', exec o tid ops g x = .ok (g', x', (direct ops (q.after ss)).2) ∧
      I q ss' g' x' ∧ (direct ops (q.after ss)).1 = q.after ss' := by
  induction ops generalizing ss g x with
  | nil => exact ⟨g, x, ss, rfl, hI, rfl⟩
  | cons op ops ih =>
    cases op with
    | load a =>
      obtain ⟨x₁, hload, h₁⟩ := h.load hI a
      obtain ⟨g', x', ss', hex, hI', hmem⟩ := ih h₁
      refine ⟨g', x', ss', ?_, hI', hmem⟩
      show (Except.bind (stmLoad o tid g x a) _) = _
      rw [hload]
      show (Except.bind (Seq.exec o tid ops g x₁) _) = _
      rw [hex]
      rfl
    | store a v =>
      obtain ⟨g₁, x₁, hwr, h₁⟩ := h.write hI a v (BitVec.allOnes w)
      obtain ⟨g', x', ss', hex, hI', hmem⟩ := ih h₁
      rw [after_snoc, mergeBits_allOnes] at hex hmem
      refine ⟨g', x', ss', ?_, hI', hmem⟩
      show (Except.bind (stmWrite o tid g x a v _) _) = _
      rw [hwr]
      exact hex
    | store2 a v m =>
      obtain ⟨g₁, x₁, hwr, h₁⟩ := h.write hI a v m
      obtain ⟨g', x', ss', hex, hI', hmem⟩ := ih h₁
      rw [after_snoc] at hex hmem
      refine ⟨g', x', ss', ?_, hI', hmem⟩
      show (Except.bind (stmWrite o tid g x a v _) _) = _
      rw [hwr]
      exact hex

/-! ### Loads and stores under a free lock -/

/-- The versions are those before the transaction and the snapshot is the present. -/
structure Calm (q : Quiescent w) (g : Store3 w) (x : Desc w) : Prop where
  clock : g.clock = q.clock
  start : x.start = q.clock
  endT : x.endT = q.clock
  ver : ∀ k, (g.lock k).ver = q.ver k

theorem Calm.not_newer (h : Calm q g x) (k : ℕ) : ¬ x.endT < (g.lock k).ver.ts := by
  rw [h.endT, h.ver]
  exact Nat.not_lt.mpr (q.ver_le k)

theorem Calm.readFree (h : Calm q g x) (a : ℕ) :
    readFree o tid g x a =
      .ok (addToReadSet o x (o.getLock a) (g.lock (o.getLock a)).ver.ts) := by
  simp only [Seq.readFree, if_neg (h.not_newer _)]

theorem Calm.writeConflict (h : Calm q g x) (a : ℕ) :
    writeConflict o x a (g.lock (o.getLock a)).ver = false := by
  simp [Seq.writeConflict, h.not_newer]

/-- The read set is the only field a load changes. -/
theorem addToReadSet_eq (x : Desc w) (k v : ℕ) :
    ∃ rs, addToReadSet o x k v = { x with rset := rs } := by
  unfold addToReadSet
  split
  · exact ⟨x.rset, rfl⟩
  · exact ⟨_, rfl⟩

/-! ### Loops that release locks -/

/-- A state with all locks free. -/
theorem Quiescent.of_free (hfree : ∀ k, (g.lock k).own = none)
    (hle : ∀ k, (g.lock k).ver.ts ≤ g.clock) :
    ∃ q : Quiescent w, g = q.store ∧ q.mem = g.mem := by
  refine ⟨⟨g.clock, fun k => (g.lock k).ver, g.mem, hle⟩, ?_, rfl⟩
  obtain ⟨clock, lock, mem⟩ := g
  simp only [Quiescent.store, Store3.mk.injEq, true_and, and_true]
  funext k
  have hk : (lock k).own = none := hfree k
  rw [← hk]

/-- Every lock that is held has an entry of `ws` that `sel` selects. -/
def Covers (o : Opts w) (sel : WEntry w → Bool) (ws : List (WEntry w)) (g : Store3 w) : Prop :=
  ∀ k, (g.lock k).own = none ∨ ∃ e ∈ ws, sel e = true ∧ o.getLock e.addr = k

/-- The round of `e` leaves the locks of the later entries. -/
theorem Covers.tail {sel : WEntry w → Bool} {e : WEntry w} {ws : List (WEntry w)} {g' : Store3 w}
    {u : Ver} (h : Covers o sel (e :: ws) g)
    (hlock : g'.lock = if sel e = true then
      Function.update g.lock (o.getLock e.addr) ⟨u, none⟩ else g.lock) :
    Covers o sel ws g' := by
  intro k
  rw [hlock]
  by_cases hs : sel e = true
  · rw [if_pos hs]
    rcases eq_or_ne k (o.getLock e.addr) with rfl | hne
    · simp
    · rw [Function.update_of_ne hne]
      rcases h k with hk | ⟨e', he', hse', hlk⟩
      · exact .inl hk
      · rcases List.mem_cons.mp he' with rfl | he'
        · exact absurd hlk.symm hne
        · exact .inr ⟨e', he', hse', hlk⟩
  · rw [if_neg hs]
    rcases h k with hk | ⟨e', he', hse', hlk⟩
    · exact .inl hk
    · rcases List.mem_cons.mp he' with rfl | he'
      · exact absurd hse' hs
      · exact .inr ⟨e', he', hse', hlk⟩

theorem Covers.nil {sel : WEntry w → Bool} (h : Covers o sel [] g) (k : ℕ) :
    (g.lock k).own = none := by
  rcases h k with hk | ⟨e, he, -⟩
  · exact hk
  · simp at he

/-- A loop that releases the locks of the entries `sel` selects, with versions below
the clock, leaves all locks free. -/
theorem foldl_release {f : Store3 w → WEntry w → Store3 w} (sel : WEntry w → Bool)
    {v : WEntry w → Ver} (ws : List (WEntry w)) (c : ℕ)
    (hf : ∀ g, ∀ e ∈ ws, (f g e).clock = g.clock ∧ (f g e).lock =
      if sel e = true then Function.update g.lock (o.getLock e.addr) ⟨v e, none⟩ else g.lock)
    (hv : ∀ e ∈ ws, sel e = true → (v e).ts ≤ c) (hc : Covers o sel ws g)
    (hle : ∀ k, (g.lock k).ver.ts ≤ c) :
    (ws.foldl f g).clock = g.clock ∧ ∀ k, ((ws.foldl f g).lock k).own = none ∧
      ((ws.foldl f g).lock k).ver.ts ≤ c := by
  induction ws generalizing g with
  | nil => exact ⟨rfl, fun k => ⟨hc.nil k, hle k⟩⟩
  | cons e ws ih =>
    obtain ⟨hclock, hlock⟩ := hf g e (List.mem_cons_self ..)
    have hrec := ih (g := f g e) (fun g e' he' => hf g e' (List.mem_cons_of_mem _ he'))
      (fun e' he' => hv e' (List.mem_cons_of_mem _ he')) (hc.tail hlock) fun k => ?_
    · rw [hclock] at hrec
      exact hrec
    · rw [hlock]
      split
      · next hs =>
        rcases eq_or_ne k (o.getLock e.addr) with rfl | hne
        · rw [Function.update_self]
          exact hv e (List.mem_cons_self ..) hs
        · rw [Function.update_of_ne hne]
          exact hle k
      · exact hle k

/-- The memory after a loop that makes one masked store for each entry. -/
theorem foldl_mem {f : Store3 w → WEntry w → Store3 w} (st : WEntry w → Store w)
    (ws : List (WEntry w)) (hst : ∀ e, (st e).addr = e.addr)
    (hf : ∀ g e, (f g e).mem =
      Function.update g.mem e.addr (mergeBits (g.mem e.addr) (st e).value (st e).mask))
    (a : ℕ) : (ws.foldl f g).mem a = overlay (ws.map st) a (g.mem a) := by
  induction ws generalizing g with
  | nil => rfl
  | cons e ws ih =>
    rw [List.foldl_cons, ih, List.map_cons, overlay, hf, hst]
    congr 1
    split
    · next ha =>
      subst ha
      exact Function.update_self ..
    · next ha => exact Function.update_of_ne (Ne.symm ha) _ _

/-- A sequence of stores to distinct addresses, seen at one of them. -/
theorem overlay_map_eq {st : WEntry w → Store w} {ws : List (WEntry w)}
    (hst : ∀ e, (st e).addr = e.addr)
    (hinj : ∀ {i j : ℕ} {e e' : WEntry w}, ws[i]? = some e → ws[j]? = some e' →
      e.addr = e'.addr → i = j) {e : WEntry w} (he : e ∈ ws) (y : BitVec w) :
    overlay (ws.map st) e.addr y = mergeBits y (st e).value (st e).mask := by
  obtain ⟨pre, post, rfl⟩ := List.append_of_mem he
  have hi : (pre ++ e :: post)[pre.length]? = some e := by simp
  have hpre : ∀ s ∈ pre.map st, s.addr ≠ e.addr := by
    intro s hs heq
    obtain ⟨f, hf, rfl⟩ := List.mem_map.mp hs
    obtain ⟨j, hj⟩ := List.mem_iff_getElem?.mp hf
    have hlt := getElem?_lt hj
    have := hinj (i := j) (by rw [List.getElem?_append_left hlt]; exact hj) hi
      ((hst f).symm.trans heq)
    omega
  have hpost : ∀ s ∈ post.map st, s.addr ≠ e.addr := by
    intro s hs heq
    obtain ⟨f, hf, rfl⟩ := List.mem_map.mp hs
    obtain ⟨j, hj⟩ := List.mem_iff_getElem?.mp hf
    have hj' : (pre ++ e :: post)[pre.length + (j + 1)]? = some f := by
      rw [List.getElem?_append_right (by omega)]
      simpa using hj
    have := hinj hj' hi ((hst f).symm.trans heq)
    omega
  rw [List.map_append, overlay_append, overlay_of_forall_ne hpre, List.map_cons, overlay,
    overlay_of_forall_ne hpost, if_pos (hst e)]

end TinyStm.Seq
