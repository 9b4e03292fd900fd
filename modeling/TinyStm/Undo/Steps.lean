import TinyStm.Undo.Inv

/-!
# Steps on the undo log

Every step of a thread keeps the invariants and has the effect it should have.
-/

namespace TinyStm.Undo

open UndoLog

variable {w : ℕ} {getLock : ℕ → ℕ} {noDup : Bool} {tid k a i j t : ℕ} {g g' : Mem w}
  {x x' : Thread w} {p : Pc w} {e : WEntry w} {v m : BitVec w} {l : Ver}

structure StepOk (getLock : ℕ → ℕ) (noDup : Bool) (tid : ℕ) (g g' : Mem w) (x x' : Thread w) : Prop where
  thread : ThreadOk getLock noDup tid g' x'
  shared : SharedOk g'
  effect : Effect getLock tid g g' x x'

/-! ### Steps that leave locks and memory alone -/

theorem Effect.quiet (hclock : g.clock ≤ g'.clock) (hlock : g'.lock = g.lock) (hmem : g'.mem = g.mem)
    (hlog : ∀ a, (g.lock (getLock a)).own = some (.entry tid 0) → x'.undone g.mem a = x.undone g.mem a) :
    Effect getLock tid g g' x x' where
  clock := hclock
  lock k := by
    rw [hlock]
    exact .keep
  mem a := .inl (by rw [hmem])
  log a ha _ := by
    rw [hmem]
    exact hlog a ha
  took a hfree htook := by
    rw [hlock, hfree] at htook
    cases htook

/-- Only the program counter changes, and perhaps the clock. -/
theorem ThreadOk.goto (hS : SharedOk g) (h : ThreadOk getLock noDup tid g x)
    (hclock : g.clock ≤ g'.clock) (hlock : g'.lock = g.lock) (hmem : g'.mem = g.mem)
    (hleft : Thread.left { x with pc := p } = x.left)
    (hlog : ∀ a, (g.lock (getLock a)).own = some (.entry tid 0) →
      Thread.undone { x with pc := p } g.mem a = x.undone g.mem a)
    (hunit : ∀ k, UnitHolds getLock k p ↔ UnitHolds getLock k x.pc)
    (hstamp : ∀ t, p.stamp = some t → t ≤ g'.clock ∧ ∀ k, Holds tid (g.lock k) → (g.lock k).ver.ts < t)
    (hpc : PcOk { x with pc := p } p) :
    StepOk getLock noDup tid g g' x { x with pc := p } where
  thread :=
    { held := fun hj hlt => by
        rw [hlock]
        exact h.held hj (hleft ▸ hlt)
      own := fun hk => by
        rw [hlock] at hk
        rw [hleft]
        exact h.own hk
      unit := fun k => by
        rw [hlock]
        exact (h.unit k).trans (hunit k).symm
      first := h.first
      version := fun hj hlt hd => by
        rw [hlock]
        exact h.version hj (hleft ▸ hlt) hd
      inj := h.inj
      stamp := fun ht => by
        rw [hlock]
        exact hstamp _ ht
      pc := hpc }
  shared := ⟨fun k => by
    rw [hlock]
    exact (hS.ver_le k).trans hclock, fun hk => hS.index (by rwa [← hlock])⟩
  effect := Effect.quiet hclock hlock hmem hlog

theorem undone_congr (hlog : Thread.logLeft { x with pc := p } = x.logLeft) (mem : ℕ → BitVec w) :
    Thread.undone { x with pc := p } mem = x.undone mem := by
  rw [Thread.undone, Thread.undone, hlog]

/-- The next place in the same phase. -/
theorem ThreadOk.next (hS : SharedOk g) (h : ThreadOk getLock noDup tid g x)
    (hleft : Thread.left { x with pc := p } = x.left)
    (hlog : Thread.logLeft { x with pc := p } = x.logLeft)
    (hunit : ∀ k, UnitHolds getLock k p ↔ UnitHolds getLock k x.pc)
    (hstamp : ∀ t, p.stamp = some t → x.pc.stamp = some t) (hpc : PcOk { x with pc := p } p) :
    StepOk getLock noDup tid g g x { x with pc := p } :=
  h.goto hS (Nat.le_refl _) rfl rfl hleft (fun _ _ => by rw [undone_congr hlog]) hunit (fun t ht => h.stamp (hstamp t ht)) hpc

/-- A timestamp is drawn. -/
theorem ThreadOk.fetchInc (hS : SharedOk g) (h : ThreadOk getLock noDup tid g x)
    (hleft : Thread.left { x with pc := p } = x.left)
    (hlog : Thread.logLeft { x with pc := p } = x.logLeft)
    (hunit : ∀ k, UnitHolds getLock k p ↔ UnitHolds getLock k x.pc)
    (hstamp : ∀ t, p.stamp = some t → t = g.clock + 1) (hpc : PcOk { x with pc := p } p) :
    StepOk getLock noDup tid g g.fetchInc x { x with pc := p } :=
  h.goto hS (Nat.le_succ _) rfl rfl hleft (fun _ _ => by rw [undone_congr hlog]) hunit
    (fun t ht => by
      rw [hstamp t ht]
      exact ⟨Nat.le_refl _, fun k _ => Nat.lt_succ_of_le (hS.ver_le k)⟩) hpc

/-! ### New entries -/

/-- Where no entry is left to be undone. -/
theorem ThreadOk.undone_eq (h : ThreadOk getLock noDup tid g x) (hle : x.logLeft ≤ x.left)
    (hfree : (g.lock (getLock a)).own ≠ some (.entry tid 0)) (m : ℕ → BitVec w) :
    x.undone m a = m a := by
  refine restore_of_forall_ne (fun s hs hsa => ?_) m
  obtain ⟨e, he, rfl⟩ := List.mem_map.mp hs
  obtain ⟨j, hj⟩ := List.mem_iff_getElem?.mp he
  rw [List.getElem?_take] at hj
  split at hj
  · next hlt =>
    have hheld := h.held hj (Nat.lt_of_lt_of_le hlt hle)
    rw [show e.addr = a from hsa] at hheld
    exact hfree hheld
  · cases hj

theorem doWrite_left (x : Thread w) (a : ℕ) (v m : BitVec w) (l : Ver) (duplicate : Bool) :
    (doWrite x a v m l duplicate).left = x.wset.length + 1 ∧
      (doWrite x a v m l duplicate).logLeft = x.wset.length + 1 := by
  unfold doWrite
  constructor
  · unfold Thread.left
    split <;> simp_all
    all_goals (split at * <;> simp_all)
  · unfold Thread.logLeft
    split <;> simp_all
    all_goals (split at * <;> simp_all)

theorem doWrite_undone (hlog : x.logLeft = x.wset.length) (duplicate : Bool) (mem : ℕ → BitVec w) :
    (doWrite x a v m l duplicate).undone mem = x.undone mem := by
  have hlen := (doWrite_left x a v m l duplicate).2
  unfold Thread.undone
  rw [hlen, hlog, List.take_length]
  have hall : (doWrite x a v m l duplicate).wset.take (x.wset.length + 1) =
      x.wset ++ [newEntry a l duplicate] := List.take_of_length_le (by simp [doWrite])
  rw [hall, List.map_append, List.map_cons, List.map_nil]
  have hnone : (saved (newEntry a l duplicate : WEntry w)).value = none := by
    simp [saved, newEntry]
  exact (restore_none hnone _ [] mem).trans (by rw [List.append_nil])

/-- The lock is the thread's by now; `g` is the state before. -/
theorem ThreadOk.append (h : ThreadOk getLock noDup tid g x) (hleft : x.left = x.wset.length)
    (hunit : ∀ k, ¬ UnitHolds getLock k x.pc) (duplicate : Bool) (v m : BitVec w)
    (hothers : ∀ k, k ≠ getLock a → g'.lock k = g.lock k)
    (hown : (g'.lock (getLock a)).own = some (.entry tid 0))
    (hver : (g'.lock (getLock a)).ver = (g.lock (getLock a)).ver)
    (hl : duplicate = false → l = (g.lock (getLock a)).ver)
    (hdup : duplicate = true ↔
      ∃ (i : ℕ) (f : WEntry w), x.wset[i]? = some f ∧ getLock f.addr = getLock a)
    (hinj : noDup = true → ∀ (i : ℕ) (f : WEntry w), x.wset[i]? = some f → f.addr ≠ a) :
    ThreadOk getLock noDup tid g' (doWrite x a v m l duplicate) := by
  have hlen := (doWrite_left x a v m l duplicate).1
  have hget {j : ℕ} {e : WEntry w} (hj : (doWrite x a v m l duplicate).wset[j]? = some e) :
      x.wset[j]? = some e ∨ (j = x.wset.length ∧ e = newEntry a l duplicate) := getElem?_snoc.mp hj
  have hput {j : ℕ} {e : WEntry w} (hj : x.wset[j]? = some e) :
      (doWrite x a v m l duplicate).wset[j]? = some e := getElem?_snoc.mpr (.inl hj)
  have hnew : (doWrite x a v m l duplicate).wset[x.wset.length]? = some (newEntry a l duplicate) :=
    getElem?_snoc.mpr (.inr ⟨rfl, rfl⟩)
  have hkeep (k : ℕ) (hk : (g.lock k).own = some (.entry tid 0)) :
      (g'.lock k).own = some (.entry tid 0) := by
    by_cases hka : k = getLock a
    · rw [hka]
      exact hown
    · rw [hothers k hka]
      exact hk
  have hverk (k : ℕ) : (g'.lock k).ver = (g.lock k).ver := by
    by_cases hka : k = getLock a
    · rw [hka]
      exact hver
    · rw [hothers k hka]
  refine ⟨?_, ?_, ?_, ?_, ?_, ?_, ?_, ?_⟩
  · intro j e hj hlt
    obtain hj | ⟨-, rfl⟩ := hget hj
    · exact hkeep _ (h.held hj (hleft ▸ getElem?_lt hj))
    · exact hown
  · intro k hk
    rw [hlen]
    by_cases hka : k = getLock a
    · exact ⟨_, _, hnew, Nat.lt_succ_self _, hka.symm⟩
    · rw [hothers k hka] at hk
      obtain ⟨j, e, hj, hlt, hek⟩ := h.own hk
      exact ⟨j, e, hput hj, Nat.lt_succ_of_lt (getElem?_lt hj), hek⟩
  · intro k
    have hpc : ¬ UnitHolds getLock k (doWrite x a v m l duplicate).pc := by
      unfold doWrite
      dsimp only
      split <;> exact id
    refine iff_of_false (fun hk => ?_) hpc
    by_cases hka : k = getLock a
    · rw [hka, hown] at hk
      cases hk
    · rw [hothers k hka] at hk
      exact hunit k ((h.unit k).mp hk)
  · intro j e hj
    obtain hj | ⟨rfl, rfl⟩ := hget hj
    · refine (h.first hj).trans ⟨?_, ?_⟩
      · rintro ⟨i, f, hlt, hi, hf⟩
        exact ⟨i, f, hlt, hput hi, hf⟩
      · rintro ⟨i, f, hlt, hi, hf⟩
        obtain hi | ⟨rfl, -⟩ := hget hi
        · exact ⟨i, f, hlt, hi, hf⟩
        · exact absurd (getElem?_lt hj) (by omega)
    · refine Iff.trans hdup ⟨?_, ?_⟩
      · rintro ⟨i, f, hi, hf⟩
        exact ⟨i, f, getElem?_lt hi, hput hi, hf⟩
      · rintro ⟨i, f, hlt, hi, hf⟩
        obtain hi | ⟨rfl, -⟩ := hget hi
        · exact ⟨i, f, hi, hf⟩
        · exact absurd hlt (Nat.lt_irrefl _)
  · intro j e hj hlt hd
    rw [hverk]
    obtain hj | ⟨-, rfl⟩ := hget hj
    · exact h.version hj (hleft ▸ getElem?_lt hj) hd
    · exact hl hd
  · intro hn i j e f hi hj hef
    obtain hi | ⟨rfl, rfl⟩ := hget hi <;> obtain hj | ⟨rfl, rfl⟩ := hget hj
    · exact h.inj hn hi hj hef
    · exact absurd hef (hinj hn i e hi)
    · exact absurd hef.symm (hinj hn j f hj)
    · rfl
  · intro t ht
    exfalso
    unfold doWrite at ht
    dsimp only at ht
    split at ht <;> cases ht
  · unfold doWrite
    dsimp only
    split
    · trivial
    · next hm =>
      refine ⟨hm, _, hnew, rfl, fun j f hlt hj => ?_⟩
      have hlt' := getElem?_lt hj
      simp only [List.length_append, List.length_singleton] at hlt'
      omega

/-- An entry for a lock that is the thread's already. -/
theorem ThreadOk.append_own (hS : SharedOk g) (h : ThreadOk getLock noDup tid g x)
    (hp : x.pc = .writeLock a v m) (hk : (g.lock (getLock a)).own = some (.entry tid 0)) (l : Ver)
    (hinj : noDup = true → ∀ (i : ℕ) (f : WEntry w), x.wset[i]? = some f → f.addr ≠ a) :
    StepOk getLock noDup tid g g x (doWrite x a v m l true) := by
  have hleft : x.left = x.wset.length := by rw [Thread.left, hp]
  have hlog : x.logLeft = x.wset.length := by rw [Thread.logLeft, hp]
  obtain ⟨j, e, hj, -, he⟩ := h.own hk
  exact ⟨h.append hleft (fun k => by rw [hp]; exact id) true v m (fun _ _ => rfl) hk rfl
    (fun hd => nomatch hd) (iff_of_true rfl ⟨j, e, hj, he⟩) hinj, hS,
    Effect.quiet (Nat.le_refl _) rfl rfl fun a _ => by rw [doWrite_undone hlog]⟩

/-- The lock is acquired. -/
theorem ThreadOk.append_take (hS : SharedOk g) (h : ThreadOk getLock noDup tid g x)
    (hp : x.pc = .writeCas a v m l) (hk : g.lock (getLock a) = ⟨l, none⟩) :
    StepOk getLock noDup tid g (g.setLock (getLock a) ⟨l, some (.entry tid 0)⟩) x
      (doWrite x a v m l false) := by
  have hleft : x.left = x.wset.length := by rw [Thread.left, hp]
  have hlog : x.logLeft = x.wset.length := by rw [Thread.logLeft, hp]
  have hself : (g.setLock (getLock a) ⟨l, some (.entry tid 0)⟩).lock (getLock a) =
      ⟨l, some (.entry tid 0)⟩ := Function.update_self ..
  have hothers (k : ℕ) (hne : k ≠ getLock a) :
      (g.setLock (getLock a) ⟨l, some (.entry tid 0)⟩).lock k = g.lock k :=
    Function.update_of_ne hne _ _
  -- no entry is on the stripe of a free lock
  have hfresh (i : ℕ) (f : WEntry w) (hi : x.wset[i]? = some f) : getLock f.addr ≠ getLock a := by
    intro he
    have hheld := h.held hi (hleft ▸ getElem?_lt hi)
    rw [he, hk] at hheld
    cases hheld
  have hnone : ¬ ∃ (i : ℕ) (f : WEntry w), x.wset[i]? = some f ∧ getLock f.addr = getLock a := by
    rintro ⟨i, f, hi, he⟩
    exact hfresh i f hi he
  refine ⟨h.append hleft (fun k => by rw [hp]; exact id) false v m hothers (by rw [hself])
    (by rw [hself, hk]) (fun _ => by rw [hk]) (iff_of_false Bool.false_ne_true hnone)
    (fun _ i f hi he => hfresh i f hi (by rw [he])), ⟨?_, ?_⟩,
    ⟨Nat.le_refl _, ?_, fun _ => .inl rfl, ?_, ?_⟩⟩
  · intro k
    by_cases hka : k = getLock a
    · have hle := hS.ver_le k
      rw [hka] at hle ⊢
      rwa [hself, ← show (g.lock (getLock a)).ver = l by rw [hk]]
    · rw [hothers k hka]
      exact hS.ver_le k
  · intro k t n hkt
    by_cases hka : k = getLock a
    · rw [hka, hself] at hkt
      cases hkt
      rfl
    · rw [hothers k hka] at hkt
      exact hS.index hkt
  · intro k
    by_cases hka : k = getLock a
    · rw [hka, hself]
      exact .take (l := g.lock (getLock a)) (by rw [hk]) (.inl rfl) (by rw [hk])
    · rw [hothers k hka]
      exact .keep
  · intro a' _ _
    exact congrFun (doWrite_undone hlog false _) a'
  · intro a' hfree _
    refine (congrFun (doWrite_undone hlog false _) a').trans (h.undone_eq (by omega) ?_ _)
    rw [hfree]
    exact nofun

/-! ### The old value -/

theorem restore_remember {ws : List (WEntry w)} (he : ws[i]? = some e) (hmask : e.mask = 0) (hm : m ≠ 0)
    (hlast : ∀ (j : ℕ) (f : WEntry w), i < j → ws[j]? = some f → f.addr ≠ e.addr) (mem : ℕ → BitVec w) :
    restore ((ws.set i { e with value := mem e.addr, mask := m }).map saved) mem =
      restore (ws.map saved) mem := by
  obtain ⟨hi, hei⟩ := List.getElem?_eq_some_iff.mp he
  obtain ⟨l₁, l₂, rfl, rfl⟩ : ∃ l₁ l₂, ws = l₁ ++ e :: l₂ ∧ i = l₁.length := by
    refine ⟨ws.take i, ws.drop (i + 1), ?_, by rw [List.length_take]; omega⟩
    rw [← hei, ← List.drop_eq_getElem_cons hi, List.take_append_drop]
  have hback : ∀ s ∈ l₂.map saved, s.addr ≠ e.addr := by
    intro s hs
    obtain ⟨f, hf, rfl⟩ := List.mem_map.mp hs
    obtain ⟨j, hj⟩ := List.mem_iff_getElem?.mp hf
    refine hlast (l₁.length + (j + 1)) f (by omega) ?_
    rw [List.getElem?_append_right (Nat.le_add_right _ _), Nat.add_sub_cancel_left]
    exact hj
  have hempty : (saved e).value = none := by rw [saved, if_pos hmask]
  have hsaved : saved { e with value := mem e.addr, mask := m } = ⟨e.addr, some (mem e.addr)⟩ := by
    rw [saved, if_neg hm]
  rw [List.set_append_right _ _ (Nat.le_refl _), Nat.sub_self, List.set_cons_zero, List.map_append,
    List.map_cons, List.map_append, List.map_cons, hsaved, restore_save hback, restore_none hempty]

theorem ThreadOk.remember (hS : SharedOk g) (h : ThreadOk getLock noDup tid g x) {reload : Bool}
    (hp : x.pc = .remember i v m reload) (he : x.wset[i]? = some e) (hpc : Pc w)
    (hwrite : hpc = .merge e.addr v m ∨ ∃ y, hpc = .writeMem e.addr y) :
    StepOk getLock noDup tid g g x
      ⟨x.wset.set i { e with value := g.mem e.addr, mask := m }, hpc⟩ := by
  obtain ⟨hm, e', he', hmask, hlast⟩ : PcOk x (.remember i v m reload) := hp ▸ h.pc
  rw [he] at he'
  cases he'
  have hleft : x.left = x.wset.length := by rw [Thread.left, hp]
  have hlog : x.logLeft = x.wset.length := by rw [Thread.logLeft, hp]
  let x' : Thread w := ⟨x.wset.set i { e with value := g.mem e.addr, mask := m }, hpc⟩
  have hlen : x'.wset.length = x.wset.length := List.length_set
  have hleft' : x'.left = x.wset.length := by
    obtain rfl | ⟨y, rfl⟩ := hwrite <;> exact hlen
  have hlog' : x'.logLeft = x.wset.length := by
    obtain rfl | ⟨y, rfl⟩ := hwrite <;> exact hlen
  -- the entries are those before, but for value and mask of this one
  have hget {j : ℕ} {f : WEntry w} (hj : x'.wset[j]? = some f) : ∃ f', x.wset[j]? = some f' ∧
      f.addr = f'.addr ∧ f.noDrop = f'.noDrop ∧ f.version = f'.version := by
    rw [List.getElem?_set] at hj
    split at hj
    · next hij =>
      subst hij
      split at hj
      · cases hj
        exact ⟨e, he, rfl, rfl, rfl⟩
      · cases hj
    · exact ⟨f, hj, rfl, rfl, rfl⟩
  have hput {j : ℕ} {f : WEntry w} (hj : x.wset[j]? = some f) : ∃ f', x'.wset[j]? = some f' ∧
      f'.addr = f.addr := by
    by_cases hij : i = j
    · subst hij
      rw [he] at hj
      cases hj
      exact ⟨_, List.getElem?_set_self (getElem?_lt he), rfl⟩
    · exact ⟨f, (List.getElem?_set_ne hij).trans hj, rfl⟩
  refine ⟨⟨?_, ?_, ?_, ?_, ?_, ?_, ?_, ?_⟩, hS, Effect.quiet (Nat.le_refl _) rfl rfl ?_⟩
  · intro j f hj hlt
    obtain ⟨f', hj', ha, -⟩ := hget hj
    rw [ha]
    exact h.held hj' (hleft ▸ getElem?_lt hj')
  · intro k hk
    obtain ⟨j, f, hj, hlt, hf⟩ := h.own hk
    obtain ⟨f', hj', ha⟩ := hput hj
    exact ⟨j, f', hj', by rw [hleft']; exact getElem?_lt hj, by rw [ha, hf]⟩
  · intro k
    rw [h.unit k, hp]
    obtain rfl | ⟨y, rfl⟩ := hwrite <;> exact Iff.rfl
  · intro j f hj
    obtain ⟨f', hj', ha, hd, -⟩ := hget hj
    rw [hd, ha, h.first hj']
    constructor
    · rintro ⟨n, f₁, hlt, hn, hf⟩
      obtain ⟨f₂, hn', ha'⟩ := hput hn
      exact ⟨n, f₂, hlt, hn', by rw [ha', hf]⟩
    · rintro ⟨n, f₁, hlt, hn, hf⟩
      obtain ⟨f₂, hn', ha', -⟩ := hget hn
      exact ⟨n, f₂, hlt, hn', by rw [← ha', hf]⟩
  · intro j f hj hlt hnd
    obtain ⟨f', hj', ha, hd, hv⟩ := hget hj
    rw [hv, ha]
    exact h.version hj' (hleft ▸ getElem?_lt hj') (by rw [← hd, hnd])
  · intro hn j n f₁ f₂ hj hn' hef
    obtain ⟨f₁', hj', ha, -⟩ := hget hj
    obtain ⟨f₂', hn'', ha', -⟩ := hget hn'
    exact h.inj hn hj' hn'' (by rw [← ha, ← ha', hef])
  · intro t ht
    obtain rfl | ⟨y, rfl⟩ := hwrite <;> cases ht
  · have hsaves : x'.Saves e.addr := ⟨i, _, List.getElem?_set_self (getElem?_lt he), rfl, hm⟩
    obtain rfl | ⟨y, rfl⟩ := hwrite <;> exact hsaves
  · intro a _
    have hfull : x'.wset.take x'.logLeft = x'.wset := List.take_of_length_le (by omega)
    change x'.undone g.mem a = x.undone g.mem a
    rw [Thread.undone, Thread.undone, hfull, hlog, List.take_length]
    exact congrFun (restore_remember he hmask hm hlast g.mem) a

/-! ### Stores -/

/-- A store to a word whose lock the thread has. -/
theorem ThreadOk.setMem (hS : SharedOk g) (h : ThreadOk getLock noDup tid g x)
    (hk : Holds tid (g.lock (getLock a))) (v : BitVec w)
    (hleft : Thread.left { x with pc := p } = x.left)
    (hunit : ∀ k, UnitHolds getLock k p ↔ UnitHolds getLock k x.pc)
    (hstamp : ∀ t, p.stamp = some t → x.pc.stamp = some t) (hpc : PcOk { x with pc := p } p)
    (hlog : ∀ a', (g.lock (getLock a')).own = some (.entry tid 0) →
      Thread.undone { x with pc := p } (Function.update g.mem a v) a' = x.undone g.mem a') :
    StepOk getLock noDup tid g (g.setMem a v) x { x with pc := p } where
  thread :=
    { held := fun hj hlt => h.held hj (hleft ▸ hlt)
      own := fun hk => hleft ▸ h.own hk
      unit := fun k => (h.unit k).trans (hunit k).symm
      first := h.first
      version := fun hj hlt hd => h.version hj (hleft ▸ hlt) hd
      inj := h.inj
      stamp := fun ht => h.stamp (hstamp _ ht)
      pc := hpc }
  shared := ⟨hS.ver_le, hS.index⟩
  effect :=
    { clock := Nat.le_refl _
      lock := fun _ => .keep
      mem := fun a' => by
        by_cases ha : a' = a
        · rw [ha]
          exact .inr ⟨hk, rfl⟩
        · exact .inl (Function.update_of_ne ha _ _)
      log := fun a' ha _ => hlog a' ha
      took := fun a' hfree htook => by
        have htook' : (g.lock (getLock a')).own = some (.entry tid 0) := htook
        rw [hfree] at htook'
        cases htook' }

theorem ThreadOk.writeMem (hS : SharedOk g) (h : ThreadOk getLock noDup tid g x)
    (hp : x.pc = .writeMem a v) : StepOk getLock noDup tid g (g.setMem a v) x { x with pc := .run } := by
  obtain ⟨j, e, hj, he, hmask⟩ : PcOk x (.writeMem a v) := hp ▸ h.pc
  have hleft : x.left = x.wset.length := by rw [Thread.left, hp]
  have hlog : x.logLeft = x.wset.length := by rw [Thread.logLeft, hp]
  have hheld := h.held hj (hleft ▸ getElem?_lt hj)
  refine h.setMem hS (.inl (he ▸ hheld)) v (by rw [hleft]; rfl) (fun k => by rw [hp]; exact Iff.rfl)
    (fun t ht => nomatch ht) trivial fun a' _ => ?_
  have hsaved : ∃ s ∈ x.wset.map saved, s.addr = a ∧ s.value ≠ none := by
    refine ⟨saved e, List.mem_map.mpr ⟨e, List.mem_of_getElem? hj, rfl⟩, he, ?_⟩
    rw [saved, if_neg hmask]
    exact Option.some_ne_none _
  have hfull : x.wset.take (Thread.logLeft { x with pc := .run }) = x.wset := List.take_length
  rw [Thread.undone, Thread.undone, hfull, hlog, List.take_length]
  exact congrFun (restore_update hsaved g.mem v) a'

/-- The undo of one entry. -/
theorem ThreadOk.undo (hS : SharedOk g) (h : ThreadOk getLock noDup tid g x) (hp : x.pc = .undo (j + 1) t)
    (he : x.wset[j]? = some e) :
    StepOk getLock noDup tid g (if e.mask ≠ 0 then g.setMem e.addr e.value else g) x
      { x with pc := .drop (j + 1) t } := by
  have hleft : x.left = j + 1 := by rw [Thread.left, hp]
  have hle : j + 1 ≤ x.wset.length := by
    have hpc := h.pc
    rw [hp] at hpc
    exact hpc
  have hstamp : ∀ t', (Pc.drop (j + 1) t : Pc w).stamp = some t' → x.pc.stamp = some t' := by
    rw [hp]
    exact fun _ ht => ht
  have hundone (mem : ℕ → BitVec w) : x.undone mem =
      Thread.undone { x with pc := .drop (j + 1) t } ((saved e).put mem) := by
    have hlog : x.logLeft = j + 1 := by rw [Thread.logLeft, hp]
    have htake : x.wset.take (j + 1) = x.wset.take j ++ [e] := by
      rw [List.take_add_one, he, Option.toList_some]
    rw [Thread.undone, Thread.undone, hlog, htake, List.map_append, List.map_cons, List.map_nil,
      restore_snoc]
    rfl
  split
  · next hmask =>
    refine h.setMem hS (.inl (h.held he (by omega))) e.value hleft.symm
      (fun k => by rw [hp]; exact Iff.rfl) hstamp ⟨Nat.succ_pos j, hle⟩ fun a' _ => ?_
    rw [hundone, Saved.put, saved, if_neg hmask]
  · next hmask =>
    have hnone : (saved e).put g.mem = g.mem := by
      rw [Saved.put, saved, if_pos (not_not.mp hmask)]
    exact h.goto hS (Nat.le_refl _) rfl rfl hleft.symm (fun a' _ => by rw [hundone, hnone])
      (fun k => by rw [hp]; exact Iff.rfl) (fun t' ht' => h.stamp (hstamp t' ht'))
      ⟨Nat.succ_pos j, hle⟩

/-! ### Dropping locks -/

theorem setLock_self (g : Mem w) (k : ℕ) (l : LockWord) : (g.setLock k l).lock k = l :=
  Function.update_self ..

theorem setLock_of_ne (g : Mem w) {k k' : ℕ} (l : LockWord) (h : k' ≠ k) :
    (g.setLock k l).lock k' = g.lock k' := Function.update_of_ne h _ _

theorem SharedOk.free (hS : SharedOk g) (k : ℕ) (hle : l.ts ≤ g.clock) :
    SharedOk (g.setLock k ⟨l, none⟩) where
  ver_le k' := by
    by_cases hk : k' = k
    · rw [hk, setLock_self]
      exact hle
    · rw [setLock_of_ne g _ hk]
      exact hS.ver_le k'
  index {k' t n} hk' := by
    by_cases hk : k' = k
    · rw [hk, setLock_self] at hk'
      cases hk'
    · rw [setLock_of_ne g _ hk] at hk'
      exact hS.index hk'

theorem LockStep.free_at {k' : ℕ} (hk : Holds tid (g.lock k)) (hnew : Newer (g.lock k).ver l) :
    LockStep tid (g.lock k') ((g.setLock k ⟨l, none⟩).lock k') := by
  by_cases h : k' = k
  · rw [h, setLock_self]
    exact .free hk rfl hnew
  · rw [setLock_of_ne g _ h]
    exact .keep

/-- The entry that has acquired the lock drops it. -/
theorem ThreadOk.freeLock (hS : SharedOk g) (h : ThreadOk getLock noDup tid g x)
    (he : x.wset[j]? = some e) (hdrop : e.noDrop = false) (hleft : x.left = j + 1)
    (hleft' : Thread.left { x with pc := p } = j)
    (hlog : Thread.logLeft { x with pc := p } = x.logLeft)
    (hunit : ∀ k, ¬ UnitHolds getLock k x.pc) (hunit' : ∀ k, ¬ UnitHolds getLock k p)
    (hstamp : ∀ t, p.stamp = some t → x.pc.stamp = some t) (hpc : PcOk { x with pc := p } p)
    (hnew : Newer (g.lock (getLock e.addr)).ver l) (hle : l.ts ≤ g.clock) :
    StepOk getLock noDup tid g (g.setLock (getLock e.addr) ⟨l, none⟩) x { x with pc := p } := by
  have hheld := h.held he (by omega)
  -- no entry that is left is on this stripe
  have hne {i : ℕ} {f : WEntry w} (hi : x.wset[i]? = some f) (hlt : i < j) :
      getLock f.addr ≠ getLock e.addr := by
    intro hf
    have hd := (h.first he).mpr ⟨i, f, hlt, hi, hf⟩
    rw [hdrop] at hd
    cases hd
  refine ⟨⟨?_, ?_, ?_, h.first, ?_, h.inj, ?_, hpc⟩, hS.free _ hle, ⟨Nat.le_refl _, fun k' => ?_,
    fun _ => .inl rfl, ?_, ?_⟩⟩
  · intro i f hi hlt
    rw [hleft'] at hlt
    rw [setLock_of_ne g _ (hne hi hlt)]
    exact h.held hi (by omega)
  · intro k hk
    by_cases hke : k = getLock e.addr
    · rw [hke, setLock_self] at hk
      cases hk
    · rw [setLock_of_ne g _ hke] at hk
      obtain ⟨i, f, hi, hlt, hf⟩ := h.own hk
      refine ⟨i, f, hi, ?_, hf⟩
      have hij : i ≠ j := by
        rintro rfl
        rw [he] at hi
        cases hi
        exact hke hf.symm
      rw [hleft']
      omega
  · intro k
    refine iff_of_false (fun hk => ?_) (hunit' k)
    by_cases hke : k = getLock e.addr
    · rw [hke, setLock_self] at hk
      cases hk
    · rw [setLock_of_ne g _ hke] at hk
      exact hunit k ((h.unit k).mp hk)
  · intro i f hi hlt hd
    rw [hleft'] at hlt
    rw [setLock_of_ne g _ (hne hi hlt)]
    exact h.version hi (by omega) hd
  · intro t ht
    obtain ⟨hle', hlt⟩ := h.stamp (hstamp t ht)
    refine ⟨hle', fun k hk => ?_⟩
    by_cases hke : k = getLock e.addr
    · rw [hke, setLock_self] at hk
      exact absurd rfl hk.not_free
    · rw [setLock_of_ne g _ hke] at hk ⊢
      exact hlt k hk
  · exact LockStep.free_at (.inl hheld) hnew
  · intro a _ _
    exact congrFun (undone_congr hlog _) a
  · intro a hfree htook
    have hke : getLock a ≠ getLock e.addr := by
      intro hke
      rw [hke, hheld] at hfree
      cases hfree
    rw [setLock_of_ne g _ hke, hfree] at htook
    cases htook

/-- An entry behind the one that has acquired the lock. -/
theorem ThreadOk.keepLock (hS : SharedOk g) (h : ThreadOk getLock noDup tid g x)
    (he : x.wset[j]? = some e) (hkeep : e.noDrop = true) (hleft : x.left = j + 1)
    (hleft' : Thread.left { x with pc := p } = j)
    (hlog : Thread.logLeft { x with pc := p } = x.logLeft)
    (hunit : ∀ k, ¬ UnitHolds getLock k x.pc) (hunit' : ∀ k, ¬ UnitHolds getLock k p)
    (hstamp : ∀ t, p.stamp = some t → x.pc.stamp = some t) (hpc : PcOk { x with pc := p } p) :
    StepOk getLock noDup tid g g x { x with pc := p } where
  thread :=
    { held := fun hi hlt => h.held hi (by omega)
      own := fun hk => by
        obtain ⟨i, f, hi, hlt, hf⟩ := h.own hk
        rw [hleft']
        by_cases hij : i = j
        · subst hij
          rw [he] at hi
          cases hi
          obtain ⟨i', f', hlt', hi', hf'⟩ := (h.first he).mp hkeep
          exact ⟨i', f', hi', hlt', hf'.trans hf⟩
        · exact ⟨i, f, hi, by omega, hf⟩
      unit := fun k => (h.unit k).trans (iff_of_false (hunit k) (hunit' k))
      first := h.first
      version := fun hi hlt hd => h.version hi (by omega) hd
      inj := h.inj
      stamp := fun ht => h.stamp (hstamp _ ht)
      pc := hpc }
  shared := hS
  effect := Effect.quiet (Nat.le_refl _) rfl rfl fun _ _ => by rw [undone_congr hlog]

/-- The end of a commit or a rollback. -/
theorem ThreadOk.finish (hS : SharedOk g) (h : ThreadOk getLock noDup tid g x) (hleft : x.left = 0)
    (hunit : ∀ k, ¬ UnitHolds getLock k x.pc) :
    StepOk getLock noDup tid g g x (⟨[], .idle⟩ : Thread w) := by
  have hnone (k : ℕ) : (g.lock k).own ≠ some (.entry tid 0) := fun hk => by
    obtain ⟨i, f, -, hlt, -⟩ := h.own hk
    omega
  exact
    { thread :=
        { held := fun hj => absurd hj (by simp)
          own := fun hk => absurd hk (hnone _)
          unit := fun k => (h.unit k).trans (iff_of_false (hunit k) id)
          first := fun hj => absurd hj (by simp)
          version := fun hj => absurd hj (by simp)
          inj := fun _ _ _ _ _ hj => absurd hj (by simp)
          stamp := fun ht => nomatch ht
          pc := rfl }
      shared := hS
      effect := Effect.quiet (Nat.le_refl _) rfl rfl fun _ ha => absurd ha (hnone _) }

/-- The commit drops a lock with the new timestamp, or keeps it for an earlier entry. -/
theorem ThreadOk.release (hS : SharedOk g) (h : ThreadOk getLock noDup tid g x)
    (hp : x.pc = .release t i) {r : Mem w × Thread w} (hr : releaseStep getLock t i g x = some r) :
    StepOk getLock noDup tid g r.1 x r.2 := by
  have hle : i ≤ x.wset.length := by
    have hpc := h.pc
    rw [hp] at hpc
    exact hpc
  have hleft : x.left = i := by rw [Thread.left, hp]
  have hunit (k : ℕ) : ¬ UnitHolds getLock k x.pc := by
    rw [hp]
    exact id
  cases i with
  | zero =>
    cases hr
    exact h.finish hS hleft hunit
  | succ j =>
    simp only [releaseStep, Option.map_eq_some_iff] at hr
    obtain ⟨e, he, rfl⟩ := hr
    have hlog : Thread.logLeft { x with pc := .release t j } = x.logLeft := by
      rw [Thread.logLeft, Thread.logLeft, hp]
    have hstamp : ∀ t', (Pc.release t j : Pc w).stamp = some t' → x.pc.stamp = some t' := by
      rw [hp]
      exact fun _ ht => ht
    split
    · next hkeep => exact h.keepLock hS he hkeep hleft rfl hlog hunit (fun _ => id) hstamp (by exact Nat.le_of_succ_le hle)
    · next hdrop =>
      obtain ⟨htime, hlt⟩ := h.stamp (hstamp t rfl)
      have hheld := h.held he (by omega)
      exact h.freeLock hS he (by simpa using hdrop) hleft rfl hlog hunit (fun _ => id) hstamp
        (Nat.le_of_succ_le hle) (.inl (hlt _ (.inl hheld))) htime

/-- The rollback drops a lock with the next incarnation or a fresh timestamp. -/
theorem ThreadOk.drop (hS : SharedOk g) (h : ThreadOk getLock noDup tid g x)
    (hp : x.pc = .drop i t) {r : Mem w × Thread w} (hr : dropStep getLock i t g x = some r) :
    StepOk getLock noDup tid g r.1 x r.2 := by
  have hpc : 0 < i ∧ i ≤ x.wset.length := by
    have hpc := h.pc
    rw [hp] at hpc
    exact hpc
  have hleft : x.left = i := by rw [Thread.left, hp]
  have hunit (k : ℕ) : ¬ UnitHolds getLock k x.pc := by
    rw [hp]
    exact id
  cases i with
  | zero => cases hr
  | succ j =>
    simp only [dropStep, Option.map_eq_some_iff] at hr
    obtain ⟨e, he, rfl⟩ := hr
    have hlog : Thread.logLeft { x with pc := .undo j t } = x.logLeft := by
      rw [Thread.logLeft, Thread.logLeft, hp]
      rfl
    have hstamp : ∀ t', (Pc.undo j t : Pc w).stamp = some t' → x.pc.stamp = some t' := by
      rw [hp]
      exact fun _ ht => ht
    have hle : PcOk { x with pc := .undo j t } (.undo j t) := Nat.le_of_succ_le hpc.2
    split
    · next hkeep => exact h.keepLock hS he hkeep hleft rfl hlog hunit (fun _ => id) hstamp hle
    · next hdrop =>
      have hdrop' : e.noDrop = false := by simpa using hdrop
      have hheld := h.held he (by omega)
      have hver := h.version he (by omega) hdrop'
      split
      · split
        · next ht =>
          refine h.fetchInc hS hleft.symm ?_ (fun k => by rw [hp]; exact Iff.rfl) (fun t' ht' => ?_) hpc
          · rw [Thread.logLeft, Thread.logLeft, hp]
          · simp only [Pc.stamp, Nat.add_one_ne_zero, if_false, Option.some.injEq] at ht'
            exact ht'.symm
        · next ht =>
          obtain ⟨htime, hlt⟩ := h.stamp (hstamp t (if_neg ht))
          exact h.freeLock hS he hdrop' hleft rfl hlog hunit (fun _ => id) hstamp hle
            (.inl (hlt _ (.inl hheld))) htime
      · refine h.freeLock hS he hdrop' hleft rfl hlog hunit (fun _ => id) hstamp hle ?_ ?_
        · rw [← hver]
          exact .inr ⟨rfl, Nat.lt_succ_self _⟩
        · rw [hver]
          exact hS.ver_le _

end TinyStm.Undo
