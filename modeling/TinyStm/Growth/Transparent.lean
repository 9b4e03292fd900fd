import TinyStm.Growth.Links

/-!
# Transparent growth

A run of one attempt is compared with the run of the same operations on an array
that was large enough from the start. The two agree exactly as long as every growth
finds entries of different locks and adds an entry of a new one.
-/

namespace TinyStm.Growth

variable {w : ℕ} {b : Build}

/-! ### Comparison with an array that is large enough -/

def Word.rebase (arr : ℕ) : Word → Word
  | .mine _ i => .mine arr i
  | l => l

/-- The two differ in the number and the size of the array only. -/
structure SameBut (s u : WState w) : Prop where
  ws : s.ws = u.ws
  mem : s.mem = u.mem
  lock : ∀ k, s.lock k = (u.lock k).rebase s.arr

section Sim

variable {s u : WState w} (hu : Good b u) (h : SameBut s u)
include h

theorem SameBut.acquire {a : ℕ} (v m : BitVec w) (ver : Ver) :
    SameBut { s with lock := Function.update s.lock (b.getLock w a) (.mine s.arr s.ws.length)
                     ws := s.ws ++ [newEntry s a v m ver] }
      { u with lock := Function.update u.lock (b.getLock w a) (.mine u.arr u.ws.length)
               ws := u.ws ++ [newEntry u a v m ver] } where
  ws := by simp only [newEntry, h.ws, h.mem]
  mem := h.mem
  lock k := by
    by_cases hk : k = b.getLock w a
    · subst hk
      simp only [Function.update_self, Word.rebase, h.ws]
    · simp only [Function.update_of_ne hk, h.lock k]

theorem SameBut.writeOwn {a i : ℕ} {v m : BitVec w} (hroom : u.ws.length < u.size)
    (hok : s.ws.length = s.size →
      m = 0 ∨ Walk.isFound (chainWalk s.ws a s.ws.length i) = true) :
    SameBut (writeOwn b s a v m i) (writeOwn b u a v m i) := by
  unfold Growth.writeOwn
  by_cases hm : m = 0
  · simp only [hm, if_true]
    exact h
  · simp only [hm, if_false, false_or, h.ws] at hok ⊢
    cases hwalk : chainWalk u.ws a u.ws.length i with
    | found j => exact ⟨by simp only [h.mem], h.mem, h.lock⟩
    | last j =>
      have hs : u.ws.length ≠ s.size := by
        intro hfull
        have := hok hfull
        simp [hwalk, Walk.isFound] at this
      simp only [hs, hroom.ne, if_false]
      exact ⟨by simp only [newEntry, h.mem], h.mem, h.lock⟩

include hu

theorem SameBut.grow (hd : Distinct b s.ws) : SameBut (stmAllocateWsEntries b s) u where
  ws := h.ws
  mem := h.mem
  lock k := by
    show relocate (b.getLock w) (s.arr + 1) s.ws 0 s.lock k = (u.lock k).rebase (s.arr + 1)
    rcases relocate_spec (b.getLock w) (s.arr + 1) s.ws 0 s.lock k with
      ⟨heq, hno⟩ | ⟨n, e, heq, hn, hlk, -⟩
    · rw [heq, h.lock k]
      cases hl : u.lock k with
      | mine arr i =>
        obtain ⟨-, ⟨e, hi, hlk⟩, -⟩ := hu.own hl
        rw [← h.ws] at hi
        exact absurd hlk (hno e (List.mem_of_getElem? hi))
      | _ => rfl
    · have hn' : u.ws[n]? = some e := h.ws ▸ hn
      obtain ⟨i, hi⟩ := hu.held e (List.mem_of_getElem? hn')
      rw [hlk] at hi
      obtain ⟨-, ⟨f, hf, hlkf⟩, -⟩ := hu.own hi
      have hin : i = n := hd.eq (h.ws ▸ hf) hn (hlkf.trans hlk.symm)
      rw [heq, hi, hin, Nat.zero_add]
      rfl

theorem SameBut.writeFree {a : ℕ} {ver : Ver} (hroom : u.ws.length < u.size)
    (hok : s.ws.length = s.size → Distinct b s.ws) (v m : BitVec w) (cas : Bool) :
    SameBut (writeFree b s a v m ver cas) (writeFree b u a v m ver cas) := by
  unfold Growth.writeFree
  simp only [hroom.ne, if_false]
  by_cases hfull : s.ws.length = s.size
  · have hg := h.grow hu (hok hfull)
    simp only [hfull, if_true]
    cases cas with
    | false => exact hg
    | true => exact hg.acquire v m ver
  · simp only [hfull, if_false]
    cases cas with
    | false => exact h
    | true => exact h.acquire v m ver

theorem SameBut.stmWrite {a : ℕ} {v m : BitVec w} {cas : Bool}
    (hok : GrowOk b s (.store a v m cas)) (hroom : u.ws.length < u.size) :
    SameBut (stmWrite b s a v m cas) (stmWrite b u a v m cas) := by
  have hlk := h.lock (b.getLock w a)
  simp only [GrowOk] at hok
  unfold Growth.stmWrite
  cases hk : u.lock (b.getLock w a) with
  | other =>
    rw [hk] at hlk
    rw [hlk]
    exact h
  | free ver =>
    rw [hk] at hlk
    rw [hlk] at hok ⊢
    exact h.writeFree hu hroom hok v m cas
  | mine arr i =>
    rw [hk] at hlk
    obtain ⟨harr, ⟨e, hi, -⟩, -⟩ := hu.own hk
    have hlt : i < u.ws.length := getElem?_lt hi
    rw [hlk] at hok ⊢
    simp only [Word.rebase] at hok ⊢
    rw [if_pos (by simpa [h.ws] using hlt), if_pos ⟨harr, hlt⟩]
    exact h.writeOwn hroom hok

theorem SameBut.step {op : Op w} (hok : GrowOk b s op) (hroom : u.ws.length < u.size) :
    SameBut (step b s op) (step b u op) := by
  have hmine : ∀ k, (s.lock k).isMine = (u.lock k).isMine := by
    intro k
    rw [h.lock k]
    cases u.lock k <;> rfl
  cases op with
  | store a v m cas => exact h.stmWrite hu hok hroom
  | setLock k v =>
    simp only [Growth.step, hmine]
    split
    · exact h
    · refine ⟨h.ws, h.mem, fun k' => ?_⟩
      by_cases hkk : k' = k
      · subst hkk
        simp only [Function.update_self]
        cases v <;> rfl
      · simp only [Function.update_of_ne hkk, h.lock k']
  | setMem a v =>
    simp only [Growth.step, hmine]
    split
    · exact h
    · exact ⟨h.ws, by rw [h.mem], h.lock⟩

end Sim

/-! ### Commit and rollback -/

def Event.lock (b : Build) : Event w → ℕ
  | .install a _ => b.getLock w a
  | .release k _ => k

/-- Lock `k` is released once, and nothing of it is installed after that. -/
def ReleasedOnce (b : Build) (k : ℕ) (evs : List (Event w)) : Prop :=
  ∃ pre v post, evs = pre ++ .release k v :: post ∧
    (∀ v', .release k v' ∉ pre) ∧ ∀ ev ∈ post, ev.lock b ≠ k

theorem exists_last {s : WState w} (h : Good b s) {k arr i : ℕ} (hk : s.lock k = .mine arr i) :
    ∃ n e, s.ws[n]? = some e ∧ b.getLock w e.addr = k ∧ e.next = none ∧
      ∀ {n' : ℕ} {e' : WEntry w}, n < n' → s.ws[n']? = some e' → b.getLock w e'.addr ≠ k := by
  obtain ⟨-, ⟨f, hi, hlk⟩, -⟩ := h.own hk
  rcases relocate_spec (b.getLock w) 0 s.ws 0 s.lock k with ⟨-, hno⟩ | ⟨n, e, -, hn, hlke, hlast⟩
  · exact absurd hlk (hno f (List.mem_of_getElem? hi))
  · refine ⟨n, e, hn, hlke, ?_, hlast⟩
    cases hnext : e.next with
    | none => rfl
    | some j =>
      obtain ⟨hlt, ⟨e', hj, hlkj⟩, -⟩ := h.chained.link hn hnext
      exact absurd (hlkj.trans hlke) (hlast hlt hj)

/-- The loops of commit and rollback release a lock at its last entry. -/
theorem releasedOnce_flatMap {s : WState w} (h : Good b s) {k arr i : ℕ}
    (hk : s.lock k = .mine arr i) (inst : WEntry w → List (Event w)) (ver : WEntry w → Ver)
    (hinst : ∀ e, ∀ ev ∈ inst e, ∃ v, ev = .install e.addr v) :
    ReleasedOnce b k (s.ws.flatMap fun e => inst e ++ drops b e (ver e)) := by
  obtain ⟨n, e, hn, hlk, hnext, hlast⟩ := exists_last h hk
  obtain ⟨hlt, rfl⟩ := List.getElem?_eq_some_iff.mp hn
  have hsplit : s.ws = s.ws.take n ++ s.ws[n] :: s.ws.drop (n + 1) := by
    rw [← List.drop_eq_getElem_cons hlt, List.take_append_drop]
  refine ⟨((s.ws.take n).flatMap fun e => inst e ++ drops b e (ver e)) ++ inst s.ws[n],
    ver s.ws[n], (s.ws.drop (n + 1)).flatMap fun e => inst e ++ drops b e (ver e), ?_, ?_, ?_⟩
  · conv_lhs => rw [hsplit]
    simp only [List.flatMap_append, List.flatMap_cons, drops, hnext, Option.isNone_none, if_true,
      hlk, List.append_assoc, List.singleton_append]
  · intro v' hv'
    rcases List.mem_append.mp hv' with hv' | hv'
    · obtain ⟨f, hf, hev⟩ := List.mem_flatMap.mp hv'
      rcases List.mem_append.mp hev with hev | hev
      · obtain ⟨v, hv⟩ := hinst f _ hev
        cases hv
      · -- an earlier end of the chain would be its last entry
        obtain ⟨m, hm⟩ := List.mem_iff_getElem?.mp hf
        have hmn : m < n := by
          have := (List.getElem?_eq_some_iff.mp hm).1
          simp at this
          omega
        rw [List.getElem?_take_of_lt hmn] at hm
        cases hfn : f.next with
        | some j => simp [drops, hfn] at hev
        | none =>
          simp only [drops, hfn, Option.isNone_none, if_true, List.mem_singleton,
            Event.release.injEq] at hev
          have := h.chained.last hm hfn hn (hlk.trans hev.1)
          omega
    · obtain ⟨v, hv⟩ := hinst _ _ hv'
      cases hv
  · intro ev hev
    obtain ⟨f, hf, hev⟩ := List.mem_flatMap.mp hev
    obtain ⟨m, hm⟩ := List.mem_iff_getElem?.mp hf
    rw [List.getElem?_drop] at hm
    have hne := hlast (by omega : n < n + 1 + m) hm
    rcases List.mem_append.mp hev with hev | hev
    · obtain ⟨v, rfl⟩ := hinst f _ hev
      exact hne
    · unfold drops at hev
      split at hev
      · rw [List.mem_singleton.mp hev]
        exact hne
      · simp at hev

/-! ### Transparent growth -/

/-- The attempt `s` behaves like `u`, whose array was large enough: its locks lead to
their entries, loads, commit and rollback are the same, and each lock is released
once, after its words. -/
structure Transparent (b : Build) (s u : WState w) : Prop where
  linked : Linked b s
  ws : s.ws = u.ws
  mine : ∀ k, (s.lock k).isMine = (u.lock k).isMine
  load : ∀ a, stmLoad b s a = stmLoad b u a
  commit : ∀ t, stmCommit b s.ws t = stmCommit b u.ws t
  rollback : stmRollback b s.ws = stmRollback b u.ws
  released : ∀ k, (s.lock k).isMine = true →
    (∀ t, ReleasedOnce b k (stmCommit b s.ws t)) ∧ ReleasedOnce b k (stmRollback b s.ws)

theorem transparent {s u : WState w} (hs : Good b s) (hu : Good b u) (h : SameBut s u) :
    Transparent b s u where
  linked := hs.linked
  ws := h.ws
  mine k := by
    rw [h.lock k]
    cases u.lock k <;> rfl
  load a := by
    unfold stmLoad
    rw [h.lock]
    cases hk : u.lock (b.getLock w a) with
    | other => rfl
    | free v => simp only [Word.rebase, h.mem]
    | mine arr i =>
      obtain ⟨harr, -⟩ := hu.own hk
      simp only [Word.rebase, harr, true_and, h.ws, h.mem]
  commit t := by rw [h.ws]
  rollback := by rw [h.ws]
  released k hk := by
    cases hl : s.lock k with
    | mine arr i =>
      refine ⟨fun t => releasedOnce_flatMap hs hl _ (fun _ => ⟨t, 0⟩) ?_, ?_⟩
      · intro e ev hev
        split at hev
        · exact ⟨e.value, List.mem_singleton.mp hev⟩
        · simp at hev
      · exact releasedOnce_flatMap hs hl (fun _ => []) WEntry.version (by simp)
    | _ => simp [hl, Word.isMine] at hk

/-- In a run from `s₀` the attempt behaves at all times as from an array that holds
all the stores. -/
def TransparentRun (b : Build) (s₀ : WState w) (ops : List (Op w)) : Prop :=
  ∀ n ≤ ops.length, ∀ size, ops.length ≤ size →
    Transparent b (run b s₀ (ops.take n)) (run b { s₀ with size := size } (ops.take n))

theorem Initial.good {s : WState w} (h : Initial s) : Good b s where
  chained := by
    rw [h.ws]
    constructor <;> simp
  own {k arr i} hk := by
    have := h.lock k
    simp [hk, Word.isMine] at this
  held := by simp [h.ws]

theorem Initial.sameBut {s : WState w} (h : Initial s) (size : ℕ) :
    SameBut s { s with size := size } where
  ws := rfl
  mem := rfl
  lock k := by
    have := h.lock k
    cases hk : s.lock k with
    | mine arr i => simp [hk, Word.isMine] at this
    | _ => rfl

theorem run_snoc (s : WState w) (ops : List (Op w)) {n : ℕ} (hn : n < ops.length) :
    run b s (ops.take (n + 1)) = step b (run b s (ops.take n)) ops[n] := by
  rw [run, List.take_succ_eq_append_getElem hn, List.foldl_append]
  rfl

theorem step_room (s : WState w) (op : Op w) :
    (step b s op).ws.length ≤ s.ws.length + 1 ∧ s.size ≤ (step b s op).size := by
  cases op with
  | store a v m cas =>
    simp only [step, stmWrite]
    cases s.lock (b.getLock w a) with
    | other => exact ⟨Nat.le_succ _, le_rfl⟩
    | free ver =>
      simp only [writeFree, stmAllocateWsEntries]
      by_cases hfull : s.ws.length = s.size <;> cases cas <;> simp [hfull] <;> omega
    | mine arr i =>
      dsimp only
      split
      · unfold writeOwn
        split
        · exact ⟨Nat.le_succ _, le_rfl⟩
        · split
          · simp
          · dsimp only
            split
            · simp [stmAllocateWsEntries]
              omega
            · simp [length_linkEntry]
      · exact ⟨Nat.le_succ _, le_rfl⟩
  | setLock k v =>
    simp only [step]
    split <;> exact ⟨Nat.le_succ _, le_rfl⟩
  | setMem a v =>
    simp only [step]
    split <;> exact ⟨Nat.le_succ _, le_rfl⟩

theorem run_room {s₀ : WState w} (hi : Initial s₀) (ops : List (Op w)) {n : ℕ}
    (hn : n ≤ ops.length) :
    (run b s₀ (ops.take n)).ws.length ≤ n ∧ s₀.size ≤ (run b s₀ (ops.take n)).size := by
  induction n with
  | zero => simp [run, hi.ws]
  | succ n ih =>
    obtain ⟨hlen, hsize⟩ := ih (by omega)
    rw [run_snoc s₀ ops (by omega)]
    obtain ⟨hlen', hsize'⟩ := step_room (b := b) (run b s₀ (ops.take n)) ops[n]
    exact ⟨by omega, by omega⟩

theorem growOk_of_room {s : WState w} (h : s.ws.length < s.size) (op : Op w) : GrowOk b s op := by
  cases op with
  | store a v m cas => exact fun hfull => absurd hfull h.ne
  | _ => trivial

section Run

variable {s₀ : WState w} (hi : Initial s₀) {ops : List (Op w)}
include hi

theorem run_good (hok : ∀ (n : ℕ) (h : n < ops.length), GrowOk b (run b s₀ (ops.take n)) ops[n])
    {n : ℕ} (hn : n ≤ ops.length) : Good b (run b s₀ (ops.take n)) := by
  induction n with
  | zero => exact hi.good
  | succ n ih =>
    rw [run_snoc s₀ ops (by omega)]
    exact (ih (by omega)).step (hok n (by omega))

theorem run_large {size n : ℕ} (hsize : ops.length ≤ size) (hn : n < ops.length) :
    (run b { s₀ with size := size } (ops.take n)).ws.length <
      (run b { s₀ with size := size } (ops.take n)).size := by
  have hi' : Initial { s₀ with size := size } := ⟨hi.ws, by dsimp only; omega, hi.lock⟩
  obtain ⟨h₁, h₂⟩ := run_room (b := b) hi' ops hn.le
  dsimp only at h₂
  omega

theorem run_sameBut
    (hok : ∀ (n : ℕ) (h : n < ops.length), GrowOk b (run b s₀ (ops.take n)) ops[n])
    {size : ℕ} (hsize : ops.length ≤ size) {n : ℕ} (hn : n ≤ ops.length) :
    Good b (run b { s₀ with size := size } (ops.take n)) ∧
      SameBut (run b s₀ (ops.take n)) (run b { s₀ with size := size } (ops.take n)) := by
  induction n with
  | zero =>
    have hg : Good b s₀ := hi.good
    exact ⟨⟨hg.chained, hg.own, hg.held⟩, hi.sameBut size⟩
  | succ n ih =>
    obtain ⟨hu, hsame⟩ := ih (by omega)
    have hroom := run_large (b := b) hi hsize hn
    rw [run_snoc s₀ ops (by omega), run_snoc _ ops (by omega)]
    exact ⟨hu.step (growOk_of_room hroom _), hsame.step hu (hok n (by omega)) hroom⟩

end Run

/-! ### Growth that goes wrong -/

/-- A lock that leads past one of its entries is not linked. -/
theorem not_linked_of_past {s : WState w} (hc : Chained (b.getLock w) s.ws) {k arr i j : ℕ}
    {e : WEntry w} (hk : s.lock k = .mine arr i) (hj : s.ws[j]? = some e)
    (hlk : b.getLock w e.addr = k) (hlt : j < i) : ¬ Linked b s := by
  intro hl
  have hmem := ((hl.chain hk).2 j).mpr ⟨e, hj, hlk⟩
  have := mem_chainFrom_le hc _ hmem
  omega

/-- Links of an array do not lead to an entry that was only appended to it. -/
theorem chainFrom_append_lt {lk : ℕ → ℕ} {ws : List (WEntry w)} (hc : Chained lk ws)
    (e : WEntry w) (fuel : ℕ) {i j : ℕ} (hi : i < ws.length)
    (h : j ∈ chainFrom (ws ++ [e]) fuel i) : j < ws.length := by
  induction fuel generalizing i with
  | zero => simp [chainFrom] at h
  | succ fuel ih =>
    have hget : (ws ++ [e])[i]? = some ws[i] := by
      rw [List.getElem?_append_left hi, List.getElem?_eq_getElem hi]
    rw [chainFrom, hget] at h
    cases hn : ws[i].next with
    | none =>
      simp only [hn, List.mem_singleton] at h
      omega
    | some n =>
      simp only [hn, List.mem_cons] at h
      obtain ⟨-, ⟨f, hf, -⟩, -⟩ := hc.link (List.getElem?_eq_getElem hi) hn
      rcases h with rfl | h
      · exact hi
      · exact ih (getElem?_lt hf) h

section Bad

variable {s : WState w} (h : Good b s)
include h

/-- Growth for a free lock while two entries share another one. -/
theorem Good.not_linked_free {a : ℕ} {ver : Ver} (hk : s.lock (b.getLock w a) = .free ver)
    (hfull : s.ws.length = s.size) (hd : ¬ Distinct b s.ws) (v m : BitVec w) (cas : Bool) :
    ¬ Linked b (Growth.writeFree b s a v m ver cas) := by
  obtain ⟨i, j, e, f, hij, hi, hj, hlk⟩ := exists_of_not_distinct hd
  have hmine : (s.lock (b.getLock w a)).isMine = false := by rw [hk]; rfl
  have hne : b.getLock w e.addr ≠ b.getLock w a := by
    intro heq
    obtain ⟨n, hn⟩ := h.held e (List.mem_of_getElem? hi)
    rw [← heq, hn] at hmine
    simp [Word.isMine] at hmine
  -- the lock of the two entries now leads to the later one or beyond
  obtain ⟨n, hjn, hn⟩ : ∃ n, j ≤ n ∧
      (stmAllocateWsEntries b s).lock (b.getLock w e.addr) = .mine (s.arr + 1) n := by
    rcases relocate_spec (b.getLock w) (s.arr + 1) s.ws 0 s.lock (b.getLock w e.addr) with
      ⟨-, hno⟩ | ⟨n, q, heq, hq, hlkq, hlast⟩
    · exact absurd rfl (hno e (List.mem_of_getElem? hi))
    · refine ⟨0 + n, ?_, heq⟩
      by_contra hlt
      exact hlast (by omega : n < j) hj hlk.symm
  unfold Growth.writeFree
  simp only [hfull, if_true]
  cases cas with
  | false => exact not_linked_of_past h.chained hn hi rfl (by omega)
  | true =>
    have hc : Chained (b.getLock w)
        (s.ws ++ [newEntry (stmAllocateWsEntries b s) a v m ver]) := by
      refine h.chained.snoc rfl fun q hq hlkq => ?_
      obtain ⟨r, hr⟩ := h.held q hq
      have hlkq' : b.getLock w q.addr = b.getLock w a := hlkq
      rw [← hlkq', hr] at hmine
      simp [Word.isMine] at hmine
    have hl : Function.update (stmAllocateWsEntries b s).lock (b.getLock w a)
        (.mine (s.arr + 1) s.ws.length) (b.getLock w e.addr) = .mine (s.arr + 1) n := by
      rw [Function.update_of_ne hne]
      exact hn
    exact not_linked_of_past hc hl (getElem?_snoc.mpr (.inl hi)) rfl (by omega)

/-- Growth for a further entry under an own lock. -/
theorem Good.not_linked_own {a arr i : ℕ} {v m : BitVec w}
    (hk : s.lock (b.getLock w a) = .mine arr i) (hfull : s.ws.length = s.size) (hm : m ≠ 0)
    (hwalk : Walk.isFound (chainWalk s.ws a s.ws.length i) = false) :
    ¬ Linked b (Growth.writeOwn b s a v m i) := by
  obtain ⟨-, ⟨e, hi, hlk⟩, -⟩ := h.own hk
  cases hw : chainWalk s.ws a s.ws.length i with
  | found j => simp [hw, Walk.isFound] at hwalk
  | last j =>
    have hres : Growth.writeOwn b s a v m i = { stmAllocateWsEntries b s with
        ws := s.ws ++ [newEntry (stmAllocateWsEntries b s) a v m
          ((s.ws[j]?.map (·.version)).getD ⟨0, 0⟩)] } := by
      simp only [Growth.writeOwn, hm, if_false, hw]
      rw [if_pos hfull]
      rfl
    rw [hres]
    intro hl
    -- the lock leads to an entry of the old array, the new one is not linked to it
    rcases relocate_spec (b.getLock w) (s.arr + 1) s.ws 0 s.lock (b.getLock w a) with
      ⟨-, hno⟩ | ⟨n, q, heq, hq, -, -⟩
    · exact hno e (List.mem_of_getElem? hi) hlk
    · have hmem := ((hl.chain heq).2 s.ws.length).mpr
        ⟨_, getElem?_snoc.mpr (.inr ⟨rfl, rfl⟩), rfl⟩
      have hnlt : 0 + n < s.ws.length := by
        have := getElem?_lt hq
        omega
      have := chainFrom_append_lt h.chained _ _ hnlt hmem
      omega

theorem Good.not_linked {op : Op w} (hok : ¬ GrowOk b s op) : ¬ Linked b (Growth.step b s op) := by
  cases op with
  | setLock k v => exact absurd trivial hok
  | setMem a v => exact absurd trivial hok
  | store a v m cas =>
    simp only [GrowOk, Classical.not_imp] at hok
    obtain ⟨hfull, hbad⟩ := hok
    simp only [Growth.step, Growth.stmWrite]
    cases hk : s.lock (b.getLock w a) with
    | other => simp [hk] at hbad
    | free ver =>
      simp only [hk] at hbad
      exact h.not_linked_free hk hfull hbad v m cas
    | mine arr i =>
      simp only [hk, not_or, Bool.not_eq_true] at hbad
      obtain ⟨harr, ⟨e, hi, -⟩, -⟩ := h.own hk
      dsimp only
      rw [if_pos ⟨harr, getElem?_lt hi⟩]
      exact h.not_linked_own hk hfull hbad.1 hbad.2

end Bad

/-- Growing the write set is transparent exactly in the runs in which every growth
meets `GrowOk`. -/
theorem growth_transparent_iff (b : Build) (s₀ : WState w) (hi : Initial s₀) (ops : List (Op w)) :
    TransparentRun b s₀ ops ↔
      ∀ (n : ℕ) (h : n < ops.length), GrowOk b (run b s₀ (ops.take n)) ops[n] := by
  constructor
  · intro ht n
    induction n using Nat.strong_induction_on with
    | _ n ih =>
      intro hn
      by_contra hbad
      -- up to this operation the write set was linked, after it it is not
      have hgood : Good b (run b s₀ (ops.take n)) := by
        have hlen : (ops.take n).length = n := by simp [hn.le]
        have hok : ∀ (m : ℕ) (h : m < (ops.take n).length),
            GrowOk b (run b s₀ ((ops.take n).take m)) (ops.take n)[m] := by
          intro m hm
          rw [hlen] at hm
          rw [List.take_take, Nat.min_eq_left hm.le, List.getElem_take]
          exact ih m hm (by omega)
        have := run_good hi hok hlen.ge
        rwa [List.take_take, Nat.min_self] at this
      have hlinked := (ht (n + 1) hn ops.length le_rfl).linked
      rw [run_snoc s₀ ops hn] at hlinked
      exact hgood.not_linked hbad hlinked
  · intro hok n hn size hsize
    obtain ⟨hu, hsame⟩ := run_sameBut hi hok hsize hn
    exact transparent (run_good hi hok hn) hu hsame

/-- Encounter-time write-back with two locks: words 8 and 24 share one. -/
def twoLocks : Build := ⟨.writeBackEtl, false, false, 0, 1⟩

/-- An empty write set of `size` entries over zero memory. -/
def emptySet (size : ℕ) : WState 64 := ⟨0, size, [], fun _ => .free ⟨0, 0⟩, fun _ => 0⟩

theorem initial_emptySet {size : ℕ} (h : 0 < size) : Initial (emptySet size) :=
  ⟨rfl, h, fun _ => rfl⟩

def put (a : ℕ) (v : BitVec 64) : Op 64 := .store a v (BitVec.allOnes 64) true

/-- An array of one entry grows for an entry of another lock, and has room for a
further entry of that lock. -/
theorem growth_transparent_three :
    TransparentRun twoLocks (emptySet 1) [put 8 1, put 0 2, put 8 3] :=
  (growth_transparent_iff twoLocks (emptySet 1) (initial_emptySet (by decide)) _).mpr (by decide)

/-- Two entries of one lock fill the array; growth leads the lock to the second one,
and the attempt no longer reads its own store to word 8. -/
theorem growth_loses_store :
    ¬ TransparentRun twoLocks (emptySet 2) [put 8 1, put 24 2, put 0 3] := by
  intro h
  have hload := (h 3 (by decide) 3 (by decide)).load 8
  revert hload
  decide

end TinyStm.Growth
