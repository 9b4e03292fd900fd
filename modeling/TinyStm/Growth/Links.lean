import TinyStm.WriteSet

/-!
# Growth of the write set

Encounter-time write-back links the entries of one lock in a chain, and lock words
point into the array. When the array is full `stm_allocate_ws_entries` moves it and
sets the lock word of every entry, in order: the last entry of a lock wins, where
the word should point to the first. The caller in `stm_write` may also hold a
pointer into the old array. One attempt is followed from outside: between its
operations the other threads may change what it has not locked.
-/

namespace TinyStm.Growth

variable {w : ℕ} {b : Build}

/-- A lock word as one attempt sees it; `mine arr idx` points to entry `idx` of its
array number `arr`. -/
inductive Word where
  | free (v : Ver)
  | mine (arr idx : ℕ)
  | other
  deriving DecidableEq, Repr

/-- The write set of an attempt with the lock words and the memory. The array in use
is number `arr`, the earlier ones are freed. -/
structure WState (w : ℕ) where
  arr : ℕ
  size : ℕ
  ws : List (WEntry w)
  lock : ℕ → Word
  mem : ℕ → BitVec w

/-- The second loop of `stm_allocate_ws_entries` (`stm.c:803-806`), from entry `j`. Its
test compares the field `lock` with what it was set to and always succeeds. -/
def relocate (lk : ℕ → ℕ) (arr : ℕ) : List (WEntry w) → ℕ → (ℕ → Word) → ℕ → Word
  | [], _, l => l
  | e :: es, j, l => relocate lk arr es (j + 1) (Function.update l (lk e.addr) (.mine arr j))

/-- `stm_allocate_ws_entries(tx, 1)` (`stm.c:784-814`). Links are indices here, so that the
first loop, which moves them to the new array, leaves them as they are. -/
def stmAllocateWsEntries (b : Build) (s : WState w) : WState w :=
  { s with arr := s.arr + 1, size := s.size * 2
           lock := relocate (b.getLock w) (s.arr + 1) s.ws 0 s.lock }

/-- The entry filled in at `do_write` (`stm.c:2391-2424`). -/
def newEntry (s : WState w) (a : ℕ) (v m : BitVec w) (ver : Ver) : WEntry w :=
  ⟨a, if m = 0 then 0 else mergeBits (s.mem a) v m, m, ver, true, none⟩

/-- The store finds a free lock with version `ver`; `cas` says whether the
compare-and-swap succeeds (`stm.c:2373-2428`). -/
def writeFree (b : Build) (s : WState w) (a : ℕ) (v m : BitVec w) (ver : Ver) (cas : Bool) :
    WState w :=
  let s' := if s.ws.length = s.size then stmAllocateWsEntries b s else s
  if cas then
    { s' with lock := Function.update s'.lock (b.getLock w a) (.mine s'.arr s'.ws.length)
              ws := s'.ws ++ [newEntry s' a v m ver] }
  else s'

/-- The store comes under an own lock that points to entry `i` (`stm.c:2205-2258`). -/
def writeOwn (b : Build) (s : WState w) (a : ℕ) (v m : BitVec w) (i : ℕ) : WState w :=
  if m = 0 then s
  else match chainWalk s.ws a s.ws.length i with
    | .found j =>
      { s with ws := s.ws.modify j fun e =>
          { e with value := mergeBits (if e.mask = 0 then s.mem a else e.value) v m
                   mask := e.mask ||| m } }
    | .last j =>
      let ver := (s.ws[j]?.map (·.version)).getD ⟨0, 0⟩
      if s.ws.length = s.size then
        -- `prev` still points into the freed array, where the link is lost
        let s' := stmAllocateWsEntries b s
        { s' with ws := s'.ws ++ [newEntry s' a v m ver] }
      else { s with ws := linkEntry s.ws j (newEntry s a v m ver) }

/-- `stm_write` (`stm.c:2160-2428`) on the write set. A conflict leaves it as it is; the
rollback that follows is an operation of its own. -/
def stmWrite (b : Build) (s : WState w) (a : ℕ) (v m : BitVec w) (cas : Bool) : WState w :=
  match s.lock (b.getLock w a) with
  | .other => s
  | .free ver => writeFree b s a v m ver cas
  | .mine arr i => if arr = s.arr ∧ i < s.ws.length then writeOwn b s a v m i else s

/-- The value of a load (`stm.c:1700-1723`), `none` on a conflict. -/
def stmLoad (b : Build) (s : WState w) (a : ℕ) : Option (BitVec w) :=
  match s.lock (b.getLock w a) with
  | .free _ => some (s.mem a)
  | .other => none
  | .mine arr i =>
    if arr = s.arr ∧ i < s.ws.length then
      match chainWalk s.ws a s.ws.length i with
      | .found j => s.ws[j]?.map fun e => if e.mask = 0 then s.mem a else e.value
      | .last _ => some (s.mem a)
    else none

/-- What the other threads see of a commit or a rollback. -/
inductive Event (w : ℕ) where
  | install (a : ℕ) (v : BitVec w)
  | release (k : ℕ) (v : Ver)
  deriving DecidableEq, Repr

/-- The release at the end of a chain. -/
def drops (b : Build) (e : WEntry w) (v : Ver) : List (Event w) :=
  if e.next.isNone then [.release (b.getLock w e.addr) v] else []

/-- The loop of `stm_commit` with timestamp `t` (`stm.c:3301-3310`). -/
def stmCommit (b : Build) (ws : List (WEntry w)) (t : ℕ) : List (Event w) :=
  ws.flatMap fun e => (if e.mask ≠ 0 then [.install e.addr e.value] else []) ++ drops b e ⟨t, 0⟩

/-- The loop of `stm_rollback` (`stm.c:1464-1477`). -/
def stmRollback (b : Build) (ws : List (WEntry w)) : List (Event w) :=
  ws.flatMap fun e => drops b e e.version

/-- An operation of the attempt, or a change by another thread of a lock or a word
that the attempt does not hold. -/
inductive Op (w : ℕ) where
  | store (a : ℕ) (v m : BitVec w) (cas : Bool)
  | setLock (k : ℕ) (v : Option Ver)
  | setMem (a : ℕ) (v : BitVec w)
  deriving DecidableEq, Repr

def Word.isMine : Word → Bool
  | .mine _ _ => true
  | _ => false

def step (b : Build) (s : WState w) : Op w → WState w
  | .store a v m cas => stmWrite b s a v m cas
  | .setLock k v =>
    if (s.lock k).isMine then s
    else { s with lock := Function.update s.lock k (v.elim .other .free) }
  | .setMem a v =>
    if (s.lock (b.getLock w a)).isMine then s else { s with mem := Function.update s.mem a v }

def run (b : Build) (s : WState w) (ops : List (Op w)) : WState w := ops.foldl (step b) s

/-- A transaction with an empty write set. -/
structure Initial (s : WState w) : Prop where
  ws : s.ws = []
  size : 0 < s.size
  lock : ∀ k, (s.lock k).isMine = false

/-! ### Linked write sets -/

/-- The entries that the walk from entry `i` visits. -/
def chainFrom (ws : List (WEntry w)) : ℕ → ℕ → List ℕ
  | 0, _ => []
  | fuel + 1, i =>
    match ws[i]? with
    | none => []
    | some e =>
      match e.next with
      | none => [i]
      | some j => i :: chainFrom ws fuel j

/-- Every lock of the attempt points to the head of a chain in its array with exactly
the entries of that lock, and the lock of every entry is held. -/
structure Linked (b : Build) (s : WState w) : Prop where
  chain : ∀ {k arr i}, s.lock k = .mine arr i → arr = s.arr ∧
    ∀ j, j ∈ chainFrom s.ws s.ws.length i ↔ ∃ e, s.ws[j]? = some e ∧ b.getLock w e.addr = k
  held : ∀ e ∈ s.ws, ∃ i, s.lock (b.getLock w e.addr) = .mine s.arr i

/-- The same, in the form that the operations keep: the links and the first entries. -/
structure Good (b : Build) (s : WState w) : Prop where
  chained : Chained (b.getLock w) s.ws
  own : ∀ {k arr i}, s.lock k = .mine arr i → arr = s.arr ∧
    (∃ e, s.ws[i]? = some e ∧ b.getLock w e.addr = k) ∧
    ∀ {j : ℕ} {e : WEntry w}, s.ws[j]? = some e → b.getLock w e.addr = k → i ≤ j
  held : ∀ e ∈ s.ws, ∃ i, s.lock (b.getLock w e.addr) = .mine s.arr i

theorem mem_chainFrom_le {lk : ℕ → ℕ} {ws : List (WEntry w)} (hc : Chained lk ws) (fuel : ℕ)
    {i j : ℕ} (h : j ∈ chainFrom ws fuel i) : i ≤ j := by
  induction fuel generalizing i with
  | zero => simp [chainFrom] at h
  | succ fuel ih =>
    rw [chainFrom] at h
    cases hi : ws[i]? with
    | none => simp [hi] at h
    | some e =>
      cases hn : e.next with
      | none =>
        simp only [hi, hn, List.mem_singleton] at h
        omega
      | some n =>
        simp only [hi, hn, List.mem_cons] at h
        obtain ⟨hin, -⟩ := hc.link hi hn
        rcases h with rfl | h
        · exact le_rfl
        · have := ih h
          omega

/-- The chain from an entry consists of the entries of its lock from there on. -/
theorem mem_chainFrom {lk : ℕ → ℕ} {ws : List (WEntry w)} (hc : Chained lk ws) (fuel : ℕ)
    {i : ℕ} {e : WEntry w} (hi : ws[i]? = some e) (hf : ws.length ≤ i + fuel) (j : ℕ) :
    j ∈ chainFrom ws fuel i ↔ i ≤ j ∧ ∃ f, ws[j]? = some f ∧ lk f.addr = lk e.addr := by
  induction fuel generalizing i e with
  | zero =>
    have := getElem?_lt hi
    omega
  | succ fuel ih =>
    cases hn : e.next with
    | none =>
      have hc' : chainFrom ws (fuel + 1) i = [i] := by simp only [chainFrom, hi, hn]
      rw [hc', List.mem_singleton]
      constructor
      · rintro rfl
        exact ⟨le_rfl, e, hi, rfl⟩
      · rintro ⟨hij, f, hj, hlk⟩
        exact Nat.le_antisymm (hc.last hi hn hj hlk) hij
    | some n =>
      obtain ⟨hin, ⟨e', hn', hlk'⟩, hmin⟩ := hc.link hi hn
      have hc' : chainFrom ws (fuel + 1) i = i :: chainFrom ws fuel n := by
        simp only [chainFrom, hi, hn]
      rw [hc', List.mem_cons, ih hn' (by omega), hlk']
      constructor
      · rintro (rfl | ⟨hnj, f, hj, hlk⟩)
        · exact ⟨le_rfl, e, hi, rfl⟩
        · exact ⟨by omega, f, hj, hlk⟩
      · rintro ⟨hij, f, hj, hlk⟩
        rcases Nat.eq_or_lt_of_le hij with heq | hlt
        · exact .inl heq.symm
        · exact .inr ⟨hmin hlt hj hlk, f, hj, hlk⟩

theorem Good.linked {s : WState w} (h : Good b s) : Linked b s where
  chain hk := by
    obtain ⟨harr, ⟨e, hi, hlk⟩, hfirst⟩ := h.own hk
    refine ⟨harr, fun j => ?_⟩
    rw [mem_chainFrom h.chained _ hi (by omega), hlk]
    constructor
    · rintro ⟨-, hf⟩
      exact hf
    · rintro ⟨f, hj, hlk'⟩
      exact ⟨hfirst hj hlk', f, hj, hlk'⟩
  held := h.held

/-! ### Relocation -/

/-- Relocation leads the lock of an entry to its last entry. -/
theorem relocate_spec (lk : ℕ → ℕ) (arr : ℕ) (ws : List (WEntry w)) (j : ℕ) (l : ℕ → Word)
    (k : ℕ) :
    (relocate lk arr ws j l k = l k ∧ ∀ e ∈ ws, lk e.addr ≠ k) ∨
    ∃ n e, relocate lk arr ws j l k = .mine arr (j + n) ∧ ws[n]? = some e ∧ lk e.addr = k ∧
      ∀ {n' : ℕ} {e' : WEntry w}, n < n' → ws[n']? = some e' → lk e'.addr ≠ k := by
  induction ws generalizing j l with
  | nil => exact .inl ⟨rfl, by simp⟩
  | cons e es ih =>
    rw [relocate]
    rcases ih (j + 1) (Function.update l (lk e.addr) (.mine arr j)) with ⟨heq, hno⟩ | ⟨n, f, heq, hn, hlk, hlast⟩
    · by_cases hk : lk e.addr = k
      · right
        refine ⟨0, e, ?_, rfl, hk, fun {n' e'} hn' he' => ?_⟩
        · rw [heq, ← hk, Function.update_self, Nat.add_zero]
        · obtain ⟨m, rfl⟩ : ∃ m, n' = m + 1 := ⟨n' - 1, by omega⟩
          rw [List.getElem?_cons_succ] at he'
          exact hno e' (List.mem_of_getElem? he')
      · left
        refine ⟨?_, ?_⟩
        · rw [heq, Function.update_of_ne (Ne.symm hk)]
        · intro f hf
          rcases List.mem_cons.mp hf with rfl | hf
          · exact hk
          · exact hno f hf
    · right
      refine ⟨n + 1, f, ?_, by rw [List.getElem?_cons_succ]; exact hn, hlk, fun {n' e'} hn' he' => ?_⟩
      · rw [heq]
        congr 1
        omega
      · obtain ⟨m, rfl⟩ : ∃ m, n' = m + 1 := ⟨n' - 1, by omega⟩
        rw [List.getElem?_cons_succ] at he'
        exact hlast (by omega) he'

/-- No two entries share a lock. -/
def Distinct (b : Build) (ws : List (WEntry w)) : Prop :=
  ws.Pairwise fun e f => b.getLock w e.addr ≠ b.getLock w f.addr

instance (b : Build) (ws : List (WEntry w)) : Decidable (Distinct b ws) :=
  inferInstanceAs (Decidable (List.Pairwise _ _))

theorem Distinct.eq {ws : List (WEntry w)} (h : Distinct b ws) {i j : ℕ} {e f : WEntry w}
    (hi : ws[i]? = some e) (hj : ws[j]? = some f) (hlk : b.getLock w e.addr = b.getLock w f.addr) :
    i = j := by
  obtain ⟨hi', rfl⟩ := List.getElem?_eq_some_iff.mp hi
  obtain ⟨hj', rfl⟩ := List.getElem?_eq_some_iff.mp hj
  have hp := List.pairwise_iff_getElem.mp h
  rcases Nat.lt_trichotomy i j with hlt | heq | hlt
  · exact absurd hlk (hp i j hi' hj' hlt)
  · exact heq
  · exact absurd hlk.symm (hp j i hj' hi' hlt)

theorem exists_of_not_distinct {ws : List (WEntry w)} (h : ¬ Distinct b ws) :
    ∃ (i j : ℕ) (e f : WEntry w), i < j ∧ ws[i]? = some e ∧ ws[j]? = some f ∧
      b.getLock w e.addr = b.getLock w f.addr := by
  simp only [Distinct, List.pairwise_iff_getElem, not_forall] at h
  obtain ⟨i, j, hi, hj, hlt, hlk⟩ := h
  exact ⟨i, j, ws[i], ws[j], hlt, List.getElem?_eq_getElem hi, List.getElem?_eq_getElem hj,
    not_not.mp hlk⟩

def Walk.isFound : Walk → Bool
  | .found _ => true
  | .last _ => false

/-- When a store that needs a new entry finds the array full, no two entries share a
lock and the store does not come under a lock that is held already. -/
def GrowOk (b : Build) (s : WState w) : Op w → Prop
  | .store a _ m _ => s.ws.length = s.size →
    match s.lock (b.getLock w a) with
    | .free _ => Distinct b s.ws
    | .mine _ i => m = 0 ∨ Walk.isFound (chainWalk s.ws a s.ws.length i) = true
    | .other => True
  | _ => True

instance (b : Build) (s : WState w) (op : Op w) : Decidable (GrowOk b s op) := by
  unfold GrowOk
  split
  · split <;> infer_instance
  · infer_instance

section Step

variable {s : WState w} (h : Good b s)
include h

theorem Good.grow (hd : Distinct b s.ws) : Good b (stmAllocateWsEntries b s) where
  chained := h.chained
  own {k arr i} hk := by
    rcases relocate_spec (b.getLock w) (s.arr + 1) s.ws 0 s.lock k with ⟨heq, hno⟩ | ⟨n, e, heq, hn, hlk, -⟩
    · have hk' : s.lock k = .mine arr i := heq.symm.trans hk
      obtain ⟨-, ⟨e, hi, hlk⟩, -⟩ := h.own hk'
      exact absurd hlk (hno e (List.mem_of_getElem? hi))
    · have hw : Word.mine (s.arr + 1) (0 + n) = .mine arr i := heq.symm.trans hk
      cases hw
      rw [Nat.zero_add]
      exact ⟨rfl, ⟨e, hn, hlk⟩, fun hj hlk' => (hd.eq hn hj (hlk.trans hlk'.symm)).le⟩
  held e he := by
    rcases relocate_spec (b.getLock w) (s.arr + 1) s.ws 0 s.lock (b.getLock w e.addr) with
      ⟨-, hno⟩ | ⟨n, -, heq, -⟩
    · exact absurd rfl (hno e he)
    · exact ⟨0 + n, heq⟩

theorem Good.acquire {a : ℕ} (v m : BitVec w) {ver : Ver}
    (hk : (s.lock (b.getLock w a)).isMine = false) :
    Good b { s with lock := Function.update s.lock (b.getLock w a) (.mine s.arr s.ws.length)
                    ws := s.ws ++ [newEntry s a v m ver] } where
  chained := by
    refine h.chained.snoc rfl fun f hf hlk => ?_
    obtain ⟨i, hi⟩ := h.held f hf
    have hlk' : b.getLock w f.addr = b.getLock w a := hlk
    rw [← hlk', hi] at hk
    simp [Word.isMine] at hk
  own {k arr i} hl := by
    by_cases hka : k = b.getLock w a
    · subst hka
      simp only [Function.update_self, Word.mine.injEq] at hl
      obtain ⟨rfl, rfl⟩ := hl
      refine ⟨rfl, ⟨_, getElem?_snoc.mpr (.inr ⟨rfl, rfl⟩), rfl⟩, fun {j e} hj hlk => ?_⟩
      rcases getElem?_snoc.mp hj with hj' | ⟨rfl, -⟩
      · obtain ⟨i, hi⟩ := h.held e (List.mem_of_getElem? hj')
        rw [← hlk, hi] at hk
        simp [Word.isMine] at hk
      · exact le_rfl
    · simp only [Function.update_of_ne hka] at hl
      obtain ⟨harr, ⟨e, hi, hlk⟩, hfirst⟩ := h.own hl
      refine ⟨harr, ⟨e, getElem?_snoc.mpr (.inl hi), hlk⟩, fun {j f} hj hlk' => ?_⟩
      rcases getElem?_snoc.mp hj with hj' | ⟨rfl, rfl⟩
      · exact hfirst hj' hlk'
      · exact absurd hlk'.symm hka
  held e he := by
    rcases List.mem_append.mp he with he | he
    · obtain ⟨i, hi⟩ := h.held e he
      have hne : b.getLock w e.addr ≠ b.getLock w a := by
        intro heq
        rw [← heq, hi] at hk
        simp [Word.isMine] at hk
      exact ⟨i, by simp only [Function.update_of_ne hne, hi]⟩
    · rw [List.mem_singleton.mp he]
      exact ⟨s.ws.length, by simp [newEntry]⟩

theorem Good.link {a : ℕ} (v m : BitVec w) {ver : Ver} {arr i j : ℕ}
    (hk : s.lock (b.getLock w a) = .mine arr i)
    (hwalk : chainWalk s.ws a s.ws.length i = .last j) :
    Good b { s with ws := linkEntry s.ws j (newEntry s a v m ver) } := by
  obtain ⟨harr, ⟨e, hi, hlk⟩, hfirst⟩ := h.own hk
  have hspec := chainWalk_spec h.chained a s.ws.length hi (by omega)
  rw [hwalk] at hspec
  obtain ⟨p, hp, hpn, hplk, -⟩ := hspec
  have hap : b.getLock w a = b.getLock w p.addr := by rw [hplk, hlk]
  -- the entries of the old array keep their addresses
  have hold : ∀ {n : ℕ} {f : WEntry w}, s.ws[n]? = some f → ∃ f',
      (linkEntry s.ws j (newEntry s a v m ver))[n]? = some f' ∧ f'.addr = f.addr := by
    intro n f hn
    refine ⟨_, getElem?_linkEntry.mpr (.inl ⟨f, hn, rfl⟩), ?_⟩
    split <;> rfl
  constructor
  case chained => exact h.chained.linkEntry hp hpn rfl hap
  case own =>
    intro k arr' i' hl
    obtain ⟨harr', ⟨f, hi', hlk'⟩, hfirst'⟩ := h.own hl
    obtain ⟨f', hf', ha'⟩ := hold hi'
    refine ⟨harr', ⟨f', hf', by rw [ha']; exact hlk'⟩, fun {n q} hn hq => ?_⟩
    rcases getElem?_linkEntry.mp hn with ⟨q', hq', rfl⟩ | ⟨rfl, rfl⟩
    · refine hfirst' hq' ?_
      split at hq <;> exact hq
    · exact (getElem?_lt hi').le
  case held =>
    intro f hf
    obtain ⟨n, hn⟩ := List.mem_iff_getElem?.mp hf
    rcases getElem?_linkEntry.mp hn with ⟨q', hq', rfl⟩ | ⟨rfl, rfl⟩
    · obtain ⟨i', hi'⟩ := h.held q' (List.mem_of_getElem? hq')
      refine ⟨i', ?_⟩
      split <;> exact hi'
    · exact ⟨i, by rw [← harr]; exact hk⟩

theorem Good.reshape {ws' : List (WEntry w)} (hsh : SameShape s.ws ws') :
    Good b { s with ws := ws' } where
  chained := h.chained.reshape hsh
  own hl := by
    obtain ⟨harr, ⟨e, hi, hlk⟩, hfirst⟩ := h.own hl
    obtain ⟨e', hi', ha, -⟩ := hsh.symm.get hi
    refine ⟨harr, ⟨e', hi', by rw [ha]; exact hlk⟩, fun {j f} hj hlk' => ?_⟩
    obtain ⟨f', hj', ha', -⟩ := hsh.get hj
    exact hfirst hj' (by rw [ha']; exact hlk')
  held e he := by
    obtain ⟨n, hn⟩ := List.mem_iff_getElem?.mp he
    obtain ⟨f, hf, ha, -⟩ := hsh.get hn
    obtain ⟨i, hi⟩ := h.held f (List.mem_of_getElem? hf)
    exact ⟨i, by rw [← ha]; exact hi⟩

theorem Good.lock_free {a : ℕ} (hk : (s.lock (b.getLock w a)).isMine = false) :
    (stmAllocateWsEntries b s).lock (b.getLock w a) = s.lock (b.getLock w a) := by
  rcases relocate_spec (b.getLock w) (s.arr + 1) s.ws 0 s.lock (b.getLock w a) with
    ⟨heq, -⟩ | ⟨n, e, -, hn, hlk, -⟩
  · exact heq
  · obtain ⟨i, hi⟩ := h.held e (List.mem_of_getElem? hn)
    rw [← hlk, hi] at hk
    simp [Word.isMine] at hk

theorem Good.writeFree {a : ℕ} {ver : Ver} (hk : (s.lock (b.getLock w a)).isMine = false)
    (hok : s.ws.length = s.size → Distinct b s.ws) (v m : BitVec w) (cas : Bool) :
    Good b (writeFree b s a v m ver cas) := by
  unfold Growth.writeFree
  by_cases hfull : s.ws.length = s.size
  · have hg := h.grow (hok hfull)
    simp only [hfull, if_true]
    cases cas with
    | false => exact hg
    | true => exact hg.acquire v m (by rw [h.lock_free hk]; exact hk)
  · simp only [hfull, if_false]
    cases cas with
    | false => exact h
    | true => exact h.acquire v m hk

theorem Good.writeOwn {a arr i : ℕ} {v m : BitVec w} (hk : s.lock (b.getLock w a) = .mine arr i)
    (hok : s.ws.length = s.size →
      m = 0 ∨ Walk.isFound (chainWalk s.ws a s.ws.length i) = true) :
    Good b (writeOwn b s a v m i) := by
  unfold Growth.writeOwn
  split
  · exact h
  · next hm =>
    cases hwalk : chainWalk s.ws a s.ws.length i with
    | found j => exact h.reshape (sameShape_modify j fun _ => rfl)
    | last j =>
      have hroom : s.ws.length ≠ s.size := by
        intro hfull
        rcases hok hfull with h0 | hf
        · exact hm h0
        · simp [hwalk, Walk.isFound] at hf
      simp only [hroom, if_false]
      exact h.link v m hk hwalk

theorem Good.stmWrite {a : ℕ} {v m : BitVec w} {cas : Bool}
    (hok : GrowOk b s (.store a v m cas)) : Good b (stmWrite b s a v m cas) := by
  simp only [GrowOk] at hok
  unfold Growth.stmWrite
  cases hk : s.lock (b.getLock w a) with
  | other => exact h
  | free ver =>
    simp only [hk] at hok
    exact h.writeFree (by rw [hk]; rfl) hok v m cas
  | mine arr i =>
    simp only [hk] at hok
    dsimp only
    split
    · exact h.writeOwn hk hok
    · exact h

theorem Good.step {op : Op w} (hok : GrowOk b s op) : Good b (step b s op) := by
  cases op with
  | store a v m cas => exact h.stmWrite hok
  | setLock k v =>
    simp only [Growth.step]
    split
    · exact h
    · next hk =>
      have hne : ∀ {k' arr i}, s.lock k' = .mine arr i → k' ≠ k := by
        rintro k' arr i hl rfl
        simp [hl, Word.isMine] at hk
      refine ⟨h.chained, fun {k' arr i} hl => ?_, fun e he => ?_⟩
      · by_cases hkk : k' = k
        · subst hkk
          simp only [Function.update_self] at hl
          cases v <;> cases hl
        · simp only [Function.update_of_ne hkk] at hl
          exact h.own hl
      · obtain ⟨i, hi⟩ := h.held e he
        exact ⟨i, by simp only [Function.update_of_ne (hne hi), hi]⟩
  | setMem a v =>
    simp only [Growth.step]
    split
    · exact h
    · exact ⟨h.chained, h.own, h.held⟩

end Step

end TinyStm.Growth
