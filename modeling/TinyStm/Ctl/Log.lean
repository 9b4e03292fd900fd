import TinyStm.Steps.Store
import TinyStm.Lib.Logged

/-!
# Locks of the commit-time design

Which entry of a stripe releases its lock is decided by the acquisition loop of
`stm_commit`, which goes backwards; the loop that writes back goes forwards, and
the one of `stm_rollback` backwards until `nb_acquired` is used up. Each thread
keeps a log of its accesses to locks and memory in the current attempt, and the
log of a finished commit or rollback says what happened to each lock, and when.
Nothing is assumed about the run: the clock may be anything and the other threads
may do anything.
-/

namespace TinyStm

open Interleave

variable {w : ℕ} {b : Build} {tid : ℕ} {g g' : Shared w} {x x' : Tx w} {e : WEntry w}

/-! ### Logs -/

/-- A store to a lock or to a memory word. `acquire` is a compare-and-swap that
replaced the free word with version `l`. -/
inductive Access (w : ℕ) where
  | acquire (k : ℕ) (l : Ver)
  | release (k : ℕ) (v : Ver)
  | store (a : ℕ) (v : BitVec w)
  deriving DecidableEq, Repr

/-- The access a step makes in the commit-time design. -/
def accesses (b : Build) (act : Act w) (g : Shared w) (x : Tx w) : List (Access w) :=
  match act, x.pc with
  | .go, .commitCas i l =>
    match x.wset[i]? with
    | some e => if g.lock (b.getLock w e.addr) = ⟨l, none⟩ then [.acquire (b.getLock w e.addr) l]
        else []
    | none => []
  | .go, .rb _ (j + 1) _ =>
    match x.wset[j]? with
    | some e => if x.nbAcquired ≠ 0 ∧ b.drops e = true then
        [.release (b.getLock w e.addr) e.version] else []
    | none => []
  | .go, .pub _ i =>
    match x.wset[i]? with
    | some e => if e.mask = BitVec.allOnes w then [.store e.addr e.value] else []
    | none => []
  | .go, .pubStore _ i v =>
    match x.wset[i]? with
    | some e => [.store e.addr v]
    | none => []
  | .go, .pubRel t i =>
    match x.wset[i]? with
    | some e => if b.drops e = true then
        [.release (b.getLock w e.addr) ⟨b.commitV w t e.version.ts, 0⟩] else []
    | none => []
  | .go, .unitCas a _ _ l =>
    if g.lock (b.getLock w a) = ⟨l, none⟩ then [.acquire (b.getLock w a) l] else []
  | .go, .unitStore a v => [.store a v]
  | .go, .unitRel a _ t => [.release (b.getLock w a) ⟨t, 0⟩]
  | _, _ => []

/-- The log of the current attempt: `stm_prepare` starts a new one. -/
def nextLog (b : Build) (_ : ℕ) (act : Act w) (g : Shared w) (x : Tx w) (l : List (Access w)) :
    List (Access w) :=
  if x.pc = .prepare then [] else l ++ accesses b act g x

def logMachine (b : Build) (w : ℕ) : System ℕ (Shared w) (Tx w × List (Access w)) (Act w) :=
  (machine b w).logged (nextLog b)

/-- The access in the log is the change the step makes, and the only one. -/
inductive Effect (tid : ℕ) (g g' : Shared w) : List (Access w) → Prop
  | none : g'.lock = g.lock → g'.mem = g.mem → Effect tid g g' []
  | acquire {k : ℕ} {l : Ver} {o : Owner} : g.lock k = ⟨l, .none⟩ →
      (⟨l, some o⟩ : LockWord).HeldBy tid → g'.lock = Function.update g.lock k ⟨l, some o⟩ →
      g'.mem = g.mem → Effect tid g g' [.acquire k l]
  | release {k : ℕ} {v : Ver} : (g.lock k).HeldBy tid →
      g'.lock = Function.update g.lock k ⟨v, .none⟩ → g'.mem = g.mem →
      Effect tid g g' [.release k v]
  | store {a : ℕ} {v : BitVec w} : g'.lock = g.lock →
      g'.mem = Function.update g.mem a v → Effect tid g g' [.store a v]

/-- The ghost step counter does not matter. -/
theorem Effect.of_tick {acc : List (Access w)} (h : Effect tid g.tick g' acc) :
    Effect tid g g' acc := by
  cases h with
  | none hl hm => exact .none hl hm
  | acquire hf hb hl hm => exact .acquire hf hb hl hm
  | release hb hl hm => exact .release hb hl hm
  | store hl hm => exact .store hl hm

/-- Locks of others are left alone. -/
theorem Effect.frame {acc : List (Access w)} (h : Effect tid g g' acc) {u : ℕ} (hu : u ≠ tid)
    (k : ℕ) (hk : (g.lock k).HeldBy u ∨ (g'.lock k).HeldBy u) : g'.lock k = g.lock k := by
  cases h with
  | none hl => rw [hl]
  | store hl => rw [hl]
  | @acquire k' l o hfree hby hl =>
    rw [hl] at hk ⊢
    rcases eq_or_ne k k' with rfl | hne
    · rw [Function.update_self, hfree] at hk
      rcases hk with hk | hk
      · exact absurd hk (not_heldBy_free _ _)
      · exact absurd (hk.unique hby) hu
    · exact Function.update_of_ne hne _ _
  | @release k' v hby hl =>
    rw [hl] at hk ⊢
    rcases eq_or_ne k k' with rfl | hne
    · rw [Function.update_self] at hk
      rcases hk with hk | hk
      · exact absurd (hk.unique hby) hu
      · exact absurd hk (not_heldBy_free _ _)
    · exact Function.update_of_ne hne _ _

/-! ### Entries that release, and the logs they leave -/

/-- The entries that carry the release of their lock, in the order of acquisition. -/
def releasers (b : Build) (ws : List (WEntry w)) : List (WEntry w) := ws.reverse.filter b.drops

def acquireOf (b : Build) (e : WEntry w) : Access w := .acquire (b.getLock w e.addr) e.version

/-- Rollback: the version the acquisition replaced. -/
def restoreOf (b : Build) (e : WEntry w) : Access w := .release (b.getLock w e.addr) e.version

/-- Commit with timestamp `t`. -/
def publishOf (b : Build) (t : ℕ) (e : WEntry w) : Access w :=
  .release (b.getLock w e.addr) ⟨b.commitV w t e.version.ts, 0⟩

/-- The store of the value of an entry under its mask. -/
def Stored (e : WEntry w) (S : List (Access w)) : Prop :=
  (e.mask = 0 ∧ S = []) ∨ ∃ v, S = [.store e.addr v] ∧ v &&& e.mask = e.value &&& e.mask

/-- The log of the write-back loop over the entries `ws`. -/
inductive Published (b : Build) (t : ℕ) : List (WEntry w) → List (Access w) → Prop
  | nil : Published b t [] []
  | snoc {ws : List (WEntry w)} {P S : List (Access w)} {e : WEntry w} : Published b t ws P →
      Stored e S → Published b t (ws ++ [e])
        (P ++ S ++ if b.drops e = true then [publishOf b t e] else [])

/-- Among the entries of a lock the last one releases it. -/
def DropOrder (b : Build) (ws : List (WEntry w)) : Prop :=
  ∀ {j j' : ℕ} {e e' : WEntry w}, ws[j]? = some e → b.drops e = true → ws[j']? = some e' →
    b.getLock w e'.addr = b.getLock w e.addr → j' ≤ j

theorem releasers_append (ws vs : List (WEntry w)) :
    releasers b (ws ++ vs) = releasers b vs ++ releasers b ws := by
  simp [releasers]

theorem releasers_singleton (e : WEntry w) :
    releasers b [e] = if b.drops e = true then [e] else [] := by
  by_cases h : b.drops e <;> simp [releasers, h]

theorem releasers_drop {ws : List (WEntry w)} {j : ℕ} (he : ws[j]? = some e) :
    releasers b (ws.drop j) =
      releasers b (ws.drop (j + 1)) ++ if b.drops e = true then [e] else [] := by
  obtain ⟨hj, rfl⟩ := List.getElem?_eq_some_iff.mp he
  rw [List.drop_eq_getElem_cons hj, ← List.singleton_append, releasers_append,
    releasers_singleton]

theorem releasers_eq_nil {ws : List (WEntry w)} (h : ∀ e ∈ ws, b.drops e = false) :
    releasers b ws = [] := by
  simp only [releasers, List.filter_eq_nil_iff, List.mem_reverse]
  intro e he
  simp [h e he]

/-- Two entries of one lock do not both release it. -/
theorem releasers_nodup {ws : List (WEntry w)} (h : DropOrder b ws) :
    ((releasers b ws).map fun e => b.getLock w e.addr).Nodup := by
  rw [releasers, List.filter_reverse, List.map_reverse, List.nodup_reverse, List.Nodup,
    List.pairwise_map, List.pairwise_filter, List.pairwise_iff_getElem]
  intro i j hi hj hij hdi hdj heq
  have := h (List.getElem?_eq_getElem hi) hdi (List.getElem?_eq_getElem hj) heq.symm
  omega

theorem mergeBits_and_mask (y v m : BitVec w) : mergeBits y v m &&& m = v &&& m := by
  apply BitVec.eq_of_getLsbD_eq
  intro i hi
  simp only [mergeBits, BitVec.getLsbD_or, BitVec.getLsbD_and, BitVec.getLsbD_not, hi,
    decide_true, Bool.true_and]
  cases y.getLsbD i <;> cases v.getLsbD i <;> cases m.getLsbD i <;> rfl

section Published

variable {t : ℕ} {ws : List (WEntry w)} {P : List (Access w)}

theorem Published.stored (h : Published b t ws P) {f : WEntry w} (hf : f ∈ ws)
    (hm : f.mask ≠ 0) : ∃ v, .store f.addr v ∈ P ∧ v &&& f.mask = f.value &&& f.mask := by
  induction h with
  | nil => simp at hf
  | @snoc ws P S e _ hS ih =>
    rcases List.mem_append.mp hf with hf | hf
    · obtain ⟨v, hv, he⟩ := ih hf
      exact ⟨v, by simp [hv], he⟩
    · obtain rfl := List.mem_singleton.mp hf
      rcases hS with ⟨h0, -⟩ | ⟨v, rfl, he⟩
      · exact absurd h0 hm
      · exact ⟨v, by simp, he⟩

theorem Stored.not_release {S : List (Access w)} (h : Stored e S) {k : ℕ} {v : Ver} :
    .release k v ∉ S := by
  rcases h with ⟨-, rfl⟩ | ⟨y, rfl, -⟩ <;> simp

/-- A release in the log is that of an entry, and the entries up to it are stored
before. -/
theorem Published.release_after (h : Published b t ws P) {p q : List (Access w)} {k : ℕ} {v : Ver}
    (hP : P = p ++ .release k v :: q) :
    ∃ ws₁ e ws₂, ws = ws₁ ++ e :: ws₂ ∧ b.drops e = true ∧ .release k v = publishOf b t e ∧
      ∀ f ∈ ws₁ ++ [e], f.mask ≠ 0 →
        ∃ y, .store f.addr y ∈ p ∧ y &&& f.mask = f.value &&& f.mask := by
  induction h generalizing q with
  | nil => simp at hP
  | @snoc ws P S e hpub hS ih =>
    -- where the release stands: in the log of the earlier entries, or it is the last one
    by_cases hin : ∃ q', P = p ++ .release k v :: q'
    · obtain ⟨q', hq'⟩ := hin
      obtain ⟨ws₁, f, ws₂, rfl, hd, hr, hst⟩ := ih hq'
      exact ⟨ws₁, f, ws₂ ++ [e], by simp, hd, hr, hst⟩
    · have hlast : b.drops e = true ∧ p = P ++ S ∧ .release k v = publishOf b t e := by
        rw [List.append_assoc] at hP
        rcases List.append_eq_append_iff.mp hP with ⟨p', rfl, hR⟩ | ⟨q', rfl, hR⟩
        · rcases List.append_eq_append_iff.mp hR with ⟨p'', rfl, hR'⟩ | ⟨q'', rfl, hR'⟩
          · split at hR'
            · next hd =>
              rcases p'' with _ | ⟨a, p''⟩
              · simp only [List.nil_append, List.cons.injEq] at hR'
                exact ⟨hd, by simp, hR'.1.symm⟩
              · simp at hR'
            · simp at hR'
          · rcases q'' with _ | ⟨a, q''⟩
            · split at hR'
              · next hd =>
                simp only [List.nil_append, List.cons.injEq] at hR'
                exact ⟨hd, by simp, hR'.1⟩
              · simp at hR'
            · simp only [List.cons_append, List.cons.injEq] at hR'
              rw [← hR'.1] at hS
              exact absurd (by simp) (hS.not_release (k := k) (v := v))
        · rcases q' with _ | ⟨a, q'⟩
          · rcases S with _ | ⟨s, S⟩
            · simp only [List.nil_append] at hR
              split at hR
              · next hd =>
                simp only [List.cons.injEq] at hR
                exact ⟨hd, by simp, hR.1⟩
              · simp at hR
            · simp only [List.nil_append, List.cons_append, List.cons.injEq] at hR
              rw [← hR.1] at hS
              exact absurd (by simp) (hS.not_release (k := k) (v := v))
          · simp only [List.cons_append, List.cons.injEq] at hR
            rw [← hR.1] at hin
            exact absurd ⟨q', rfl⟩ hin
      obtain ⟨hd, rfl, hr⟩ := hlast
      refine ⟨ws, e, [], rfl, hd, hr, fun f hf hm => ?_⟩
      have hall := Published.snoc hpub hS
      obtain ⟨y, hy, he⟩ := hall.stored hf hm
      refine ⟨y, ?_, he⟩
      rcases List.mem_append.mp hy with hy | hy
      · exact hy
      · split at hy <;> simp [publishOf] at hy

theorem Published.no_acquire (h : Published b t ws P) (k : ℕ) (l : Ver) : .acquire k l ∉ P := by
  induction h with
  | nil => simp
  | @snoc ws P S e _ hS ih =>
    have hs : .acquire k l ∉ S := by
      rcases hS with ⟨-, rfl⟩ | ⟨v, rfl, -⟩ <;> simp
    by_cases hd : b.drops e <;> simp [hd, ih, hs, publishOf]

/-- The releases of a log, in order. -/
def releasesOf (ℓ : List (Access w)) : List (ℕ × Ver) :=
  ℓ.filterMap fun
    | .release k v => some (k, v)
    | _ => none

theorem Published.releases (h : Published b t ws P) : releasesOf P =
    (ws.filter b.drops).map fun e => (b.getLock w e.addr, ⟨b.commitV w t e.version.ts, 0⟩) := by
  induction h with
  | nil => rfl
  | @snoc ws P S e _ hS ih =>
    have hs : releasesOf S = [] := by
      rcases hS with ⟨-, rfl⟩ | ⟨v, rfl, -⟩ <;> rfl
    unfold releasesOf at ih hs ⊢
    rw [List.filterMap_append, List.filterMap_append, ih, hs, List.filter_append]
    by_cases hd : b.drops e <;> simp [hd, publishOf]

end Published

end TinyStm
