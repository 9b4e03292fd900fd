import TinyStm.Invariant

/-!
# Updates, the memory they produce, and what loads show of it

The statements about whole runs do not mention the log. An update of a state is a
transaction past its commit-time validation or a unit store with its timestamp,
finished or not; `Produces` says that a sequence of memories is the initial one
followed by the updates in the order of their timestamps, and nothing else.
-/

namespace TinyStm

open Timeline Interleave

variable {w : ℕ} {b : Build} {P : Mode} {s : State w} {g : Shared w} {n tid : ℕ}
  {ss : List (Store w)}

/-- Thread `tid` has done, or can no longer fail to do, the update `ss` with
timestamp `n`. -/
inductive Update (s : State w) (n tid : ℕ) (ss : List (Store w)) : Prop
  | finished {A : Attempt w} : A ∈ s.shared.hist → A.wrote = some n → A.tid = tid →
      A.stores = ss → Update s n tid ss
  | publishing {i : ℕ} : (s.loc tid).pc.phase = .pub n i → (s.loc tid).stores = ss →
      Update s n tid ss
  | unit {a : ℕ} {v : BitVec w} : (s.loc tid).pc = .unitRel a v n →
      ss = [⟨a, v, BitVec.allOnes w⟩] → Update s n tid ss

/-- `M n` is the memory `m` after the updates with timestamp at most `n`. -/
structure Produces (m : ℕ → BitVec w) (s : State w) (M : ℕ → ℕ → BitVec w) : Prop where
  init : M 0 = m
  unique : ∀ {n tid tid' ss ss'}, Update s n tid ss → Update s n tid' ss' → tid = tid' ∧ ss = ss'
  bound : ∀ {n tid ss}, Update s n tid ss → 0 < n ∧ n ≤ s.shared.clock
  update : ∀ {n tid ss}, Update s (n + 1) tid ss → ∀ a, M (n + 1) a = overlay ss a (M n a)
  other : ∀ n, (∀ tid ss, ¬ Update s (n + 1) tid ss) → M (n + 1) = M n

/-- The load `r` of an attempt with stores `ss` shows the memory `m`: below the
stores made before it, and on every bit the attempt does not write. -/
structure Shows (m : ℕ → BitVec w) (ss : List (Store w)) (r : Read w) : Prop where
  pre : r.pre <+: ss
  word : r.val = overlay r.pre r.addr (m r.addr)
  bits : ∀ i, (writtenMask ss r.addr).getLsbD i = false →
    r.val.getLsbD i = (m r.addr).getLsbD i

/-! ### Updates and the log -/

theorem pcOk_pub {x : Tx w} {t i : ℕ} (h : PcOk b tid g x x.pc) (hp : x.pc.phase = .pub t i) :
    ∃ m, PubOk b tid g x t i m := by
  revert h
  cases hc : x.pc <;> simp only [hc, Pc.phase] at hp <;> cases hp
  · exact fun h => ⟨_, h⟩
  · exact fun h => ⟨_, h.2.1⟩
  · exact fun h => ⟨_, h⟩

theorem Update.log (hS : SInv b P s.shared) (hT : ∀ i, TInv b P i s.shared (s.loc i))
    (h : Update s n tid ss) : s.shared.log n = some ⟨tid, ss, true⟩ := by
  cases h with
  | finished hA hw ht hs =>
    have := ((hS.hist _ hA).commit n hw).2.2.1
    rw [ht, hs] at this
    exact this
  | publishing hp hs =>
    obtain ⟨m, hpub⟩ := pcOk_pub (hT tid).pc hp
    rw [← hs]
    exact hpub.log
  | unit hp hs =>
    have hpc := (hT tid).pc
    rw [hp] at hpc
    rw [hs]
    exact hpc.2.1

/-- A decided slot is an update, or the bookkeeping of a write-through rollback,
which changes no word. -/
theorem update_of_log (hT : ∀ i, TInv b P i s.shared (s.loc i))
    (h : s.shared.log n = some ⟨tid, ss, true⟩) :
    Update s n tid ss ∨ (b.design = .writeThrough ∧ ∀ a y, overlay ss a y = y) := by
  have hpc := (hT tid).pc
  rcases (hT tid).fate h with (⟨A, hA, hw, ht, hs⟩ | hno) | hc
  · exact .inl (.finished hA hw ht hs)
  · exact .inr hno
  · have hpub : ∀ {t i m}, (s.loc tid).pc.phase = .pub t i →
        PubOk b tid s.shared (s.loc tid) t i m → t = n → Update s n tid ss := by
      rintro t i m hp hk rfl
      have hlog := hk.log
      rw [h] at hlog
      cases hlog
      exact .publishing hp rfl
    have hundo : ∀ {i j t}, UndoOk b tid s.shared (s.loc tid) i j t → t ≠ 0 → t = n →
        b.design = .writeThrough ∧ ∀ a y, overlay ss a y = y := by
      rintro i j t hk ht rfl
      have hd : b.design = .writeThrough := by
        by_contra hd
        exact ht (hk.noBump hd)
      obtain ⟨-, m, hlog, -⟩ := hk.bump ht
      rw [h] at hlog
      cases hlog
      exact ⟨hd, fun a y => overlay_bumped _ m a y⟩
    cases hp : (s.loc tid).pc with
    | validate now i c =>
      cases c with
      | commit t =>
        rw [hp] at hpc hc
        simp only [Pc.cur, Option.some.injEq] at hc
        have hlog := hpc.2.2.2.2.2.2.2.1
        rw [hc, h] at hlog
        cases hlog
      | _ => simp [hp, Pc.cur] at hc
    | pub t i =>
      rw [hp] at hpc hc
      exact .inl (hpub (by rw [hp]; rfl) hpc (by simpa [Pc.cur] using hc))
    | pubStore t i v =>
      rw [hp] at hpc hc
      exact .inl (hpub (by rw [hp]; rfl) hpc.2.1 (by simpa [Pc.cur] using hc))
    | pubRel t i =>
      rw [hp] at hpc hc
      exact .inl (hpub (by rw [hp]; rfl) hpc (by simpa [Pc.cur] using hc))
    | rb r i t =>
      rw [hp] at hpc hc
      simp only [Pc.cur, Option.ite_none_left_eq_some, Option.some.injEq] at hc
      exact .inr (hundo hpc hc.1 hc.2)
    | rbDrop r i t =>
      rw [hp] at hpc hc
      simp only [Pc.cur, Option.ite_none_left_eq_some, Option.some.injEq] at hc
      exact .inr (hundo hpc.2 hc.1 hc.2)
    | unitRel a v t =>
      rw [hp] at hpc hc
      simp only [Pc.cur, Option.some.injEq] at hc
      have hlog := hpc.2.1
      rw [hc, h] at hlog
      cases hlog
      exact .inl (.unit (by rw [hp, hc]) rfl)
    | _ => simp [hp, Pc.cur] at hc

/-- The memories of the log are produced by the updates. -/
theorem produces (hS : SInv b P s.shared) (hT : ∀ i, TInv b P i s.shared (s.loc i)) :
    Produces s.shared.mem0 s (s.shared.at b) where
  init := rfl
  unique h h' := by
    have := h.log hS hT
    rw [h'.log hS hT] at this
    cases this
    exact ⟨rfl, rfl⟩
  bound h := hS.slot (h.log hS hT)
  update h a := memAt_succ_decided (S := b.sem w) a (h.log hS hT) rfl
  other n hno := by
    funext a
    cases hl : s.shared.log (n + 1) with
    | none => exact memAt_succ_none (S := b.sem w) a hl
    | some t =>
      cases hd : t.decided with
      | false => exact memAt_succ_undecided (S := b.sem w) a hl hd
      | true =>
        have heff : s.shared.at b (n + 1) a = overlay t.body a (s.shared.at b n a) :=
          memAt_succ_decided (S := b.sem w) a hl hd
        rw [show t = ⟨t.owner, t.body, true⟩ by rw [← hd]] at hl
        rcases update_of_log hT hl with hu | hid
        · exact absurd hu (hno _ _)
        · rw [heff, hid.2]

/-! ### Loads -/

theorem shows_of_overlay {m : ℕ → BitVec w} {r : Read w} (hp : r.pre <+: ss)
    (hv : r.val = overlay r.pre r.addr (m r.addr)) : Shows m ss r where
  pre := hp
  word := hv
  bits i hi := by
    obtain ⟨ts, rfl⟩ := hp
    rw [writtenMask_append, BitVec.getLsbD_or, Bool.or_eq_false_iff] at hi
    rw [hv, overlay_getLsbD _ _ _ _ hi.1]

theorem ReadAt.shows {e : ℕ} {r : Read w} (h : ReadAt b g e r) (hp : r.pre <+: ss) :
    Shows (g.at b e) ss r := by
  refine shows_of_overlay hp ?_
  rcases h with hown | ⟨v, hval, -, hve, hq⟩
  · exact hown _
  · rw [hval]
    congr 1
    exact (memAt_eq_of_quiet (S := b.sem w) hq hve).symm

/-- Memory under a free lock is the memory after all updates. -/
theorem SInv.mem_now (h : SInv b P g) {a : ℕ} (hk : (g.lock (b.getLock w a)).own = none) :
    g.mem a = g.at b g.clock a := by
  obtain ⟨v, hv⟩ : ∃ v, g.lock (b.getLock w a) = ⟨v, none⟩ := ⟨_, by rw [← hk]⟩
  have hle : b.stamp v.ts ≤ g.clock := by
    have := h.ver_le (b.getLock w a)
    simpa [Shared.ver, hv] using this
  rw [h.mem_free hv]
  exact (memAt_eq_of_quiet (S := b.sem w) (h.quiet_free hv g.clock) hle).symm

end TinyStm
