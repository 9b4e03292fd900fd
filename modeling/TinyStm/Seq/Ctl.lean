import TinyStm.Seq.Base
import TinyStm.Steps.Store

/-!
# Commit-time locking without concurrency

No store touches memory or a lock before the commit; the write set holds one
merged entry for each address, and the Bloom filter has the bits of all of them.
-/

namespace TinyStm.Seq

variable {w : ℕ} {o : Opts w} {tid : ℕ} {q : Quiescent w} {ss : List (Store w)} {g : Store3 w}
  {x : Desc w}

structure CtlInv (o : Opts w) (q : Quiescent w) (ss : List (Store w)) (g : Store3 w)
    (x : Desc w) : Prop where
  store : g = q.store
  start : x.start = q.clock
  endT : x.endT = q.clock
  nbAcquired : x.nbAcquired = 0
  ws : CtlWs x.wset ss
  bloom : o.useBloomFilter = true → ∀ e ∈ x.wset, x.bloom &&& filterBits e.addr = filterBits e.addr

namespace CtlInv

theorem calm (h : CtlInv o q ss g x) : Calm q g x := by
  rw [h.store]
  exact ⟨rfl, h.start, h.endT, fun _ => rfl⟩

theorem lock_free (h : CtlInv o q ss g x) (k : ℕ) : (g.lock k).own = none := by
  rw [h.store]
  rfl

theorem mem_eq (h : CtlInv o q ss g x) : g.mem = q.mem := by
  rw [h.store]
  rfl

/-- The filter has no false negatives. -/
theorem hasWritten_eq (h : CtlInv o q ss g x) (a : ℕ) :
    hasWritten o x a = stmHasWritten x.wset a := by
  unfold hasWritten
  split
  · next hb =>
    simp only [Bool.and_eq_true, decide_eq_true_eq] at hb
    symm
    rw [stmHasWritten, List.findIdx?_eq_none_iff]
    intro e he
    simp only [beq_eq_false_iff_ne]
    rintro rfl
    exact hb.2 (h.bloom hb.1 e he)
  · rfl

theorem load (hd : o.design = .writeBackCtl) (h : CtlInv o q ss g x) (a : ℕ) :
    ∃ x', stmLoad o tid g x a = .ok (q.after ss a, x') ∧ CtlInv o q ss g x' := by
  have hread : ∀ rs, CtlInv o q ss g { x with rset := rs } := fun rs =>
    ⟨h.store, h.start, h.endT, h.nbAcquired, h.ws, h.bloom⟩
  obtain ⟨rs, hrs⟩ := addToReadSet_eq (o := o) x (o.getLock a) (g.lock (o.getLock a)).ver.ts
  simp only [stmLoad, hd, h.hasWritten_eq, h.lock_free, h.calm.readFree, hrs, Except.map]
  cases hw : stmHasWritten x.wset a with
  | none =>
    -- no entry, so no store to this address
    refine ⟨_, ?_, hread rs⟩
    have hself : q.after ss a = q.mem a := by
      refine overlay_of_forall_ne (fun s hs hsa => ?_) _
      obtain ⟨e, he, hea⟩ := h.ws.mem s hs
      exact stmHasWritten_none hw he (hea.trans hsa)
    simp only [Option.bind_none, hself, h.mem_eq]
  | some i =>
    obtain ⟨e, he, rfl⟩ := stmHasWritten_some hw
    have hval := h.ws.val e (List.mem_of_getElem? he)
    simp only [Option.bind_some, he]
    split
    · next hm =>
      refine ⟨x, ?_, h⟩
      rw [Quiescent.after, hval, hm, mergeBits_allOnes]
    · refine ⟨_, ?_, hread rs⟩
      rw [Quiescent.after, hval, h.mem_eq]

/-- Bits in one part are bits of the union. -/
theorem or_and_eq_right {u v m : BitVec w} (h : u &&& m = m ∨ v &&& m = m) :
    (u ||| v) &&& m = m := by
  apply BitVec.eq_of_getLsbD_eq
  intro i _
  have hbit : (u.getLsbD i && m.getLsbD i) = m.getLsbD i ∨
      (v.getLsbD i && m.getLsbD i) = m.getLsbD i := by
    refine h.imp (fun h => ?_) (fun h => ?_)
    · rw [← BitVec.getLsbD_and, h]
    · rw [← BitVec.getLsbD_and, h]
  simp only [BitVec.getLsbD_or, BitVec.getLsbD_and]
  revert hbit
  generalize u.getLsbD i = p, v.getLsbD i = r, m.getLsbD i = s
  revert p r s
  decide

theorem write (hd : o.design = .writeBackCtl) (h : CtlInv o q ss g x) (a : ℕ) (v m : BitVec w) :
    ∃ g' x', stmWrite o tid g x a v m = .ok (g', x') ∧
      CtlInv o q (ss ++ [⟨a, v, m⟩]) g' x' := by
  simp only [stmWrite, hd, writeCtl, h.hasWritten_eq, h.lock_free, h.calm.writeConflict,
    Option.isSome_none, Bool.false_eq_true, if_false]
  cases hw : stmHasWritten x.wset a with
  | some i =>
    have hws := h.ws.write a v m ⟨0, 0⟩
    simp only [ctlWrite, hw] at hws
    refine ⟨_, _, rfl, ⟨h.store, h.start, h.endT, h.nbAcquired, hws, fun hb e he => ?_⟩⟩
    obtain ⟨j, hj⟩ := List.mem_iff_getElem?.mp he
    obtain ⟨f, hf, ha, -⟩ := (ctlMerge_sameShape x.wset i v m).get hj
    rw [← ha]
    exact h.bloom hb f (List.mem_of_getElem? hf)
  | none =>
    refine ⟨_, _, rfl, ⟨h.store, h.start, h.endT, h.nbAcquired,
      h.ws.append (fun e he => stmHasWritten_none hw he) (fun hm => if_neg hm) _,
      fun hb e he => ?_⟩⟩
    simp only [hb, if_true]
    rcases List.mem_append.mp he with he | he
    · exact or_and_eq_right (.inl (h.bloom hb e he))
    · rw [List.mem_singleton.mp he]
      exact or_and_eq_right (.inr (BitVec.and_self ..))

/-- The masked store of an entry. -/
def storeOf (e : WEntry w) : Store w := ⟨e.addr, e.value, e.mask⟩

end CtlInv

open Seq.CtlInv

/-- A lock held during the acquisition loop belongs to an entry that releases it. -/
def Acquired (o : Opts w) (tid : ℕ) (g : Store3 w) (x : Desc w) : Prop :=
  ∀ k, (g.lock k).own = none ∨ (∃ i, (g.lock k).own = some (.entry tid i)) ∧
    ∃ e ∈ x.wset, (!e.noDrop) = true ∧ o.getLock e.addr = k

/-- The acquisition loop succeeds, and changes locks and the fields it must. -/
theorem acquireCtl_ok (tid n : ℕ) (hn : n ≤ x.wset.length) (h : Acquired o tid g x) :
    ∃ g' x', acquireCtl o tid n g x = .ok (g', x') ∧ g'.mem = g.mem ∧ g'.clock = g.clock ∧
      (∀ k, (g'.lock k).ver = (g.lock k).ver) ∧ x'.start = x.start ∧
      x'.wset.map storeOf = x.wset.map storeOf ∧ Acquired o tid g' x' := by
  induction n generalizing g x with
  | zero => exact ⟨g, x, rfl, rfl, rfl, fun _ => rfl, rfl, rfl, h⟩
  | succ i ih =>
    have he : x.wset[i]? = some x.wset[i] := List.getElem?_eq_getElem hn
    set e := x.wset[i] with hedef
    unfold acquireCtl
    simp only [he]
    rcases h (o.getLock e.addr) with hfree | ⟨⟨j, hj⟩, -⟩
    · rw [hfree]
      set taken : WEntry w → WEntry w := fun e =>
        { e with noDrop := false, version := (g.lock (o.getLock x.wset[i].addr)).ver } with htaken
      have hmap : (x.wset.modify i taken).map storeOf = x.wset.map storeOf := by
        refine List.ext_getElem? fun j => ?_
        by_cases hij : i = j
        · subst hij
          simp only [List.getElem?_map, List.getElem?_modify_eq, he]
          rfl
        · simp [hij]
      have hmem : ∀ f ∈ x.wset, (!f.noDrop) = true → ∃ f' ∈ x.wset.modify i taken,
          (!f'.noDrop) = true ∧ o.getLock f'.addr = o.getLock f.addr := by
        intro f hf hfd
        obtain ⟨j, hj⟩ := List.mem_iff_getElem?.mp hf
        by_cases hij : i = j
        · subst hij
          exact ⟨taken f, List.mem_iff_getElem?.mpr ⟨i, by simp [hj]⟩, rfl, rfl⟩
        · exact ⟨f, List.mem_iff_getElem?.mpr ⟨j, by simp [hij, hj]⟩, hfd, rfl⟩
      have hnext : Acquired o tid
          (g.setLock (o.getLock e.addr) ⟨(g.lock (o.getLock e.addr)).ver, some (.entry tid i)⟩)
          { x with wset := x.wset.modify i taken, nbAcquired := x.nbAcquired + 1 } := by
        intro k
        rcases eq_or_ne k (o.getLock e.addr) with rfl | hne
        · refine .inr ⟨⟨i, by simp [Store3.setLock]⟩, taken e, ?_, rfl, rfl⟩
          exact List.mem_iff_getElem?.mpr ⟨i, by simp [he]⟩
        · simp only [Store3.setLock, Function.update_of_ne hne]
          rcases h k with hk | ⟨hk, f, hf, hfd, hfl⟩
          · exact .inl hk
          · obtain ⟨f', hf', hfd', hfl'⟩ := hmem f hf hfd
            exact .inr ⟨hk, f', hf', hfd', hfl'.trans hfl⟩
      obtain ⟨g', x', hacq, h₁, h₂, h₃, h₄, h₅, h₆⟩ :=
        ih (by simpa using Nat.le_of_succ_le hn) hnext
      refine ⟨g', x', hacq, h₁, h₂, fun k => ?_, h₄, h₅.trans hmap, h₆⟩
      rw [h₃]
      rcases eq_or_ne k (o.getLock e.addr) with rfl | hne
      · simp [Store3.setLock]
      · simp [Store3.setLock, Function.update_of_ne hne]
    · rw [hj]
      simp only [if_true]
      exact ih (Nat.le_of_succ_le hn) h

/-- Publication of one entry is its masked store and the release of its lock. -/
theorem publish_ctl (hd : o.design = .writeBackCtl) (t : ℕ) (g : Store3 w) (e : WEntry w) :
    (publish o t g e).clock = g.clock ∧
    (publish o t g e).lock = (if (!e.noDrop) = true then
      Function.update g.lock (o.getLock e.addr) ⟨⟨t, 0⟩, none⟩ else g.lock) ∧
    (publish o t g e).mem =
      Function.update g.mem e.addr (mergeBits (g.mem e.addr) e.value e.mask) := by
  -- the three branches of the store are one masked store
  have hstore : ∀ g₁ : Store3 w, g₁ = (if e.mask = BitVec.allOnes w then g.setMem e.addr e.value
      else if e.mask ≠ 0 then g.setMem e.addr (mergeBits (g.mem e.addr) e.value e.mask) else g) →
      g₁ = g.setMem e.addr (mergeBits (g.mem e.addr) e.value e.mask) := by
    rintro g₁ rfl
    split
    · next hm => rw [hm, mergeBits_allOnes]
    · split
      · rfl
      · next hm =>
        rw [not_not.mp hm, mergeBits_zero]
        simp [Store3.setMem]
  unfold publish
  simp only [hd]
  rw [hstore _ rfl]
  cases e.noDrop <;> exact ⟨rfl, rfl, rfl⟩

namespace CtlInv

theorem commit (hd : o.design = .writeBackCtl) (h : CtlInv o q ss g x) :
    ∃ q' : Quiescent w, stmCommit o tid g x = .ok q'.store ∧ q'.mem = q.after ss := by
  unfold stmCommit
  split
  · next hempty =>
    refine ⟨q, by rw [h.store], ?_⟩
    funext a
    refine (overlay_of_forall_ne (fun s hs => ?_) _).symm
    obtain ⟨e, he, -⟩ := h.ws.mem s hs
    simp [hempty] at he
  · obtain ⟨g', x', hacq, hmem, hclock, hver, hstart, hmap, hown⟩ :=
      acquireCtl_ok (o := o) (g := g) (x := x) tid x.wset.length le_rfl
        fun k => .inl (h.lock_free k)
    simp only [hd, hacq]
    show ∃ q' : Quiescent w, (if x'.start = g'.clock || _ then _ else _) = _ ∧ _
    rw [hstart, hclock, h.start, h.calm.clock]
    simp only [decide_true, Bool.true_or, if_true, Except.ok.injEq, publishAll, hd]
    set g₁ : Store3 w := { g' with clock := q.clock + 1 } with hg₁
    have hpub := publish_ctl (o := o) hd (q.clock + 1)
    obtain ⟨hc, hfree⟩ := foldl_release (o := o) (g := g₁) (f := publish o (q.clock + 1))
      (v := fun _ => ⟨q.clock + 1, 0⟩) (fun e => !e.noDrop) x'.wset (q.clock + 1)
      (fun g e _ => ⟨(hpub g e).1, (hpub g e).2.1⟩) (fun _ _ _ => le_rfl)
      (fun k => (hown k).imp_right fun hk => hk.2)
      (fun k => by
        show (g'.lock k).ver.ts ≤ _
        rw [hver, h.calm.ver]
        exact (q.ver_le k).trans (Nat.le_succ _))
    obtain ⟨q', hq', hqm⟩ := Quiescent.of_free (fun k => (hfree k).1)
      (fun k => by rw [hc]; exact (hfree k).2)
    refine ⟨q', hq', ?_⟩
    rw [hqm]
    funext a
    rw [foldl_mem storeOf _ (fun _ => rfl) (fun g e => (hpub g e).2.2), hmap]
    show overlay _ a (g'.mem a) = _
    rw [hmem, h.mem_eq]
    by_cases ha : ∃ e ∈ x.wset, e.addr = a
    · obtain ⟨e, he, rfl⟩ := ha
      rw [overlay_map_eq (fun _ => rfl) h.ws.inj he, Quiescent.after, h.ws.val e he]
      rfl
    · rw [overlay_of_forall_ne, Quiescent.after, overlay_of_forall_ne]
      · intro s hs hsa
        obtain ⟨e, he, hea⟩ := h.ws.mem s hs
        exact ha ⟨e, he, hea.trans hsa⟩
      · intro s hs hsa
        obtain ⟨e, he, rfl⟩ := List.mem_map.mp hs
        exact ha ⟨e, he, hsa⟩

theorem abort (hd : o.design = .writeBackCtl) (h : CtlInv o q ss g x) :
    ∃ q' : Quiescent w, stmAbort o g x = .ok q'.store ∧ q'.mem = q.mem := by
  refine ⟨q, ?_, rfl⟩
  simp only [stmAbort, hd, h.nbAcquired, releaseCtl, h.store]

end CtlInv

theorem refines_ctl (hd : o.design = .writeBackCtl) : Refines o tid (CtlInv o) where
  start q := ⟨rfl, rfl, rfl, rfl, ⟨by simp [Quiescent.fresh], by simp, by simp [Quiescent.fresh]⟩,
    by simp [Quiescent.fresh]⟩
  load h a := h.load hd a
  write h a v m := h.write hd a v m
  commit h := h.commit hd
  abort h := h.abort hd

end TinyStm.Seq
