import TinyStm.Opacity
import TinyStm.Range

/-!
# Packed versions

The model-based build stores a version as a timestamp with an update counter.
Commits, rollbacks and extensions agree on the encoding, but `stm_prepare` packs
the old fields of the descriptor instead of the clock and `stm_unit_write` releases
its lock with a bare timestamp. As long as the old fields agree with the clock and
there are no unit stores everything fits together. Such a run is short: the fields
an attempt leaves behind never agree with a clock again, so that each thread takes
at most one timestamp.
-/

namespace TinyStm

open Timeline Interleave

variable {b : Build} {s s₀ : State 64} {x x' : Tx 64} {t t' : ℕ}

def Pc.isUnitInc {w : ℕ} : Pc w → Bool
  | .unitInc _ _ => true
  | _ => false

/-- The steps of at most `MAX_THREADS` threads, without unit stores, where the old
fields that `stm_prepare` packs agree with the clock in the bits a version has. -/
structure PackedOk (s : State 64) (i : ℕ) (_ : Act 64) : Prop where
  thread : i < Build.maxThreads
  prepare : (s.loc i).pc = .prepare →
    (s.loc i).start % 2 ^ mbrTmpBits 64 = s.shared.clock % 2 ^ mbrTmpBits 64 ∧
    (s.loc i).endT % 2 ^ mbrTmpBits 64 = s.shared.clock % 2 ^ mbrTmpBits 64
  unit : (s.loc i).pc.isUnitInc = false

instance (s : State 64) (i : ℕ) (act : Act 64) : Decidable (PackedOk s i act) :=
  decidable_of_iff (i < Build.maxThreads ∧ ((s.loc i).pc = .prepare →
    (s.loc i).start % 2 ^ mbrTmpBits 64 = s.shared.clock % 2 ^ mbrTmpBits 64 ∧
    (s.loc i).endT % 2 ^ mbrTmpBits 64 = s.shared.clock % 2 ^ mbrTmpBits 64) ∧
    (s.loc i).pc.isUnitInc = false) ⟨fun h => ⟨h.1, h.2.1, h.2.2⟩, fun h => ⟨h.1, h.2, h.3⟩⟩

theorem mbrSetEntry_congr {u v c : ℕ} (h : u % 2 ^ mbrTmpBits 64 = v % 2 ^ mbrTmpBits 64) :
    mbrSetEntry 64 u c = mbrSetEntry 64 v c := by
  rw [mbrSetEntry_eq, mbrSetEntry_eq, h]

/-! ### Every thread prepares at most once -/

/-- The fields hold what `stm_prepare` or `stm_extend` put there. -/
def Tx.Stamped (x : Tx 64) : Prop :=
  x.start % 2 ^ mbrUpdBits = 0 ∧ x.endT % 2 ^ mbrUpdBits = mbrUpdMask

instance (x : Tx 64) : Decidable x.Stamped := inferInstanceAs (Decidable (_ ∧ _))

/-- How many timestamps the thread can still take. -/
def Tx.budget (x : Tx 64) : ℕ := if x.pc.early = false ∧ x.Stamped then 0 else 1

theorem budget_le (x : Tx 64) : x.budget ≤ 1 := by
  unfold Tx.budget
  split <;> omega

theorem budget_of_early (h : x.pc.early = true) : x.budget = 1 := by
  simp [Tx.budget, h]

theorem endV_mod (hm : b.mbRevalidation = true) (n : ℕ) :
    b.endV 64 n % 2 ^ mbrUpdBits = mbrUpdMask := by
  simp only [Build.endV, hm, if_true, mbrSetEntry_mod]
  decide

theorem Tx.Stamped.of_same (h : x.Stamped) (hk : SameFields x x') : x'.Stamped := by
  unfold Tx.Stamped
  rw [hk.start, hk.endT]
  exact h

theorem RangeStep.stamped (hm : b.mbRevalidation = true) (h : RangeStep b t x t' x')
    (hx : x.pc.early = true → x.Stamped) (hp : x'.pc.early = true) : x'.Stamped := by
  cases h with
  | stay _ he hk => exact (hx (he ▸ hp)).of_same hk
  | same _ h => exact (hx (h.early hp)).of_same h.toSameFields
  | commit _ _ he _ => simp [he] at hp
  | unit _ h => exact (hx (h.early hp)).of_same h.toSameFields
  | prepare _ _ hs he _ =>
    refine ⟨?_, ?_⟩
    · simp only [hs, Build.startOf, hm, if_true, mbrSetEntry_mod]
      decide
    · simp only [he, Build.endOf, hm, if_true, mbrSetEntry_mod]
      decide
  | lower _ _ hrun hs _ he =>
    have hst := hx (by rw [hrun]; rfl)
    refine ⟨hs ▸ hst.1, ?_⟩
    rcases he with he | ⟨n, he⟩
    · rw [he]
      exact hst.2
    · rw [he, endV_mod hm]
  | guarded _ he _ _ hk => exact (hx he).of_same hk
  | clock _ hq _ hk => exact (hx (by rw [hq]; rfl)).of_same hk
  | @next c now i _ hq hq' hk =>
    refine (hx ?_).of_same hk
    rw [hq'] at hp
    rw [hq, early_validate now i (i + 1) c]
    exact hp
  | extended _ _ hext hs he _ _ _ =>
    exact ⟨hs ▸ (hx (early_of_extending hext)).1, by rw [he, endV_mod hm]⟩

/-- A step that takes a timestamp uses up the budget of its thread. -/
theorem RangeStep.budget_le (h : RangeStep b t x t' x')
    (hx : x.pc.early = true → x.Stamped) (hu : x.pc.isUnitInc = false)
    (hprep : x.pc = .prepare → x.start % 2 ^ mbrTmpBits 64 = t % 2 ^ mbrTmpBits 64 ∧
      x.endT % 2 ^ mbrTmpBits 64 = t % 2 ^ mbrTmpBits 64) :
    t' + x'.budget ≤ t + x.budget := by
  have hle := TinyStm.budget_le x'
  -- a step that takes no timestamp and stays late leaves the fields alone
  have hlate : t' = t → SameFields x x' → (x'.pc.early = true → x.pc.early = true) →
      t' + x'.budget ≤ t + x.budget := by
    intro ht hk he
    by_cases hs : x.pc.early = false ∧ x.Stamped
    · have hs' : x'.pc.early = false ∧ x'.Stamped := by
        refine ⟨?_, hs.2.of_same hk⟩
        cases hp : x'.pc.early with
        | false => rfl
        | true => simp [hs.1] at he; simp [he] at hp
      simp only [Tx.budget, if_pos hs, if_pos hs']
      omega
    · simp only [Tx.budget, if_neg hs] at hle ⊢
      split <;> omega
  have hearly : t' = t → x.pc.early = true → t' + x'.budget ≤ t + x.budget := by
    intro ht he
    rw [budget_of_early he]
    omega
  cases h with
  | stay ht he hk => exact hlate ht hk fun hp => he ▸ hp
  | same ht h => exact hlate ht h.toSameFields h.early
  | commit hp ht he h =>
    have hex : x.pc.early = true := by rw [hp]; rfl
    have hs' : x'.Stamped := (hx hex).of_same h.toSameFields
    rw [budget_of_early hex, Tx.budget, if_pos ⟨he, hs'⟩]
    omega
  | unit hp _ => simp [hp, Pc.isUnitInc] at hu
  | prepare hp ht _ _ _ =>
    obtain ⟨h₁, h₂⟩ := hprep hp
    have hns : ¬ x.Stamped := by
      rintro ⟨hs, he⟩
      rw [show mbrTmpBits 64 = mbrUpdBits from rfl] at h₁ h₂
      rw [hs] at h₁
      rw [he, ← h₁] at h₂
      revert h₂
      decide
    have hb : x.budget = 1 := by simp [Tx.budget, hns]
    omega
  | lower ht _ hrun _ _ _ => exact hearly ht (by rw [hrun]; rfl)
  | guarded ht he _ _ _ => exact hearly ht he
  | clock ht hq _ _ => exact hearly ht (by rw [hq]; rfl)
  | @next c now i ht hq hq' hk =>
    refine hlate ht hk fun hp => ?_
    rw [hq'] at hp
    rw [hq, early_validate now i (i + 1) c]
    exact hp
  | extended ht _ hext _ _ _ _ _ => exact hearly ht (early_of_extending hext)

/-- The clock and the timestamps that threads can still take. -/
structure Budgeted (s : State 64) : Prop where
  stamped : ∀ i, (s.loc i).pc.early = true → (s.loc i).Stamped
  clock : s.shared.clock + ∑ i ∈ Finset.range Build.maxThreads, (s.loc i).budget ≤ Build.maxThreads

theorem Initial.budgeted (hi : Initial s) : Budgeted s where
  stamped i hp := by simp [hi.pc, Pc.early, Pc.phase] at hp
  clock := by
    rw [hi.clock, Nat.zero_add]
    calc ∑ i ∈ Finset.range Build.maxThreads, (s.loc i).budget
        ≤ ∑ _i ∈ Finset.range Build.maxThreads, 1 := Finset.sum_le_sum fun i _ => budget_le _
      _ = Build.maxThreads := by simp

theorem Budgeted.clock_le (h : Budgeted s) : s.shared.clock ≤ Build.maxThreads :=
  (Nat.le_add_right _ _).trans h.clock

theorem sum_budget_update (loc : ℕ → Tx 64) {i N : ℕ} (hi : i < N) (y : Tx 64) :
    ∑ j ∈ Finset.range N, (Function.update loc i y j).budget + (loc i).budget =
      ∑ j ∈ Finset.range N, (loc j).budget + y.budget := by
  have hmem : i ∈ Finset.range N := Finset.mem_range.mpr hi
  rw [← Finset.add_sum_erase _ _ hmem, ← Finset.add_sum_erase _ (fun j => (loc j).budget) hmem,
    Function.update_self]
  have hrest : ∑ j ∈ (Finset.range N).erase i, (Function.update loc i y j).budget =
      ∑ j ∈ (Finset.range N).erase i, (loc j).budget := by
    refine Finset.sum_congr rfl fun j hj => ?_
    rw [Function.update_of_ne (Finset.ne_of_mem_erase hj)]
  rw [hrest]
  omega

theorem Budgeted.step (hm : b.mbRevalidation = true) (h : Budgeted s) {i : ℕ} {act : Act 64}
    (ho : PackedOk s i act) {g : Shared 64} {y : Tx 64}
    (hstep : RangeStep b s.shared.clock (s.loc i) g.clock y) :
    Budgeted ⟨g, Function.update s.loc i y⟩ where
  stamped j hp := by
    by_cases hij : j = i
    · subst hij
      simp only [Function.update_self] at hp ⊢
      exact hstep.stamped hm (h.stamped j) hp
    · simp only [Function.update_of_ne hij] at hp ⊢
      exact h.stamped j hp
  clock := by
    have hsum := sum_budget_update s.loc ho.thread y
    have hle := hstep.budget_le (h.stamped i) ho.unit ho.prepare
    have hclock := h.clock
    show g.clock + ∑ j ∈ Finset.range Build.maxThreads, (Function.update s.loc i y j).budget ≤ _
    omega

/-! ### Runs -/

section Run

variable (hd : b.design = .writeBackCtl) (hm : b.mbRevalidation = true) (he : b.extraTick = false)
include hd hm

theorem versionMax_packed : b.versionMax 64 = 2 ^ 31 - 1 - 8192 := by
  simp only [Build.versionMax, Build.lockBits, Build.ownedBits, hd, hm]
  decide

include he

theorem cond_packed {i : ℕ} {act : Act 64} (ho : PackedOk s i act) (hB : Budgeted s)
    (hT : TInv b ⟨True, False⟩ i s.shared (s.loc i)) :
    Cond b ⟨True, False⟩ i act s.shared (s.loc i) where
  fits _ := by
    have := hB.clock_le
    rw [versionMax_packed hd hm]
    simp only [Build.maxThreads] at this
    omega
  prepare hp := by
    obtain ⟨h₁, h₂⟩ := ho.prepare hp
    simp only [Build.startOf, Build.startV, Build.endOf, Build.endV, hm, if_true]
    exact ⟨mbrSetEntry_congr h₁, mbrSetEntry_congr h₂⟩
  unit a v hp := by
    have := ho.unit
    simp [hp, Pc.isUnitInc] at this
  wt hw := by simp [hd] at hw
  async hp := by
    have hpc := hT.pc
    rcases hp with hp | hp <;> rw [hp] at hpc
    · simpa [he] using hpc.2.1 (.inl rfl)
    · simpa [he] using hpc.2.1 (.inr rfl)
  ownLoad _ hc := absurd hd hc
  ext hf := hf.elim

/-- The condition holds along with the budget, each from the other one step before. -/
theorem run_budgeted (hi : Initial s₀) (hr : Run (machine b 64) PackedOk s₀ s) :
    Run (machine b 64) (fun s i act => PackedOk s i act ∧ Budgeted s) s₀ s ∧ Budgeted s := by
  induction hr with
  | refl => exact ⟨.refl, hi.budgeted⟩
  | @tail c e i act _ ho hmove ih =>
    obtain ⟨hr, hB⟩ := ih
    obtain ⟨hS, hT, -⟩ := run_inv (fun _ _ _ ho _ hT => cond_packed hd hm he ho.1 ho.2 hT) hr hi
    refine ⟨.tail hr ⟨ho, hB⟩ hmove, ?_⟩
    obtain ⟨g, y, hs, rfl⟩ := move_eq_some hmove
    have hstep := rangeStep hd ((hT i).tick hS) hs
    exact hB.step hm ho hstep

theorem run_inv_packed (hi : Initial s₀) (hr : Run (machine b 64) PackedOk s₀ s) :
    SInv b ⟨True, False⟩ s.shared ∧ (∀ i, TInv b ⟨True, False⟩ i s.shared (s.loc i)) ∧
      s.shared.mem0 = s₀.shared.mem ∧ s.shared.clock ≤ Build.maxThreads := by
  obtain ⟨hr', hB⟩ := run_budgeted hd hm he hi hr
  obtain ⟨hS, hT, hm₀⟩ := run_inv (fun _ _ _ ho _ hT => cond_packed hd hm he ho.1 ho.2 hT) hr' hi
  exact ⟨hS, hT, hm₀, hB.clock_le⟩

end Run

/-! ### Snapshot bounds -/

/-- What the packed build promises in a state: the loads of every attempt belong to
one snapshot, timestamps fit, a free lock decodes to its last update, `stm_prepare`
encodes the clock and no load of a newer word returns before an extension. -/
structure PackedBounds (b : Build) (s : State 64) (M : ℕ → ℕ → BitVec 64) : Prop where
  seen : SeenAtOnce s M
  clock : s.shared.clock < 2 ^ mbrTmpBits 64
  lockWord : ∀ k v, s.shared.lock k = ⟨v, none⟩ →
    (mbrGetTmp 64 v.ts = 0 ∨ ∃ tid ss, Update s (mbrGetTmp 64 v.ts) tid ss ∧
      ∃ st ∈ ss, b.getLock 64 st.addr = k) ∧
    ∀ n tid ss, Update s n tid ss → (∃ st ∈ ss, b.getLock 64 st.addr = k) →
      n ≤ mbrGetTmp 64 v.ts
  prepare : ∀ i s', (s.loc i).pc = .prepare → PackedOk s i .go →
    (machine b 64).move s i .go = some s' →
    (s'.loc i).start = mbrSetEntry 64 s.shared.clock 0 ∧
    (s'.loc i).endT = mbrSetEntry 64 s.shared.clock mbrUpdMask
  load : ∀ i a l v s', (s.loc i).pc = .readLock2 a l v →
    mbrGetTmp 64 (s.loc i).endT < mbrGetTmp 64 l.ts →
    (machine b 64).move s i .go = some s' →
    (s'.loc i).reads = (s.loc i).reads ∧ (s.shared.lock (b.getLock 64 a) = ⟨l, none⟩ →
      (s'.loc i).pc = .extClock (.read a l v) ∨ ∃ j, (s'.loc i).pc = .rb .valRead j 0)

theorem mbrGetTmp_stamp (hm : b.mbRevalidation = true) {v : ℕ}
    (h : b.stamp v < 2 ^ mbrTmpBits 64) : mbrGetTmp 64 v = b.stamp v := by
  simp only [Build.stamp, hm, if_true] at h ⊢
  rw [mbrGetTmp_eq, Nat.mod_eq_of_lt h]

/-- A free lock carries the timestamp of its last update. -/
theorem packed_lockWord {P : Mode} (hd : b.design = .writeBackCtl) (hm : b.mbRevalidation = true)
    (hS : SInv b P s.shared) (hT : ∀ i, TInv b P i s.shared (s.loc i))
    (hc : s.shared.clock < 2 ^ mbrTmpBits 64) (k : ℕ) (v : Ver)
    (hk : s.shared.lock k = ⟨v, none⟩) :
    (mbrGetTmp 64 v.ts = 0 ∨ ∃ tid ss, Update s (mbrGetTmp 64 v.ts) tid ss ∧
      ∃ st ∈ ss, b.getLock 64 st.addr = k) ∧
    ∀ n tid ss, Update s n tid ss → (∃ st ∈ ss, b.getLock 64 st.addr = k) →
      n ≤ mbrGetTmp 64 v.ts := by
  have hver : s.shared.ver b k = b.stamp v.ts := by simp [Shared.ver, hk]
  have hle := hS.ver_le k
  rw [mbrGetTmp_stamp hm (by omega), ← hver]
  constructor
  · rcases hS.wrote k with h0 | ⟨t, ht, htouch⟩
    · exact .inl h0
    · have hdec := hS.decided le_rfl ht htouch
      rw [show t = ⟨t.owner, t.body, true⟩ by rw [← hdec]] at ht
      rcases update_of_log hT ht with hu | ⟨hw, -⟩
      · exact .inr ⟨t.owner, t.body, hu, htouch⟩
      · simp [hd] at hw
  · intro n tid ss hu htouch
    by_contra hn
    have hlog := hu.log hS hT
    have hquiet := hS.quiet_free hk s.shared.clock n (by omega) (hS.slot hlog).2
    exact hquiet ⟨_, hlog, htouch⟩

theorem packed_load {P : Mode} (hd : b.design = .writeBackCtl) (hm : b.mbRevalidation = true)
    {tid : ℕ} {g : Shared 64} (hT : TInv b P tid g x) (hc : g.clock < 2 ^ mbrTmpBits 64) {a : ℕ}
    {l : Ver} {v : BitVec 64} (hp : x.pc = .readLock2 a l v)
    (hlt : mbrGetTmp 64 x.endT < mbrGetTmp 64 l.ts) :
    (readLock2Step b tid a l v g x).reads = x.reads ∧ (g.lock (b.getLock 64 a) = ⟨l, none⟩ →
      (readLock2Step b tid a l v g x).pc = .extClock (.read a l v) ∨
        ∃ j, (readLock2Step b tid a l v g x).pc = .rb .valRead j 0) := by
  have hA := hT.att (by rw [hp]; simp [Pc.phase])
  have hend : mbrGetTmp 64 x.endT = b.stamp x.endT :=
    mbrGetTmp_stamp hm (lt_of_le_of_lt (hA.end_le.trans hA.snap_le) hc)
  -- the packed comparison follows the comparison of the timestamps
  have hgt : x.endT < l.ts := by
    by_contra hle
    have hmono := b.stamp_mono (Nat.le_of_not_lt hle)
    have hmod : mbrGetTmp 64 l.ts ≤ b.stamp l.ts := by
      simp only [Build.stamp, hm, if_true, mbrGetTmp_eq]
      exact Nat.mod_le _ _
    omega
  unfold readLock2Step
  dsimp only
  split
  · next hne =>
    refine ⟨?_, fun heq => absurd heq hne⟩
    unfold readDispatch
    rcases (g.lock (b.getLock 64 a)).own with - | ⟨u, i⟩ | u
    · rfl
    · simp only [hd]
    · rfl
  · split
    · refine ⟨?_, fun _ => .inr ?_⟩
      · unfold rollback
        simp only [hd]
      · exact ⟨x.wset.length, by simp only [rollback, hd]⟩
    · exact ⟨rfl, fun _ => .inl rfl⟩

/-- The snapshot bounds hold in every run whose steps meet `PackedOk`. -/
theorem packed_snapshot (b : Build) (hd : b.design = .writeBackCtl)
    (hm : b.mbRevalidation = true) (he : b.extraTick = false) (s₀ s : State 64) (hi : Initial s₀)
    (hr : Run (machine b 64) PackedOk s₀ s) :
    ∃ M, Produces s₀.shared.mem s M ∧ PackedBounds b s M := by
  obtain ⟨hS, hT, hm₀, hle⟩ := run_inv_packed hd hm he hi hr
  have hc : s.shared.clock < 2 ^ mbrTmpBits 64 := lt_of_le_of_lt hle (by decide)
  refine ⟨s.shared.at b, hm₀ ▸ produces hS hT, seenAtOnce trivial hS hT, hc,
    packed_lockWord hd hm hS hT hc, ?_, ?_⟩
  · intro i s' hp ho hmove
    obtain ⟨g, y, hs, rfl⟩ := move_eq_some hmove
    simp only [Function.update_self]
    obtain ⟨h₁, h₂⟩ := ho.prepare hp
    simp only [machine, stepTx, hp, stepGo, stmPrepare, Build.startOf, Build.endOf, hm, if_true] at hs
    split at hs <;> cases hs <;> exact ⟨mbrSetEntry_congr h₁, mbrSetEntry_congr h₂⟩
  · intro i a l v s' hp hlt hmove
    obtain ⟨g, y, hs, rfl⟩ := move_eq_some hmove
    simp only [Function.update_self]
    simp only [machine, stepTx, hp, stepGo, Option.some.injEq, Prod.mk.injEq] at hs
    obtain ⟨rfl, rfl⟩ := hs
    exact packed_load hd hm ((hT i).tick hS) hc hp hlt

/-- The model-based build with sixteen locks. -/
def mbBuild : Build := ⟨.writeBackCtl, true, false, 0, 4⟩

/-- One attempt per thread, from cleared descriptors: thread 0 extends its snapshot
over the commit of thread 1. -/
theorem packed_snapshot_once :
    ∃ s : State 64, (s.loc 0).reads = [⟨16, 0, []⟩, ⟨8, 1, []⟩] ∧
      s.shared.lock (mbBuild.getLock 64 8) = ⟨⟨mbrSetEntry 64 1 1, 0⟩, none⟩ ∧
      ∃ M, Produces (fun _ => 0) s M ∧ PackedBounds mbBuild s M := by
  obtain ⟨s, hr, hreads, hlock⟩ := exists_run_of_exec (machine mbBuild 64) PackedOk
    (State.fresh fun _ => 0)
    (List.flatten [turn 0 [.start false, .go, .load 16, .go, .go, .go], storeBoth,
      turn 0 [.load 8, .go, .go, .go, .go, .go, .go, .go]])
    (fun s => (s.loc 0).reads = [⟨16, 0, []⟩, ⟨8, 1, []⟩] ∧
      s.shared.lock (mbBuild.getLock 64 8) = ⟨⟨mbrSetEntry 64 1 1, 0⟩, none⟩)
    (by decide +kernel)
  exact ⟨s, hreads, hlock, packed_snapshot mbBuild rfl rfl rfl _ s (initial_fresh _) hr⟩

/-- The second attempt of thread 0 starts with `tx->end` all ones: it reads word 0
before and word 8 after the commit of thread 1, and never extends. -/
theorem packed_torn :
    ∃ s : State 64, Run (machine mbBuild 64) (fun _ _ _ => True) (State.fresh fun _ => 0) s ∧
      ¬ ∃ M, Produces (fun _ => 0) s M ∧ PackedBounds mbBuild s M := by
  obtain ⟨s, hr, hs⟩ := exists_run_of_exec (machine mbBuild 64) (fun _ _ _ => True)
    (State.fresh fun _ => 0)
    (List.flatten [turn 0 [.start false, .go, .commit, .start false, .go, .load 0, .go, .go, .go],
      storeBoth, turn 0 [.load 8, .go, .go, .go]])
    (fun s => (s.loc 0).reads = [⟨0, 0, []⟩, ⟨8, 1, []⟩] ∧
      (s.loc 0).pc = .run ∧ s.shared.clock = 1 ∧ ∃ A ∈ s.shared.hist, A.tid = 1 ∧
        A.stores = [⟨0, 1, BitVec.allOnes 64⟩, ⟨8, 1, BitVec.allOnes 64⟩] ∧
        A.outcome = .committed 1)
    (by decide +kernel)
  refine ⟨s, hr, ?_⟩
  rintro ⟨M, hM, hB⟩
  exact not_seenAtOnce_of_torn rfl hs ⟨M, hM, hB.seen⟩

end TinyStm
