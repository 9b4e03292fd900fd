import Mathlib.Data.Rat.Cast.CharZero
import Mathlib.Algebra.Field.Rat
import Mathlib.Algebra.Group.Prod
import TinyStm.Lib.Pooling

/-!
# The transaction statistics (stm_stats.h)

An entry holds the number, the mean and the sum of squared deviations of the samples of one
thread, doubles read as rationals (the build without `STM_STATS_FAST`). At its end a thread puts
its entries on a list; `stm_exit` combines the entries of the list into zeroed ones.
-/

namespace TinyStm.StmStats

open Pooling

/-- `stm_stats_entry_t`; `stamp` is the field `local`. -/
@[ext]
structure Entry where
  stamp : BitVec 64
  samples : ℕ
  mean : ℚ
  sqsum : ℚ
  deriving DecidableEq

/-- An entry as `calloc` leaves it. -/
def Entry.zero : Entry := ⟨0, 0, 0, 0⟩

def Entry.reset (e : Entry) (value : BitVec 64) : Entry := { e with stamp := value }

/-- `stm_stats_entry_update`. -/
def Entry.update (e : Entry) (next : BitVec 64) : Entry :=
  let diff : ℚ := (next - e.stamp).toNat
  let delta := diff - e.mean
  let samples := e.samples + 1
  let mean := e.mean + delta / samples
  { stamp := next, samples, mean, sqsum := e.sqsum + delta * (diff - mean) }

/-- `stm_stats_entry_combine`. -/
def Entry.combine (a b : Entry) : Entry :=
  if a.samples + b.samples = 0 then a
  else
    let samplesMeanA := a.samples * a.mean
    let samplesMeanB := b.samples * b.mean
    let sqsum := a.sqsum + (samplesMeanA * a.mean + b.sqsum + samplesMeanB * b.mean)
    let samples := a.samples + b.samples
    let mean := (samplesMeanA + samplesMeanB) / samples
    { a with samples, mean, sqsum := sqsum - mean * samples }

/-- The entries of `stm_stats_t`. -/
inductive Label
  | completion | commit | read | write | extendPltReal | extendPltFake | extendEaReal
  | extendEaFake | abortPltReal | abortPltFake | abortEaReal | abortEaFake
  deriving DecidableEq

/-- `stm_stats_t`. -/
abbrev Stats : Type := Label → Entry

def Stats.zero : Stats := fun _ => Entry.zero

/-- `stm_stats_combine`. -/
def Stats.combine (a b : Stats) : Stats := fun l => (a l).combine (b l)

/-- `stm_stats_list_combine`: the nodes from the head on. -/
def listCombine (list : List Stats) (stats : Stats) : Stats := list.foldl Stats.combine stats

/-- A call on one entry. -/
inductive Call
  | reset (value : BitVec 64)
  | update (next : BitVec 64)
  deriving DecidableEq

def Entry.call (e : Entry) : Call → Entry
  | .reset value => e.reset value
  | .update next => e.update next

/-- The entry of a thread that made these calls. -/
def record (cs : List Call) : Entry := cs.foldl Entry.call Entry.zero

/-- The samples that calls take: the time since the last call, modulo `2 ^ 64`. -/
def samplesFrom (stamp : BitVec 64) : List Call → List ℚ
  | [] => []
  | .reset value :: cs => samplesFrom value cs
  | .update next :: cs => ((next - stamp).toNat : ℚ) :: samplesFrom next cs

def samplesOf (cs : List Call) : List ℚ := samplesFrom 0 cs

/-- The three figures of an entry are those of the samples. -/
structure Entry.Of (e : Entry) (xs : List ℚ) : Prop where
  samples : e.samples = xs.length
  mean : e.mean = Pooling.mean xs
  sqsum : e.sqsum = deviations xs

theorem Entry.of_zero : Entry.zero.Of [] where
  samples := rfl
  mean := by rw [mean_nil, Entry.zero]
  sqsum := by rw [deviations_nil, Entry.zero]

theorem Entry.Of.update {e : Entry} {xs : List ℚ} (h : e.Of xs) (next : BitVec 64) :
    (e.update next).Of (xs ++ [((next - e.stamp).toNat : ℚ)]) := by
  have hmean : (e.update next).mean = Pooling.mean (xs ++ [((next - e.stamp).toNat : ℚ)]) := by
    rw [mean_snoc, ← h.mean, ← h.samples, Entry.update]
  refine ⟨?_, hmean, ?_⟩
  · rw [List.length_append, ← h.samples, Entry.update, List.length_singleton]
  · rw [deviations_snoc, ← hmean, ← h.mean, ← h.sqsum, Entry.update]

theorem foldl_call_of {e : Entry} {xs : List ℚ} (h : e.Of xs) (cs : List Call) :
    (cs.foldl Entry.call e).Of (xs ++ samplesFrom e.stamp cs) := by
  induction cs generalizing e xs with
  | nil => rwa [samplesFrom, List.append_nil]
  | cons c cs ih =>
    cases c with
    | reset value =>
      have hreset : (e.reset value).Of xs := ⟨h.samples, h.mean, h.sqsum⟩
      exact ih hreset
    | update next =>
      have hnext := ih (h.update next)
      rw [List.append_assoc, List.singleton_append] at hnext
      exact hnext

theorem record_of (cs : List Call) : (record cs).Of (samplesOf cs) :=
  foldl_call_of Entry.of_zero cs

/-! ### What one combination gets wrong -/

/-- How many samples and their sum. -/
def weight (xs : List ℚ) : ℕ × ℚ := (xs.length, xs.sum)

/-- What `combine` adds to the true sum of squared deviations of `n` samples of sum `S`: it takes
off `S` where the pooling formula takes off `S ^ 2 / n`. -/
def excess (w : ℕ × ℚ) : ℚ := w.2 * (w.2 / w.1 - 1)

theorem weight_append (xs ys : List ℚ) : weight (xs ++ ys) = weight xs + weight ys := by
  simp [weight]

theorem excess_nil : excess (weight []) = 0 := by
  simp [excess, weight]

theorem excess_eq (xs : List ℚ) :
    excess (weight xs) = xs.length * Pooling.mean xs ^ 2 - Pooling.mean xs * xs.length := by
  have hsum := length_mul_mean xs
  have hdiv : xs.sum / xs.length = Pooling.mean xs := rfl
  simp only [excess, weight]
  rw [hdiv, ← hsum]
  ring

/-- Number and mean are right, the squared deviations are off by the excess. -/
theorem combine_spec {a b : Entry} {xs ys : List ℚ} {e : ℚ} (ha : a.samples = xs.length)
    (hm : a.mean = Pooling.mean xs) (hsq : a.sqsum = deviations xs + e) (hb : b.Of ys) :
    (a.combine b).samples = (xs ++ ys).length ∧
      (a.combine b).mean = Pooling.mean (xs ++ ys) ∧
      (a.combine b).sqsum = deviations (xs ++ ys) + (e + excess (weight (xs ++ ys))) ∧
      (a.combine b).stamp = a.stamp := by
  by_cases hz : a.samples + b.samples = 0
  · have hxs : xs = [] := List.eq_nil_of_length_eq_zero (by rw [← ha]; omega)
    have hys : ys = [] := List.eq_nil_of_length_eq_zero (by rw [← hb.samples]; omega)
    subst hxs hys
    rw [Entry.combine, if_pos hz, List.append_nil, excess_nil, add_zero]
    exact ⟨ha, hm, hsq, rfl⟩
  · have hmean : (a.combine b).mean = Pooling.mean (xs ++ ys) := by
      rw [Entry.combine, if_neg hz, mean_append, ha, hb.samples, hm, hb.mean]
    have hsamples : (a.combine b).samples = (xs ++ ys).length := by
      rw [Entry.combine, if_neg hz, List.length_append, ← ha, ← hb.samples]
    have hdev : (a.combine b).sqsum =
        deviations xs + e + (xs.length * Pooling.mean xs * Pooling.mean xs + deviations ys +
          ys.length * Pooling.mean ys * Pooling.mean ys) -
            Pooling.mean (xs ++ ys) * (xs ++ ys).length := by
      rw [← hmean, ← hsamples, Entry.combine, if_neg hz, ← hsq, ← hm, ← ha, ← hb.samples,
        ← hb.mean, ← hb.sqsum]
    refine ⟨hsamples, hmean, ?_, ?_⟩
    · rw [hdev, deviations_append, excess_eq, List.length_append]
      ring
    · rw [Entry.combine, if_neg hz]

theorem excess_eq_zero_iff (w : ℕ × ℚ) (hw : w.1 = 0 → w.2 = 0) :
    excess w = 0 ↔ w.2 = 0 ∨ w.2 = w.1 := by
  rw [excess, mul_eq_zero]
  apply or_congr_right'
  intro hne
  have hn : (w.1 : ℚ) ≠ 0 := fun h => hne (hw (Nat.cast_eq_zero.mp h))
  rw [sub_eq_zero, div_eq_one_iff_eq hn]

/-! ### The list of the threads -/

/-- Combining the entries of `xss` one by one into an entry that is off by `e`. -/
theorem foldl_combine_spec {xs : List ℚ} {xss : List (List ℚ)} {a : Entry} {bs : List Entry} {e : ℚ}
    (ha : a.samples = xs.length) (hm : a.mean = Pooling.mean xs)
    (hsq : a.sqsum = deviations xs + e) (hb : List.Forall₂ Entry.Of bs xss) :
    let r := bs.foldl Entry.combine a
    r.samples = (xs ++ xss.flatten).length ∧ r.mean = Pooling.mean (xs ++ xss.flatten) ∧
      r.sqsum = deviations (xs ++ xss.flatten) +
        (e + prefixCost excess (weight xs) (xss.map weight)) ∧
      r.stamp = a.stamp := by
  induction hb generalizing xs a e with
  | nil =>
    simp only [List.foldl_nil, List.flatten_nil, List.append_nil, List.map_nil, prefixCost, add_zero]
    exact ⟨ha, hm, hsq, trivial⟩
  | @cons b ys bs xss hhead _ ih =>
    obtain ⟨h1, h2, h3, h4⟩ := combine_spec ha hm hsq hhead
    obtain ⟨r1, r2, r3, r4⟩ := ih h1 h2 h3
    simp only [List.foldl_cons, List.flatten_cons, List.map_cons, prefixCost]
    rw [← List.append_assoc, ← weight_append, ← add_assoc e]
    exact ⟨r1, r2, r3, r4.trans h4⟩

/-- The statistics of a thread that made the calls `cs l` on its entry `l`. -/
def recordAll (cs : Label → List Call) : Stats := fun l => record (cs l)

theorem listCombine_apply (list : List Stats) (stats : Stats) (l : Label) :
    listCombine list stats l = (list.map fun s => s l).foldl Entry.combine (stats l) := by
  rw [listCombine]
  induction list generalizing stats with
  | nil => rfl
  | cons s list ih =>
    rw [List.foldl_cons, ih, List.map_cons, List.foldl_cons]
    rfl

/-- The samples of each thread on one entry. -/
def samplesAt (threads : List (Label → List Call)) (l : Label) : List (List ℚ) :=
  threads.map fun cs => samplesOf (cs l)

theorem recordAll_of (threads : List (Label → List Call)) (l : Label) :
    List.Forall₂ Entry.Of ((threads.map recordAll).map fun s => s l) (samplesAt threads l) := by
  rw [samplesAt, List.map_map, List.forall₂_map_left_iff, List.forall₂_map_right_iff]
  apply List.forall₂_same.mpr
  intro cs _
  exact record_of (cs l)

/-- The entry `l` that `stm_exit` prints. -/
theorem listCombine_spec (threads : List (Label → List Call)) (l : Label) :
    let r := listCombine (threads.map recordAll) Stats.zero l
    r.samples = (samplesAt threads l).flatten.length ∧
      r.mean = Pooling.mean (samplesAt threads l).flatten ∧
      r.sqsum = deviations (samplesAt threads l).flatten +
        prefixCost excess 0 ((samplesAt threads l).map weight) ∧
      r.stamp = 0 := by
  have hzero := Entry.of_zero
  have h := foldl_combine_spec (e := 0) hzero.samples hzero.mean (by rw [hzero.sqsum, add_zero])
    (recordAll_of threads l)
  rw [zero_add] at h
  simp only [listCombine_apply]
  exact h

/-- The same number, mean and sum of squared deviations. -/
def SameFigures (a b : Entry) : Prop :=
  a.samples = b.samples ∧ a.mean = b.mean ∧ a.sqsum = b.sqsum

instance (a b : Entry) : Decidable (SameFigures a b) := inferInstanceAs (Decidable (_ ∧ _ ∧ _))

/-- The result of `stm_stats_list_combine` does not depend on the order of the list. -/
def OrderFree (threads : List (Label → List Call)) : Prop :=
  ∀ threads', threads.Perm threads' →
    listCombine (threads'.map recordAll) Stats.zero = listCombine (threads.map recordAll) Stats.zero

/-- On no entry does it matter which of two threads joins a group of the others. -/
def Balanced (threads : List (Label → List Call)) : Prop :=
  ∀ l, Exchangeable excess ((samplesAt threads l).map weight)

theorem sameFigures_iff (a b c : List Call) (h : samplesOf c = samplesOf a ++ samplesOf b) :
    SameFigures ((record a).combine (record b)) (record c) ↔
      (samplesOf c).sum = 0 ∨ (samplesOf c).sum = (samplesOf c).length := by
  have ha := record_of a
  have hc := record_of c
  obtain ⟨h1, h2, h3, -⟩ := combine_spec (e := 0) ha.samples ha.mean (by rw [ha.sqsum, add_zero])
    (record_of b)
  rw [← h] at h1 h2 h3
  have hfig : SameFigures ((record a).combine (record b)) (record c) ↔
      excess (weight (samplesOf c)) = 0 := by
    rw [SameFigures, h1, h2, h3, hc.samples, hc.mean, hc.sqsum]
    simp
  rw [hfig]
  apply excess_eq_zero_iff
  intro hlen
  rw [weight, List.eq_nil_of_length_eq_zero hlen]
  rfl

theorem listCombine_eq_iff {threads threads' : List (Label → List Call)}
    (hp : threads.Perm threads') (l : Label) :
    listCombine (threads'.map recordAll) Stats.zero l =
        listCombine (threads.map recordAll) Stats.zero l ↔
      prefixCost excess 0 ((samplesAt threads' l).map weight) =
        prefixCost excess 0 ((samplesAt threads l).map weight) := by
  obtain ⟨h1, h2, h3, h4⟩ := listCombine_spec threads l
  obtain ⟨k1, k2, k3, k4⟩ := listCombine_spec threads' l
  have hflat : (samplesAt threads' l).flatten.Perm (samplesAt threads l).flatten :=
    (hp.symm.map _).flatten
  rw [hflat.length_eq] at k1
  rw [mean_perm hflat] at k2
  rw [deviations_perm hflat] at k3
  rw [Entry.ext_iff, h1, h2, h3, h4, k1, k2, k3, k4, add_right_inj]
  simp

theorem orderFree_iff (threads : List (Label → List Call)) : OrderFree threads ↔ Balanced threads := by
  constructor
  · intro h l
    rw [← prefixCost_orderFree_iff]
    intro ws hws
    obtain ⟨xss, hxss, rfl⟩ := exists_perm_of_map hws
    obtain ⟨threads', hp, rfl⟩ := exists_perm_of_map hxss
    exact (listCombine_eq_iff hp l).mp (congrFun (h threads' hp) l)
  · intro h threads' hp
    funext l
    apply (listCombine_eq_iff hp l).mpr
    have hws : ((samplesAt threads l).map weight).Perm ((samplesAt threads' l).map weight) :=
      (hp.map _).map _
    exact (prefixCost_orderFree_iff excess _).mpr (h l) _ hws

/-- Two entries combine to the entry of all their samples exactly when these sum to `0` or to their
number; the combination of a list is independent of its order exactly when on every entry any
two threads cost the same on top of any group of the others. -/
theorem combine_exact_iff (a b c : List Call) (h : samplesOf c = samplesOf a ++ samplesOf b)
    (threads : List (Label → List Call)) :
    (SameFigures ((record a).combine (record b)) (record c) ↔
      (samplesOf c).sum = 0 ∨ (samplesOf c).sum = (samplesOf c).length) ∧
    (OrderFree threads ↔ Balanced threads) :=
  ⟨sameFigures_iff a b c h, orderFree_iff threads⟩

theorem combine_exact_ones :
    SameFigures ((record [.update 1]).combine (record [.reset 7, .update 8]))
      (record [.update 1, .reset 7, .update 8]) :=
  (combine_exact_iff [.update 1] [.reset 7, .update 8] [.update 1, .reset 7, .update 8] rfl []).1.mpr
    (.inr (by decide +kernel))

/-- One sample of 2 combined with no samples: the squared deviations become 2. With the two
entries on a list, the order matters. -/
theorem combine_wrong :
    (¬ ∀ a b c : List Call, samplesOf c = samplesOf a ++ samplesOf b →
      SameFigures ((record a).combine (record b)) (record c)) ∧
    ¬ ∀ threads, OrderFree threads := by
  constructor
  · intro h
    exact absurd (h [.update 2] [] [.update 2] rfl) (by decide +kernel)
  · intro h
    have hswap := h [fun _ => [.update 2], fun _ => []] _ (List.Perm.swap _ _ [])
    exact absurd (congrFun hswap .commit) (by decide +kernel)

end TinyStm.StmStats
