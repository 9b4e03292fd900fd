import TinyStm.Mb.Window

/-!
# The mean time between validations (stm.c, `MB_REVALIDATION`)

`stm_validate` measures itself and stores the time since the last validation of the same
profile, and it and `stm_read_invisible` read means of windows. What a thread has stored so far is
kept beside its windows as lists of samples.
-/

namespace TinyStm.Mb

open Rounding

/-- What a call does that the language does not define, or that has no value. -/
inductive Fault
  | division
  | conversion
  deriving DecidableEq

/-- The conversion to `unsigned long long`. -/
def Mean.toULL : Mean → Except Fault (BitVec 64)
  | .num q => if q < 2 ^ 64 then .ok (BitVec.ofNat 64 ⌊q⌋.toNat) else .error .conversion
  | _ => .error .conversion

/-- `winS_getMeanU` where a division by zero is noticed. -/
def Window.meanU (W : ℕ) (w : Window) : Except Fault (Mean × Window) :=
  if w.mean = .num 0 ∧ w.divisor W = 0 then .error .division else .ok (w.getMeanU W)

/-- The macros `EXTRA_TICK`, `MB_UPDATE_TVAL_ALWAYS` and `MB_CONSERVATIVE`. -/
structure Build where
  extraTick : Bool
  updateTvalAlways : Bool
  conservative : Bool

/-- The thread's variables; `validationPeriod` and `validationReset` are indexed by the profile,
`validationCost` by the size of the read set. -/
structure Clocks where
  validationLast : ℕ → BitVec 64
  validationReset : ℕ → Bool
  validationPeriod : ℕ → Window
  validationCost : ℕ → Window

def Clocks.init : Clocks := ⟨fun _ => 0, fun _ => false, fun _ => Window.init, fun _ => Window.init⟩

/-- A call of `stm_validate` that finds the read set valid. `standing` is what it sees of the
control buffer before the sample of the period is stored, `standing'` what it sees after. -/
structure Validation where
  id : ℕ
  nbEntries : ℕ
  start : BitVec 64
  current : BitVec 64
  txOn : Bool
  standing : Bool
  standing' : Bool

/-- A call of `stm_read_invisible` that adds to the read set. -/
structure Reading where
  id : ℕ
  nbEntries : ℕ
  standing : Bool

/-- The window of `validation_cost` for a read set, `MAX_READSET_SIZE_VALIDATION` of them. -/
def costIndex (nbEntries : ℕ) : ℕ := if nbEntries < 50000 then nbEntries else 50000 - 1

def Build.storesPeriod (B : Build) (c : Validation) : Bool :=
  !B.extraTick || B.updateTvalAlways || (c.txOn && !c.standing)

def Build.readsPeriod (B : Build) (c : Validation) : Bool :=
  B.extraTick && (B.conservative || !c.txOn || c.standing')

section

variable (W : ℕ)

/-- The mean period as an integer and, unless it is zero, the mean cost. -/
def Clocks.readMeans (s : Clocks) (id k : ℕ) : Except Fault Clocks := do
  let (mean, period) ← (s.validationPeriod id).meanU W
  let validationMean ← mean.toULL
  let s := { s with validationPeriod := Function.update s.validationPeriod id period }
  if validationMean ≠ 0 then
    let (_, cost) ← (s.validationCost k).meanU W
    pure { s with validationCost := Function.update s.validationCost k cost }
  else pure s

def Clocks.storeCost (s : Clocks) (k : ℕ) (sample : BitVec 64) : Clocks :=
  let cost := (s.validationCost k).updateU W sample
  { s with validationCost := Function.update s.validationCost k cost }

def Clocks.storePeriod (s : Clocks) (id : ℕ) (current : BitVec 64) : Clocks :=
  if s.validationReset id then
    let period := (s.validationPeriod id).updateU W (current - s.validationLast id)
    { s with validationPeriod := Function.update s.validationPeriod id period }
  else { s with validationReset := Function.update s.validationReset id true }

variable (B : Build)

/-- The end of `stm_validate`. -/
def Clocks.validate (s : Clocks) (c : Validation) : Except Fault Clocks :=
  let k := costIndex c.nbEntries
  let s := s.storeCost W k (c.current - c.start)
  let s := if B.storesPeriod c then s.storePeriod W c.id c.current else s
  let s := { s with validationLast := Function.update s.validationLast c.id c.current }
  if B.readsPeriod c then s.readMeans W c.id k else .ok s

/-- The end of `stm_read_invisible`. -/
def Clocks.readInvisible (s : Clocks) (c : Reading) : Except Fault Clocks :=
  if B.extraTick && !B.conservative && s.validationReset c.id && !c.standing then
    s.readMeans W c.id (costIndex c.nbEntries)
  else .ok s

/-- The calls that reach the windows; `prepare` is `int_stm_prepare`. -/
inductive MbCall
  | prepare
  | validate (c : Validation)
  | read (c : Reading)

def Clocks.call (s : Clocks) : MbCall → Except Fault Clocks
  | .prepare => .ok { s with validationReset := fun _ => false }
  | .validate c => s.validate W B c
  | .read c => s.readInvisible W B c

def Clocks.run (s : Clocks) : List MbCall → Except Fault Clocks
  | [] => .ok s
  | c :: cs => do (← s.call W B c).run cs

end

/-! ### The samples behind the windows -/

/-- What the thread has stored: the last validation of each profile, whether the next one is to be
timed, and the samples of the windows, the last one first. -/
structure Past where
  last : ℕ → BitVec 64
  timed : ℕ → Bool
  period : ℕ → List (BitVec 64)
  cost : ℕ → List (BitVec 64)

def Past.init : Past := ⟨fun _ => 0, fun _ => false, fun _ => [], fun _ => []⟩

def Past.storeCost (p : Past) (k : ℕ) (sample : BitVec 64) : Past :=
  { p with cost := Function.update p.cost k (sample :: p.cost k) }

def Past.storePeriod (p : Past) (id : ℕ) (current : BitVec 64) : Past :=
  if p.timed id then
    { p with period := Function.update p.period id ((current - p.last id) :: p.period id) }
  else { p with timed := Function.update p.timed id true }

def Past.validate (B : Build) (p : Past) (c : Validation) : Past :=
  let p := p.storeCost (costIndex c.nbEntries) (c.current - c.start)
  let p := if B.storesPeriod c then p.storePeriod c.id c.current else p
  { p with last := Function.update p.last c.id c.current }

def Past.after (B : Build) (p : Past) : MbCall → Past
  | .prepare => { p with timed := fun _ => false }
  | .validate c => p.validate B c
  | .read _ => p

/-- There is a sample, and a mean of a single one does not round to `2 ^ 64`. -/
def Ready (W : ℕ) : List (BitVec 64) → Prop
  | [] => False
  | x :: xs => xs = [] ∨ W = 1 → x.toNat < 2 ^ 64 - 2 ^ 10

/-- A validation that reads the mean period has stored a sample of the profile, or an earlier one
has; so it is with a read, and if the mean is not below one, the read set's size has been measured. -/
def Past.Fine (W : ℕ) (B : Build) (p : Past) : MbCall → Prop
  | .prepare => True
  | .validate c => B.readsPeriod c = true → Ready W ((p.validate B c).period c.id)
  | .read c =>
    (B.extraTick && !B.conservative && p.timed c.id && !c.standing) = true →
      Ready W (p.period c.id) ∧
        (p.cost (costIndex c.nbEntries) = [] → (lastMean W (p.period c.id)).toULL = .ok 0)

/-- Every call of a run is fine where it is made. -/
def AllFine (W : ℕ) (B : Build) (p : Past) : List MbCall → Prop
  | [] => True
  | c :: cs => p.Fine W B c ∧ AllFine W B (p.after B c) cs

/-! ### The windows follow the samples -/

/-- The window holds the samples, and has no cached mean while there are none. -/
structure Window.Keeps (W : ℕ) (w : Window) (xs : List (BitVec 64)) : Prop extends Holds W w xs where
  fresh : xs = [] → w.mean = .num 0

structure Clocks.Follows (W : ℕ) (s : Clocks) (p : Past) : Prop where
  last : s.validationLast = p.last
  timed : s.validationReset = p.timed
  period : ∀ id, (s.validationPeriod id).Keeps W (p.period id)
  cost : ∀ k, (s.validationCost k).Keeps W (p.cost k)

variable {W : ℕ} {B : Build} {w : Window} {xs : List (BitVec 64)} {s : Clocks} {p : Past}

theorem Window.Keeps.init (hW : 0 < W) : Window.init.Keeps W [] :=
  ⟨Window.Holds.init hW, fun _ => rfl⟩

theorem Window.Keeps.updateU (h : w.Keeps W xs) (hW : 0 < W) (x : BitVec 64) :
    (w.updateU W x).Keeps W (x :: xs) :=
  ⟨h.toHolds.updateU hW x, fun _ => rfl⟩

theorem Window.Keeps.getMeanU (h : w.Keeps W xs) (hne : xs ≠ []) : (w.getMeanU W).2.Keeps W xs :=
  ⟨h.toHolds.getMeanU.2, fun hnil => absurd hnil hne⟩

/-- A mean is read without fault exactly when there is a sample. -/
theorem Window.Keeps.meanU (h : w.Keeps W xs) (hW : 0 < W) :
    w.meanU W = if xs = [] then .error .division else .ok (lastMean W xs, (w.getMeanU W).2) := by
  have hdiv := h.toHolds.divisor
  have hmean := h.toHolds.getMeanU.1
  unfold Window.meanU
  by_cases hnil : xs = []
  · have hzero : w.divisor W = 0 := by
      rw [hdiv, hnil]
      exact Nat.zero_min W
    rw [if_pos hnil, if_pos ⟨h.fresh hnil, hzero⟩]
  · have hlen : 0 < xs.length := List.length_pos_iff.mpr hnil
    have hpos : ¬ w.divisor W = 0 := by omega
    rw [if_neg hnil, if_neg fun hc => hpos hc.2, ← hmean]

theorem Clocks.Follows.init (hW : 0 < W) : Clocks.init.Follows W Past.init :=
  ⟨rfl, rfl, fun _ => Window.Keeps.init hW, fun _ => Window.Keeps.init hW⟩

theorem Window.Keeps.update {f : ℕ → Window} {g : ℕ → List (BitVec 64)} {i : ℕ}
    (h : ∀ j, (f j).Keeps W (g j)) (hi : w.Keeps W xs) (j : ℕ) :
    (Function.update f i w j).Keeps W (Function.update g i xs j) := by
  by_cases hj : j = i
  · subst hj
    rw [Function.update_self, Function.update_self]
    exact hi
  · rw [Function.update_of_ne hj, Function.update_of_ne hj]
    exact h j

theorem Window.Keeps.update_left {f : ℕ → Window} {g : ℕ → List (BitVec 64)} {i : ℕ}
    (h : ∀ j, (f j).Keeps W (g j)) (hi : w.Keeps W (g i)) (j : ℕ) :
    (Function.update f i w j).Keeps W (g j) := by
  have hboth := Window.Keeps.update (i := i) h hi j
  rwa [Function.update_eq_self] at hboth

theorem Clocks.Follows.storeCost (h : s.Follows W p) (hW : 0 < W) (k : ℕ) (x : BitVec 64) :
    (s.storeCost W k x).Follows W (p.storeCost k x) :=
  ⟨h.last, h.timed, h.period, Window.Keeps.update h.cost ((h.cost k).updateU hW x)⟩

theorem Clocks.Follows.storePeriod (h : s.Follows W p) (hW : 0 < W) (id : ℕ) (current : BitVec 64) :
    (s.storePeriod W id current).Follows W (p.storePeriod id current) := by
  have htimed : s.validationReset id = p.timed id := congrFun h.timed id
  have hlast : s.validationLast id = p.last id := congrFun h.last id
  unfold Clocks.storePeriod Past.storePeriod
  rw [htimed, hlast]
  split
  · exact ⟨h.last, h.timed, Window.Keeps.update h.period ((h.period id).updateU hW _), h.cost⟩
  · refine ⟨h.last, ?_, h.period, h.cost⟩
    dsimp only
    rw [h.timed]

/-! ### Which means can be converted -/

/-- A 64-bit sum divided by `n` rounds to `2 ^ 64` only if `n` is one. -/
theorem roundTo_quot_lt_iff {u n : ℕ} (hu : u < 2 ^ 64) (hn : 0 < n) :
    roundTo 53 (roundTo 53 u / n) < 2 ^ 64 ↔ (n = 1 → u < 2 ^ 64 - 2 ^ 10) := by
  rcases Nat.eq_zero_or_pos u with rfl | hpos
  · rw [Nat.cast_zero, roundTo_zero, zero_div, roundTo_zero]
    exact ⟨fun _ _ => by decide, fun _ => by norm_num⟩
  · have hq : (0 : ℚ) < u := Nat.cast_pos.mpr hpos
    have hone : (2 : ℚ) ^ (0 : ℤ) ≤ u := by
      rw [zpow_zero]
      exact_mod_cast hpos
    have hr : 0 < roundTo 53 u := lt_of_lt_of_le (by norm_num) (le_roundTo (by decide) hone)
    rcases Nat.lt_or_ge n 2 with hlt | hge
    · have hn1 : n = 1 := by omega
      have hround := roundTo_roundTo_lt_iff (by decide) hq hr 64
      have hlimit := roundTo_lt_iff (p := 53) (by decide) hq 64
      subst hn1
      rw [Nat.cast_one, div_one]
      have hexp : (2 : ℚ) ^ (64 - ((53 : ℕ) : ℤ) - 1) = 2 ^ 10 := by norm_num
      rw [hexp] at hlimit
      have hcast : (u : ℚ) < 2 ^ 64 - 2 ^ 10 ↔ u < 2 ^ 64 - 2 ^ 10 := by
        rw [show (2 : ℚ) ^ 64 - 2 ^ 10 = ((2 ^ 64 - 2 ^ 10 : ℕ) : ℚ) by norm_num, Nat.cast_lt]
      exact (hround.trans (hlimit.trans hcast)).trans ⟨fun h _ => h, fun h => h rfl⟩
    · have hlog : Int.log 2 |(u : ℚ)| + 1 ≤ 64 := by
        have hlt : Int.log 2 |(u : ℚ)| < 64 := by
          rw [abs_of_pos hq, ← Int.lt_zpow_iff_log_lt (b := 2) (by norm_num) hq]
          exact_mod_cast hu
        omega
      have hle : roundTo 53 u ≤ 2 ^ (64 : ℤ) :=
        (roundTo_le_succ hq).trans (zpow_le_zpow_right₀ (by norm_num) hlog)
      have hn2 : (2 : ℚ) ≤ n := by exact_mod_cast hge
      have hquot : roundTo 53 (u : ℚ) / n ≤ 2 ^ 63 := by
        rw [div_le_iff₀ (by linarith)]
        calc roundTo 53 (u : ℚ) ≤ 2 ^ 63 * 2 := hle.trans (by norm_num)
          _ ≤ 2 ^ 63 * n := mul_le_mul_of_nonneg_left hn2 (by norm_num)
      have hqpos : 0 < roundTo 53 (u : ℚ) / n := div_pos hr (by linarith)
      have hlimit := (roundTo_lt_iff (p := 53) (by decide) hqpos 64).mpr (by
        refine lt_of_le_of_lt hquot ?_
        norm_num)
      exact ⟨fun _ h1 => by omega, fun _ => hlimit⟩

theorem quot_toULL_iff (sum : BitVec 64) (n : ℕ) :
    (∃ m, (Mean.quot sum n).toULL = .ok m) ↔ n ≠ 0 ∧ (n = 1 → sum.toNat < 2 ^ 64 - 2 ^ 10) := by
  rcases Nat.eq_zero_or_pos n with rfl | hpos
  · rw [Mean.quot, if_pos rfl]
    split
    · exact ⟨fun ⟨_, h⟩ => (nomatch h), fun h => absurd rfl h.1⟩
    · exact ⟨fun ⟨_, h⟩ => (nomatch h), fun h => absurd rfl h.1⟩
  · have hround := roundTo_quot_lt_iff sum.isLt hpos
    rw [Mean.quot, if_neg (by omega), Mean.toULL, ← hround]
    split
    · next hlt => exact ⟨fun _ => ⟨by omega, hlt⟩, fun _ => ⟨_, rfl⟩⟩
    · next hlt => exact ⟨fun ⟨_, h⟩ => (nomatch h), fun h => absurd h.2 hlt⟩

theorem lastMean_toULL_iff (hW : 0 < W) :
    (∃ m, (lastMean W xs).toULL = .ok m) ↔ Ready W xs := by
  rw [lastMean, quot_toULL_iff]
  cases xs with
  | nil => exact ⟨fun h => h.1 (Nat.zero_min W), fun h => h.elim⟩
  | cons x xs =>
    have hlen : min (x :: xs).length W ≠ 0 := by
      rw [List.length_cons]
      omega
    have hone : min (x :: xs).length W = 1 ↔ xs = [] ∨ W = 1 := by
      rw [List.length_cons, ← List.length_eq_zero_iff]
      omega
    have hsum : xs = [] ∨ W = 1 → lastSum W (x :: xs) = x := by
      intro h
      have htake : (x :: xs).take W = [x] := by
        obtain ⟨n, rfl⟩ : ∃ n, W = n + 1 := ⟨W - 1, by omega⟩
        rw [List.take_succ_cons]
        rcases h with rfl | h1
        · rw [List.take_nil]
        · rw [show n = 0 by omega, List.take_zero]
      rw [lastSum, htake, List.sum_singleton]
    rw [hone]
    constructor
    · intro h hc
      have := h.2 hc
      rwa [hsum hc] at this
    · intro h
      refine ⟨hlen, fun hc => ?_⟩
      rw [hsum hc]
      exact h hc

/-! ### Runs -/

/-- What reading the two means needs, and that it leaves the samples as they are. -/
theorem Clocks.Follows.readMeans (h : s.Follows W p) (hW : 0 < W) (id k : ℕ) :
    ((∃ s', s.readMeans W id k = .ok s') ↔
      Ready W (p.period id) ∧ (p.cost k = [] → (lastMean W (p.period id)).toULL = .ok 0)) ∧
    ∀ s', s.readMeans W id k = .ok s' → s'.Follows W p := by
  have hmean := (h.period id).meanU hW
  have hcost := (h.cost k).meanU hW
  by_cases hnil : p.period id = []
  · rw [if_pos hnil] at hmean
    have hfail : s.readMeans W id k = .error .division := by
      rw [Clocks.readMeans, hmean]
      rfl
    rw [hfail, hnil]
    exact ⟨⟨fun ⟨_, hc⟩ => (nomatch hc), fun hc => hc.1.elim⟩, fun _ hc => (nomatch hc)⟩
  · rw [if_neg hnil] at hmean
    have hperiod := Window.Keeps.update_left h.period ((h.period id).getMeanU hnil)
    rw [← lastMean_toULL_iff hW]
    cases hconv : (lastMean W (p.period id)).toULL with
    | error e =>
      have hfail : s.readMeans W id k = .error e := by
        rw [Clocks.readMeans, hmean]
        simp only [bind, Except.bind, hconv]
      rw [hfail]
      exact ⟨⟨fun ⟨_, hc⟩ => (nomatch hc), fun ⟨⟨_, hc⟩, _⟩ => (nomatch hc)⟩, fun _ hc => (nomatch hc)⟩
    | ok m =>
      by_cases hm : m = 0
      · have hok : s.readMeans W id k = .ok { s with
            validationPeriod := Function.update s.validationPeriod id ((s.validationPeriod id).getMeanU W).2 } := by
          rw [Clocks.readMeans, hmean]
          simp only [bind, Except.bind, hconv, hm, ne_eq, not_true_eq_false, if_false]
          rfl
        rw [hok, hm]
        refine ⟨⟨fun _ => ⟨⟨0, rfl⟩, fun _ => rfl⟩, fun _ => ⟨_, rfl⟩⟩, fun s' hc => ?_⟩
        cases hc
        exact ⟨h.last, h.timed, hperiod, h.cost⟩
      · have hread : s.readMeans W id k =
            (s.validationCost k).meanU W >>= fun r => .ok { s with
              validationPeriod := Function.update s.validationPeriod id ((s.validationPeriod id).getMeanU W).2
              validationCost := Function.update s.validationCost k r.2 } := by
          rw [Clocks.readMeans, hmean]
          simp only [bind, Except.bind, hconv, hm, ne_eq, not_false_eq_true, if_true]
          rfl
        have hnot : ¬ (Except.ok m : Except Fault (BitVec 64)) = .ok 0 := fun hc => hm (Except.ok.inj hc)
        rw [hread, hcost]
        by_cases hempty : p.cost k = []
        · rw [if_pos hempty]
          exact ⟨⟨fun ⟨_, hc⟩ => (nomatch hc), fun hc => absurd (hc.2 hempty) hnot⟩,
            fun _ hc => (nomatch hc)⟩
        · rw [if_neg hempty]
          refine ⟨⟨fun _ => ⟨⟨m, rfl⟩, fun hc => absurd hc hempty⟩, fun _ => ⟨_, rfl⟩⟩, fun s' hc => ?_⟩
          cases hc
          exact ⟨h.last, h.timed, hperiod,
            Window.Keeps.update_left h.cost ((h.cost k).getMeanU hempty)⟩

theorem Clocks.Follows.stored (h : s.Follows W p) (hW : 0 < W) (c : Validation) :
    let s := s.storeCost W (costIndex c.nbEntries) (c.current - c.start)
    let s := if B.storesPeriod c then s.storePeriod W c.id c.current else s
    Clocks.Follows W { s with validationLast := Function.update s.validationLast c.id c.current }
      (p.validate B c) := by
  have hcost := h.storeCost hW (costIndex c.nbEntries) (c.current - c.start)
  have hperiod := hcost.storePeriod hW c.id c.current
  dsimp only
  unfold Past.validate
  dsimp only
  split
  · refine ⟨?_, hperiod.timed, hperiod.period, hperiod.cost⟩
    dsimp only
    rw [hperiod.last]
  · refine ⟨?_, hcost.timed, hcost.period, hcost.cost⟩
    dsimp only
    rw [hcost.last]

theorem storePeriod_cost (p : Past) (id : ℕ) (current : BitVec 64) :
    (p.storePeriod id current).cost = p.cost := by
  unfold Past.storePeriod
  split <;> rfl

/-- A validation has just measured the size of its read set. -/
theorem validate_cost_ne_nil (c : Validation) : (p.validate B c).cost (costIndex c.nbEntries) ≠ [] := by
  have hcost : (p.validate B c).cost =
      (p.storeCost (costIndex c.nbEntries) (c.current - c.start)).cost := by
    unfold Past.validate
    dsimp only
    split
    · exact storePeriod_cost _ _ _
    · rfl
  rw [hcost]
  change Function.update p.cost (costIndex c.nbEntries) _ (costIndex c.nbEntries) ≠ []
  rw [Function.update_self]
  exact List.cons_ne_nil _ _

/-- A call is free of faults exactly when it is fine, and then the windows follow the samples. -/
theorem Clocks.Follows.call (h : s.Follows W p) (hW : 0 < W) (c : MbCall) :
    ((∃ s', s.call W B c = .ok s') ↔ p.Fine W B c) ∧
      ∀ s', s.call W B c = .ok s' → s'.Follows W (p.after B c) := by
  cases c with
  | prepare =>
    refine ⟨⟨fun _ => trivial, fun _ => ⟨_, rfl⟩⟩, fun s' hs => ?_⟩
    cases hs
    exact ⟨h.last, rfl, h.period, h.cost⟩
  | validate c =>
    have hstored := h.stored (B := B) hW c
    have hread := hstored.readMeans hW c.id (costIndex c.nbEntries)
    simp only [Clocks.call, Clocks.validate, Past.Fine, Past.after]
    cases hr : B.readsPeriod c with
    | false =>
      simp only [Bool.false_eq_true, if_false, false_implies, iff_true]
      refine ⟨⟨_, rfl⟩, fun s' hs => ?_⟩
      cases hs
      exact hstored
    | true =>
      simp only [if_true, true_implies]
      refine ⟨hread.1.trans ?_, hread.2⟩
      exact ⟨fun hc => hc.1, fun hc => ⟨hc, fun hnil => absurd hnil (validate_cost_ne_nil c)⟩⟩
  | read c =>
    have hread := h.readMeans hW c.id (costIndex c.nbEntries)
    simp only [Clocks.call, Clocks.readInvisible, Past.Fine, Past.after]
    rw [← h.timed]
    split
    · next hc => exact ⟨hread.1.trans ⟨fun hok _ => hok, fun hok => hok hc⟩, hread.2⟩
    · next hc =>
      refine ⟨⟨fun _ hc' => absurd hc' hc, fun _ => ⟨_, rfl⟩⟩, fun s' hs => ?_⟩
      cases hs
      exact h

theorem Clocks.Follows.run (h : s.Follows W p) (hW : 0 < W) (cs : List MbCall) :
    (∃ s', s.run W B cs = .ok s') ↔ AllFine W B p cs := by
  induction cs generalizing s p with
  | nil => exact ⟨fun _ => trivial, fun _ => ⟨s, rfl⟩⟩
  | cons c cs ih =>
    obtain ⟨hiff, hnext⟩ := h.call (B := B) hW c
    rw [AllFine, ← hiff, Clocks.run]
    cases hs : s.call W B c with
    | error e =>
      exact ⟨fun ⟨_, hc⟩ => (nomatch hc), fun ⟨⟨_, hc⟩, _⟩ => (nomatch hc)⟩
    | ok s' =>
      have hrest := ih (hnext s' hs)
      exact ⟨fun hc => ⟨⟨s', rfl⟩, hrest.mp hc⟩, fun hc => hrest.mpr hc.2⟩

/-- For any updates and reads of one window the sum is that of the last samples and the mean is
their mean, never an older one. A run of a thread neither divides by zero nor converts what has
no integer exactly when every call that reads a mean finds a sample. -/
theorem windows_mean_iff (hW : 0 < W) :
    (∀ ops : List WinOp,
      let w := ops.foldl (Window.apply W) Window.init
      let xs := samplesOf ops
      (w.window w.position).sum = (xs.take W).sum ∧
        (w.getMeanU W).1 = Mean.quot (xs.take W).sum (min xs.length W)) ∧
    ∀ B cs, (∃ s, Clocks.init.run W B cs = .ok s) ↔ AllFine W B Past.init cs := by
  constructor
  · intro ops
    have h := window_holds hW ops
    exact ⟨h.sum, h.getMeanU.1⟩
  · intro B cs
    exact (Clocks.Follows.init hW).run hW cs

/-- A transaction that validates twice before it reads, with windows of the default size. -/
theorem windows_mean_iff_run : ∃ s, Clocks.init.run 10 ⟨true, false, false⟩
    [.prepare, .validate ⟨0, 1, 100, 200, true, false, false⟩,
      .validate ⟨0, 1, 700, 800, true, false, false⟩, .read ⟨0, 1, false⟩] = .ok s := by
  refine ((windows_mean_iff (W := 10) (by decide)).2 _ _).mpr ⟨trivial, ?_, ?_, ?_, trivial⟩
  · exact fun h => nomatch h
  · exact fun h => nomatch h
  · intro _
    refine ⟨fun _ => by decide, fun h => nomatch h⟩

/-- The first read after the first validation of a profile divides zero by zero. -/
theorem read_divides_by_zero :
    ¬ ∀ B cs, ∃ s, Clocks.init.run 10 B cs = .ok s := by
  intro h
  have hfine := ((Clocks.Follows.init (by decide)).run (by decide) _).mp (h ⟨true, false, false⟩
    [.prepare, .validate ⟨0, 1, 100, 200, true, false, false⟩, .read ⟨0, 1, false⟩])
  exact (hfine.2.2.1 rfl).1

end TinyStm.Mb
