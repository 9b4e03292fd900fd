import Mathlib.Data.BitVec
import Mathlib.Data.List.Range

/-!
# The search for the optimal validation time (mb-hash-table.c)

`mb_calculate` halves a step and moves a 64-bit position by it, up or down with the sign of a
derivative in floating point. Nothing of what follows rests on the arithmetic of doubles, so
they are any type with the operations the code uses.
-/

namespace TinyStm.Mb

/-- The operations of `double` that `mb_calculate` uses; `lt` is `<`, false on NaN. -/
structure Arith (D : Type*) where
  zero : D
  one : D
  dblMax : D
  ofNat : ℕ → D
  ofWord : BitVec 64 → D
  neg : D → D
  add : D → D → D
  sub : D → D → D
  mul : D → D → D
  div : D → D → D
  lt : D → D → Bool

section

variable {D : Type*} (F : Arith D)

/-- `FABS`. -/
def fabs (x : D) : D := if F.lt x F.zero then F.neg x else x

/-- The Taylor approximation of degree `dgr` (`EXP_TAYLOR_DGR`). -/
def taylorExp (dgr : ℕ) (freqTm : D) : D :=
  let term := fun (s : D × D × D) (i : ℕ) =>
    let freqTmPow := F.mul s.1 freqTm
    let factDiv := F.mul s.2.1 (F.ofNat i)
    (freqTmPow, factDiv, F.add s.2.2 (F.div freqTmPow factDiv))
  ((List.range' 2 (dgr - 1)).foldl term (freqTm, F.one, F.add F.one freqTm)).2.2

/-- `taylor_exp` and `d_cost` at `tEval`. -/
def costAt (dgr : ℕ) (tv : BitVec 64) (ur acc : D) (tEval : BitVec 64) : D × D :=
  let taylor := taylorExp F dgr (F.sub (F.mul ur (F.ofWord tEval)) acc)
  (taylor, F.add F.one (F.mul taylor (F.sub (F.mul (F.ofWord (tv - tEval)) ur) F.one)))

/-- The variables of the loop; `tOpt` is `t_d_cost_min`. -/
structure Search (D : Type*) where
  tEval : BitVec 64
  tLog2 : BitVec 64
  tOpt : BitVec 64
  dCostMin : D
  taylorExpMin : D

def Search.init (tv : BitVec 64) : Search D := ⟨tv >>> 1, tv >>> 1, 0, F.dblMax, F.dblMax⟩

/-- The new minimum, if it is one. -/
def Search.keepMin (s : Search D) (cost : D × D) : Search D :=
  if F.lt (fabs F cost.2) (fabs F s.dCostMin) then
    { s with dCostMin := cost.2, tOpt := s.tEval, taylorExpMin := cost.1 }
  else s

/-- The body of the loop; the second value says that it ends in `break`. -/
def Search.body (s : Search D) (cost : D × D) : Search D × Bool :=
  let s := s.keepMin F cost
  let tLog2 := s.tLog2 >>> 1
  if F.lt F.zero cost.2 then ({ s with tLog2, tEval := s.tEval + tLog2 }, false)
  else if F.lt cost.2 F.zero then ({ s with tLog2, tEval := s.tEval - tLog2 }, false)
  else ({ s with tLog2 }, true)

variable (ths : BitVec 64) (cost : ℕ → BitVec 64 → D × D)

/-- Body and condition of round `i`, the loop's limit being `ths` (`BINSEARCH_THS`). The second
value says that there is another round. -/
def Search.round (i : ℕ) (s : Search D) : Search D × Bool :=
  let r := s.body F (cost i s.tEval)
  (r.1, !r.2 && ths < r.1.tLog2)

/-- The loop from round `i` on. -/
def Search.loop : ℕ → ℕ → Search D → Option (Search D)
  | 0, _, _ => none
  | fuel + 1, i, s =>
    let r := s.round F ths cost i
    if r.2 then Search.loop fuel (i + 1) r.1 else some r.1

/-- The variables before round `n`, if the loop gets there. -/
def Search.headAt (tv : BitVec 64) : ℕ → Option (Search D)
  | 0 => some (Search.init F tv)
  | n + 1 =>
    match Search.headAt tv n with
    | some s =>
      let r := s.round F ths cost n
      if r.2 then some r.1 else none
    | none => none

/-- The loop of `mb_calculate`; 64 rounds are more than there can be. -/
def search (tv : BitVec 64) : Option (Search D) := Search.loop F ths cost 64 0 (Search.init F tv)

/-- The results `t_opt`, `cost_opt` and `d_cost_opt` of `mb_calculate`. -/
def mbCalculate (dgr : ℕ) (tv : BitVec 64) (ur acc : D) : Option (BitVec 64 × D × D) :=
  (search F ths (fun _ => costAt F dgr tv ur acc) tv).map fun s =>
    (s.tOpt, F.mul (F.sub s.taylorExpMin F.one) (F.ofWord (tv - s.tOpt)), s.dCostMin)

/-! ### The position and the step -/

/-- The step fits below the position and above it. -/
structure Search.Fits (tv : BitVec 64) (s : Search D) : Prop where
  below : s.tLog2.toNat ≤ s.tEval.toNat
  above : s.tEval.toNat + s.tLog2.toNat ≤ tv.toNat
  opt : s.tOpt.toNat ≤ tv.toNat

theorem toNat_half (x : BitVec 64) : (x >>> 1).toNat = x.toNat / 2 := by
  rw [BitVec.toNat_ushiftRight, Nat.shiftRight_eq_div_pow, Nat.pow_one]

theorem fits_init (tv : BitVec 64) : (Search.init F tv).Fits tv := by
  have hhalf := toNat_half tv
  constructor
  · exact Nat.le_refl _
  · simp only [Search.init]
    omega
  · exact Nat.zero_le _

variable {F} {tv : BitVec 64} {s : Search D}

theorem keepMin_tEval (c : D × D) : (s.keepMin F c).tEval = s.tEval := by
  unfold Search.keepMin
  split <;> rfl

theorem keepMin_tLog2 (c : D × D) : (s.keepMin F c).tLog2 = s.tLog2 := by
  unfold Search.keepMin
  split <;> rfl

theorem Search.Fits.keepMin (h : s.Fits tv) (c : D × D) : (s.keepMin F c).Fits tv := by
  refine ⟨?_, ?_, ?_⟩
  · rw [keepMin_tEval, keepMin_tLog2]
    exact h.below
  · rw [keepMin_tEval, keepMin_tLog2]
    exact h.above
  · unfold Search.keepMin
    have habove := h.above
    split
    · dsimp only
      omega
    · exact h.opt

/-- Neither the sum nor the difference wraps, and the sum is at most `tv`. -/
theorem Search.Fits.noWrap (h : s.Fits tv) :
    (s.tEval + s.tLog2 >>> 1).toNat = s.tEval.toNat + s.tLog2.toNat / 2 ∧
      (s.tEval - s.tLog2 >>> 1).toNat = s.tEval.toNat - s.tLog2.toNat / 2 := by
  have hbelow := h.below
  have habove := h.above
  have htv := tv.isLt
  have hhalf := toNat_half s.tLog2
  constructor
  · rw [BitVec.toNat_add, hhalf]
    exact Nat.mod_eq_of_lt (by omega)
  · rw [BitVec.toNat_sub_of_le, hhalf]
    rw [BitVec.le_def, hhalf]
    omega

theorem Search.Fits.body (h : s.Fits tv) (c : D × D) :
    (s.body F c).1.Fits tv ∧ (s.body F c).1.tLog2.toNat = s.tLog2.toNat / 2 := by
  have hmin := h.keepMin (F := F) c
  have hlog := keepMin_tLog2 (F := F) (s := s) c
  have hbelow := hmin.below
  have habove := hmin.above
  obtain ⟨hadd, hsub⟩ := hmin.noWrap
  have hhalf := toNat_half (s.keepMin F c).tLog2
  have hstep : ((s.keepMin F c).tLog2 >>> 1).toNat = s.tLog2.toNat / 2 := by rw [hhalf, hlog]
  unfold Search.body
  dsimp only
  split
  · refine ⟨⟨?_, ?_, hmin.opt⟩, hstep⟩
    · dsimp only
      omega
    · dsimp only
      omega
  · split
    · refine ⟨⟨?_, ?_, hmin.opt⟩, hstep⟩
      · dsimp only
        omega
      · dsimp only
        omega
    · refine ⟨⟨?_, ?_, hmin.opt⟩, hstep⟩
      · dsimp only
        omega
      · dsimp only
        omega

variable {ths cost}

theorem Search.Fits.round (h : s.Fits tv) (i : ℕ) : (s.round F ths cost i).1.Fits tv :=
  (h.body (F := F) (cost i s.tEval)).1

/-- Another round only with a step that is still above the limit, and half as long. -/
theorem round_goesOn {i : ℕ} (h : s.Fits tv) (hr : (s.round F ths cost i).2 = true) :
    0 < (s.round F ths cost i).1.tLog2.toNat ∧
      (s.round F ths cost i).1.tLog2.toNat = s.tLog2.toNat / 2 := by
  have hbody := (h.body (F := F) (cost i s.tEval)).2
  refine ⟨?_, hbody⟩
  simp only [Search.round, Bool.and_eq_true, decide_eq_true_eq] at hr
  have hlt := BitVec.lt_def.mp hr.2
  exact Nat.lt_of_le_of_lt (Nat.zero_le _) hlt

theorem headAt_fits {n : ℕ} (h : Search.headAt F ths cost tv n = some s) : s.Fits tv := by
  induction n generalizing s with
  | zero =>
    cases h
    exact fits_init F tv
  | succ n ih =>
    rw [Search.headAt] at h
    split at h
    · next s₀ h₀ =>
      dsimp only at h
      split at h
      · cases h
        exact (ih h₀).round n
      · cases h
    · cases h

/-- The step of `k` bits is halved at most `k` times. -/
theorem loop_ends {fuel i : ℕ} (h : s.Fits tv) (hfuel : s.tLog2.toNat < 2 ^ fuel) :
    ∃ r, Search.loop F ths cost (fuel + 1) i s = some r ∧ r.Fits tv := by
  induction fuel generalizing s i with
  | zero =>
    have hzero : s.tLog2.toNat = 0 := by omega
    have hend : (s.round F ths cost i).2 = false := by
      by_contra hgo
      have := round_goesOn h (Bool.eq_true_of_not_eq_false hgo)
      omega
    exact ⟨_, by rw [Search.loop, hend]; rfl, h.round i⟩
  | succ fuel ih =>
    rw [Search.loop]
    cases hr : (s.round F ths cost i).2 with
    | false => exact ⟨_, rfl, h.round i⟩
    | true =>
      have hstep := (round_goesOn h hr).2
      exact ih (h.round i) (by omega)

end

/-- For every sequence of values of `d_cost` the loop ends, the position stays between `0` and
`tv`, no sum or difference wraps, and the time found is at most `tv`. -/
theorem search_inRange {D : Type*} (F : Arith D) (ths : BitVec 64) (cost : ℕ → BitVec 64 → D × D)
    (tv : BitVec 64) :
    (∃ r, search F ths cost tv = some r ∧ r.tEval.toNat ≤ tv.toNat ∧ r.tOpt.toNat ≤ tv.toNat ∧
      (tv - r.tOpt).toNat = tv.toNat - r.tOpt.toNat) ∧
    (∀ n s, Search.headAt F ths cost tv n = some s →
      s.tEval.toNat ≤ tv.toNat ∧
      (tv - s.tEval).toNat = tv.toNat - s.tEval.toNat ∧
      (s.tEval + s.tLog2 >>> 1).toNat = s.tEval.toNat + (s.tLog2 >>> 1).toNat ∧
      s.tEval.toNat + (s.tLog2 >>> 1).toNat ≤ tv.toNat ∧
      (s.tEval - s.tLog2 >>> 1).toNat = s.tEval.toNat - (s.tLog2 >>> 1).toNat ∧
      (s.tLog2 >>> 1).toNat ≤ s.tEval.toNat) ∧
    ∀ dgr ur acc, ∃ d, mbCalculate F ths dgr tv ur acc = some d ∧ d.1.toNat ≤ tv.toNat := by
  have hends : ∀ c, ∃ r, search F ths c tv = some r ∧ r.Fits tv := by
    intro c
    refine loop_ends (fits_init F tv) ?_
    have hhalf := toNat_half tv
    have htv := tv.isLt
    simp only [Search.init]
    omega
  refine ⟨?_, ?_, ?_⟩
  · obtain ⟨r, hr, hfits⟩ := hends cost
    have habove := hfits.above
    exact ⟨r, hr, by omega, hfits.opt, BitVec.toNat_sub_of_le (BitVec.le_def.mpr hfits.opt)⟩
  · intro n s hs
    have hfits := headAt_fits hs
    have hbelow := hfits.below
    have habove := hfits.above
    obtain ⟨hadd, hsub⟩ := hfits.noWrap
    have hhalf := toNat_half s.tLog2
    rw [hhalf]
    have heval : s.tEval.toNat ≤ tv.toNat := by omega
    refine ⟨heval, BitVec.toNat_sub_of_le (BitVec.le_def.mpr heval), hadd, ?_, hsub, ?_⟩
    · omega
    · omega
  · intro dgr ur acc
    obtain ⟨r, hr, hfits⟩ := hends fun _ => costAt F dgr tv ur acc
    refine ⟨_, by rw [mbCalculate, hr, Option.map_some], hfits.opt⟩

end TinyStm.Mb
