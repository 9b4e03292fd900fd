import Mathlib.Tactic

/-!
# Build options, timestamps and the packed versions of MB_REVALIDATION

The compile-time options of `stm.c` that the model depends on, with the
constants they select (`stm.c:165-221`), and the packing of a timestamp with an
update counter used by the model-based build (`stm.c:269-277`). Timestamps are
what `LOCK_GET_TIMESTAMP` returns; they are natural numbers, the model is only
used below `VERSION_MAX`, where the shift of `LOCK_SET_TIMESTAMP` loses no bit.
-/

namespace TinyStm

/-- `DESIGN` (`stm.h:248-250`). -/
inductive Design where
  | writeBackEtl
  | writeBackCtl
  | writeThrough
  deriving DecidableEq, Repr

/-- The version part of an unlocked lock word: the timestamp and, in the
write-through design, the incarnation number. -/
structure Ver where
  ts : ℕ
  inc : ℕ
  deriving DecidableEq, Repr

/-- The options of one build. `extraTick` is EARLY_ABORT with EA_EXTRATICK. -/
structure Build where
  design : Design
  mbRevalidation : Bool
  extraTick : Bool
  lockShiftExtra : ℕ
  lockArrayLogSize : ℕ
  deriving DecidableEq, Repr

/-- The options of the Makefile as it stands. -/
def defaultBuild : Build := ⟨.writeBackCtl, false, false, 2, 20⟩

/-! ### Packed versions (`stm.c:269-277`) -/

def mbrUpdBits : ℕ := 31
def mbrTmpBits (w : ℕ) : ℕ := w - mbrUpdBits - 2
def mbrUpdMask : ℕ := 2 ^ mbrUpdBits - 1
def mbrTmpMask (w : ℕ) : ℕ := (2 ^ mbrTmpBits w - 1) <<< mbrUpdBits
def mbrGetUpd (l : ℕ) : ℕ := l &&& mbrUpdMask
def mbrGetTmp (w l : ℕ) : ℕ := (l &&& mbrTmpMask w) >>> mbrUpdBits
def mbrSetEntry (w t u : ℕ) : ℕ := ((t <<< mbrUpdBits) &&& mbrTmpMask w) ||| (u &&& mbrUpdMask)

theorem mbrSetEntry_eq (w t u : ℕ) :
    mbrSetEntry w t u = (t % 2 ^ mbrTmpBits w) * 2 ^ mbrUpdBits + u % 2 ^ mbrUpdBits := by
  have ht : (t <<< mbrUpdBits) &&& mbrTmpMask w = (t % 2 ^ mbrTmpBits w) <<< mbrUpdBits := by
    rw [mbrTmpMask, ← Nat.shiftLeft_and_distrib, Nat.and_two_pow_sub_one_eq_mod]
  have hu : u &&& mbrUpdMask = u % 2 ^ mbrUpdBits := by
    rw [mbrUpdMask, Nat.and_two_pow_sub_one_eq_mod]
  have hlt : u % 2 ^ mbrUpdBits < 2 ^ mbrUpdBits := Nat.mod_lt _ (Nat.two_pow_pos _)
  rw [mbrSetEntry, ht, hu, ← Nat.shiftLeft_add_eq_or_of_lt hlt, Nat.shiftLeft_eq]

theorem mbrSetEntry_div (w t u : ℕ) :
    mbrSetEntry w t u / 2 ^ mbrUpdBits = t % 2 ^ mbrTmpBits w := by
  have hlt : u % 2 ^ mbrUpdBits < 2 ^ mbrUpdBits := Nat.mod_lt _ (Nat.two_pow_pos _)
  rw [mbrSetEntry_eq, Nat.mul_comm, Nat.mul_add_div (Nat.two_pow_pos _),
    Nat.div_eq_of_lt hlt, Nat.add_zero]

theorem mbrSetEntry_mod (w t u : ℕ) :
    mbrSetEntry w t u % 2 ^ mbrUpdBits = u % 2 ^ mbrUpdBits := by
  rw [mbrSetEntry_eq, Nat.mul_comm, Nat.mul_add_mod, Nat.mod_mod]

theorem mbrGetTmp_eq (w l : ℕ) : mbrGetTmp w l = l / 2 ^ mbrUpdBits % 2 ^ mbrTmpBits w := by
  rw [mbrGetTmp, mbrTmpMask, Nat.shiftRight_and_distrib, Nat.shiftLeft_shiftRight,
    Nat.and_two_pow_sub_one_eq_mod, Nat.shiftRight_eq_div_pow]

/-! ### Constants selected by the build -/

namespace Build

/-- `MAX_THREADS` (`stm.c:187`). -/
def maxThreads : ℕ := 8192

/-- `INCARNATION_BITS` and `INCARNATION_MAX` (`stm.c:180-181`). -/
def incarnationBits : ℕ := 3
def incarnationMax : ℕ := 2 ^ incarnationBits - 1

/-- `OWNED_BITS`: one bit, redefined to two by MB_REVALIDATION (`stm.c:268`). -/
def ownedBits (b : Build) : ℕ := if b.mbRevalidation then 2 else 1

def lockBits (b : Build) : ℕ :=
  match b.design with
  | .writeThrough => b.ownedBits + incarnationBits
  | _ => b.ownedBits

/-- `VERSION_MAX` (`stm.c:189-193`) for words of `w` bits. -/
def versionMax (b : Build) (w : ℕ) : ℕ :=
  ((2 ^ w - 1) >>> (b.lockBits + if b.mbRevalidation then mbrUpdBits else 0)) - maxThreads

/-- `GET_LOCK` (`stm.c:237-248`): the index of the lock of an address. -/
def getLock (b : Build) (w a : ℕ) : ℕ :=
  (a >>> ((if w = 32 then 2 else 3) + b.lockShiftExtra)) &&& (2 ^ b.lockArrayLogSize - 1)

/-! ### Versions

`startOf` and `endOf` are what `stm_prepare` puts in `tx->start` and `tx->end`
(`stm.c:1212-1226`): the model-based build packs the old field, the others read
the clock. `startV`, `endV` and `commitV` are the encodings the other places
use: the fast path of the commit (`stm.c:3269`), `stm_extend` (`stm.c:1081`) and
the release of a lock after a commit (`stm.c:3330`). -/

def startV (b : Build) (w t : ℕ) : ℕ := if b.mbRevalidation then mbrSetEntry w t 0 else t
def endV (b : Build) (w t : ℕ) : ℕ :=
  if b.mbRevalidation then mbrSetEntry w t mbrUpdMask else t
def commitV (b : Build) (w t old : ℕ) : ℕ :=
  if b.mbRevalidation then mbrSetEntry w t (mbrGetUpd old + 1) else t
def startOf (b : Build) (w stale clock : ℕ) : ℕ :=
  if b.mbRevalidation then mbrSetEntry w stale 0 else clock
def endOf (b : Build) (w stale clock : ℕ) : ℕ :=
  if b.mbRevalidation then mbrSetEntry w stale mbrUpdMask else clock

/-- The timestamp part of a version. -/
def stamp (b : Build) (v : ℕ) : ℕ := if b.mbRevalidation then v / 2 ^ mbrUpdBits else v

variable {b : Build} {w t : ℕ}

@[simp] theorem stamp_zero (b : Build) : b.stamp 0 = 0 := by
  simp [stamp]

theorem stamp_mono {v v' : ℕ} (h : v ≤ v') : b.stamp v ≤ b.stamp v' := by
  unfold stamp
  split
  · exact Nat.div_le_div_right h
  · exact h

/-- Below `VERSION_MAX` the timestamp fits the bits the packed version has. -/
theorem versionMax_lt (hb : b.mbRevalidation = true) : b.versionMax w < 2 ^ mbrTmpBits w := by
  have h2 : 2 ≤ b.lockBits := by
    unfold lockBits ownedBits
    split <;> simp [hb]
  have hle : b.versionMax w ≤ (2 ^ w - 1) >>> 33 := by
    simp only [versionMax, hb, if_true, Nat.shiftRight_eq_div_pow]
    refine (Nat.sub_le _ _).trans (Nat.div_le_div_left ?_ (Nat.two_pow_pos _))
    exact Nat.pow_le_pow_right (by norm_num) (by simp only [mbrUpdBits]; omega)
  refine lt_of_le_of_lt hle ?_
  rw [Nat.shiftRight_eq_div_pow, Nat.div_lt_iff_lt_mul (Nat.two_pow_pos _), ← pow_add]
  have hw : 2 ^ w ≤ 2 ^ (mbrTmpBits w + 33) :=
    Nat.pow_le_pow_right (by norm_num) (by simp only [mbrTmpBits, mbrUpdBits]; omega)
  have hpos : 0 < 2 ^ w := Nat.two_pow_pos w
  omega

/-- The timestamp fits: only packed versions have a bound. -/
def Fits (b : Build) (w t : ℕ) : Prop := b.mbRevalidation = true → t ≤ b.versionMax w

theorem stamp_setEntry (hb : b.mbRevalidation = true) (u : ℕ) (h : b.Fits w t) :
    b.stamp (mbrSetEntry w t u) = t := by
  have hlt : t < 2 ^ mbrTmpBits w := lt_of_le_of_lt (h hb) (versionMax_lt hb)
  rw [stamp, if_pos hb, mbrSetEntry_div, Nat.mod_eq_of_lt hlt]

theorem stamp_startV (h : b.Fits w t) : b.stamp (b.startV w t) = t := by
  cases hb : b.mbRevalidation with
  | false => simp [startV, stamp, hb]
  | true => simp only [startV, hb, if_true, stamp_setEntry hb _ h]

theorem stamp_endV (h : b.Fits w t) : b.stamp (b.endV w t) = t := by
  cases hb : b.mbRevalidation with
  | false => simp [endV, stamp, hb]
  | true => simp only [endV, hb, if_true, stamp_setEntry hb _ h]

theorem stamp_commitV (old : ℕ) (h : b.Fits w t) : b.stamp (b.commitV w t old) = t := by
  cases hb : b.mbRevalidation with
  | false => simp [commitV, stamp, hb]
  | true => simp only [commitV, hb, if_true, stamp_setEntry hb _ h]

end Build

end TinyStm
