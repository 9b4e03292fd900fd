import Mathlib.Data.Nat.Digits.Defs
import TinyStm.Lib.Bytes
import TinyStm.Lib.Rounding

/-!
# Texts of the C library

The decimal conversions `%ld` and `%f` of `sprintf`, their inverses `strtol` and `strtof` (decimal
numbers without exponent), and `strtok_r` with one delimiter on a buffer that it overwrites.
-/

namespace TinyStm.CText

open Bytes Rounding

abbrev Text := List Byte

def ch (c : Char) : Byte := BitVec.ofNat 8 c.toNat

def digit (d : ℕ) : Byte := BitVec.ofNat 8 (48 + d)

def isDigit (b : Byte) : Bool := 48 ≤ b.toNat && b.toNat ≤ 57

def isSpace (b : Byte) : Bool := b.toNat = 32 || (9 ≤ b.toNat && b.toNat ≤ 13)

/-! ### Printing -/

def natText (n : ℕ) : Text := if n = 0 then [digit 0] else (Nat.digits 10 n).reverse.map digit

/-- `%ld` and `%d`. -/
def intText (z : ℤ) : Text := if z < 0 then ch '-' :: natText z.natAbs else natText z.natAbs

/-- `%f`: six digits after the point. -/
def fixedText (q : ℚ) : Text :=
  let n := (nearestEven (|q| * 10 ^ 6)).toNat
  let sign := if q < 0 then [ch '-'] else []
  let places := [5, 4, 3, 2, 1, 0].map fun k => digit (n / 10 ^ k % 10)
  sign ++ (natText (n / 10 ^ 6) ++ ch '.' :: places)

/-! ### Scanning -/

/-- The number that leading digits stand for. -/
def scanNat (s : Text) : ℕ := (s.takeWhile isDigit).foldl (fun n b => 10 * n + (b.toNat - 48)) 0

/-- White space is skipped and a sign taken off; `true` for a minus. -/
def scanSign (s : Text) : Bool × Text :=
  match s.dropWhile isSpace with
  | [] => (false, [])
  | b :: s => if b = ch '-' then (true, s) else if b = ch '+' then (false, s) else (false, b :: s)

/-- `strtol` to base 10, with its limits `LONG_MIN` and `LONG_MAX`. -/
def strtol (s : Text) : BitVec 64 :=
  let (neg, s) := scanSign s
  let n := scanNat s
  if neg then BitVec.ofInt 64 (max (-n) (-2 ^ 63)) else BitVec.ofInt 64 (min n (2 ^ 63 - 1))

/-- A number with digits after the point. -/
def scanPoint (s : Text) : ℚ :=
  let whole := s.takeWhile isDigit
  let places :=
    match s.dropWhile isDigit with
    | [] => []
    | b :: s => if b = ch '.' then s.takeWhile isDigit else []
  scanNat (whole ++ places) / 10 ^ places.length

/-- `strtof`. -/
def strtof (s : Text) : ℚ :=
  let (neg, s) := scanSign s
  roundTo 24 (if neg then -scanPoint s else scanPoint s)

/-! ### Tokens -/

/-- The buffer and the saved position of `strtok_r`. -/
structure Tok where
  buf : Text
  save : ℕ

/-- The C string at position `p`. -/
def cstr (buf : Text) (p : ℕ) : Text := (buf.drop p).takeWhile (· != 0)

/-- `strtok_r` from the saved position on. -/
def strtok (delim : Byte) (t : Tok) : Option ℕ × Tok :=
  let start := t.save + ((t.buf.drop t.save).takeWhile (· == delim)).length
  let len := ((t.buf.drop start).takeWhile fun b => b != delim && b != 0).length
  if len = 0 then (none, { t with save := start })
  else if t.buf[start + len]? = some delim then
    (some start, ⟨t.buf.set (start + len) 0, start + len + 1⟩)
  else (some start, { t with save := start + len })

/-- `strcpy`: the string and its end, what was behind stays. -/
def strcpy (dst src : Text) : Text := cstr src 0 ++ 0 :: dst.drop ((cstr src 0).length + 1)

/-! ### Digits -/

theorem toNat_digit {d : ℕ} (hd : d < 10) : (digit d).toNat = 48 + d := by
  rw [digit, BitVec.toNat_ofNat]
  exact Nat.mod_eq_of_lt (by omega)

theorem isDigit_digit {d : ℕ} (hd : d < 10) : isDigit (digit d) = true := by
  have h := toNat_digit hd
  rw [isDigit, Bool.and_eq_true, decide_eq_true_eq, decide_eq_true_eq]
  omega

theorem isDigit_of_mem_digits {ds : List ℕ} (hds : ∀ d ∈ ds, d < 10) :
    ∀ b ∈ ds.map digit, isDigit b = true := by
  intro b hb
  obtain ⟨d, hd, rfl⟩ := List.mem_map.mp hb
  exact isDigit_digit (hds d hd)

theorem natText_eq (n : ℕ) : ∃ ds : List ℕ, natText n = ds.map digit ∧ ds ≠ [] ∧
    (∀ d ∈ ds, d < 10) ∧ Nat.ofDigits 10 ds.reverse = n := by
  unfold natText
  by_cases hn : n = 0
  · refine ⟨[0], ?_, List.cons_ne_nil _ _, ?_, ?_⟩
    · rw [if_pos hn]
      rfl
    · intro d hd
      rw [List.mem_singleton.mp hd]
      decide
    · rw [hn]
      rfl
  · refine ⟨(Nat.digits 10 n).reverse, if_neg hn, ?_, ?_, ?_⟩
    · rw [Ne, List.reverse_eq_nil_iff]
      exact Nat.digits_ne_nil_iff_ne_zero.mpr hn
    · intro d hd
      exact Nat.digits_lt_base (by decide) (List.mem_reverse.mp hd)
    · rw [List.reverse_reverse, Nat.ofDigits_digits]

/-- Horner's rule over digit bytes. -/
theorem foldl_digit {ds : List ℕ} (hds : ∀ d ∈ ds, d < 10) (n : ℕ) :
    (ds.map digit).foldl (fun n b => 10 * n + (b.toNat - 48)) n =
      n * 10 ^ ds.length + Nat.ofDigits 10 ds.reverse := by
  induction ds generalizing n with
  | nil => simp
  | cons d ds ih =>
    have hd := hds d (List.mem_cons_self ..)
    rw [List.map_cons, List.foldl_cons, ih fun x hx => hds x (List.mem_cons_of_mem _ hx),
      toNat_digit hd, List.reverse_cons, Nat.ofDigits_append, Nat.ofDigits_singleton,
      List.length_reverse, List.length_cons, pow_succ, Nat.add_sub_cancel_left]
    ring

/-- Digits up to the first byte that is none. -/
theorem takeWhile_digits {s : Text} (rest : Text) (hs : ∀ b ∈ s, isDigit b = true)
    (hrest : ∀ b, rest.head? = some b → isDigit b = false) :
    (s ++ rest).takeWhile isDigit = s ∧ (s ++ rest).dropWhile isDigit = rest := by
  have htake : rest.takeWhile isDigit = [] := by
    cases rest with
    | nil => rfl
    | cons b rest => rw [List.takeWhile_cons, hrest b rfl]; rfl
  have hdrop : rest.dropWhile isDigit = rest := by
    cases rest with
    | nil => rfl
    | cons b rest => rw [List.dropWhile_cons, hrest b rfl]; rfl
  rw [List.takeWhile_append_of_pos hs, List.dropWhile_append_of_pos hs, htake, hdrop, List.append_nil]
  exact ⟨rfl, rfl⟩

theorem scanNat_natText (n : ℕ) (rest : Text) (hrest : ∀ b, rest.head? = some b → isDigit b = false) :
    scanNat (natText n ++ rest) = n := by
  obtain ⟨ds, hds, -, hlt, hval⟩ := natText_eq n
  rw [scanNat, hds, (takeWhile_digits _ (isDigit_of_mem_digits hlt) hrest).1, foldl_digit hlt, hval,
    Nat.zero_mul, Nat.zero_add]

/-! ### Numbers -/

/-- What is not a digit byte. -/
theorem ne_of_isDigit {b : Byte} (hb : isDigit b = true) :
    isSpace b = false ∧ b ≠ ch '-' ∧ b ≠ ch '+' ∧ b ≠ ch ';' ∧ b ≠ 0 := by
  rw [isDigit, Bool.and_eq_true, decide_eq_true_eq, decide_eq_true_eq] at hb
  refine ⟨?_, ?_, ?_, ?_, ?_⟩
  · rw [isSpace, Bool.or_eq_false_iff, Bool.and_eq_false_iff, decide_eq_false_iff_not,
      decide_eq_false_iff_not, decide_eq_false_iff_not]
    omega
  all_goals
    rintro rfl
    revert hb
    decide

theorem natText_cons (n : ℕ) : ∃ b s, natText n = b :: s ∧ ∀ x ∈ b :: s, isDigit x = true := by
  obtain ⟨ds, hds, hne, hlt, -⟩ := natText_eq n
  cases ds with
  | nil => exact absurd rfl hne
  | cons d ds => exact ⟨digit d, ds.map digit, hds, isDigit_of_mem_digits hlt⟩

theorem scanSign_natText (n : ℕ) (rest : Text) :
    scanSign (natText n ++ rest) = (false, natText n ++ rest) := by
  obtain ⟨b, s, hbs, hdig⟩ := natText_cons n
  obtain ⟨hspace, hminus, hplus, -, -⟩ := ne_of_isDigit (hdig b (List.mem_cons_self ..))
  have hdrop : (b :: s ++ rest).dropWhile isSpace = b :: (s ++ rest) := by
    rw [List.cons_append, List.dropWhile_cons, hspace]
    rfl
  rw [hbs, scanSign, hdrop]
  dsimp only
  rw [if_neg hminus, if_neg hplus]
  rfl

theorem scanSign_minus (s : Text) : scanSign (ch '-' :: s) = (true, s) := by
  have hdrop : (ch '-' :: s).dropWhile isSpace = ch '-' :: s := by
    rw [List.dropWhile_cons, show isSpace (ch '-') = false by decide]
    rfl
  rw [scanSign, hdrop]
  exact if_pos rfl

/-- `strtol` reads what `%ld` prints. -/
theorem strtol_intText {z : ℤ} (hlow : -2 ^ 63 ≤ z) (hhigh : z < 2 ^ 63) :
    strtol (intText z) = BitVec.ofInt 64 z := by
  have hscan := scanNat_natText z.natAbs [] (fun _ hb => nomatch hb)
  have hsign := scanSign_natText z.natAbs []
  rw [List.append_nil] at hscan hsign
  unfold intText
  by_cases hz : z < 0
  · rw [if_pos hz, strtol, scanSign_minus]
    dsimp only
    rw [hscan, if_pos rfl]
    congr 1
    omega
  · rw [if_neg hz, strtol, hsign]
    dsimp only
    rw [hscan, if_neg (by decide)]
    congr 1
    omega

theorem strtol_toInt {w : ℕ} (hw : w ≤ 64) (v : BitVec w) : strtol (intText v.toInt) = v.signExtend 64 := by
  have hpow : (2 : ℤ) ^ (w - 1) ≤ 2 ^ 63 := by
    exact_mod_cast Nat.pow_le_pow_right (by decide) (by omega)
  have hlow := BitVec.le_toInt v
  have hhigh := BitVec.toInt_lt (x := v)
  rw [strtol_intText (by omega) (by omega)]
  rfl

theorem fixedText_intCast (a : ℤ) : fixedText a =
    (if a < 0 then [ch '-'] else []) ++ (natText a.natAbs ++ ch '.' :: List.replicate 6 (digit 0)) := by
  have hscaled : |(a : ℚ)| * 10 ^ 6 = ((a.natAbs * 10 ^ 6 : ℕ) : ℤ) := by
    push_cast
    ring
  have hnum : (nearestEven (|(a : ℚ)| * 10 ^ 6)).toNat = a.natAbs * 10 ^ 6 := by
    rw [hscaled, nearestEven_intCast, Int.toNat_natCast]
  have hplace : ∀ k, k < 6 → a.natAbs * 10 ^ 6 / 10 ^ k % 10 = 0 := by
    intro k hk
    have hdvd : 10 ^ (k + 1) ∣ a.natAbs * 10 ^ 6 := (pow_dvd_pow 10 (by omega)).mul_left _
    obtain ⟨m, hm⟩ := hdvd
    rw [hm, pow_succ, Nat.mul_assoc, Nat.mul_div_cancel_left _ (by positivity), Nat.mul_mod_right]
  have hneg : ((a : ℚ) < 0) = (a < 0) := by rw [Int.cast_lt_zero]
  rw [fixedText, hnum, Nat.mul_div_cancel _ (by positivity)]
  simp only [hneg, List.map_cons, List.map_nil, hplace 5 (by decide), hplace 4 (by decide),
    hplace 3 (by decide), hplace 2 (by decide), hplace 1 (by decide), hplace 0 (by decide)]
  rfl

theorem scanPoint_natText (n : ℕ) :
    scanPoint (natText n ++ ch '.' :: List.replicate 6 (digit 0)) = n := by
  obtain ⟨ds, hds, -, hlt, hval⟩ := natText_eq n
  have hdot : ∀ b, (ch '.' :: List.replicate 6 (digit 0)).head? = some b → isDigit b = false := by
    intro b hb
    cases hb
    decide
  obtain ⟨hwhole, hrest⟩ := takeWhile_digits _ (isDigit_of_mem_digits hlt) hdot
  have hplaces : (List.replicate 6 (digit 0)).takeWhile isDigit = List.replicate 6 (digit 0) := by decide
  have hscan : scanNat (ds.map digit ++ List.replicate 6 (digit 0)) = n * 10 ^ 6 := by
    have hsplit : ds.map digit ++ List.replicate 6 (digit 0) = (ds ++ List.replicate 6 0).map digit := by
      rw [List.map_append, List.map_replicate]
    have hall : ∀ d ∈ ds ++ List.replicate 6 0, d < 10 := by
      intro d hd
      rcases List.mem_append.mp hd with h | h
      · exact hlt d h
      · rw [List.eq_of_mem_replicate h]
        decide
    have htake := takeWhile_digits [] (isDigit_of_mem_digits hall) (fun _ hb => nomatch hb)
    rw [List.append_nil] at htake
    rw [hsplit, scanNat, htake.1, foldl_digit hall, List.reverse_append, Nat.ofDigits_append,
      List.reverse_replicate, Nat.ofDigits_replicate_zero, hval, List.length_replicate]
    ring
  rw [hds, scanPoint, hwhole, hrest]
  dsimp only
  rw [if_pos rfl, hplaces, hscan, List.length_replicate]
  push_cast
  exact mul_div_cancel_right₀ _ (by norm_num)

/-- `strtof` reads what `%f` prints of an integer that a float can hold. -/
theorem strtof_fixedText {a : ℤ} (ha : |a| < 2 ^ 24) : strtof (fixedText a) = a := by
  rw [fixedText_intCast, strtof]
  by_cases hneg : a < 0
  · have hval : -(a.natAbs : ℚ) = a := by
      have hint : -(a.natAbs : ℤ) = a := by omega
      rw [← Int.cast_natCast, ← Int.cast_neg, hint]
    rw [if_pos hneg, List.singleton_append, scanSign_minus]
    dsimp only
    rw [if_pos rfl, scanPoint_natText, hval]
    exact roundTo_intCast ha
  · have hval : (a.natAbs : ℚ) = a := by
      have hint : (a.natAbs : ℤ) = a := by omega
      rw [← Int.cast_natCast, hint]
    rw [if_neg hneg, List.nil_append, scanSign_natText]
    dsimp only
    rw [if_neg (by decide), scanPoint_natText, hval]
    exact roundTo_intCast ha

/-! ### Fields -/

/-- Texts with the delimiter between them. -/
def joined (delim : Byte) : List Text → Text
  | [] => []
  | [f] => f
  | f :: fs => f ++ delim :: joined delim fs

/-- A field of a string: not empty, without delimiter. -/
def Field (delim : Byte) (f : Text) : Prop := f ≠ [] ∧ ∀ b ∈ f, b ≠ delim ∧ b ≠ 0

/-- The buffer when the fields `fs` are still to be read. -/
def tokAt (delim : Byte) (pre : Text) (fs : List Text) (rest : Text) : Tok :=
  ⟨pre ++ (joined delim fs ++ 0 :: rest), pre.length⟩

variable {delim : Byte} {f pre rest : Text} {fs : List Text}

theorem cstr_append (pre : Text) (hf : ∀ b ∈ f, b ≠ 0) : cstr (pre ++ (f ++ 0 :: rest)) pre.length = f := by
  have htake := @List.takeWhile_append_of_pos _ (· != 0) f (0 :: rest)
    (fun b hb => bne_iff_ne.mpr (hf b hb))
  rw [cstr, List.drop_left, htake]
  simp

theorem field_span (rest : Text) (hf : Field delim f) {d : Byte} (hd : d = delim ∨ d = 0) :
    (f ++ d :: rest).takeWhile (· == delim) = [] ∧
      (f ++ d :: rest).takeWhile (fun b => b != delim && b != 0) = f := by
  constructor
  · cases f with
    | nil => exact absurd rfl hf.1
    | cons b f =>
      have hb := (hf.2 b (List.mem_cons_self ..)).1
      rw [List.cons_append, List.takeWhile_cons, beq_false_of_ne hb]
      rfl
  · have hall : ∀ b ∈ f, (b != delim && b != 0) = true := by
      intro b hb
      have hne := hf.2 b hb
      rw [Bool.and_eq_true, bne_iff_ne, bne_iff_ne]
      exact hne
    have hstop : (d != delim && d != 0) = false := by
      rcases hd with rfl | rfl
      · rw [bne_self_eq_false, Bool.false_and]
      · rw [bne_self_eq_false, Bool.and_false]
    rw [List.takeWhile_append_of_pos hall, List.takeWhile_cons, hstop]
    exact List.append_nil f

/-- A token with a delimiter behind it, which is overwritten. -/
theorem strtok_delim (hf : Field delim f) :
    strtok delim ⟨pre ++ (f ++ delim :: rest), pre.length⟩ =
      (some pre.length, ⟨pre ++ (f ++ 0 :: rest), (pre ++ f ++ [0]).length⟩) := by
  obtain ⟨hskip, hspan⟩ := field_span rest hf (.inl rfl)
  have hlen : ¬ f.length = 0 := fun h => hf.1 (List.eq_nil_of_length_eq_zero h)
  have hat : (pre ++ (f ++ delim :: rest))[pre.length + f.length]? = some delim := by
    rw [List.getElem?_append_right (by omega), List.getElem?_append_right (by omega)]
    simp
  have hset : (pre ++ (f ++ delim :: rest)).set (pre.length + f.length) 0 = pre ++ (f ++ 0 :: rest) := by
    rw [List.set_append_right _ _ (by omega), List.set_append_right _ _ (by omega)]
    simp
  rw [strtok]
  simp only [List.drop_left, hskip, hspan, List.length_nil, Nat.add_zero, if_neg hlen, if_pos hat, hset]
  simp [Nat.add_assoc]

/-- The last token of the string. -/
theorem strtok_last (hf : Field delim f) (hd : delim ≠ 0) :
    strtok delim ⟨pre ++ (f ++ 0 :: rest), pre.length⟩ =
      (some pre.length, ⟨pre ++ (f ++ 0 :: rest), (pre ++ f).length⟩) := by
  obtain ⟨hskip, hspan⟩ := field_span rest hf (.inr rfl)
  have hlen : ¬ f.length = 0 := fun h => hf.1 (List.eq_nil_of_length_eq_zero h)
  have hat : ¬ (pre ++ (f ++ 0 :: rest))[pre.length + f.length]? = some delim := by
    rw [List.getElem?_append_right (by omega), List.getElem?_append_right (by omega)]
    simpa using hd.symm
  rw [strtok]
  simp only [List.drop_left, hskip, hspan, List.length_nil, Nat.add_zero, if_neg hlen, if_neg hat]
  simp

/-- What is behind a field that has been read, its end included if more fields follow. -/
def passed (pre f : Text) (fs : List Text) : Text := if fs = [] then pre ++ f else pre ++ f ++ [0]

/-- `strtok_r` finds the next field and leaves the fields behind it. -/
theorem strtok_tokAt (hf : Field delim f) (hd : delim ≠ 0) :
    strtok delim (tokAt delim pre (f :: fs) rest) =
      (some pre.length, tokAt delim (passed pre f fs) fs rest) := by
  cases fs with
  | nil =>
    rw [tokAt, joined, strtok_last hf hd, passed, if_pos rfl, tokAt, joined, List.nil_append,
      List.append_assoc]
  | cons g fs =>
    have hbuf : pre ++ (joined delim (f :: g :: fs) ++ 0 :: rest) =
        pre ++ (f ++ delim :: (joined delim (g :: fs) ++ 0 :: rest)) := by
      simp [joined]
    rw [tokAt, hbuf, strtok_delim hf, passed, if_neg (List.cons_ne_nil _ _), tokAt]
    simp

/-- The field can be read where it was found. -/
theorem cstr_passed (hf : Field delim f) :
    cstr (tokAt delim (passed pre f fs) fs rest).buf pre.length = f := by
  have hzero : ∀ b ∈ f, b ≠ 0 := fun b hb => (hf.2 b hb).2
  have hbuf : ∃ more, (tokAt delim (passed pre f fs) fs rest).buf = pre ++ (f ++ 0 :: more) := by
    cases fs with
    | nil => exact ⟨rest, by simp [tokAt, passed, joined]⟩
    | cons g fs => exact ⟨joined delim (g :: fs) ++ 0 :: rest, by simp [tokAt, passed]⟩
  obtain ⟨more, hmore⟩ := hbuf
  rw [hmore, cstr_append _ hzero]

/-- It stays there while the fields behind it are read. -/
theorem cstr_left (hf : Field delim f) (more : Text) :
    cstr (tokAt delim (pre ++ f ++ [0] ++ more) fs rest).buf pre.length = f := by
  have hzero : ∀ b ∈ f, b ≠ 0 := fun b hb => (hf.2 b hb).2
  have hbuf : (tokAt delim (pre ++ f ++ [0] ++ more) fs rest).buf =
      pre ++ (f ++ 0 :: (more ++ (joined delim fs ++ 0 :: rest))) := by
    simp [tokAt]
  rw [hbuf, cstr_append _ hzero]

/-- A string of fields has no end inside. -/
theorem ne_zero_of_mem_joined (hd : delim ≠ 0) (hfs : ∀ f ∈ fs, Field delim f) :
    ∀ b ∈ joined delim fs, b ≠ 0 := by
  induction fs with
  | nil => exact fun _ hb => nomatch hb
  | cons f fs ih =>
    have hhead := (hfs f (List.mem_cons_self ..)).2
    cases fs with
    | nil => exact fun b hb => (hhead b hb).2
    | cons g fs =>
      intro b hb
      rcases List.mem_append.mp hb with h | h
      · exact (hhead b h).2
      · rcases List.mem_cons.mp h with rfl | h
        · exact hd
        · exact ih (fun x hx => hfs x (List.mem_cons_of_mem _ hx)) b h

/-! ### Printed numbers are fields -/

theorem field_natText (n : ℕ) : Field (ch ';') (natText n) := by
  obtain ⟨b, s, hbs, hdig⟩ := natText_cons n
  rw [hbs]
  exact ⟨List.cons_ne_nil _ _, fun x hx => ⟨(ne_of_isDigit (hdig x hx)).2.2.2.1,
    (ne_of_isDigit (hdig x hx)).2.2.2.2⟩⟩

theorem Field.append_left (hf : Field delim f) {s : Text} (hs : ∀ b ∈ s, b ≠ delim ∧ b ≠ 0) :
    Field delim (s ++ f) := by
  refine ⟨List.append_ne_nil_of_right_ne_nil s hf.1, fun b hb => ?_⟩
  rcases List.mem_append.mp hb with h | h
  · exact hs b h
  · exact hf.2 b h

theorem Field.append_right (hf : Field delim f) {s : Text} (hs : ∀ b ∈ s, b ≠ delim ∧ b ≠ 0) :
    Field delim (f ++ s) := by
  refine ⟨List.append_ne_nil_of_left_ne_nil hf.1 s, fun b hb => ?_⟩
  rcases List.mem_append.mp hb with h | h
  · exact hf.2 b h
  · exact hs b h

theorem field_intText (z : ℤ) : Field (ch ';') (intText z) := by
  unfold intText
  split
  · exact (field_natText z.natAbs).append_left (s := [ch '-']) (by decide)
  · exact field_natText z.natAbs

theorem field_fixedText (a : ℤ) : Field (ch ';') (fixedText a) := by
  rw [fixedText_intCast]
  have hplaces := (field_natText a.natAbs).append_right (s := ch '.' :: List.replicate 6 (digit 0))
    (by decide)
  split
  · exact hplaces.append_left (by decide)
  · exact hplaces.append_left (fun _ hb => nomatch hb)

end TinyStm.CText
