import Mathlib.Data.Int.Interval
import Mathlib.Data.List.Basic
import Mathlib.Tactic.Common
import Mathlib.Tactic.IntervalCases

/-!
# The search for a place to patch the scheduler

`check_patch_compatibility` scans `finish_task_switch` backwards for a `ret` with four bytes
of `pop` instructions before it, where `0x41` is the first byte of a two-byte `pop`.
`scheduler_patch` then writes a jump over the bytes that end with the `ret`. Memory is the
kernel's, by address; of the addresses the function starts at `start` and has `len` bytes.
-/

namespace TinyStm.Kernel.Patch

abbrev Byte := BitVec 8

abbrev Memory := ℤ → Byte

/-- `magic[9]`. -/
def magic : List Byte := [0x41, 0x58, 0x59, 0x5a, 0x5b, 0x5c, 0x5d, 0x5e, 0x5f]

/-- What the scan leaves: `ptr`, `bytes_to_patch_in_scheduler` and the addresses it read. -/
structure Scan where
  ptr : ℤ
  bytes : ℕ
  reads : List ℤ

/-- The loop over `ptr[j]`, `k` rounds to go: whether all of them matched, and the reads. -/
def matchLoop (mem : Memory) (ptr : ℤ) : ℕ → ℤ → Bool × List ℤ
  | 0, _ => (true, [])
  | k + 1, j =>
    if mem (ptr + j) ∈ magic then
      let r := matchLoop mem ptr k (j - 1)
      (r.1, (ptr + j) :: r.2)
    else (false, [ptr + j])

/-- The scan with `n` bytes of the function to go. -/
def scan (mem : Memory) (start : ℤ) : ℕ → Scan
  | 0 => ⟨start - 1, 4, []⟩
  | n + 1 =>
    let ptr := start + n
    if mem ptr ≠ 0xc3 then
      let s := scan mem start n
      { s with reads := ptr :: s.reads }
    else
      let m := matchLoop mem ptr 4 (-1)
      if m.1 then
        if mem (ptr - 5) = 0x41 then ⟨ptr - 1 + 1, 5, ptr :: m.2 ++ [ptr - 5]⟩
        else ⟨ptr + 1, 4, ptr :: m.2 ++ [ptr - 5]⟩
      else
        let s := scan mem start n
        { s with reads := ptr :: m.2 ++ s.reads }

/-- Addresses the module works with. -/
structure Layout where
  start : ℤ
  len : ℕ
  apicStart : ℤ
  handler : ℤ
  hook : ℤ

/-- `displacement == (long)(int)displacement`. -/
def fitsInt (d : ℤ) : Bool := -2 ^ 31 ≤ d ∧ d < 2 ^ 31

/-- The part of `check_patch_compatibility` on the scheduler: `none` is `goto failed`. -/
def schedulerPart (l : Layout) (mem : Memory) : Option (ℤ × ℕ) :=
  let s := scan mem l.start l.len
  if s.ptr = l.start then none else some (s.ptr, s.bytes)

/-- The part on the APIC timer interrupt: the address of the call. -/
def apicPart (l : Layout) (mem : Memory) : Option ℤ :=
  match (List.range 1024).find? fun i => mem (l.apicStart + i) = 0xe8 with
  | none => none
  | some i => if fitsInt (l.handler - (l.apicStart + i)) then some (l.apicStart + i) else none

/-- `check_patch_compatibility`: `finish_task_switch_next`, the number of bytes and the address
of the call, or `none` for -1. -/
def checkPatchCompatibility (l : Layout) (mem : Memory) : Option (ℤ × ℕ × ℤ) :=
  match schedulerPart l mem, apicPart l mem with
  | some (next, bytes), some call => some (next, bytes, call)
  | _, _ => none

/-- `memcpy` to an address. -/
def write (mem : Memory) (a : ℤ) (bs : List Byte) : Memory :=
  fun x => if a ≤ x ∧ x < a + bs.length then bs.getD (x - a).toNat 0 else mem x

/-- An opcode and a displacement in little-endian order. -/
def redirect (op : Byte) (d : ℤ) : List Byte :=
  op :: (List.range 4).map fun i => BitVec.ofInt 8 (d / 2 ^ (8 * i))

/-- `scheduler_patch`: the value returned and memory. What `prepare_self_patch` does with the
module's own code is a parameter. -/
def schedulerPatch (prepareSelfPatch : Memory → Memory × Option ℤ) (l : Layout) (mem : Memory) :
    ℤ × Memory :=
  match checkPatchCompatibility l mem with
  | none => (-1, mem)
  | some (next, bytes, call) =>
    let original := (List.range bytes).map fun i => mem (next - bytes + i)
    if fitsInt (l.hook - next) then
      match prepareSelfPatch mem with
      | (mem, none) => (-1, mem)
      | (mem, some ptr) =>
        let jump := (redirect 0xe9 (l.hook - next) ++ if 4 < bytes then [0x90] else []).take bytes
        let mem := write (write mem ptr original) (next - bytes) jump
        (0, write mem call (redirect 0xe8 (l.handler - call)))
    else (-1, mem)

/-! ### What the search is to find -/

/-- A `pop` of one byte, or the second byte of a longer one. -/
def isPop (b : Byte) : Prop := 0x58 ≤ b ∧ b ≤ 0x5f

instance (b : Byte) : Decidable (isPop b) := inferInstanceAs (Decidable (_ ∧ _))

/-- The bytes from `a` up to `b` are whole `pop` instructions. -/
inductive Pops (mem : Memory) : ℤ → ℤ → Prop
  | nil (a : ℤ) : Pops mem a a
  | one {a b : ℤ} (h : isPop (mem a)) (t : Pops mem (a + 1) b) : Pops mem a b
  | two {a b : ℤ} (h : mem a = 0x41) (h' : isPop (mem (a + 1))) (t : Pops mem (a + 2) b) : Pops mem a b

/-- The `n` bytes that end with the `ret` at `r` can be patched: they are in the function, they
are whole `pop`s and the `ret`, and the first `pop` has no byte before them. -/
structure Site (l : Layout) (mem : Memory) (n : ℕ) (r : ℤ) : Prop where
  ret : mem r = 0xc3
  first : l.start ≤ r + 1 - n
  last : r < l.start + l.len
  pops : Pops mem (r + 1 - n) r
  whole : l.start < r + 1 - n → mem (r - n) ≠ 0x41

/-- A jump is not written but over a site, and only the function is searched. -/
structure Sound (prepareSelfPatch : Memory → Memory × Option ℤ) (l : Layout) (mem : Memory) :
    Prop where
  site : ∀ next bytes, schedulerPart l mem = some (next, bytes) →
    ∃ r, Site l mem bytes r ∧ next = r + 1
  refused : (∀ n r, n = 4 ∨ n = 5 → ¬ Site l mem n r) →
    checkPatchCompatibility l mem = none ∧ schedulerPatch prepareSelfPatch l mem = (-1, mem)
  reads : ∀ a ∈ (scan mem l.start l.len).reads, l.start ≤ a ∧ a < l.start + l.len

/-- A `ret` with four bytes of the table before it. -/
structure Matches (mem : Memory) (r : ℤ) : Prop where
  ret : mem r = 0xc3
  before : ∀ i < 4, mem (r - 1 - (i : ℕ)) ∈ magic

/-- The last `ret` that matches is far enough in the function, and the bytes before it are
whole instructions: not `0x41` the fifth and the fourth, and `pop`s the other three. -/
def Patchable (l : Layout) (mem : Memory) : Prop :=
  ∃ r, Matches mem r ∧ (∀ r', r < r' → r' < l.start + l.len → ¬ Matches mem r') ∧
    l.start + 5 ≤ r ∧ r < l.start + l.len ∧ mem (r - 5) ≠ 0x41 ∧ mem (r - 4) ≠ 0x41 ∧
    Pops mem (r - 3) r

/-! ### The loops -/

variable {mem : Memory} {ptr start : ℤ}

theorem matchLoop_fst (k : ℕ) (j : ℤ) :
    (matchLoop mem ptr k j).1 = true ↔ ∀ i < k, mem (ptr + j - (i : ℕ)) ∈ magic := by
  induction k generalizing j with
  | zero => simp [matchLoop]
  | succ k ih =>
    rw [matchLoop]
    split
    · next h =>
      simp only [ih]
      constructor
      · intro hall i hi
        cases i with
        | zero => simpa using h
        | succ i =>
          have heq : ptr + j - ((i + 1 : ℕ) : ℤ) = ptr + (j - 1) - (i : ℕ) := by omega
          rw [heq]
          exact hall i (by omega)
      · intro hall i hi
        have heq : ptr + (j - 1) - (i : ℕ) = ptr + j - ((i + 1 : ℕ) : ℤ) := by omega
        rw [heq]
        exact hall (i + 1) (by omega)
    · next h =>
      simp only [Bool.false_eq_true, false_iff, not_forall]
      exact ⟨0, Nat.succ_pos k, by simpa using h⟩

theorem matchLoop_reads (k : ℕ) (j : ℤ) {a : ℤ} (h : a ∈ (matchLoop mem ptr k j).2) :
    ptr + j - k < a ∧ a ≤ ptr + j := by
  induction k generalizing j with
  | zero => simp [matchLoop] at h
  | succ k ih =>
    rw [matchLoop] at h
    split at h
    · rcases List.mem_cons.mp h with rfl | h
      · omega
      · have := ih (j - 1) h
        omega
    · rw [List.mem_singleton.mp h]
      omega

theorem matches_iff (mem : Memory) (ptr : ℤ) :
    Matches mem ptr ↔ mem ptr = 0xc3 ∧ (matchLoop mem ptr 4 (-1)).1 = true := by
  rw [matchLoop_fst]
  exact ⟨fun h => ⟨h.ret, h.before⟩, fun h => ⟨h.1, h.2⟩⟩

/-- A byte that does not match is passed over. -/
theorem scan_skip {n : ℕ} (h : ¬ Matches mem (start + n)) :
    (scan mem start (n + 1)).ptr = (scan mem start n).ptr ∧
      (scan mem start (n + 1)).bytes = (scan mem start n).bytes ∧
      (∀ a ∈ (scan mem start n).reads, a ∈ (scan mem start (n + 1)).reads) ∧
      ∀ a ∈ (scan mem start (n + 1)).reads,
        a ∈ (scan mem start n).reads ∨ start + n - 5 < a ∧ a ≤ start + n := by
  rw [matches_iff, not_and] at h
  rw [scan]
  dsimp only
  split
  · refine ⟨rfl, rfl, fun a ha => List.mem_cons_of_mem _ ha, fun a ha => ?_⟩
    rcases List.mem_cons.mp ha with rfl | ha
    · exact .inr (by omega)
    · exact .inl ha
  · next hret =>
    rw [if_neg (h (by simpa using hret))]
    refine ⟨rfl, rfl, fun a ha => by simp [ha], fun a ha => ?_⟩
    rcases List.mem_cons.mp ha with rfl | ha
    · exact .inr (by omega)
    · rcases List.mem_append.mp ha with ha | ha
      · have := matchLoop_reads 4 (-1) ha
        exact .inr (by push_cast at this; omega)
      · exact .inl ha

/-- The scan stops at a match. -/
theorem scan_stop {n : ℕ} (h : Matches mem (start + n)) :
    (scan mem start (n + 1)).ptr = (if mem (start + n - 5) = 0x41 then start + n else start + n + 1) ∧
      (scan mem start (n + 1)).bytes = (if mem (start + n - 5) = 0x41 then 5 else 4) ∧
      start + n - 5 ∈ (scan mem start (n + 1)).reads ∧
      ∀ a ∈ (scan mem start (n + 1)).reads, start + n - 5 ≤ a ∧ a ≤ start + n := by
  obtain ⟨hret, hmatch⟩ := (matches_iff _ _).mp h
  have hreads : ∀ a ∈ (start + n) :: (matchLoop mem (start + n) 4 (-1)).2 ++ [start + n - 5],
      start + n - 5 ≤ a ∧ a ≤ start + n := by
    intro a ha
    rcases List.mem_append.mp ha with ha | ha
    · rcases List.mem_cons.mp ha with rfl | ha
      · omega
      · have := matchLoop_reads 4 (-1) ha
        push_cast at this
        omega
    · rw [List.mem_singleton.mp ha]
      omega
  rw [scan]
  dsimp only
  rw [if_neg (by simpa using hret), if_pos hmatch]
  by_cases h41 : mem (start + n - 5) = 0x41
  · rw [if_pos h41, if_pos h41, if_pos h41]
    exact ⟨by simp, rfl, by simp, hreads⟩
  · rw [if_neg h41, if_neg h41, if_neg h41]
    exact ⟨rfl, rfl, by simp, hreads⟩

/-- Nothing matches: the scan ends before the function. -/
theorem scan_none {n : ℕ} (h : ∀ i < n, ¬ Matches mem (start + (i : ℕ))) :
    (scan mem start n).ptr = start - 1 := by
  induction n with
  | zero => rfl
  | succ n ih =>
    rw [(scan_skip (h n (Nat.lt_succ_self n))).1]
    exact ih fun i hi => h i (Nat.lt_succ_of_lt hi)

/-- What the scan says about the last match. -/
structure Stopped (mem : Memory) (start : ℤ) (n : ℕ) (r : ℤ) : Prop where
  ptr : (scan mem start n).ptr = if mem (r - 5) = 0x41 then r else r + 1
  bytes : (scan mem start n).bytes = if mem (r - 5) = 0x41 then 5 else 4
  read : r - 5 ∈ (scan mem start n).reads
  reads : ∀ a ∈ (scan mem start n).reads, r - 5 ≤ a ∧ a < start + n

theorem scan_some {n : ℕ} {r : ℤ} (hr : Matches mem r) (h₁ : start ≤ r) (h₂ : r < start + n)
    (hlast : ∀ r', r < r' → r' < start + n → ¬ Matches mem r') : Stopped mem start n r := by
  induction n with
  | zero => omega
  | succ n ih =>
    by_cases heq : r = start + n
    · subst heq
      obtain ⟨hptr, hbytes, hread, hreads⟩ := scan_stop hr
      refine ⟨hptr, hbytes, hread, fun a ha => ?_⟩
      have := hreads a ha
      omega
    · have hskip := hlast (start + n) (by omega) (by omega)
      obtain ⟨hptr, hbytes, hold, hnew⟩ := scan_skip hskip
      obtain ⟨sptr, sbytes, sread, sreads⟩ := ih (by omega) fun r' h h' => hlast r' h (by omega)
      refine ⟨hptr.trans sptr, hbytes.trans sbytes, hold _ sread, fun a ha => ?_⟩
      rcases hnew a ha with ha | ha
      · have := sreads a ha
        omega
      · omega

/-- Nothing in the function matches, or there is a last match. -/
theorem last_match (mem : Memory) (start : ℤ) (n : ℕ) :
    (∀ i < n, ¬ Matches mem (start + (i : ℕ))) ∨
      ∃ r, Matches mem r ∧ start ≤ r ∧ r < start + n ∧
        ∀ r', r < r' → r' < start + n → ¬ Matches mem r' := by
  induction n with
  | zero => exact .inl fun i hi => absurd hi (Nat.not_lt_zero i)
  | succ n ih =>
    by_cases hn : Matches mem (start + n)
    · exact .inr ⟨start + n, hn, by omega, by omega, fun r' h h' => by omega⟩
    · rcases ih with hnone | ⟨r, hr, h₁, h₂, hlast⟩
      · refine .inl fun i hi => ?_
        rcases Nat.lt_succ_iff_lt_or_eq.mp hi with hi | rfl
        · exact hnone i hi
        · exact hn
      · refine .inr ⟨r, hr, h₁, by omega, fun r' h h' => ?_⟩
        by_cases heq : r' = start + n
        · exact heq ▸ hn
        · exact hlast r' h (by omega)

/-! ### The condition -/

variable {l : Layout}

theorem not_ret_of_magic {b : Byte} (h : b ∈ magic) : b ≠ 0xc3 := by
  rintro rfl
  exact absurd h (by decide)

theorem schedulerPart_eq {s : ℤ} {n : ℕ} (hp : (scan mem l.start l.len).ptr = s)
    (hb : (scan mem l.start l.len).bytes = n) (hne : s ≠ l.start) :
    schedulerPart l mem = some (s, n) := by
  rw [schedulerPart]
  simp only [hp, hb, if_neg hne]

theorem patchable_of_sound {f : Memory → Memory × Option ℤ} (h : Sound f l mem) : Patchable l mem := by
  rcases last_match mem l.start l.len with hnone | ⟨r, hr, h₁, h₂, hlast⟩
  · -- the scan ends at `start - 1`, which the test does not notice
    obtain ⟨r, hsite, hnext⟩ := h.site _ _ (schedulerPart_eq (scan_none hnone) rfl (by omega))
    have := hsite.first
    omega
  · obtain ⟨hptr, hbytes, hread, -⟩ := scan_some hr h₁ h₂ hlast
    have hin := (h.reads _ hread).1
    by_cases h41 : mem (r - 5) = 0x41
    · -- `finish_task_switch_next` is the `ret` itself
      rw [if_pos h41] at hptr hbytes
      obtain ⟨r', hsite, hnext⟩ := h.site _ _ (schedulerPart_eq hptr hbytes (by omega))
      have hr' : r' = r - 1 - ((0 : ℕ) : ℤ) := by omega
      exact absurd (hr' ▸ hsite.ret) (not_ret_of_magic (hr.before 0 (by omega)))
    · rw [if_neg h41] at hptr hbytes
      obtain ⟨r', hsite, hnext⟩ := h.site _ _ (schedulerPart_eq hptr hbytes (by omega))
      obtain rfl : r' = r := by omega
      have hfirst : r' + 1 - ((4 : ℕ) : ℤ) = r' - 3 := by omega
      have hwhole := hsite.whole (by omega)
      have hpops := hsite.pops
      rw [hfirst] at hpops
      exact ⟨r', hr, hlast, by omega, h₂, h41, hwhole, hpops⟩

theorem sound_of_patchable (f : Memory → Memory × Option ℤ) (h : Patchable l mem) : Sound f l mem := by
  obtain ⟨r, hr, hlast, h₁, h₂, h41, h4, hpops⟩ := h
  obtain ⟨hptr, hbytes, -, hreads⟩ := scan_some hr (by omega) h₂ hlast
  rw [if_neg h41] at hptr hbytes
  have hpart := schedulerPart_eq hptr hbytes (by omega)
  have hfirst : r + 1 - ((4 : ℕ) : ℤ) = r - 3 := by omega
  have hsite : Site l mem 4 r := ⟨hr.ret, by omega, h₂, hfirst ▸ hpops, fun _ => h4⟩
  refine ⟨fun next bytes hnb => ?_, fun hno => absurd hsite (hno 4 r (.inl rfl)), fun a ha => ?_⟩
  · rw [hpart] at hnb
    cases hnb
    exact ⟨r, hsite, rfl⟩
  · have := hreads a ha
    omega

/-- For every image of the function, the search is sound exactly when the last `ret` that
matches is a site that needs no correction. -/
theorem patch_sound_iff (f : Memory → Memory × Option ℤ) (l : Layout) (mem : Memory) :
    Sound f l mem ↔ Patchable l mem :=
  ⟨patchable_of_sound, sound_of_patchable f⟩

/-- A function of eight `nop`s at address 4096. -/
def nops : Layout := ⟨4096, 8, 8192, 12288, 16384⟩

/-- No `ret` is found, and the search goes on with a `finish_task_switch_next` before the
function. -/
theorem nops_accepted : schedulerPart nops (fun _ => 0x90) = some (4095, 4) ∧
    ∀ f, ¬ Sound f nops (fun _ => 0x90) := by
  refine ⟨by decide, fun f h => ?_⟩
  obtain ⟨r, hsite, -⟩ := h.site 4095 4 (by decide)
  exact absurd hsite.ret (by decide)

end TinyStm.Kernel.Patch
