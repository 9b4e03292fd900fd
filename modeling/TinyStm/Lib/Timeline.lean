import Mathlib.Order.Basic
import Mathlib.Order.Defs.LinearOrder

/-!
# Timestamped updates and the memory they produce

Updates are numbered by the timestamp they were given. A slot of the log is
first undecided (the update may still be withdrawn) and then decided; the
memory at time `n` is the initial memory after the decided updates up to `n`,
in the order of their timestamps. An address belongs to a stripe, and an
update only has an effect on addresses of stripes it touches.

`Quiet log k v e` says that no update with a timestamp in `(v, e]` touches the
stripe `k`: a value of `k` read at version `v` is then still the value at `e`.
-/

namespace TinyStm.Timeline

variable {α κ β E : Type*}

/-- What an update does: the stripes it touches and its effect on a word. -/
structure Sem (α κ β E : Type*) where
  stripe : α → κ
  touch : E → κ → Prop
  eff : E → α → β → β
  frame : ∀ e a y, ¬ touch e (stripe a) → eff e a y = y

/-- A timestamp that was handed out: by whom, for which update, and whether the
update is past the point of withdrawal. -/
structure Slot (E : Type*) where
  owner : ℕ
  body : E
  decided : Bool

abbrev Log (E : Type*) := ℕ → Option (Slot E)

variable (S : Sem α κ β E)

/-- The memory after the decided updates with timestamp at most `n`. -/
def memAt (m : α → β) (log : Log E) : ℕ → α → β
  | 0 => m
  | n + 1 => fun a =>
    match log (n + 1) with
    | some s => if s.decided then S.eff s.body a (memAt m log n a) else memAt m log n a
    | none => memAt m log n a

def Touches (log : Log E) (n : ℕ) (k : κ) : Prop := ∃ s, log n = some s ∧ S.touch s.body k

def Quiet (log : Log E) (k : κ) (v e : ℕ) : Prop :=
  ∀ n, v < n → n ≤ e → ¬ Touches S log n k

variable {S} {m : α → β} {log log' : Log E}

theorem memAt_succ_none {n : ℕ} (a : α) (h : log (n + 1) = none) :
    memAt S m log (n + 1) a = memAt S m log n a := by
  simp only [memAt, h]

theorem memAt_succ_undecided {n : ℕ} {s : Slot E} (a : α) (h : log (n + 1) = some s)
    (hd : s.decided = false) : memAt S m log (n + 1) a = memAt S m log n a := by
  simp [memAt, h, hd]

theorem memAt_succ_decided {n : ℕ} {s : Slot E} (a : α) (h : log (n + 1) = some s)
    (hd : s.decided = true) :
    memAt S m log (n + 1) a = S.eff s.body a (memAt S m log n a) := by
  simp [memAt, h, hd]

theorem memAt_succ_of_not_touches {n : ℕ} (a : α) (h : ¬ Touches S log (n + 1) (S.stripe a)) :
    memAt S m log (n + 1) a = memAt S m log n a := by
  cases hl : log (n + 1) with
  | none => exact memAt_succ_none a hl
  | some s =>
    have hf : S.eff s.body a (memAt S m log n a) = memAt S m log n a :=
      S.frame _ _ _ fun ht => h ⟨s, hl, ht⟩
    cases hd : s.decided with
    | false => exact memAt_succ_undecided a hl hd
    | true => rw [memAt_succ_decided a hl hd, hf]

/-- A quiet stripe keeps its contents. -/
theorem memAt_eq_of_quiet {v e : ℕ} {a : α} (hq : Quiet S log (S.stripe a) v e) (hve : v ≤ e) :
    memAt S m log e a = memAt S m log v a := by
  induction e with
  | zero =>
    have hv : v = 0 := Nat.le_zero.mp hve
    rw [hv]
  | succ e ih =>
    rcases Nat.lt_or_ge e v with hlt | hle
    · have hv : v = e + 1 := Nat.le_antisymm hve hlt
      rw [hv]
    · rw [memAt_succ_of_not_touches a (hq (e + 1) (Nat.lt_succ_of_le hle) (Nat.le_refl _))]
      exact ih (fun n hn hne => hq n hn (Nat.le_succ_of_le hne)) hle

/-- How the log may change while the clock shows `c`: decided updates stay, and
a slot up to `c` was there before, with the same owner and update. -/
structure Later (c : ℕ) (log log' : Log E) : Prop where
  keep : ∀ n s, log n = some s → s.decided = true → log' n = some s
  old : ∀ n s', n ≤ c → log' n = some s' →
    ∃ s, log n = some s ∧ s.owner = s'.owner ∧ s.body = s'.body

theorem Later.refl (c : ℕ) (log : Log E) : Later c log log :=
  ⟨fun _ _ h _ => h, fun _ s' _ h => ⟨s', h, rfl, rfl⟩⟩

theorem Later.trans {c c' : ℕ} {log'' : Log E} (h : Later c log log') (hc : c ≤ c')
    (h' : Later c' log' log'') : Later c log log'' where
  keep n s hs hd := h'.keep n s (h.keep n s hs hd) hd
  old n s'' hn hs'' := by
    obtain ⟨s', hs', ho', hb'⟩ := h'.old n s'' (Nat.le_trans hn hc) hs''
    obtain ⟨s, hs, ho, hb⟩ := h.old n s' hn hs'
    exact ⟨s, hs, ho.trans ho', hb.trans hb'⟩

theorem Later.touches {c n : ℕ} {k : κ} (h : Later c log log') (hn : n ≤ c)
    (ht : Touches S log' n k) : Touches S log n k := by
  obtain ⟨s', hs', ht'⟩ := ht
  obtain ⟨s, hs, -, hb⟩ := h.old n s' hn hs'
  exact ⟨s, hs, by rw [hb]; exact ht'⟩

theorem Later.quiet {c v e : ℕ} {k : κ} (h : Later c log log') (he : e ≤ c)
    (hq : Quiet S log k v e) : Quiet S log' k v e :=
  fun n hn hne ht => hq n hn hne (h.touches (Nat.le_trans hne he) ht)

theorem Later.touches_decided {c n : ℕ} {k : κ} (h : Later c log log')
    (hd : ∀ s, log n = some s → S.touch s.body k → s.decided = true)
    (ht : Touches S log n k) : Touches S log' n k := by
  obtain ⟨s, hs, ht⟩ := ht
  exact ⟨s, h.keep n s hs (hd s hs ht), ht⟩

/-- Past contents are fixed: where every update touching the stripe up to `v`
is decided, the memory at `v` does not change. -/
theorem Later.memAt_eq {c v : ℕ} {a : α} (h : Later c log log') (hv : v ≤ c)
    (hd : ∀ n s, n ≤ v → log n = some s → S.touch s.body (S.stripe a) → s.decided = true) :
    memAt S m log' v a = memAt S m log v a := by
  induction v with
  | zero => rfl
  | succ v ih =>
    have hrec := ih (Nat.le_of_succ_le hv) fun n s hn => hd n s (Nat.le_succ_of_le hn)
    by_cases ht : Touches S log (v + 1) (S.stripe a)
    · obtain ⟨s, hs, ht⟩ := ht
      have hds : s.decided = true := hd (v + 1) s (Nat.le_refl _) hs ht
      rw [memAt_succ_decided a hs hds, memAt_succ_decided a (h.keep _ s hs hds) hds, hrec]
    · have ht' : ¬ Touches S log' (v + 1) (S.stripe a) := fun hc => ht (h.touches hv hc)
      rw [memAt_succ_of_not_touches a ht, memAt_succ_of_not_touches a ht', hrec]

end TinyStm.Timeline
