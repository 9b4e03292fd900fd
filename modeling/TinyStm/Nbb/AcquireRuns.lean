import TinyStm.Nbb.Acquire

/-!
# Runs of the node allocator

Every step of a careful run keeps the invariant; what follows when all nodes are in use; two runs
that are not careful.
-/

namespace TinyStm.Nbb

open Interleave

variable {ι : Type*} [DecidableEq ι] {length : ℕ} {c : Config ι AllocMem Holder} {i : ι}

/-! ### All steps -/

theorem lt_two_pow_63 (hpos : 1 ≤ length) (hinit : length ≤ lengthPow2 length) : length < 2 ^ 63 := by
  by_contra hge
  have hlog : 63 ≤ Nat.log 2 length := (Nat.le_log_iff_pow_le (by decide) (by omega)).mpr (by omega)
  have hexp : 64 - builtinClzl length = 64 := by
    unfold builtinClzl
    omega
  rw [lengthPow2, hexp, Nat.mod_self] at hinit
  omega

theorem one_chunk_iff (hpos : 1 ≤ length) (hinit : length ≤ lengthPow2 length) :
    lengthPow2 length < 64 ↔ length < 32 := by
  have h63 := lt_two_pow_63 hpos hinit
  rw [lengthPow2_eq h63, show 64 = 2 ^ 6 by decide, Nat.pow_lt_pow_iff_right (by decide),
    Nat.lt_iff_add_one_le (n := 32)]
  constructor
  · intro h
    have hlt := (Nat.log_lt_iff_lt_pow (b := 2) (x := 5) (y := length) (by decide) (by omega)).mp (by omega)
    omega
  · intro h
    have hlt := (Nat.log_lt_iff_lt_pow (b := 2) (x := 5) (y := length) (by decide) (by omega)).mpr (by omega)
    omega

/-- The bit that a look at the bitmap picks is that of a node. -/
theorem picked_lt (hpos : 1 ≤ length) (hinit : length ≤ lengthPow2 length) {m : ℕ → BitVec 64} {b : ℕ}
    (hb : b < busymapLength length) (hcare : 32 ≤ length ∨ ¬ Full length m)
    (hones : m b ≠ BitVec.allOnes 64) : b * 64 + freePos (m b) < lengthPow2 length := by
  obtain ⟨hlt, -, hlow⟩ := freePos_spec hones
  rcases busymapLength_spec (lt_two_pow_63 hpos hinit) with hall | ⟨hshort, hone⟩
  · omega
  · have h32 := (one_chunk_iff hpos hinit).mp hshort
    have hb0 : b = 0 := by omega
    subst hb0
    obtain hlong | hfree := hcare
    · omega
    · simp only [Full, not_forall] at hfree
      obtain ⟨id, h1, h2, hid⟩ := hfree
      have hbusy := busy_at m 0 (show id < 64 by omega)
      rw [Nat.zero_mul, Nat.zero_add] at hbusy ⊢
      rw [hbusy] at hid
      by_contra hge
      exact hid (hlow id (by omega))

theorem AllocInv.go (hpos : 1 ≤ length) (hinit : length ≤ lengthPow2 length) {g : AllocMem} {x : Holder}
    (h : AllocInv length c) (hcare : Careful length c i .go)
    (hs : (c.loc i).go length c.shared = some (g, x)) :
    AllocInv length ⟨g, Function.update c.loc i x⟩ := by
  cases hloc : c.loc i with
  | idle | failed | holding | released =>
    rw [hloc] at hs
    cases hs
  | load p b =>
    rw [hloc] at hs
    simp only [Careful, hloc] at hcare
    simp only [Holder.go] at hs
    split at hs
    · next hb =>
      split at hs
      · cases hs
        exact h.of_away rfl rfl rfl
      · next hpick =>
        cases hs
        rw [not_or, not_and] at hpick
        refine h.of_quiet rfl rfl (fun _ hn => (nomatch hn)) (fun _ _ hn => (nomatch hn))
          (fun p' b' old hx => ?_) (fun _ _ _ _ hx => (nomatch hx)) fun _ _ hx => (nomatch hx)
        cases hx
        refine ⟨hpick.1, ?_, picked_lt hpos hinit hb hcare hpick.1⟩
        rcases Nat.eq_zero_or_pos b with h0 | h1
        · have := hpick.2 h0
          omega
        · omega
    · cases hs
      exact h.of_away rfl rfl rfl
  | swap p b oldchunk =>
    rw [hloc] at hs
    simp only [Holder.go] at hs
    split at hs
    · next hcas =>
      cases hs
      exact h.take hloc hcas
    · cases hs
      exact h.of_away rfl rfl rfl
  | store p id =>
    rw [hloc] at hs
    simp only [Careful, hloc] at hcare
    cases hs
    exact h.put hloc hcare
  | count p id =>
    rw [hloc] at hs
    cases hs
    exact h.of_settled rfl rfl rfl (by rw [hloc]; rfl) (by rw [hloc]; rfl)
  | relLoad p id =>
    rw [hloc] at hs
    simp only [Holder.go] at hs
    split at hs
    · cases hs
      exact h.of_settled rfl rfl rfl (by rw [hloc]; rfl) (by rw [hloc]; rfl)
    · cases hs
      exact h.of_away rfl rfl rfl
  | relRead p id oldchunk =>
    have hstored := (h.ok i).stored p id (by rw [hloc]; rfl)
    rw [hloc] at hs
    cases hs
    refine h.of_quiet rfl rfl (fun id' hn => ?_) (fun p' id' hn => ?_)
      (fun _ _ _ hx => (nomatch hx)) (fun p' id' old seen hx => ?_) fun _ _ hx => (nomatch hx)
    · rwa [hloc]
    · rwa [hloc]
    · cases hx
      exact hstored
  | relSwap p id oldchunk seen =>
    rw [hloc] at hs
    simp only [Holder.go] at hs
    split at hs
    · next hcas =>
      cases hs
      exact h.free hloc hcas
    · cases hs
      exact h.of_settled rfl rfl rfl (by rw [hloc]; rfl) (by rw [hloc]; rfl)
  | relClear id seen =>
    rw [hloc] at hs
    simp only [Holder.go] at hs
    split at hs
    · next hcas =>
      cases hs
      exact h.clear hloc hcas
    · cases hs
      exact h.of_away rfl rfl rfl
  | relCount seen =>
    rw [hloc] at hs
    cases hs
    exact h.of_away rfl rfl rfl

/-- A call that starts takes nothing and keeps the node it is about. -/
theorem AllocInv.call {a : HolderAct} {x : Holder} (h : AllocInv length c)
    (hs : (c.loc i).call length a = some x) :
    AllocInv length ⟨c.shared, Function.update c.loc i x⟩ := by
  unfold Holder.call at hs
  split at hs
  · cases hs
    exact h.of_away rfl rfl rfl
  · cases hs
    exact h.of_away rfl rfl rfl
  · cases hs
    exact h.of_away rfl rfl rfl
  · next p id hloc =>
    split at hs
    · cases hs
      exact h.of_settled rfl rfl rfl (by rw [hloc]; rfl) (by rw [hloc]; rfl)
    · cases hs
  · cases hs

theorem AllocInv.run (hpos : 1 ≤ length) (hinit : length ≤ lengthPow2 length) {d}
    (hrun : Run (allocSystem length ι) (Careful length) (allocInit ι) d) : AllocInv length d := by
  refine hrun.invariant (fun c i a d h hcare hm => ?_) allocInit_inv
  obtain ⟨g, x, hs, rfl⟩ := move_eq_some hm
  cases a with
  | go => exact h.go hpos hinit hcare hs
  | acquire p =>
    simp only [allocSystem, Option.map_eq_some_iff] at hs
    obtain ⟨y, hy, he⟩ := hs
    cases he
    exact h.call hy
  | release =>
    simp only [allocSystem, Option.map_eq_some_iff] at hs
    obtain ⟨y, hy, he⟩ := hs
    cases he
    exact h.call hy

/-! ### All nodes in use -/

omit [DecidableEq ι] in
/-- While all nodes are in use no step of `mem_node_acquire` takes one. -/
theorem AllocInv.go_full (h : AllocInv length c) (hfull : Full length c.shared.busymap)
    (hacq : (c.loc i).acquiring = true) {g : AllocMem} {x : Holder}
    (hs : (c.loc i).go length c.shared = some (g, x)) :
    g = c.shared ∧ (x.acquiring = true ∨ x = .failed) := by
  cases hloc : c.loc i with
  | load p b =>
    rw [hloc] at hs
    simp only [Holder.go] at hs
    split at hs
    · split at hs
      · cases hs
        exact ⟨rfl, .inl rfl⟩
      · cases hs
        exact ⟨rfl, .inl rfl⟩
    · cases hs
      exact ⟨rfl, .inr rfl⟩
  | swap p b oldchunk =>
    obtain ⟨hones, hlow, hhigh⟩ := (h.ok i).swap p b oldchunk hloc
    obtain ⟨hpos, hfree, -⟩ := freePos_spec hones
    have hbusy := hfull _ hlow hhigh
    rw [busy_at _ _ hpos] at hbusy
    rw [hloc] at hs
    simp only [Holder.go] at hs
    split at hs
    · next hcas =>
      rw [hcas, hfree] at hbusy
      cases hbusy
    · cases hs
      exact ⟨rfl, .inl rfl⟩
  | _ =>
    rw [hloc] at hacq
    cases hacq

theorem chunk_full (hpos : 1 ≤ length) (hinit : length ≤ lengthPow2 length) (hlong : 32 ≤ length)
    {m : ℕ → BitVec 64} (hres : busy m 0 = true) (hfull : Full length m) {b : ℕ}
    (hb : b < busymapLength length) : m b = BitVec.allOnes 64 := by
  have hnodes : 64 * busymapLength length = lengthPow2 length := by
    rcases busymapLength_spec (lt_two_pow_63 hpos hinit) with hall | ⟨hshort, -⟩
    · exact hall
    · have h32 := (one_chunk_iff hpos hinit).mp hshort
      omega
  apply BitVec.eq_of_getLsbD_eq
  intro j hj
  rw [BitVec.getLsbD_allOnes, decide_eq_true hj, ← busy_at _ _ hj]
  rcases Nat.eq_zero_or_pos (b * 64 + j) with h0 | h1
  · rw [h0]
    exact hres
  · exact hfull _ h1 (by omega)

omit [DecidableEq ι] in
/-- Alone, a scan of a full bitmap comes to its end. -/
theorem solo_load {g : AllocMem} (hones : ∀ b, b < busymapLength length → g.busymap b = BitVec.allOnes 64)
    (i : ι) (p : BitVec 64) (n : ℕ) : ∀ b, busymapLength length ≤ b + n →
      ∃ k, (allocSystem length ι).solo i (List.replicate k .go) g (.load p b) = some (g, .failed) := by
  have hend : ∀ b, busymapLength length ≤ b →
      (allocSystem length ι).solo i (List.replicate 1 .go) g (.load p b) = some (g, .failed) := by
    intro b hb
    have hgo : Holder.go length g (.load p b) = some (g, .failed) := by
      rw [Holder.go, if_neg (by omega)]
    change (Holder.go length g (.load p b)).bind _ = _
    rw [hgo]
    rfl
  induction n with
  | zero => exact fun b hb => ⟨1, hend b (by omega)⟩
  | succ n ih =>
    intro b hb
    rcases Nat.lt_or_ge b (busymapLength length) with hlt | hge
    · obtain ⟨k, hk⟩ := ih (b + 1) (by omega)
      have hgo : Holder.go length g (.load p b) = some (g, .load p (b + 1)) := by
        rw [Holder.go, if_pos hlt]
        exact if_pos (.inl (hones b hlt))
      refine ⟨k + 1, ?_⟩
      change (Holder.go length g (.load p b)).bind _ = _
      rw [hgo]
      exact hk
    · exact ⟨1, hend b hge⟩

omit [DecidableEq ι] in
theorem AllocInv.solo_full (h : AllocInv length c) (hpos : 1 ≤ length)
    (hinit : length ≤ lengthPow2 length) (hlong : 32 ≤ length) (hfull : Full length c.shared.busymap)
    (hacq : (c.loc i).acquiring = true) :
    ∃ k, (allocSystem length ι).solo i (List.replicate k .go) c.shared (c.loc i) =
      some (c.shared, .failed) := by
  have hones := fun b => chunk_full hpos hinit hlong h.reserved hfull (b := b)
  cases hloc : c.loc i with
  | load p b => exact solo_load hones i p _ b (Nat.le_add_left ..)
  | swap p b oldchunk =>
    obtain ⟨k, hk⟩ := solo_load hones i p _ 0 (Nat.le_add_left ..)
    have hne : ¬ c.shared.busymap b = oldchunk := by
      intro hcas
      obtain ⟨hold, hlow, hhigh⟩ := (h.ok i).swap p b oldchunk hloc
      obtain ⟨hbit, hfree, -⟩ := freePos_spec hold
      have hbusy := hfull _ hlow hhigh
      rw [busy_at _ _ hbit, hcas, hfree] at hbusy
      cases hbusy
    have hgo : Holder.go length c.shared (.swap p b oldchunk) = some (c.shared, .load p 0) := by
      rw [Holder.go, if_neg hne]
    refine ⟨k + 1, ?_⟩
    change (Holder.go length c.shared (.swap p b oldchunk)).bind _ = _
    rw [hgo]
    exact hk
  | _ =>
    rw [hloc] at hacq
    cases hacq

/-- In every run of careful steps the ids that are handed out are those of nodes, no two holders
have the same, every holder finds its own pointer in its node, and with all nodes in use
`mem_node_acquire` returns NULL. -/
theorem alloc_safe (hpos : 1 ≤ length) (hinit : length ≤ lengthPow2 length) {d}
    (hrun : Run (allocSystem length ι) (Careful length) (allocInit ι) d) :
    AllocSafe length d ∧
      (Full length d.shared.busymap → ∀ i, (d.loc i).acquiring = true →
        (∀ e, (allocSystem length ι).move d i .go = some e →
          e.shared = d.shared ∧ ((e.loc i).acquiring = true ∨ e.loc i = .failed)) ∧
        (32 ≤ length → ∃ k, (allocSystem length ι).solo i (List.replicate k .go) d.shared (d.loc i) =
          some (d.shared, .failed))) := by
  have h := AllocInv.run hpos hinit hrun
  refine ⟨h.safe, fun hfull i hacq => ⟨fun e hm => ?_, fun hlong => ?_⟩⟩
  · obtain ⟨g, x, hs, rfl⟩ := move_eq_some hm
    dsimp only
    rw [Function.update_self]
    exact h.go_full hfull hacq hs
  · exact h.solo_full hpos hinit hlong hfull hacq

instance (m : ℕ → BitVec 64) : Decidable (Full length m) :=
  decidable_of_iff (∀ id < lengthPow2 length, 1 ≤ id → busy m id = true)
    ⟨fun h id h₁ h₂ => h id h₂ h₁, fun h id h₂ h₁ => h id h₁ h₂⟩

/-- Where a release has still to compare with the pointer `p`. -/
instance [Fintype ι] (c : Config ι AllocMem Holder) (id : ℕ) (p : BitVec 64) :
    Decidable (∀ j seen, c.loc j = .relClear id seen → seen = p → p = 0) :=
  decidable_of_iff (p = 0 ∨ ∀ j, c.loc j ≠ .relClear id p)
    ⟨fun h j _ hj hp => h.resolve_right fun hne => hne j (hp ▸ hj),
      fun h => or_iff_not_imp_left.mpr fun hp j hj => hp (h j p hj rfl)⟩

instance [Fintype ι] (c : Config ι AllocMem Holder) (i : ι) (a : HolderAct) :
    Decidable (Careful length c i a) := by
  unfold Careful
  split
  · split <;> infer_instance
  · infer_instance

/-- Two processes with one pointer; the first gives its node back and takes it again with
another one. -/
theorem alloc_safe_again : ∃ d : Config Bool AllocMem Holder,
    d.loc false = .holding 6 1 ∧ d.loc true = .holding 5 2 ∧ AllocSafe 32 d := by
  obtain ⟨d, hrun, hfst, hsnd⟩ := exists_run_of_exec (allocSystem 32 Bool) (Careful 32)
    (allocInit Bool)
    ([(false, .acquire 5), (true, .acquire 5), (false, .go), (true, .go), (false, .go)] ++
      -- the second process finds the first node taken, and looks again
      List.replicate 5 (true, .go) ++ List.replicate 2 (false, .go) ++
      (false, .release) :: List.replicate 5 (false, .go) ++
      (false, .acquire 6) :: List.replicate 4 (false, .go))
    (fun d => d.loc false = .holding 6 1 ∧ d.loc true = .holding 5 2) (by decide +kernel)
  exact ⟨d, hfst, hsnd, (alloc_safe (by decide) (by decide) hrun).1⟩

/-- The second node of an allocator made for one node is outside its array. A release that clears
the payload late takes an equal pointer from the node's next holder. -/
theorem alloc_unsafe :
    (¬ ∀ d, Run (allocSystem 1 Bool) (fun _ _ _ => True) (allocInit Bool) d → AllocSafe 1 d) ∧
    ¬ ∀ d, Run (allocSystem 32 Bool) (fun _ _ _ => True) (allocInit Bool) d → AllocSafe 32 d := by
  constructor
  · intro h
    obtain ⟨d, hrun, hd⟩ := exists_run_of_exec (allocSystem 1 Bool) (fun _ _ _ => True) (allocInit Bool)
      [(false, .acquire 5), (false, .go), (false, .go), (true, .acquire 6), (true, .go), (true, .go)]
      (fun d => d.loc true = .store 6 2) (by decide +kernel)
    have hrange := (h d hrun).range true 2 (by rw [hd]; rfl)
    exact absurd hrange.2 (by decide)
  · intro h
    obtain ⟨d, hrun, hd⟩ := exists_run_of_exec (allocSystem 32 Bool) (fun _ _ _ => True) (allocInit Bool)
      [(false, .acquire 5), (false, .go), (false, .go), (false, .go), (false, .go), (false, .release),
        (false, .go), (false, .go), (false, .go), (true, .acquire 5), (true, .go), (true, .go),
        (true, .go), (false, .go), (true, .go)]
      (fun d => d.loc true = .holding 5 1 ∧ d.shared.payload 1 = 0) (by decide +kernel)
    have hpay := (h d hrun).payload true 5 1 (by rw [hd.1]; rfl)
    rw [hd.2] at hpay
    exact absurd hpay (by decide)

end TinyStm.Nbb
