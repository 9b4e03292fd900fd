import TinyStm.Steps.WriteBack

/-!
# Steps of one thread: rollback

The loops of `stm_rollback`: the write-back designs release their locks with the
versions they had, the write-through design first restores the words, last store
first, and then releases with the next incarnation number, or with a fresh
timestamp when the incarnation numbers are exhausted.
-/

namespace TinyStm

open Timeline

variable {w : ℕ} {b : Build} {P : Mode} {tid : ℕ} {g g' : Shared w} {x : Tx w} {e : WEntry w}
  {r : Reason} {i j t : ℕ}

/-! ### End of a rollback -/

/-- The stores that stand for exhausted incarnation numbers write nothing. -/
theorem overlay_bumped (ws : List (WEntry w)) (n a : ℕ) (y : BitVec w) :
    overlay (bumped ws n) a y = y := by
  refine overlay_eq_self (fun s hs _ => ?_) y
  simp only [bumped, List.mem_map] at hs
  obtain ⟨e, -, rfl⟩ := hs
  rfl

theorem touch_bumped {ws : List (WEntry w)} {n k : ℕ} :
    (b.sem w).touch (bumped ws n) k ↔ ∃ (j : ℕ) (e : WEntry w), ws[j]? = some e ∧ j < n ∧
      e.noDrop = false ∧ Build.incarnationMax < e.version.inc + 1 ∧ b.getLock w e.addr = k := by
  show (∃ s ∈ bumped ws n, b.getLock w s.addr = k) ↔ _
  simp only [bumped, List.mem_map, List.mem_filter, Bool.and_eq_true, Bool.not_eq_true',
    decide_eq_true_eq]
  constructor
  · rintro ⟨s, ⟨e, ⟨hm, hd, hi⟩, rfl⟩, hk⟩
    obtain ⟨j, hj⟩ := List.mem_iff_getElem?.mp hm
    rw [List.getElem?_take] at hj
    split at hj
    · next hjn => exact ⟨j, e, hj, hjn, hd, hi, hk⟩
    · cases hj
  · rintro ⟨j, e, hj, hjn, hd, hi, hk⟩
    refine ⟨_, ⟨e, ⟨List.mem_iff_getElem?.mpr ⟨j, ?_⟩, hd, hi⟩, rfl⟩, hk⟩
    rw [List.getElem?_take, if_pos hjn]
    exact hj

/-- No lock is left: the attempt is recorded and the thread prepares again. -/
theorem TInv.finishAbort (hS : SInv b P g) (h : TInv b P tid g x) (hb : x.began < g.time)
    (hp : x.pc = .rb r i t) (hnone : ∀ k, ¬ Held b (.undo i t) x.wset k) {res : Shared w × Tx w}
    (hr : finishAbort tid r g x = some res) : StepOk b P tid g res := by
  have hph : x.pc.phase = .undo i t := by rw [hp]; rfl
  have hne : x.pc.phase ≠ .out := by rw [hph]; simp
  have hcur : x.pc.cur = if t = 0 then none else some t := by rw [hp]; rfl
  have hundo : UndoOk b tid g x i i t := by
    have := h.pc
    rw [hp] at this
    exact this
  have hatt := h.att hne
  simp only [TinyStm.finishAbort, Option.some.injEq] at hr
  subst hr
  have hfree : ∀ k, ¬ (g.lock k).HeldBy tid := by
    intro k hk
    have := h.held_of_heldBy (fun k => not_unitHeld_of_phase hne k) hk
    rw [hph] at this
    exact hnone k this
  have hno : ∀ t', (attempt tid g x (.aborted r)).wrote ≠ some t' := by
    intro t' ht'
    simp [attempt, Attempt.wrote] at ht'
  have hA : HistOk b P g (attempt tid g x (.aborted r)) :=
    hatt.histOk hb (fun t' ht' => absurd ht' (hno t')) fun ho => by cases ho
  refine ⟨hS.record hA rfl (fun _ _ t' ht' => absurd ht' (hno t'))
    (hatt.ordered fun t' ht' => absurd ht' (hno t')), ?_,
    fun u hu => interf_record rfl (Ne.symm hu)⟩
  refine TInv.outside hfree (fun {n s k} hs ho ht => ?_) (fun {n ss} hs => ?_) le_rfl rfl
    (by simp [UnitHeld]) trivial
  · by_cases hn : x.pc.cur = some n
    · rw [hcur] at hn
      split at hn
      · cases hn
      · next ht0 =>
        cases hn
        obtain ⟨-, m, hlog, -, hdone, -⟩ := hundo.bump ht0
        have hs' : g.log t = some s := hs
        rw [hlog] at hs'
        cases hs'
        exact (hdone k ht).resolve_left (hnone k)
    · exact h.settled hs ho hn ht
  · rcases h.fate hs with hover | hc
    · exact hover.mono fun _ hA' => List.mem_append_left _ hA'
    · right
      rw [hcur] at hc
      split at hc
      · cases hc
      · next ht0 =>
        cases hc
        obtain ⟨-, m, hlog, -⟩ := hundo.bump ht0
        have hs' : g.log t = some ⟨tid, ss, true⟩ := hs
        rw [hlog] at hs'
        cases hs'
        exact ⟨by_contra fun hd => ht0 (hundo.noBump hd), overlay_bumped _ _⟩

/-! ### The write-back designs -/

/-- Releasing a lock with the version it had, when its stripe was not written. -/
theorem TInv.restore (hS : SInv b P g) (h : TInv b P tid g x) {k n : ℕ}
    (hd : b.design ≠ .writeThrough) (hown : (g.lock k).own = some (.entry tid n))
    (hcur : x.pc.cur = none) :
    SInv b P (g.setLock k ⟨(g.lock k).ver, none⟩) ∧
      Evol b g (g.setLock k ⟨(g.lock k).ver, none⟩) ∧
      ∀ u, u ≠ tid → Interf b u g (g.setLock k ⟨(g.lock k).ver, none⟩) := by
  have hby : (g.lock k).HeldBy tid := .inl ⟨n, hown⟩
  have hclean : ¬ Dirty b g k := by
    simp only [Dirty, hown, hd, false_or]
    rintro ⟨m, s, hm, hs, -, ht⟩
    have := h.cur_of_touches hS hby hm ⟨s, hs, ht⟩
    rw [hcur] at this
    cases this
  have hE : Evol b g (g.setLock k ⟨(g.lock k).ver, none⟩) :=
    evol_setLock (.refl _) fun _ hdi => absurd hdi hclean
  refine ⟨hS.release (.refl _) (fun _ => hclean) (fun m s hs ht => ?_) (hS.wrote k) ?_, hE,
    fun u hu => interf_release (.refl _) (fun _ => hclean) fun hu' => hu (hu'.unique hby)⟩
  · exact h.settled_held hS hby hs ht (by rw [hcur]; simp)
  · rintro a rfl
    exact hS.clean a hclean

theorem TInv.rbStep_etl (hS : SInv b P g) (h : TInv b P tid g x) (hb : x.began < g.time)
    (hd : b.design = .writeBackEtl) (hp : x.pc = .rb r i t) {res : Shared w × Tx w}
    (hr : rbStep b tid r i t g x = some res) : StepOk b P tid g res := by
  have hph : x.pc.phase = .undo i t := by rw [hp]; rfl
  have hne : x.pc.phase ≠ .out := by rw [hph]; simp
  have hs : x.pc.storing = false := by rw [hp]; rfl
  have hundo : UndoOk b tid g x i i t := by
    have := h.pc
    rw [hp] at this
    exact this
  have ht0 : t = 0 := hundo.noBump (by simp [hd])
  subst ht0
  have hcur : x.pc.cur = none := by rw [hp]; rfl
  have hatt : Att b P tid g (.undo i 0) x := hph ▸ h.att hne
  have hR : ∀ j, j < x.wset.length → (Remains b x.wset.length j (.undo (i + 1) 0) ↔
      Remains b x.wset.length j (.undo i 0) ∧ j ≠ i) := by
    intro j _
    simp only [Remains, hd, if_true]
    omega
  have hundo' : ∀ g' : Shared w, UndoOk b tid g' { x with pc := .rb r (i + 1) 0 } (i + 1) (i + 1) 0 :=
    fun g' => ⟨fun hd' => by simp [hd] at hd', fun hd' => absurd hd hd',
      fun hd' => by simp [hd] at hd', fun _ => rfl, fun h0 => absurd rfl h0⟩
  simp only [TinyStm.rbStep, hd] at hr
  split at hr
  · next hi =>
    refine h.finishAbort hS hb hp ?_ hr
    rintro k ⟨j, f, hf, -, hrem, -⟩
    have := getElem?_lt hf
    have := List.getElem?_eq_none_iff.mp hi
    simp only [Remains, hd, if_true] at hrem
    omega
  · next e he =>
    have hheldStep := hatt.held_step he hR
    -- entries left after this one: their lock is held by one of them
    have htaken : LocksTaken b (.undo (i + 1) 0) → ∀ {j : ℕ} {f : WEntry w}, x.wset[j]? = some f →
        Remains b x.wset.length j (.undo (i + 1) 0) →
        Held b (.undo (i + 1) 0) x.wset (b.getLock w f.addr) := by
      intro hl j f hf hrem
      obtain ⟨hrem', hji⟩ := (hR j (getElem?_lt hf)).mp hrem
      refine (hheldStep _).mpr ⟨hatt.taken hl hf hrem', fun hde hk => ?_⟩
      have hord := hatt.dropOrder he hde hf hk
      simp only [Remains, hd, if_true] at hrem'
      rw [if_neg (by simp [hd])] at hord
      omega
    split at hr
    · next hdrop =>
      simp only [Option.some.injEq] at hr
      subst hr
      have hheld : Held b (.undo i 0) x.wset (b.getLock w e.addr) :=
        ⟨i, e, he, hdrop, by simp [Remains, hd], rfl⟩
      have hver : (g.lock (b.getLock w e.addr)).ver = e.version :=
        hatt.dropVer he hdrop (by simp [Remains, hd])
      obtain ⟨n, hown⟩ := (h.own _).mpr (hph ▸ hheld)
      obtain ⟨hS', hE, hI⟩ := h.restore hS (by simp [hd]) hown hcur
      rw [hver] at hS' hE hI
      refine ⟨hS', h.releases hS hne hs (.rb r (i + 1) 0) x.nbAcquired (by simp [Pc.phase])
        (by simp [Pc.phase]) hcur.symm hE (fun k' => ?_) (fun j hj hrem => ?_) htaken
        (hundo' _), hI⟩
      · show Held b (.undo (i + 1) 0) x.wset k' ↔ _
        rw [hheldStep k', hph]
        simp [hdrop]
      · rw [hph]
        exact ((hR j hj).mp hrem).1
    · next hdrop =>
      simp only [Option.some.injEq] at hr
      subst hr
      refine .stay hS (h.skips hS hne hs (.rb r (i + 1) 0) x.nbAcquired (by simp [Pc.phase])
        (by simp [Pc.phase]) hcur.symm (fun k' => ?_) (fun j hj hrem => ?_) htaken (hundo' _))
      · show Held b (.undo (i + 1) 0) x.wset k' ↔ _
        rw [hheldStep k', hph]
        simp [hdrop]
      · rw [hph]
        exact ((hR j hj).mp hrem).1

/-- Backwards loops: what remains below `j + 1` is `j` and what remains below `j`. -/
theorem remains_undo_pred (hd : b.design ≠ .writeBackEtl) (n j' : ℕ) (t : ℕ) :
    Remains b n j' (.undo j t) ↔ Remains b n j' (.undo (j + 1) t) ∧ j' ≠ j := by
  simp only [Remains, if_neg hd]
  omega

theorem countP_take_succ {ws : List (WEntry w)} {p : WEntry w → Bool} (he : ws[j]? = some e) :
    (ws.take (j + 1)).countP p = (ws.take j).countP p + if p e then 1 else 0 := by
  rw [List.take_add_one, he, List.countP_append]
  simp [List.countP_cons]

theorem TInv.rbStep_ctl (hS : SInv b P g) (h : TInv b P tid g x) (hb : x.began < g.time)
    (hd : b.design = .writeBackCtl) (hp : x.pc = .rb r i t) {res : Shared w × Tx w}
    (hr : rbStep b tid r i t g x = some res) : StepOk b P tid g res := by
  have hph : x.pc.phase = .undo i t := by rw [hp]; rfl
  have hne : x.pc.phase ≠ .out := by rw [hph]; simp
  have hs : x.pc.storing = false := by rw [hp]; rfl
  have hundo : UndoOk b tid g x i i t := by
    have := h.pc
    rw [hp] at this
    exact this
  have ht0 : t = 0 := hundo.noBump (by simp [hd])
  subst ht0
  have hcur : x.pc.cur = none := by rw [hp]; rfl
  have hatt : Att b P tid g (.undo i 0) x := hph ▸ h.att hne
  have hcount := hundo.count hd
  have hde : b.design ≠ .writeBackEtl := by simp [hd]
  simp only [TinyStm.rbStep, hd] at hr
  split at hr
  · next h0 =>
    refine h.finishAbort hS hb hp ?_ hr
    rintro k ⟨j, f, hf, hdf, hrem, -⟩
    simp only [Remains, if_neg hde] at hrem
    rw [h0] at hcount
    have hzero := List.countP_eq_zero.mp hcount.symm f
      (List.mem_iff_getElem?.mpr ⟨j, by rw [List.getElem?_take, if_pos hrem]; exact hf⟩)
    exact hzero hdf
  · split at hr
    · cases hr
    · next j =>
      simp only [Option.map_eq_some_iff] at hr
      obtain ⟨e, he, hr⟩ := hr
      have hR : ∀ j', j' < x.wset.length → (Remains b x.wset.length j' (.undo j 0) ↔
          Remains b x.wset.length j' (.undo (j + 1) 0) ∧ j' ≠ j) :=
        fun j' _ => remains_undo_pred hde _ _ _
      have hheldStep := hatt.held_step he hR
      have hRr : ∀ j', j' < x.wset.length → Remains b x.wset.length j' (.undo j 0) →
          Remains b x.wset.length j' x.pc.phase := fun j' hj' hrem => by
        rw [hph]
        exact ((hR j' hj').mp hrem).1
      have hbound : j + 1 ≤ x.wset.length := hundo.bound hde
      rw [countP_take_succ he] at hcount
      split at hr
      · next hdrop =>
        subst hr
        have hheld : Held b (.undo (j + 1) 0) x.wset (b.getLock w e.addr) :=
          ⟨j, e, he, hdrop, by simp [Remains, hd], rfl⟩
        have hver : (g.lock (b.getLock w e.addr)).ver = e.version :=
          hatt.dropVer he hdrop (by simp [Remains, hd])
        obtain ⟨n, hown⟩ := (h.own _).mpr (hph ▸ hheld)
        obtain ⟨hS', hE, hI⟩ := h.restore hS (by simp [hd]) hown hcur
        rw [hver] at hS' hE hI
        refine ⟨hS', h.releases hS hne hs (.rb r j 0) (x.nbAcquired - 1) (by simp [Pc.phase])
          (by simp [Pc.phase]) hcur.symm hE (fun k' => ?_) hRr (fun hl => absurd hd hl)
          ⟨fun _ => ?_, fun _ => Nat.le_of_succ_le hbound, fun hd' => ?_, fun _ => rfl, fun h0 => absurd rfl h0⟩, hI⟩
        · show Held b (.undo j 0) x.wset k' ↔ _
          rw [hheldStep k', hph]
          simp [hdrop]
        · rw [hdrop] at hcount
          show x.nbAcquired - 1 = (x.wset.take j).countP b.drops
          simp only [if_true] at hcount
          omega
        · rw [hd] at hd'
          cases hd'
      · next hdrop =>
        subst hr
        refine .stay hS (h.skips hS hne hs (.rb r j 0) x.nbAcquired (by simp [Pc.phase])
          (by simp [Pc.phase]) hcur.symm (fun k' => ?_) hRr (fun hl => absurd hd hl)
          ⟨fun _ => ?_, fun _ => Nat.le_of_succ_le hbound, fun hd' => ?_, fun _ => rfl, fun h0 => absurd rfl h0⟩)
        · show Held b (.undo j 0) x.wset k' ↔ _
          rw [hheldStep k', hph]
          simp [hdrop]
        · simp only [hdrop, Bool.false_eq_true, if_false, Nat.add_zero] at hcount
          exact hcount
        · rw [hd] at hd'
          cases hd'

/-! ### The write-through design -/

section WriteThrough

variable (hS : SInv b P g) (h : TInv b P tid g x) (hd : b.design = .writeThrough)
include hS h hd

theorem TInv.rbStep_wt (hb : x.began < g.time) (hp : x.pc = .rb r i t) {res : Shared w × Tx w}
    (hr : rbStep b tid r i t g x = some res) : StepOk b P tid g res := by
  have hph : x.pc.phase = .undo i t := by rw [hp]; rfl
  have hne : x.pc.phase ≠ .out := by rw [hph]; simp
  have hs : x.pc.storing = false := by rw [hp]; rfl
  have hundo : UndoOk b tid g x i i t := by
    have := h.pc
    rw [hp] at this
    exact this
  have hatt : Att b P tid g (.undo i t) x := hph ▸ h.att hne
  have hcurEq : ∀ j, (Pc.rbDrop r j t : Pc w).cur = x.pc.cur := fun j => by rw [hp]; rfl
  simp only [TinyStm.rbStep, hd] at hr
  split at hr
  · refine h.finishAbort hS hb hp ?_ hr
    rintro k ⟨j, f, hf, -, hrem, -⟩
    simp [Remains, hd] at hrem
  · next j =>
    simp only [Option.map_eq_some_iff] at hr
    obtain ⟨e, he, hr⟩ := hr
    -- the entry belongs to store `j`, and its lock is still held
    have hlen := (h.whole hne hs).len hd
    have hjlt : j < x.stores.length := hlen ▸ getElem?_lt he
    obtain ⟨e', he', ha, hm, hv⟩ := (hatt.ws.wt hd).ent (List.getElem?_eq_getElem hjlt)
    rw [he] at he'
    cases he'
    have hheld : Held b (.undo (j + 1) t) x.wset (b.getLock w e.addr) :=
      hatt.taken (by simp [LocksTaken, hd]) he (by simp [Remains, hd])
    have htake : x.stores.take (j + 1) = x.stores.take j ++ [x.stores[j]] :=
      List.take_succ_eq_append_getElem hjlt
    have hmem := hundo.wtMem hd
    have hbumpOk : ∀ g' : Shared w, g'.clock = g.clock → g'.log = g.log → g'.lock = g.lock →
        (∀ a, Held b (.undo (j + 1) t) x.wset (b.getLock w a) → g'.mem a =
          overlay (x.stores.take j) a (g.at b (g.ver b (b.getLock w a)) a)) →
        g'.mem0 = g.mem0 →
        UndoOk b tid g' { x with pc := .rbDrop r (j + 1) t } (j + 1) j t := by
      intro g' hc hl hk hm' h0
      have hv' : ∀ k, g'.ver b k = g.ver b k := fun k => by simp only [Shared.ver, hk]
      refine ⟨fun hd' => by simp [hd] at hd', fun hd' => hundo.bound hd', fun _ a ha => ?_,
        fun hd' => absurd hd hd', fun ht => ?_⟩
      · rw [hm' a ha, hv']
        simp only [Shared.at, hl, h0]
      · obtain ⟨h₁, m, h₂, h₃, h₄, h₅⟩ := hundo.bump ht
        refine ⟨hc ▸ h₁, m, hl ▸ h₂, h₃, fun k hk' => ?_, fun hk' => ?_⟩
        · rw [hv']
          exact h₄ k hk'
        · rw [hv']
          exact h₅ hk'
    split at hr
    · next hm0 =>
      subst hr
      obtain ⟨n, hown⟩ := (h.own _).mpr (hph ▸ hheld)
      have hby : (g.lock (b.getLock w e.addr)).HeldBy tid := .inl ⟨n, hown⟩
      have hdirty : Dirty b g (b.getLock w e.addr) := by simp [Dirty, hown, hd]
      have hval : e.value = overlay (x.stores.take j) e.addr
          (g.at b (g.ver b (b.getLock w e.addr)) e.addr) := by
        have := hv (hm ▸ hm0) (ha ▸ hheld)
        rwa [← ha] at this
      refine ⟨hS.setMem _ hdirty, h.onward hS hne hs (.rbDrop r (j + 1) t) x.nbAcquired
        (by simp [Pc.phase]) (by simp [Pc.phase]) (hcurEq _)
        ⟨evol_setMem _ _ _, fun _ _ => rfl, fun _ _ h => h⟩ rfl rfl
        (fun k => by rw [show (g.setMem e.addr e.value).lock k = g.lock k from rfl, h.own, hph]; rfl)
        (fun k hk => not_unitHeld_of_phase hne k ((h.unit k).mp hk))
        (fun j' hj' hrem => by rw [hph]; exact hrem) (fun hl => hatt.taken hl)
        ⟨hd, hbumpOk _ rfl rfl rfl (fun a hk => ?_) rfl⟩, fun u hu => interf_setMem hby hu⟩
      show Function.update g.mem e.addr e.value a = _
      by_cases hae : a = e.addr
      · subst hae
        rw [Function.update_self]
        exact hval
      · rw [Function.update_of_ne hae, hmem a hk, htake, overlay_append]
        simp [overlay, ← ha, Ne.symm hae]
    · next hm0 =>
      subst hr
      refine .stay hS (h.skips hS hne hs (.rbDrop r (j + 1) t) x.nbAcquired (by simp [Pc.phase])
        (by simp [Pc.phase]) (hcurEq _) (fun k => by rw [hph]; rfl)
        (fun j' hj' hrem => by rw [hph]; exact hrem) (fun hl => hatt.taken hl)
        ⟨hd, hbumpOk g rfl rfl rfl (fun a hk => ?_) rfl⟩)
      rw [hmem a hk, htake, overlay_append]
      refine overlay_eq_self (fun s hs' _ => ?_) _
      rw [List.mem_singleton.mp hs', ← hm]
      exact not_not.mp hm0

omit hS in
/-- The first entry of a lock: no store before it is under that lock, so the undo
has restored the stripe. -/
theorem TInv.undone (hp : x.pc = .rbDrop r (j + 1) t) (he : x.wset[j]? = some e)
    (hdrop : b.drops e = true) (hundo : UndoOk b tid g x (j + 1) j t) {a : ℕ}
    (ha : b.getLock w a = b.getLock w e.addr) : g.mem a = g.at b (g.ver b (b.getLock w a)) a := by
  have hph : x.pc.phase = .undo (j + 1) t := by rw [hp]; rfl
  have hne : x.pc.phase ≠ .out := by rw [hph]; simp
  have hatt : Att b P tid g (.undo (j + 1) t) x := hph ▸ h.att hne
  have hheld : Held b (.undo (j + 1) t) x.wset (b.getLock w a) :=
    ⟨j, e, he, hdrop, by simp [Remains, hd], ha.symm⟩
  rw [hundo.wtMem hd a hheld]
  refine overlay_of_forall_ne (fun s hs hsa => ?_) _
  obtain ⟨n, hn⟩ := List.mem_iff_getElem?.mp hs
  rw [List.getElem?_take] at hn
  split at hn
  · next hnj =>
    obtain ⟨f, hf, hfa, -⟩ := (hatt.ws.wt hd).ent hn
    have hord := hatt.dropOrder he hdrop hf (by rw [hfa, hsa, ha])
    rw [if_pos hd] at hord
    omega
  · cases hn

theorem TInv.rbDropStep (hmb : b.mbRevalidation = false) (hp : x.pc = .rbDrop r i t)
    {res : Shared w × Tx w} (hr : rbDropStep b tid r i t g x = some res) :
    StepOk b P tid g res := by
  have hph : x.pc.phase = .undo i t := by rw [hp]; rfl
  have hne : x.pc.phase ≠ .out := by rw [hph]; simp
  have hs : x.pc.storing = false := by rw [hp]; rfl
  have hundo : UndoOk b tid g x i (i - 1) t := by
    have := h.pc
    rw [hp] at this
    exact this.2
  have hatt : Att b P tid g (.undo i t) x := hph ▸ h.att hne
  have hcur : x.pc.cur = if t = 0 then none else some t := by rw [hp]; rfl
  have hstamp : ∀ n, b.stamp n = n := fun n => by simp [Build.stamp, hmb]
  have hde : b.design ≠ .writeBackEtl := by simp [hd]
  unfold TinyStm.rbDropStep at hr
  split at hr
  · cases hr
  · next j =>
    simp only [Option.map_eq_some_iff] at hr
    obtain ⟨e, he, hr⟩ := hr
    have hbound : j + 1 ≤ x.wset.length := hundo.bound hde
    have hR : ∀ j', j' < x.wset.length → (Remains b x.wset.length j' (.undo j t) ↔
        Remains b x.wset.length j' (.undo (j + 1) t) ∧ j' ≠ j) :=
      fun j' _ => remains_undo_pred hde _ _ _
    have hheldStep := hatt.held_step he hR
    have hRr : ∀ j', j' < x.wset.length → Remains b x.wset.length j' (.undo j t) →
        Remains b x.wset.length j' x.pc.phase := fun j' hj' hrem => by
      rw [hph]
      exact ((hR j' hj').mp hrem).1
    have hdropEq : b.drops e = !e.noDrop := by simp [Build.drops, hd]
    have htaken : LocksTaken b (.undo j t) → ∀ {j' : ℕ} {f : WEntry w}, x.wset[j']? = some f →
        Remains b x.wset.length j' (.undo j t) →
        Held b (.undo j t) x.wset (b.getLock w f.addr) := by
      intro hl j' f hf hrem
      obtain ⟨hrem', hji⟩ := (hR j' (getElem?_lt hf)).mp hrem
      refine (hheldStep _).mpr ⟨hatt.taken hl hf hrem', fun hdrop hk => ?_⟩
      have hord := hatt.dropOrder he hdrop hf hk
      simp only [Remains, if_neg hde] at hrem
      rw [if_pos hd] at hord
      omega
    split at hr
    · next hnd =>
      subst hr
      have hsame : ∀ k', Held b (.undo j t) x.wset k' ↔ Held b (.undo (j + 1) t) x.wset k' := by
        intro k'
        rw [hheldStep k', hdropEq, hnd]
        simp
      refine .stay hS (h.skips hS hne hs (.rb r j t) x.nbAcquired (by simp [Pc.phase])
        (by simp [Pc.phase]) (by rw [hcur]; rfl) (fun k' => by rw [hph]; exact hsame k') hRr htaken
        ⟨fun hd' => by simp [hd] at hd', fun _ => Nat.le_of_succ_le hbound,
          fun _ a ha => hundo.wtMem hd a ((hsame _).mp ha), fun hd' => absurd hd hd', fun ht => ?_⟩)
      obtain ⟨h₁, m, h₂, h₃, h₄, h₅⟩ := hundo.bump ht
      exact ⟨h₁, m, h₂, by omega, fun k hk => (h₄ k hk).imp_left (hsame k).mpr,
        fun hk => h₅ ((hsame _).mp hk)⟩
    · next hnd =>
      have hdrop : b.drops e = true := by simp [hdropEq, hnd]
      set k := b.getLock w e.addr with hk
      have hheld : Held b (.undo (j + 1) t) x.wset k :=
        ⟨j, e, he, hdrop, by simp [Remains, hd], rfl⟩
      have hby : (g.lock k).HeldBy tid := h.heldBy_of_held (by rw [hph]; exact hheld)
      have hver : (g.lock k).ver = e.version := hatt.dropVer he hdrop (by simp [Remains, hd])
      have hvk : g.ver b k = e.version.ts := by rw [Shared.ver, hver, hstamp]
      have hsucc : ∀ k', Held b (.undo j t) x.wset k' ↔
          Held b (.undo (j + 1) t) x.wset k' ∧ k' ≠ k := by
        intro k'
        rw [hheldStep k']
        simp [hdrop]
      -- what is left after a release of `k` with version `v`
      have hrel : ∀ v : Ver, VerLt b (g.lock k).ver v →
          (∀ n s, g.log n = some s → (b.sem w).touch s.body k →
            n ≤ b.stamp v.ts ∧ s.decided = true) →
          Touches (b.sem w) g.log (b.stamp v.ts) k ∨ b.stamp v.ts = g.ver b k →
          (∀ a, b.getLock w a = k → g.mem a = g.at b (b.stamp v.ts) a) →
          (t ≠ 0 → (b.sem w).touch (bumped x.wset (j + 1)) k → t ≤ b.stamp v.ts) →
          StepOk b P tid g (g.setLock k ⟨v, none⟩, { x with pc := .rb r j t }) := by
        intro v hlt hmax hw hmem hdone
        have hle : VerLe b (g.lock k).ver v := hlt.imp id fun hv => ⟨hv.1, hv.2.le⟩
        have hnd : v = (g.lock k).ver → ¬ Dirty b g k := by
          rintro rfl
          exact absurd hlt fun hl => hl.irrefl
        have hE : Evol b g (g.setLock k ⟨v, none⟩) :=
          evol_setLock hle fun heq hdi => absurd hdi (hnd heq)
        have hver' : ∀ k', k' ≠ k → (g.setLock k ⟨v, none⟩).ver b k' = g.ver b k' := by
          intro k' hk'
          simp only [Shared.ver, setLock_of_ne g _ hk']
        have hwrote : b.stamp v.ts = 0 ∨ Touches (b.sem w) g.log (b.stamp v.ts) k := by
          rcases hw with hw | hw
          · exact .inr hw
          · rw [hw]
            exact hS.wrote k
        refine ⟨hS.release hle hnd hmax hwrote hmem,
          h.releases hS hne hs (.rb r j t) x.nbAcquired (by simp [Pc.phase]) (by simp [Pc.phase])
            (by rw [hcur]; rfl) hE (fun k' => by rw [hph]; exact hsucc k') hRr htaken ?_,
          fun u hu => interf_release hle hnd fun hu' => hu (hu'.unique hby)⟩
        refine ⟨fun hd' => by simp [hd] at hd', fun _ => Nat.le_of_succ_le hbound, fun _ a ha => ?_,
          fun hd' => absurd hd hd', fun ht => ?_⟩
        · obtain ⟨h₁, h₂⟩ := (hsucc _).mp ha
          rw [hver' _ h₂]
          exact hundo.wtMem hd a h₁
        · obtain ⟨h₁, m, h₂, h₃, h₄, h₅⟩ := hundo.bump ht
          refine ⟨h₁, m, h₂, by omega, fun k' hk' => ?_, fun {k'} hk' => ?_⟩
          · by_cases hkk : k' = k
            · right
              rw [hkk, Shared.ver, setLock_self]
              refine hdone ht ?_
              rw [hkk] at hk'
              obtain ⟨j', f, hf, -, hnd', hexh, hl⟩ := touch_bumped.mp hk'
              have hj' : j' = j := hatt.drop_unique he hdrop hf (by simp [Build.drops, hd, hnd']) hl
              exact touch_bumped.mpr ⟨j', f, hf, by omega, hnd', hexh, hl⟩
            · rw [hver' k' hkk]
              exact (h₄ k' hk').imp_left fun hh => (hsucc k').mpr ⟨hh, hkk⟩
          · obtain ⟨h₆, h₇⟩ := (hsucc k').mp hk'
            rw [hver' k' h₇]
            exact h₅ h₆
      have hundone : ∀ a, b.getLock w a = k → g.mem a = g.at b (g.ver b (b.getLock w a)) a :=
        fun a ha => h.undone hd hp he hdrop hundo ha
      split at hr
      · next hexh =>
        have htouch : (b.sem w).touch (bumped x.wset (j + 1)) k :=
          touch_bumped.mpr ⟨j, e, he, Nat.lt_succ_self j, by simpa using hnd, hexh, rfl⟩
        split at hr
        · next ht0 =>
          -- a fresh timestamp for all exhausted incarnation numbers
          subst hr
          subst ht0
          have hheldBump : ∀ k', (b.sem w).touch (bumped x.wset (j + 1)) k' →
              Held b (.undo (j + 1) 0) x.wset k' := by
            intro k' hk'
            obtain ⟨j', f, hf, hj', hnd', -, hl⟩ := touch_bumped.mp hk'
            exact ⟨j', f, hf, by simp [Build.drops, hd, hnd'], by simpa [Remains, hd] using hj', hl⟩
          have hS' := hS.fetchInc (bumped x.wset (j + 1)) true fun k' hk' =>
            h.heldBy_of_held (by rw [hph]; exact hheldBump k' hk')
          have hF : Frame b tid g (g.fetchInc tid (bumped x.wset (j + 1)) true) :=
            frame_fetchInc hS _ _
          have hatt' : Att b P tid (g.fetchInc tid (bumped x.wset (j + 1)) true)
              (.undo (j + 1) 0) x :=
            hatt.stable hS (hF.keeps fun k' hk' => h.heldBy_of_held (by rw [hph]; exact hk'))
              fun A hA => .inl hA
          have hw := h.whole hne hs
          refine ⟨hS', ?_, fun u hu => interf_fetchInc hS hu _ true⟩
          exact {
            own := fun k' => by
              have := h.own k'
              rw [hph] at this
              exact this
            unit := fun k' => iff_of_false
              (fun hk' => not_unitHeld_of_phase hne k' ((h.unit k').mp hk')) (by simp [UnitHeld])
            settled := fun {n s k'} hs' ho hc ht => by
              have hn : n ≠ g.clock + 1 := fun heq => hc (by rw [heq]; rfl)
              rw [log_fetchInc_of_ne hn] at hs'
              exact h.settled hs' ho (by rw [hcur]; simp) ht
            fate := fun {n ss} hs' => by
              by_cases hn : n = g.clock + 1
              · exact .inr (by rw [hn]; rfl)
              · rw [log_fetchInc_of_ne hn] at hs'
                rcases h.fate hs' with hover | hc
                · exact .inl hover
                · rw [hcur] at hc
                  simp at hc
            began := h.began
            att := fun _ => (hatt'.set _ x.standing x.canExtend).rephase (fun _ _ hrem => hrem)
              fun hl _ _ hf hrem => hatt'.taken hl hf hrem
            live := fun hl => by simp [Pc.phase] at hl
            whole := fun _ _ => ⟨hw.touched, hw.len⟩
            pc := by
              refine ⟨hd, fun hd' => by simp [hd] at hd', fun _ => hbound, fun _ a ha => ?_,
                fun hd' => absurd hd hd', fun _ => ⟨le_rfl, j + 1, fetchInc_self g _ _, le_rfl,
                  fun k' hk' => .inl (hheldBump k' hk'), fun _ => Nat.lt_succ_of_le (hS.ver_le _)⟩⟩
              have hm := hundo.wtMem hd a ha
              have hat := hF.toEvol.at_eq hS (le_refl (g.ver b (b.getLock w a)))
              exact hm.trans (by rw [← hat]; rfl) }
        · next ht0 =>
          subst hr
          obtain ⟨-, m, hlog, hjm, -, hbelow⟩ := hundo.bump ht0
          have hcur' : x.pc.cur = some t := by rw [hcur, if_neg ht0]
          have hlt : g.ver b k < t := hbelow hheld
          have htouch' : (b.sem w).touch (bumped x.wset m) k :=
            touch_bumped.mpr ⟨j, e, he, by omega, by simpa using hnd, hexh, rfl⟩
          refine hrel ⟨t, 0⟩ (.inl (by rw [hstamp t]; exact hlt)) (fun n s hs' ht => ?_) ?_ ?_ ?_
          · rw [hstamp]
            by_cases hn : n = t
            · subst hn
              rw [hlog] at hs'
              cases hs'
              exact ⟨le_rfl, rfl⟩
            · obtain ⟨hle, hdec⟩ := h.settled_held hS hby hs' ht
                (by rw [hcur']; simpa using Ne.symm hn)
              exact ⟨hle.trans hlt.le, hdec⟩
          · rw [hstamp]
            exact .inl ⟨_, hlog, htouch'⟩
          · intro a ha
            rw [hstamp, hundone a ha, h.at_cur hS (ha ▸ hby) hcur' hlog (ha ▸ hlt), overlay_bumped]
          · exact fun _ _ => (hstamp t).ge
      · next hexh =>
        subst hr
        -- the timestamp of exhausted incarnation numbers does not concern this lock
        have hnt : ∀ n s, g.log n = some s → (b.sem w).touch s.body k → x.pc.cur ≠ some n := by
          intro n s hs' ht hc
          rw [hcur] at hc
          split at hc
          · cases hc
          · next ht0 =>
            cases hc
            obtain ⟨-, m, hlog, -⟩ := hundo.bump ht0
            rw [hlog] at hs'
            cases hs'
            obtain ⟨j', f, hf, -, hnd', hexh', hl⟩ := touch_bumped.mp ht
            have hj' : j' = j := hatt.drop_unique he hdrop hf (by simp [Build.drops, hd, hnd']) hl
            subst hj'
            rw [he] at hf
            cases hf
            exact hexh hexh'
        refine hrel ⟨e.version.ts, e.version.inc + 1⟩ (.inr ?_) (fun n s hs' ht => ?_) (.inr ?_) ?_ ?_
        · rw [hver]
          exact ⟨rfl, Nat.lt_succ_self _⟩
        · rw [hstamp, ← hvk]
          exact h.settled_held hS hby hs' ht (hnt n s hs' ht)
        · rw [hstamp, hvk]
        · intro a ha
          rw [hstamp, ← hvk, hundone a ha, ha]
        · intro _ ht
          obtain ⟨j', f, hf, -, hnd', hexh', hl⟩ := touch_bumped.mp ht
          have hj' : j' = j := hatt.drop_unique he hdrop hf (by simp [Build.drops, hd, hnd']) hl
          subst hj'
          rw [he] at hf
          cases hf
          exact absurd hexh' hexh

end WriteThrough

end TinyStm
