import TinyStm.Steps.Store

/-!
# Steps of one thread: stores of the encounter-time designs

A lock is taken at the first store to its stripe. The write-back design then
keeps a full word per address, the write-through design the word before each
store and the new word in memory.
-/

namespace TinyStm

open Timeline

variable {w : ℕ} {b : Build} {P : Mode} {tid : ℕ} {g : Shared w} {x : Tx w} {a : ℕ}

theorem or_ne_zero {m n : BitVec w} (h : n ≠ 0) : m ||| n ≠ 0 := by
  intro h0
  exact h (BitVec.or_eq_zero_iff.mp h0).2

/-! ### Write-back: a store to an entry of the write set -/

/-- Entry `i` takes a store: it holds the full word afterwards, or still none. -/
theorem Core.etlStored (h : Core b P tid g x.wset.length x) (hd : b.design = .writeBackEtl)
    (hro : x.ro = false) {i : ℕ} {e : WEntry w} (he : x.wset[i]? = some e)
    (hoth : ∀ {j f}, x.wset[j]? = some f → j ≠ i → ∃ s ∈ x.stores, s.addr = f.addr)
    {f : WEntry w → WEntry w} (hf : ∀ e, (f e).shape = e.shape) {v m : BitVec w}
    (hval : ((f e).mask = 0 ∧ ∀ y, overlay (x.stores ++ [⟨e.addr, v, m⟩]) e.addr y = y) ∨
      ((f e).mask ≠ 0 ∧ (f e).value = overlay (x.stores ++ [⟨e.addr, v, m⟩]) e.addr
        (g.at b (g.ver b (b.getLock w e.addr)) e.addr))) :
    TInv b P tid g (storeReturns b { x with wset := x.wset.modify i f } e.addr v m) := by
  have hws := h.att.ws.etl hd
  have hsh : SameShape x.wset (x.wset.modify i f) := sameShape_modify i hf
  have hfa : (f e).addr = e.addr := by
    have := hf e
    simp only [WEntry.shape, Prod.mk.injEq] at this
    exact this.1
  have hcore : Core b P tid g x.wset.length
      { x with wset := x.wset.modify i f, stores := x.stores ++ [⟨e.addr, v, m⟩] } := by
    refine h.reshape hro hsh (List.prefix_append _ _) (.ofEtl hd (hws.reshape hsh ?_ ?_ ?_))
      fun hd' => by rw [hd] at hd'; cases hd'
    · intro s hs hm
      rcases List.mem_append.mp hs with hs | hs
      · exact hws.mem s hs hm
      · rw [List.mem_singleton.mp hs]
        exact ⟨e, List.mem_of_getElem? he, rfl⟩
    · intro s hs
      rcases List.mem_append.mp hs with hs | hs
      · exact hws.lock s hs
      · rw [List.mem_singleton.mp hs]
        exact ⟨e, List.mem_of_getElem? he, rfl⟩
    · intro e' he' hk
      obtain ⟨j, hj⟩ := List.mem_iff_getElem?.mp he'
      by_cases hij : i = j
      · subst hij
        rw [List.getElem?_modify_eq, he] at hj
        cases hj
        rw [hfa]
        exact hval
      · -- the other entries are for other addresses
        rw [List.getElem?_modify_ne _ _ hij] at hj
        have hne : e.addr ≠ e'.addr := fun heq => hij (hws.inj he hj heq)
        have hov : ∀ y, overlay (x.stores ++ [⟨e.addr, v, m⟩]) e'.addr y =
            overlay x.stores e'.addr y := fun y => overlay_snoc_of_ne _ _ _ _ hne
        simp only [hov]
        exact hws.val e' (List.mem_of_getElem? hj) hk
  refine Core.storeDone (x := { x with wset := x.wset.modify i f })
    (by rw [List.length_modify]; exact hcore) ⟨?_, fun hd' => ?_⟩
  · intro e' he'
    obtain ⟨j, hj⟩ := List.mem_iff_getElem?.mp he'
    obtain ⟨f', hf', ha', -⟩ := hsh.get hj
    by_cases hij : j = i
    · subst hij
      rw [he] at hf'
      cases hf'
      exact ⟨_, List.mem_append_right _ (List.mem_singleton_self _), ha'⟩
    · obtain ⟨s, hs, hsa⟩ := hoth hf' hij
      exact ⟨s, List.mem_append_left _ hs, hsa.trans ha'⟩
  · rw [hd] at hd'
    cases hd'

theorem Core.etlPut (h : Core b P tid g x.wset.length x) (hd : b.design = .writeBackEtl)
    (hro : x.ro = false) {i : ℕ} {e : WEntry w} (he : x.wset[i]? = some e)
    (hoth : ∀ {j f}, x.wset[j]? = some f → j ≠ i → ∃ s ∈ x.stores, s.addr = f.addr)
    (v m : BitVec w) : TInv b P tid g (etlPut b x i e.addr v m) := by
  have hws := h.att.ws.etl hd
  have hk : Held b .live x.wset (b.getLock w e.addr) :=
    h.att.taken (by simp [LocksTaken, hd]) he trivial
  have hval := hws.val e (List.mem_of_getElem? he) hk
  unfold TinyStm.etlPut
  split
  · next hm =>
    -- an empty mask: the entry stays as it is
    subst hm
    have hid : x.wset.modify i (fun e => e) = x.wset := List.modify_id i x.wset
    have hsame : ∀ y, overlay (x.stores ++ [⟨e.addr, v, 0⟩]) e.addr y =
        overlay x.stores e.addr y := fun y => by rw [overlay_snoc_self, mergeBits_zero]
    have := h.etlStored hd hro he hoth (f := fun e => e) (fun _ => rfl) (v := v) (m := 0)
      (by simp only [hsame]; exact hval)
    rw [hid] at this
    exact this
  · next hm =>
    split
    · next hall =>
      subst hall
      refine h.etlStored hd hro he hoth
        (f := fun e => { e with value := v, mask := e.mask ||| BitVec.allOnes w })
        (fun _ => rfl) (.inr ⟨or_ne_zero hm, ?_⟩)
      rw [overlay_snoc_self, mergeBits_allOnes]
    · simp only [he]
      split
      · next h0 =>
        refine (h.set (.writeLoad i v m) x.standing x.canExtend).tinv ⟨rfl, rfl⟩ rfl
          (fun hs => by cases hs) ⟨hd, hm, hro, ⟨e, he, h0⟩, hoth⟩
      · next h0 =>
        refine h.etlStored hd hro he hoth
          (f := fun e => { e with value := mergeBits e.value v m, mask := e.mask ||| m })
          (fun _ => rfl) (.inr ⟨or_ne_zero hm, ?_⟩)
        rcases hval with ⟨h0', -⟩ | ⟨-, hv⟩
        · exact absurd h0' h0
        · rw [overlay_snoc_self, ← hv]

theorem TInv.writeLoadStep (hS : SInv b P g) (h : TInv b P tid g x) {i : ℕ} {v m : BitVec w}
    (hp : x.pc = .writeLoad i v m) {r : Shared w × Tx w} (hr : writeLoadStep b i v m g x = some r) :
    StepOk b P tid g r := by
  have hc : Inside x := .of hp rfl rfl
  have hcore := h.core hc
  rw [hp] at hcore
  have hpc : PcOk b tid g x (.writeLoad i v m) := hp ▸ h.pc
  obtain ⟨hd, hm, hro, ⟨e, he, h0⟩, hoth⟩ := hpc
  simp only [TinyStm.writeLoadStep, he, Option.map_some, Option.some.injEq] at hr
  subst hr
  have hk : Held b .live x.wset (b.getLock w e.addr) :=
    hcore.att.taken (by simp [LocksTaken, hd]) he trivial
  obtain ⟨n, hn⟩ := (hcore.own _).mpr hk
  have hmem := h.mem_held hS (a := e.addr) (by simp [hd]) hn hc.cur
  refine .stay hS (hcore.etlStored hd hro he hoth
    (f := fun f => { f with value := mergeBits (g.mem e.addr) v m, mask := f.mask ||| m })
    (fun _ => rfl) (.inr ⟨or_ne_zero hm, ?_⟩))
  rcases (hcore.att.ws.etl hd).val e (List.mem_of_getElem? he) hk with ⟨-, hid⟩ | ⟨h0', -⟩
  · rw [overlay_snoc_self, hid, hmem]
  · exact absurd h0 h0'

/-! ### Write-back: a further entry under an own lock -/

/-- The entry that is linked behind the last one of its lock takes over the lock. -/
theorem Core.link (h : Core b P tid g x.wset.length x) (hd : b.design = .writeBackEtl)
    (hro : x.ro = false) {j : ℕ} {p : WEntry w} (hp : x.wset[j]? = some p) (hpn : p.next = none)
    (hlk : b.getLock w p.addr = b.getLock w a) (hno : ∀ e ∈ x.wset, e.addr ≠ a) :
    Core b P tid g (x.wset.length + 1)
      { x with wset := linkEntry x.wset j ⟨a, 0, 0, p.version, true, none⟩ } := by
  have hws := h.att.ws.etl hd
  have hdrop : ∀ e : WEntry w, b.drops e = e.next.isNone := fun e => by simp [Build.drops, hd]
  have hget := @getElem?_linkEntry w x.wset j ⟨a, 0, 0, p.version, true, none⟩
  -- an entry of the new array is an old one, linked or not, or the new one
  have hold : ∀ {i : ℕ} {f : WEntry w}, x.wset[i]? = some f → i ≠ j →
      (linkEntry x.wset j ⟨a, 0, 0, p.version, true, none⟩)[i]? = some f := fun {i f} hf hij =>
    hget.mpr (.inl ⟨f, hf, by rw [if_neg hij]⟩)
  have hnew : (linkEntry x.wset j ⟨a, 0, 0, p.version, true, none⟩)[x.wset.length]? =
      some ⟨a, 0, 0, p.version, true, none⟩ := hget.mpr (.inr ⟨rfl, rfl⟩)
  have hfrom : ∀ {i : ℕ} {f : WEntry w},
      (linkEntry x.wset j ⟨a, 0, 0, p.version, true, none⟩)[i]? = some f → i ≠ x.wset.length →
      ∃ q, x.wset[i]? = some q ∧ f.addr = q.addr ∧ f.version = q.version ∧ f.mask = q.mask ∧
        f.value = q.value ∧ (f.next = none → i ≠ j ∧ f = q) := by
    intro i f hf hi
    rcases hget.mp hf with ⟨q, hq, rfl⟩ | ⟨hi', -⟩
    · by_cases hij : i = j
      · simp only [if_pos hij]
        exact ⟨q, hq, rfl, rfl, rfl, rfl, fun hn => by cases hn⟩
      · simp only [if_neg hij]
        exact ⟨q, hq, rfl, rfl, rfl, rfl, fun _ => ⟨hij, rfl⟩⟩
    · exact absurd hi' hi
  have hheld : ∀ k, Held b .live (linkEntry x.wset j ⟨a, 0, 0, p.version, true, none⟩) k ↔
      Held b .live x.wset k := by
    intro k
    constructor
    · rintro ⟨i, f, hf, hdf, -, hk⟩
      by_cases hi : i = x.wset.length
      · subst hi
        rw [hnew] at hf
        cases hf
        exact ⟨j, p, hp, by rw [hdrop, hpn]; rfl, trivial, hlk.trans hk⟩
      · obtain ⟨q, hq, -, -, -, -, hn⟩ := hfrom hf hi
        rw [hdrop, Option.isNone_iff_eq_none] at hdf
        obtain ⟨-, rfl⟩ := hn hdf
        exact ⟨i, f, hq, by rw [hdrop, hdf]; rfl, trivial, hk⟩
    · rintro ⟨i, f, hf, hdf, -, hk⟩
      by_cases hij : i = j
      · subst hij
        rw [hp] at hf
        cases hf
        exact ⟨x.wset.length, _, hnew, by rw [hdrop]; rfl, trivial, hlk.symm.trans hk⟩
      · exact ⟨i, f, hold hf hij, hdf, trivial, hk⟩
  have hheldp : Held b .live x.wset (b.getLock w a) :=
    ⟨j, p, hp, by rw [hdrop, hpn]; rfl, trivial, hlk⟩
  have hchain := hws.chain.linkEntry hp hpn
    (e := ⟨a, 0, 0, p.version, true, none⟩) rfl hlk.symm
  exact {
    own := fun k => by rw [hheld, h.own]
    unit := h.unit
    settled := h.settled
    fate := h.fate
    began := h.began
    att := {
      start_le := h.att.start_le
      end_le := h.att.end_le
      endEq := h.att.endEq
      snap_le := h.att.snap_le
      consistent := h.att.consistent
      pre := h.att.pre
      order := h.att.order
      dropVer := fun {i f} hf hdf _ => by
        by_cases hi : i = x.wset.length
        · subst hi
          rw [hnew] at hf
          cases hf
          have := h.att.dropVer hp (by rw [hdrop, hpn]; rfl) trivial
          rwa [hlk] at this
        · obtain ⟨q, hq, -, -, -, -, hn⟩ := hfrom hf hi
          rw [hdrop, Option.isNone_iff_eq_none] at hdf
          obtain ⟨-, rfl⟩ := hn hdf
          exact h.att.dropVer hq (by rw [hdrop, hdf]; rfl) trivial
      dropOrder := fun {i i' f f'} hf hdf hf' hl => by
        rw [hdrop, Option.isNone_iff_eq_none] at hdf
        rw [if_neg (by simp [hd])]
        exact hchain.last hf hdf hf' hl
      taken := fun ht {i f} hf _ => by
        rw [hheld]
        by_cases hi : i = x.wset.length
        · subst hi
          rw [hnew] at hf
          cases hf
          exact hheldp
        · obtain ⟨q, hq, ha, -⟩ := hfrom hf hi
          rw [ha]
          exact h.att.taken ht hq trivial
      ws := .ofEtl hd {
        inj := fun {i i' f f'} hf hf' hff => by
          by_cases hi : i = x.wset.length <;> by_cases hi' : i' = x.wset.length
          · exact hi.trans hi'.symm
          · subst hi
            rw [hnew] at hf
            cases hf
            obtain ⟨q, hq, ha, -⟩ := hfrom hf' hi'
            exact absurd (ha.symm.trans hff.symm) (hno q (List.mem_of_getElem? hq))
          · subst hi'
            rw [hnew] at hf'
            cases hf'
            obtain ⟨q, hq, ha, -⟩ := hfrom hf hi
            exact absurd (ha.symm.trans hff) (hno q (List.mem_of_getElem? hq))
          · obtain ⟨q, hq, ha, -⟩ := hfrom hf hi
            obtain ⟨q', hq', ha', -⟩ := hfrom hf' hi'
            exact hws.inj hq hq' (by rw [← ha, ← ha', hff])
        mem := fun s hs hm => by
          obtain ⟨e, he, ha⟩ := hws.mem s hs hm
          obtain ⟨i, hi⟩ := List.mem_iff_getElem?.mp he
          refine ⟨_, List.mem_of_getElem? (hget.mpr (.inl ⟨e, hi, rfl⟩)), ?_⟩
          split <;> exact ha
        lock := fun s hs => by
          obtain ⟨e, he, ha⟩ := hws.lock s hs
          obtain ⟨i, hi⟩ := List.mem_iff_getElem?.mp he
          refine ⟨_, List.mem_of_getElem? (hget.mpr (.inl ⟨e, hi, rfl⟩)), ?_⟩
          split <;> exact ha
        val := fun f hf hk => by
          obtain ⟨i, hi⟩ := List.mem_iff_getElem?.mp hf
          by_cases hi' : i = x.wset.length
          · subst hi'
            rw [hnew] at hi
            cases hi
            exact .inl ⟨rfl, hws.overlay_self hno⟩
          · obtain ⟨q, hq, ha, -, hm, hv, -⟩ := hfrom hi hi'
            rw [hm, hv, ha]
            exact hws.val q (List.mem_of_getElem? hq) ((hheld _).mp (ha ▸ hk))
        chain := hchain
        head := fun {k i} hk => by
          obtain ⟨⟨e, he, hl⟩, hmin⟩ := hws.head hk
          refine ⟨⟨_, hget.mpr (.inl ⟨e, he, rfl⟩), ?_⟩, fun {n f} hf hfl => ?_⟩
          · split <;> exact hl
          · by_cases hn : n = x.wset.length
            · have := getElem?_lt he
              omega
            · obtain ⟨q, hq, ha, -⟩ := hfrom hf hn
              exact hmin hq (by rw [← ha, hfl]) } }
    live := {
      rset := h.live.rset
      rsetOwn := h.live.rsetOwn
      cover := h.live.cover
      ro := fun hr => by
        rw [hro] at hr
        cases hr
      acq := fun hd' => by
        rw [hd] at hd'
        cases hd'
      wtMem := fun hd' => by
        rw [hd] at hd'
        cases hd' } }

theorem TInv.etlOwnWrite (h : TInv b P tid g x) (hc : Ready x) (hd : b.design = .writeBackEtl)
    (hro : x.ro = false) {i : ℕ} (hk : (g.lock (b.getLock w a)).own = some (.entry tid i))
    (v m : BitVec w) : TInv b P tid g (etlOwnWrite b x i a v m) := by
  have hcore := h.core hc.toInside
  rw [hc.acq] at hcore
  have hws := hcore.att.ws.etl hd
  have hw := h.whole hc.ne_out hc.storing
  have hwalk := hws.walk hk
  have hheld : Held b .live x.wset (b.getLock w a) := (hcore.own _).mp ⟨i, hk⟩
  have htouched : ∀ {j : ℕ} {f : WEntry w}, x.wset[j]? = some f → ∃ s ∈ x.stores, s.addr = f.addr :=
    fun hf => hw.touched _ (List.mem_of_getElem? hf)
  unfold TinyStm.etlOwnWrite
  split
  · next hm =>
    -- nothing is written: no entry is needed
    subst hm
    obtain ⟨j, e, he, -, -, hlk⟩ := hheld
    have hpre := List.prefix_append x.stores [⟨a, v, 0⟩]
    have hsame : ∀ c y, overlay (x.stores ++ [⟨a, v, 0⟩]) c y = overlay x.stores c y := by
      intro c y
      rw [overlay_append]
      refine overlay_eq_self (fun s hs _ => ?_) _
      rw [List.mem_singleton.mp hs]
    have hcore' : Core b P tid g x.wset.length
        { x with wset := x.wset, stores := x.stores ++ [⟨a, v, 0⟩] } := by
      refine hcore.reshape hro rfl hpre (.ofEtl hd (hws.reshape rfl ?_ ?_ ?_))
        fun hd' => by rw [hd] at hd'; cases hd'
      · intro s hs hm
        rcases List.mem_append.mp hs with hs | hs
        · exact hws.mem s hs hm
        · rw [List.mem_singleton.mp hs] at hm
          exact absurd rfl hm
      · intro s hs
        rcases List.mem_append.mp hs with hs | hs
        · exact hws.lock s hs
        · rw [List.mem_singleton.mp hs]
          exact ⟨e, List.mem_of_getElem? he, hlk⟩
      · simp only [hsame]
        exact hws.val
    refine Core.storeDone hcore' ⟨fun e he => ?_, fun hd' => ?_⟩
    · obtain ⟨s, hs, hsa⟩ := hw.touched e he
      exact ⟨s, List.mem_append_left _ hs, hsa⟩
    · rw [hd] at hd'
      cases hd'
  · cases hwk : chainWalk x.wset a x.wset.length i with
    | found j =>
      rw [hwk] at hwalk
      obtain ⟨e, he, rfl⟩ := hwalk
      exact hcore.etlPut hd hro he (fun hf _ => htouched hf) v m
    | last j =>
      rw [hwk] at hwalk
      obtain ⟨⟨p, hp, hpn, hlk⟩, hno⟩ := hwalk
      simp only [hp, Option.map_some, Option.getD_some]
      have hcore' := hcore.link hd hro hp hpn hlk hno
      have hlen : (linkEntry x.wset j ⟨a, 0, 0, p.version, true, none⟩).length =
          x.wset.length + 1 := length_linkEntry _ _ _
      have hget := @getElem?_linkEntry w x.wset j ⟨a, 0, 0, p.version, true, none⟩
      refine Core.etlPut (e := ⟨a, 0, 0, p.version, true, none⟩) (i := x.wset.length)
        (x := { x with wset := linkEntry x.wset j ⟨a, 0, 0, p.version, true, none⟩ })
        (by rw [hlen]; exact hcore') hd hro (hget.mpr (.inr ⟨rfl, rfl⟩)) (fun {n f} hf hn => ?_) v m
      rcases hget.mp hf with ⟨q, hq, rfl⟩ | ⟨hn', -⟩
      · obtain ⟨s, hs, hsa⟩ := htouched hq
        refine ⟨s, hs, hsa.trans ?_⟩
        split <;> rfl
      · exact absurd hn' hn

/-! ### Taking a lock -/

/-- The stores of an encounter-time attempt are all made under locks it holds. -/
theorem Core.store_held {n : ℕ} (h : Core b P tid g n x) (hd : b.design ≠ .writeBackCtl)
    {s : Store w} (hs : s ∈ x.stores) : Held b .live x.wset (b.getLock w s.addr) := by
  have hentry : ∃ e ∈ x.wset, b.getLock w e.addr = b.getLock w s.addr := by
    cases hdes : b.design with
    | writeBackCtl => exact absurd hdes hd
    | writeBackEtl => exact (h.att.ws.etl hdes).lock s hs
    | writeThrough =>
      obtain ⟨j, hj⟩ := List.mem_iff_getElem?.mp hs
      obtain ⟨e, he, ha, -⟩ := (h.att.ws.wt hdes).ent hj
      exact ⟨e, List.mem_of_getElem? he, by rw [ha]⟩
  obtain ⟨e, he, hl⟩ := hentry
  obtain ⟨j, hj⟩ := List.mem_iff_getElem?.mp he
  rw [← hl]
  exact h.att.taken hd hj trivial

theorem Core.overlay_of_not_held {n : ℕ} (h : Core b P tid g n x) (hd : b.design ≠ .writeBackCtl)
    (hk : ¬ Held b .live x.wset (b.getLock w a)) (y : BitVec w) : overlay x.stores a y = y :=
  overlay_of_forall_ne (fun s hs ha => hk (by rw [← ha]; exact h.store_held hd hs)) y

/-- A version that was read, and is not newer than the snapshot, is the version of
the lock. -/
theorem Live.rset_eq {n : ℕ} (hS : SInv b P g) (h : Live b tid g n x) {r : ℕ × ℕ}
    (hr : r ∈ x.rset) (hle : g.ver b r.1 ≤ x.snap) : b.stamp r.2 = g.ver b r.1 := by
  obtain ⟨-, hv, hq⟩ := h.rset r hr
  by_contra hne
  have hlt : b.stamp r.2 < g.ver b r.1 := by omega
  rcases hS.wrote r.1 with h0 | ht
  · omega
  · exact hq _ hlt hle ht

section Acquire

variable {l : Ver} {e : WEntry w} {i : ℕ}

/-- The first store to a stripe takes its lock and adds an entry that releases it. -/
theorem Core.acquire (hS : SInv b P g) (h : Core b P tid g x.wset.length x)
    (hd : b.design ≠ .writeBackCtl) (hro : x.ro = false)
    (hfree : g.lock (b.getLock w e.addr) = ⟨l, none⟩)
    (hread : stmHasRead x.rset (b.getLock w e.addr) = true → l.ts ≤ x.endT)
    (hver : e.version = l) (hdrop : b.drops e = true)
    (hetl : b.design = .writeBackEtl → e.mask = 0 ∧ e.next = none ∧ i = x.wset.length) :
    Core b P tid (g.setLock (b.getLock w e.addr) ⟨l, some (.entry tid i)⟩) (x.wset.length + 1)
      { x with wset := x.wset ++ [e] } := by
  set k := b.getLock w e.addr with hkdef
  set g' := g.setLock k ⟨l, some (.entry tid i)⟩ with hg'
  have hE : Evol b g g' := evol_setLock (by rw [hfree]; exact .refl _)
    fun _ hdi => by simp [Dirty, hfree] at hdi
  have hlk : ∀ k', k' ≠ k → g'.lock k' = g.lock k' := fun k' hk' => setLock_of_ne g _ hk'
  have hself : g'.lock k = ⟨l, some (.entry tid i)⟩ := setLock_self g k _
  have hv : ∀ k', g'.ver b k' = g.ver b k' := by
    intro k'
    by_cases hk' : k' = k
    · subst hk'
      simp only [Shared.ver, hself, hfree]
    · simp only [Shared.ver, hlk k' hk']
  have hat : ∀ n c, g'.at b n c = g.at b n c := fun _ _ => rfl
  -- the lock was free, so no entry and no store so far belongs to it
  have hnk : ¬ Held b .live x.wset k := by
    intro hk
    obtain ⟨j, hj⟩ := (h.own k).mpr hk
    rw [hfree] at hj
    cases hj
  have hne : ∀ k', Held b .live x.wset k' → k' ≠ k := fun k' hk' heq => hnk (heq ▸ hk')
  have hno : ∀ {j : ℕ} {f : WEntry w}, x.wset[j]? = some f → b.getLock w f.addr ≠ k :=
    fun hf => hne _ (h.att.taken hd hf trivial)
  have hheld : ∀ k', Held b .live (x.wset ++ [e]) k' ↔ Held b .live x.wset k' ∨ k' = k := by
    intro k'
    constructor
    · rintro ⟨j, f, hf, hdf, -, hl⟩
      rcases getElem?_snoc.mp hf with hf' | ⟨-, rfl⟩
      · exact .inl ⟨j, f, hf', hdf, trivial, hl⟩
      · exact .inr hl.symm
    · rintro (⟨j, f, hf, hdf, -, hl⟩ | rfl)
      · exact ⟨j, f, getElem?_snoc.mpr (.inl hf), hdf, trivial, hl⟩
      · exact ⟨x.wset.length, e, getElem?_snoc.mpr (.inr ⟨rfl, rfl⟩), hdrop, trivial, rfl⟩
  have hheldBy : ∀ k', (g'.lock k').HeldBy tid ↔ (g.lock k').HeldBy tid ∨ k' = k := by
    intro k'
    by_cases hk' : k' = k
    · subst hk'
      rw [hself]
      simp
    · rw [hlk k' hk']
      simp [hk']
  exact {
    own := fun k' => by
      rw [hheld]
      by_cases hk' : k' = k
      · subst hk'
        simp [hself]
      · rw [hlk k' hk', h.own]
        simp [hk']
    unit := fun k' => by
      by_cases hk' : k' = k
      · subst hk'
        simp [hself]
      · rw [hlk k' hk']
        exact h.unit k'
    settled := fun hs ho ht => by
      rw [hv]
      exact h.settled hs ho ht
    fate := h.fate
    began := h.began
    att := {
      start_le := h.att.start_le
      end_le := h.att.end_le
      endEq := h.att.endEq
      snap_le := h.att.snap_le
      consistent := fun ho => by
        obtain ⟨n, h₁, h₂, h₃, h₄⟩ := h.att.consistent ho
        exact ⟨n, h₁, h₂, h₃, fun r hr => hE.readAt hS h₂ (h₄ r hr)⟩
      pre := h.att.pre
      order := h.att.order
      dropVer := fun {j f} hf hdf _ => by
        rcases getElem?_snoc.mp hf with hf' | ⟨-, rfl⟩
        · rw [hlk _ (hno hf')]
          exact h.att.dropVer hf' hdf trivial
        · rw [hver]
          exact congrArg LockWord.ver hself
      dropOrder := fun {j j' f f'} hf hdf hf' hl => by
        rcases getElem?_snoc.mp hf with hf₁ | ⟨rfl, rfl⟩ <;>
          rcases getElem?_snoc.mp hf' with hf₂ | ⟨rfl, rfl⟩
        · exact h.att.dropOrder hf₁ hdf hf₂ hl
        · exact absurd hl.symm (hno hf₁)
        · exact absurd hl (hno hf₂)
        · split <;> exact le_rfl
      taken := fun ht {j f} hf _ => by
        rw [hheld]
        rcases getElem?_snoc.mp hf with hf' | ⟨-, rfl⟩
        · exact .inl (h.att.taken ht hf' trivial)
        · exact .inr rfl
      ws := {
        ctl := fun hd' => absurd hd' hd
        etl := fun hd' => {
          inj := fun {j j' f f'} hf hf' hff => by
            rcases getElem?_snoc.mp hf with hf₁ | ⟨rfl, rfl⟩ <;>
              rcases getElem?_snoc.mp hf' with hf₂ | ⟨rfl, rfl⟩
            · exact (h.att.ws.etl hd').inj hf₁ hf₂ hff
            · exact absurd (by rw [hff]) (hno hf₁)
            · exact absurd (by rw [← hff]) (hno hf₂)
            · rfl
          mem := fun s hs hm => by
            obtain ⟨f, hf, hfa⟩ := (h.att.ws.etl hd').mem s hs hm
            exact ⟨f, List.mem_append_left _ hf, hfa⟩
          lock := fun s hs => by
            obtain ⟨f, hf, hfa⟩ := (h.att.ws.etl hd').lock s hs
            exact ⟨f, List.mem_append_left _ hf, hfa⟩
          val := fun f hf hk => by
            rw [hv, hat]
            rcases List.mem_append.mp hf with hf' | hf'
            · obtain ⟨j, hj⟩ := List.mem_iff_getElem?.mp hf'
              exact (h.att.ws.etl hd').val f hf' (h.att.taken hd hj trivial)
            · rw [List.mem_singleton.mp hf']
              exact .inl ⟨(hetl hd').1, h.overlay_of_not_held hd hnk⟩
          chain := (h.att.ws.etl hd').chain.snoc (hetl hd').2.1 fun f hf => by
            obtain ⟨j, hj⟩ := List.mem_iff_getElem?.mp hf
            exact hno hj
          head := fun {k' j} hk' => by
            by_cases hkk : k' = k
            · subst hkk
              rw [hself] at hk'
              simp only [Option.some.injEq, Owner.entry.injEq, true_and] at hk'
              subst hk'
              rw [(hetl hd').2.2]
              refine ⟨⟨e, getElem?_snoc.mpr (.inr ⟨rfl, rfl⟩), rfl⟩, fun {n f} hf hfl => ?_⟩
              rcases getElem?_snoc.mp hf with hf' | ⟨rfl, -⟩
              · exact absurd hfl (hno hf')
              · exact le_rfl
            · rw [hlk k' hkk] at hk'
              obtain ⟨⟨f, hf, hfl⟩, hmin⟩ := (h.att.ws.etl hd').head hk'
              refine ⟨⟨f, getElem?_snoc.mpr (.inl hf), hfl⟩, fun {n f'} hf' hfl' => ?_⟩
              rcases getElem?_snoc.mp hf' with hf'' | ⟨rfl, rfl⟩
              · exact hmin hf'' hfl'
              · exact absurd hfl'.symm hkk }
        wt := fun hd' => {
          len := by
            have := (h.att.ws.wt hd').len
            simp only [List.length_append, List.length_singleton]
            omega
          ent := fun {j s} hs => by
            obtain ⟨f, hf, hfa, hfm, hfv⟩ := (h.att.ws.wt hd').ent hs
            refine ⟨f, getElem?_snoc.mpr (.inl hf), hfa, hfm, fun hm _ => ?_⟩
            rw [hv, hat]
            exact hfv hm (h.store_held hd (List.mem_of_getElem? hs)) } } }
    live := {
      rset := fun r hr => by
        rw [hv]
        exact h.live.rset r hr
      rsetOwn := fun _ r hr hh => by
        rw [hv]
        rcases (hheldBy r.1).mp hh with hh' | hrk
        · exact h.live.rsetOwn hd r hr hh'
        · -- the stripe was read before, so its version is not newer than the snapshot
          have hle : l.ts ≤ x.endT := by
            refine hread ?_
            simp only [stmHasRead, List.any_eq_true, beq_iff_eq]
            exact ⟨r, hr, hrk⟩
          refine h.live.rset_eq hS hr ?_
          rw [hrk]
          simp only [Shared.ver, hfree]
          exact (Build.stamp_mono hle).trans h.att.end_le
      cover := fun r hr => by
        rcases h.live.cover r hr with hb | ⟨v, h₁, h₂, h₃⟩
        · exact .inl hb
        · refine .inr ⟨v, h₁, by rw [hv]; exact h₂, ?_⟩
          rcases h₃ with h₃ | h₃ | ⟨hh, he⟩
          · exact .inl h₃
          · exact .inr (.inl h₃)
          · exact .inr (.inr ⟨(hheldBy _).mpr (.inl hh), by rw [hv]; exact he⟩)
      ro := fun hr => by
        rw [hro] at hr
        cases hr
      acq := fun hd' => absurd hd' hd
      wtMem := fun hd' c hk => by
        rw [hv, hat]
        rcases (hheld _).mp hk with hk' | hk'
        · exact h.live.wtMem hd' c hk'
        · have hmem := hS.mem_free (hk' ▸ hfree : g.lock (b.getLock w c) = ⟨l, none⟩)
          have hvc : g.ver b (b.getLock w c) = b.stamp l.ts := by
            simp only [Shared.ver, hk', hfree]
          rw [hvc, h.overlay_of_not_held hd (hk' ▸ hnk)]
          exact hmem } }

end Acquire

/-! ### Write-through stores -/

/-- A further entry under an own lock. -/
theorem Core.wtDup (h : Core b P tid g x.wset.length x) (hd : b.design = .writeThrough)
    (hro : x.ro = false) (hk : Held b .live x.wset (b.getLock w a)) (m : BitVec w) (l : Ver) :
    Core b P tid g (x.wset.length + 1) { x with wset := x.wset ++ [⟨a, 0, m, l, true, none⟩] } := by
  have hd' : b.design ≠ .writeBackCtl := by simp [hd]
  have hnodrop : b.drops (⟨a, 0, m, l, true, none⟩ : WEntry w) ≠ true := by simp [Build.drops, hd]
  have hheld : ∀ k, Held b .live (x.wset ++ [⟨a, 0, m, l, true, none⟩]) k ↔
      Held b .live x.wset k := by
    intro k
    constructor
    · rintro ⟨j, f, hf, hdf, -, hl⟩
      rcases getElem?_snoc.mp hf with hf' | ⟨-, rfl⟩
      · exact ⟨j, f, hf', hdf, trivial, hl⟩
      · exact absurd hdf hnodrop
    · rintro ⟨j, f, hf, hdf, -, hl⟩
      exact ⟨j, f, getElem?_snoc.mpr (.inl hf), hdf, trivial, hl⟩
  have hws := h.att.ws.wt hd
  exact {
    own := fun k => by rw [hheld, h.own]
    unit := h.unit
    settled := h.settled
    fate := h.fate
    began := h.began
    att := {
      start_le := h.att.start_le
      end_le := h.att.end_le
      endEq := h.att.endEq
      snap_le := h.att.snap_le
      consistent := h.att.consistent
      pre := h.att.pre
      order := h.att.order
      dropVer := fun hf hdf _ => by
        rcases getElem?_snoc.mp hf with hf' | ⟨-, rfl⟩
        · exact h.att.dropVer hf' hdf trivial
        · exact absurd hdf hnodrop
      dropOrder := fun {j j' f f'} hf hdf hf' hl => by
        rcases getElem?_snoc.mp hf with hf₁ | ⟨-, rfl⟩
        · rcases getElem?_snoc.mp hf' with hf₂ | ⟨rfl, rfl⟩
          · exact h.att.dropOrder hf₁ hdf hf₂ hl
          · rw [if_pos hd]
            exact (getElem?_lt hf₁).le
        · exact absurd hdf hnodrop
      taken := fun ht {j f} hf _ => by
        rw [hheld]
        rcases getElem?_snoc.mp hf with hf' | ⟨-, rfl⟩
        · exact h.att.taken ht hf' trivial
        · exact hk
      ws := .ofWt hd {
        len := by
          have := hws.len
          simp only [List.length_append, List.length_singleton]
          omega
        ent := fun hs => by
          obtain ⟨f, hf, hfa, hfm, hfv⟩ := hws.ent hs
          exact ⟨f, getElem?_snoc.mpr (.inl hf), hfa, hfm, fun hm hk' =>
            hfv hm ((hheld _).mp hk')⟩ } }
    live := {
      rset := h.live.rset
      rsetOwn := h.live.rsetOwn
      cover := h.live.cover
      ro := fun hr => by
        rw [hro] at hr
        cases hr
      acq := fun hd'' => absurd hd'' hd'
      wtMem := fun _ c hk' => h.live.wtMem hd c ((hheld _).mp hk') } }

/-- The undo entry of a store is in place: an empty mask ends the store, otherwise
the old value is loaded. -/
theorem Core.wtAppended {v m : BitVec w} {l : Ver} {dup : Bool}
    (h : Core b P tid g (x.wset.length + 1) { x with wset := x.wset ++ [⟨a, 0, m, l, dup, none⟩] })
    (hd : b.design = .writeThrough) (hro : x.ro = false) (hw : Whole b x) :
    TInv b P tid g (wtAppend b x a v m l dup) := by
  have hlen := hw.len hd
  have hlen' : (x.wset ++ [(⟨a, 0, m, l, dup, none⟩ : WEntry w)]).length = x.wset.length + 1 := by
    simp
  unfold TinyStm.wtAppend
  simp only
  split
  · next hm =>
    subst hm
    have hws := h.att.ws.wt hd
    have hsame : ∀ c y, overlay (x.stores ++ [⟨a, v, 0⟩]) c y = overlay x.stores c y := by
      intro c y
      rw [overlay_append]
      refine overlay_eq_self (fun s hs _ => ?_) _
      rw [List.mem_singleton.mp hs]
    refine Core.storeDone (x := { x with wset := x.wset ++ [⟨a, 0, 0, l, dup, none⟩] }) ?_ ⟨?_, ?_⟩
    · rw [hlen']
      refine h.reshape hro rfl (List.prefix_append _ _) (.ofWt hd ⟨?_, fun {j s} hs => ?_⟩)
        fun _ c hk => ?_
      · simp only [List.length_append, List.length_singleton]
        omega
      · rcases Nat.lt_or_ge j x.stores.length with hj | hj
        · rw [List.getElem?_append_left hj] at hs
          obtain ⟨f, hf, hfa, hfm, hfv⟩ := hws.ent hs
          refine ⟨f, hf, hfa, hfm, fun hm hk => ?_⟩
          rw [hfv hm hk, List.take_append_of_le_length hj.le]
        · have hj' : j = x.stores.length := by
            have := (List.getElem?_eq_some_iff.mp hs).1
            simp only [List.length_append, List.length_singleton] at this
            omega
          subst hj'
          simp only [List.getElem?_concat_length, Option.some.injEq] at hs
          subst hs
          exact ⟨_, getElem?_snoc.mpr (.inr ⟨hlen.symm, rfl⟩), rfl, rfl, fun hm => absurd rfl hm⟩
      · rw [hsame]
        exact h.live.wtMem hd c hk
    · intro f hf
      rcases List.mem_append.mp hf with hf' | hf'
      · obtain ⟨s, hs, hsa⟩ := hw.touched f hf'
        exact ⟨s, List.mem_append_left _ hs, hsa⟩
      · rw [List.mem_singleton.mp hf']
        exact ⟨_, List.mem_append_right _ (List.mem_singleton_self _), rfl⟩
    · intro _
      simp only [List.length_append, List.length_singleton]
      omega
  · next hm =>
    refine (h.set (.writeOld x.wset.length v m) x.standing x.canExtend).tinv ⟨rfl, rfl⟩ hlen'
      (fun hs => by cases hs) ⟨hd, hm, hro, hlen, hlen', ?_⟩
    exact ⟨_, getElem?_snoc.mpr (.inr ⟨rfl, rfl⟩), rfl⟩

theorem TInv.writeOldStep (hS : SInv b P g) (h : TInv b P tid g x) {i : ℕ} {v m : BitVec w}
    (hp : x.pc = .writeOld i v m) {r : Shared w × Tx w} (hr : writeOldStep i v m g x = some r) :
    StepOk b P tid g r := by
  have hcore := h.core (.of hp rfl rfl)
  rw [hp] at hcore
  have hpc : PcOk b tid g x (.writeOld i v m) := hp ▸ h.pc
  obtain ⟨hd, hm, hro, hi, hlen, e, he, hem⟩ := hpc
  simp only [TinyStm.writeOldStep, he, Option.map_some, Option.some.injEq] at hr
  subst hr
  set f : WEntry w → WEntry w := fun e' => { e' with value := g.mem e.addr } with hf
  have hsh : SameShape x.wset (x.wset.modify i f) := sameShape_modify i fun _ => rfl
  have hws := hcore.att.ws.wt hd
  have hcore' : Core b P tid g x.wset.length
      { x with wset := x.wset.modify i f, stores := x.stores } := by
    refine hcore.reshape hro hsh List.prefix_rfl (.ofWt hd ⟨?_, fun {j s} hs => ?_⟩)
      fun _ => hcore.live.wtMem hd
    · rw [List.length_modify]
      exact hws.len
    · have hij : i ≠ j := by
        have hj : j < x.stores.length := (List.getElem?_eq_some_iff.mp hs).1
        omega
      obtain ⟨e', he', ha', hm', hv'⟩ := hws.ent hs
      refine ⟨e', ?_, ha', hm', fun hne hk => hv' hne ((hsh.held_iff _).mp hk)⟩
      rw [List.getElem?_modify_ne _ _ hij]
      exact he'
  refine .stay hS ((hcore'.set _ x.standing x.canExtend).tinv ⟨rfl, rfl⟩ ?_ (fun hs => by cases hs)
    ⟨hd, hm, hro, ?_, ?_, ?_⟩)
  · exact List.length_modify _ _ _
  · rw [List.length_modify, hlen, hi]
  · split
    · next hall => rw [hall, mergeBits_allOnes]
    · rfl
  · refine ⟨f e, ?_, rfl, hem, rfl⟩
    rw [← hi, List.getElem?_modify_eq, he]
    rfl

theorem TInv.writeMem (hS : SInv b P g) (h : TInv b P tid g x) {v m y : BitVec w}
    (hp : x.pc = .writeMem a v m y) :
    StepOk b P tid g (g.setMem a y, TinyStm.storeReturns b x a v m) := by
  have hcore := h.core (.of hp rfl rfl)
  rw [hp] at hcore
  have hpc : PcOk b tid g x (.writeMem a v m y) := hp ▸ h.pc
  obtain ⟨hd, hm, hro, hlen, hy, e, he, ha, hem, hev⟩ := hpc
  have hd' : b.design ≠ .writeBackCtl := by simp [hd]
  have hk : Held b .live x.wset (b.getLock w a) := ha ▸ hcore.att.taken hd' he trivial
  obtain ⟨i, hi⟩ := (hcore.own _).mpr hk
  have hheld : (g.lock (b.getLock w a)).HeldBy tid := .inl ⟨i, hi⟩
  have hdirty : Dirty b g (b.getLock w a) := by simp [Dirty, hi, hd]
  have hws := hcore.att.ws.wt hd
  have hmem := hcore.live.wtMem hd a hk
  have hatt : Att b P tid (g.setMem a y) .live x :=
    hcore.att.stable hS ⟨evol_setMem g a y, fun _ _ => rfl, fun _ _ h => h⟩ fun _ hA => .inl hA
  refine ⟨hS.setMem y hdirty, ?_, fun u hu => interf_setMem hheld hu⟩
  refine Core.storeDone ?_ ⟨?_, ?_⟩
  · refine ⟨hcore.own, hcore.unit, hcore.settled, hcore.fate, hcore.began,
      hatt.reshape rfl (List.prefix_append _ _) (.ofWt hd ⟨?_, fun {j s} hs => ?_⟩), ?_⟩
    · simp only [List.length_append, List.length_singleton]
      omega
    · rcases Nat.lt_or_ge j x.stores.length with hj | hj
      · rw [List.getElem?_append_left hj] at hs
        obtain ⟨f, hf, hfa, hfm, hfv⟩ := hws.ent hs
        refine ⟨f, hf, hfa, hfm, fun hm hk => ?_⟩
        rw [hfv hm hk, List.take_append_of_le_length hj.le]
        rfl
      · have hj' : j = x.stores.length := by
          have := (List.getElem?_eq_some_iff.mp hs).1
          simp only [List.length_append, List.length_singleton] at this
          omega
        subst hj'
        simp only [List.getElem?_concat_length, Option.some.injEq] at hs
        subst hs
        refine ⟨e, he, ha, hem, fun _ _ => ?_⟩
        rw [hev, hmem, List.take_left]
        rfl
    · refine ⟨hcore.live.rset, hcore.live.rsetOwn, hcore.live.cover, fun hr => ?_,
        fun hd'' => absurd hd'' hd', fun _ c hc => ?_⟩
      · rw [hro] at hr
        cases hr
      · show Function.update g.mem a y c = overlay (x.stores ++ [⟨a, v, m⟩]) c
          (g.at b (g.ver b (b.getLock w c)) c)
        by_cases hca : c = a
        · subst hca
          rw [Function.update_self, overlay_snoc_self, hy, hmem]
        · rw [Function.update_of_ne hca, overlay_snoc_of_ne _ _ _ _ (Ne.symm hca)]
          exact hcore.live.wtMem hd c hc
  · -- entry `j` belongs to store `j`
    intro f hf
    obtain ⟨j, hj⟩ := List.mem_iff_getElem?.mp hf
    have hjlt : j < x.wset.length := getElem?_lt hj
    rcases Nat.lt_or_ge j x.stores.length with hjs | hjs
    · obtain ⟨f', hf', hfa, -⟩ := hws.ent (List.getElem?_eq_getElem hjs)
      rw [hj] at hf'
      cases hf'
      exact ⟨x.stores[j], List.mem_append_left _ (List.getElem_mem hjs), hfa.symm⟩
    · have hje : j = x.stores.length := by omega
      subst hje
      rw [he] at hj
      cases hj
      exact ⟨_, List.mem_append_right _ (List.mem_singleton_self _), ha.symm⟩
  · intro _
    simp only [List.length_append, List.length_singleton]
    exact hlen

/-! ### The steps of a store -/

theorem TInv.storeStart (h : TInv b P tid g x) (hp : x.pc = .run) (v m : BitVec w) :
    TInv b P tid g (storeStart b x a v m) := by
  have hc : Ready x := .of hp rfl rfl rfl fun _ => rfl
  unfold TinyStm.storeStart
  split
  · exact h.rollback_calm hc.toCalm _
  · next hro =>
    exact h.goto hc.toCalm (.writeLock a v m) x.standing x.canExtend ⟨rfl, rfl⟩
      (by rw [hc.acq]; rfl) (Bool.eq_false_iff.mpr hro)

theorem TInv.writeLockStep (h : TInv b P tid g x) {v m : BitVec w} (hp : x.pc = .writeLock a v m) :
    TInv b P tid g (writeLockStep b tid a v m g x) := by
  have hc : Ready x := .of hp rfl rfl rfl fun _ => rfl
  have hcore := h.core hc.toInside
  rw [hc.acq] at hcore
  have hro : x.ro = false := by
    have := h.pc
    rw [hp] at this
    exact this
  have hw := h.whole hc.ne_out hc.storing
  unfold TinyStm.writeLockStep
  simp only
  split
  · exact h
  · next t i hown =>
    split
    · exact h
    · next hd =>
      split
      · next ht =>
        subst ht
        have hk := (hcore.own _).mp ⟨i, hown⟩
        exact (hcore.wtDup hd hro hk m _).wtAppended hd hro hw
      · exact h.rollback_calm hc.toCalm _
    · next hd =>
      split
      · next ht =>
        subst ht
        exact h.etlOwnWrite hc hd hro hown v m
      · exact h.rollback_calm hc.toCalm _
  · split
    · next hd =>
      split
      · exact h.ctlStore hc hd hro v m _
      · split
        · exact h.rollback_calm hc.toCalm _
        · exact h.ctlStore hc hd hro v m _
    · next hd =>
      split
      · exact h.rollback_calm hc.toCalm _
      · next hconf =>
        refine h.goto hc.toCalm (.writeCas a v m _) x.standing x.canExtend ⟨rfl, rfl⟩
          (by rw [hc.acq]; rfl) ⟨hd, hro, fun hread => ?_⟩
        simp only [writeConflict, Bool.and_eq_true, decide_eq_true_eq, Bool.or_eq_true,
          not_and, not_or] at hconf
        by_contra hlt
        exact (hconf (Nat.lt_of_not_le hlt)).2 hread

theorem TInv.writeCasStep (hS : SInv b P g) (h : TInv b P tid g x) {v m : BitVec w} {l : Ver}
    (hp : x.pc = .writeCas a v m l) : StepOk b P tid g (writeCasStep b tid a v m l g x) := by
  have hc : Ready x := .of hp rfl rfl rfl fun _ => rfl
  have hcore := h.core hc.toInside
  rw [hc.acq] at hcore
  have hpc : PcOk b tid g x (.writeCas a v m l) := hp ▸ h.pc
  obtain ⟨hd, hro, hread⟩ := hpc
  have hw := h.whole hc.ne_out hc.storing
  unfold TinyStm.writeCasStep
  split
  · next hfree =>
    have hinterf : ∀ i u, u ≠ tid →
        Interf b u g (g.setLock (b.getLock w a) ⟨l, some (.entry tid i)⟩) := fun i u hu =>
      interf_acquire hfree (by simpa using Ne.symm hu)
    split
    · next hwt =>
      refine ⟨hS.acquire hfree _, ?_, hinterf 0⟩
      have hacq := hcore.acquire hS hd hro (e := ⟨a, 0, m, l, false, none⟩) (i := 0) hfree hread rfl
        (by simp [Build.drops, hwt]) (fun he => by rw [hwt] at he; cases he)
      exact hacq.wtAppended hwt hro hw
    · next hwt =>
      have hetl : b.design = .writeBackEtl := by
        cases hdes : b.design with
        | writeBackCtl => exact absurd hdes hd
        | writeBackEtl => rfl
        | writeThrough => exact absurd hdes hwt
      refine ⟨hS.acquire hfree _, ?_, hinterf x.wset.length⟩
      have hacq := hcore.acquire hS hd hro (e := ⟨a, 0, 0, l, true, none⟩) (i := x.wset.length)
        hfree hread rfl (by simp [Build.drops, hetl]) (fun _ => ⟨rfl, rfl, rfl⟩)
      refine Core.etlPut (e := ⟨a, 0, 0, l, true, none⟩)
        (x := { x with wset := x.wset ++ [⟨a, 0, 0, l, true, none⟩] }) ?_ hetl hro
        (getElem?_snoc.mpr (.inr ⟨rfl, rfl⟩)) (fun {j f} hf hj => ?_) v m
      · simp only [List.length_append, List.length_singleton]
        exact hacq
      · rcases getElem?_snoc.mp hf with hf' | ⟨hj', -⟩
        · exact hw.touched f (List.mem_of_getElem? hf')
        · exact absurd hj' hj
  · exact .stay hS (h.goto hc.toCalm (.writeLock a v m) x.standing x.canExtend ⟨rfl, rfl⟩
      (by rw [hc.acq]; rfl) hro)

end TinyStm
