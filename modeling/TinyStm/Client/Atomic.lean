import TinyStm.Client.Record
import TinyStm.Lib.Replay

/-!
# The bodies are atomic

What programs rely on, said without clock, locks or versions: the transactions that
have returned can be executed one after the other, in an order that agrees with real
time, with the results they had and the memory there is. So what every body keeps
when it runs alone is kept by all threads together. As for the machine below, the
clock stays below `VERSION_MAX` and no write set outgrows its array; the builds are
those without packed versions and extra ticks.
-/

namespace TinyStm.Client

open Interleave Replay

variable {w : ℕ} {α : Type*} {b : Build} {P : Mode} {Φ : Prog w α → Prop} {s s₀ : State w α}

/-- What holds along the runs of the threads. -/
structure Ok (b : Build) (P : Mode) (Φ : Prog w α → Prop) (s : State w α) : Prop where
  shared : SInv b P s.shared.stm
  tx : ∀ i, TInv b P i s.shared.stm (s.loc i).tx
  recorded : Recorded Φ s.shared
  follows : ∀ i, Follows Φ (s.loc i)

theorem run_ok (hm : b.mbRevalidation = false) (he : b.extraTick = false) (hi : Initial s₀)
    (hr : Run (system b w α) (Starts Φ) s₀ s) :
    Ok b ⟨False, True⟩ Φ s ∧ s.shared.stm.mem0 = s₀.shared.stm.mem := by
  obtain ⟨hS, hT, h₀⟩ := run_inv (P := ⟨False, True⟩)
    (fun _ _ _ ho _ hT => cond_plain hm he hT (fun h => h.elim) fun _ => ho) (run_stm hr) hi.stm
  obtain ⟨hR, hF⟩ := run_recorded he hr hi
  exact ⟨⟨hS, hT, hR, hF⟩, h₀⟩

theorem Ok.produces (h : Ok b P Φ s) :
    Produces s.shared.stm.mem0 s.stm (s.shared.stm.at b) :=
  TinyStm.produces (s := s.stm) h.shared h.tx

theorem Ok.att_mem (h : Ok b P Φ s) {d : Done w α} (hd : d ∈ s.shared.done) :
    d.att ∈ s.shared.stm.hist := by
  have hmem : d.att ∈ s.shared.done.map (·.att) := List.mem_map_of_mem hd
  rw [h.recorded.atts] at hmem
  exact (List.mem_filter.mp hmem).1

theorem Ok.done_of_wrote (h : Ok b P Φ s) {A : Attempt w} (hA : A ∈ s.shared.stm.hist) {t : ℕ}
    (hw : A.wrote = some t) : ∃ d ∈ s.shared.done, d.att = A := by
  refine List.mem_map.mp (h.recorded.atts ▸ List.mem_filter.mpr ⟨hA, ?_⟩)
  unfold Attempt.wrote at hw
  unfold returned
  split at hw <;> simp_all

theorem Ok.committed_of_wrote (h : Ok b P Φ s) {d : Done w α} (hd : d ∈ s.shared.done) {t : ℕ}
    (hw : d.att.wrote = some t) : d.att.outcome = .committed t := by
  cases (h.recorded.body d hd).2.1 with
  | committed ho => simpa [Attempt.wrote, ho] using hw
  | readOnly ho => simp [Attempt.wrote, ho] at hw

/-- A thread that publishes is at the end of its body. -/
theorem Follows.leads_of_pub {x : Thread w α} (h : Follows Φ x) {t i : ℕ}
    (hp : x.tx.pc.phase = .pub t i) : ∃ r, Leads x.code x.tx.reads x.tx.stores (.ret r) := by
  cases h.ahead with
  | idle h | barrier h | prepare h => simp [h, Pc.phase] at hp
  | body hl hq =>
    obtain ⟨r, hr⟩ : ∃ r, x.rest = .ret r := by
      cases hc : x.tx.pc <;> simp only [hc, Pc.phase] at hp hq <;> first | exact hq | cases hp
    exact ⟨r, hr ▸ hl⟩

/-- A body with its stores on record, on a memory that all its loads show. -/
theorem run_of_leads {p : Prog w α} {R : List (Read w)} {ss : List (Store w)} {r : α}
    {m m' : ℕ → BitVec w} (h : Leads p R ss (.ret r)) (hR : ∀ r ∈ R, Shows m ss r)
    (hm : ∀ a, m' a = overlay ss a (m a)) : p.run m = (m', r) := by
  rw [h.run fun r hr => (hR r hr).word, Prog.run, ← funext hm]

/-- A transaction that has committed with timestamp `t`. -/
theorem Ok.committed_runs (h : Ok b P Φ s) {d : Done w α} (hd : d ∈ s.shared.done) {t : ℕ}
    (ht : d.att.outcome = .committed t) :
    d.code.run (s.shared.stm.at b (t - 1)) = (s.shared.stm.at b t, d.result) := by
  have hA : d.att ∈ s.shared.stm.hist := h.att_mem hd
  have hw : d.att.wrote = some t := by simp [Attempt.wrote, ht]
  have hok := h.shared.hist _ hA
  obtain ⟨hpos, -, -, hreads⟩ := hok.commit t hw
  obtain ⟨n, rfl⟩ : ∃ n, t = n + 1 := ⟨t - 1, by omega⟩
  exact run_of_leads (h.recorded.body d hd).2.2 (fun r hr => (hreads r hr).shows (hok.pre r hr))
    (h.produces.update (.finished hA hw rfl rfl))

/-- The body of an update makes the memory of its timestamp from the one before. -/
theorem Ok.update_runs (h : Ok b P Φ s) {n i : ℕ} {ss : List (Store w)}
    (hu : Update s.stm (n + 1) i ss) :
    ∃ p r, Φ p ∧ p.run (s.shared.stm.at b n) = (s.shared.stm.at b (n + 1), r) := by
  have hupd := h.produces.update hu
  cases hu with
  | @finished A hA hw _ hs =>
    obtain ⟨d, hd, rfl⟩ := h.done_of_wrote hA hw
    exact ⟨d.code, d.result, (h.recorded.body d hd).1, h.committed_runs hd (h.committed_of_wrote hd hw)⟩
  | @publishing j hp hs =>
    obtain ⟨m, hpub⟩ := pcOk_pub (h.tx i).pc hp
    have hatt := (h.tx i).att (by rw [show (s.loc i).tx.pc.phase = _ from hp]; simp)
    obtain ⟨r, hl⟩ := (h.follows i).leads_of_pub hp
    refine ⟨(s.loc i).code, r, (h.follows i).code fun hi => ?_,
      run_of_leads hl (fun r hr => (hpub.reads r hr).shows (hatt.pre r hr)) ?_⟩
    · simp [State.stm, hi, Pc.phase] at hp
    · exact fun a => hs ▸ hupd a
  | unit hp =>
    cases (h.follows i).ahead with
    | body _ hq => simp [State.stm] at hp; simp [hp, Going] at hq
    | idle h | barrier h | prepare h => simp [State.stm, h] at hp

/-! ### Sequential executions -/

/-- The transaction takes the memory `m` to `m'`, with the result it returned. -/
def Done.Runs (d : Done w α) (m m' : ℕ → BitVec w) : Prop := d.code.run m = (m', d.result)

/-- Places in the serial order: `2 t` for timestamp `t`, `2 p + 1` for a reader at `p`. -/
def Done.key (d : Done w α) : ℕ :=
  match d.att.outcome with
  | .committed t => 2 * t
  | _ => 2 * d.att.snap + 1

/-- Outside of transactions no lock is held. -/
theorem Ok.free (h : Ok b P Φ s) (hq : ∀ i, (s.loc i).tx.pc.phase = .out) (k : ℕ) :
    (s.shared.stm.lock k).own = none := by
  cases ho : (s.shared.stm.lock k).own with
  | none => rfl
  | some o =>
    cases o with
    | entry i j =>
      obtain ⟨j, e, -, -, hrem, -⟩ := ((h.tx i).own k).mp ⟨j, ho⟩
      rw [hq i] at hrem
      exact hrem.elim
    | unit i =>
      have hu := ((h.tx i).unit k).mp ho
      cases (h.follows i).ahead with
      | idle h | barrier h | prepare h => simp [h, UnitHeld] at hu
      | body _ hg =>
        cases hc : (s.loc i).tx.pc <;> simp [hc, UnitHeld, Going] at hu hg

theorem Ok.mem_eq (h : Ok b P Φ s) (hq : ∀ i, (s.loc i).tx.pc.phase = .out) :
    s.shared.stm.mem = s.shared.stm.at b s.shared.stm.clock :=
  funext fun _ => h.shared.mem_now (h.free hq _)

/-- A predicate that every body keeps holds of every memory of the log. -/
theorem Ok.invariant (h : Ok b P Φ s) {I : (ℕ → BitVec w) → Prop}
    (hI : ∀ p, Φ p → ∀ m, I m → I (p.run m).1) (h₀ : I s.shared.stm.mem0) (n : ℕ) :
    I (s.shared.stm.at b n) := by
  induction n with
  | zero => exact h₀
  | succ n ih =>
    by_cases hu : ∃ i ss, Update s.stm (n + 1) i ss
    · obtain ⟨i, ss, hu⟩ := hu
      obtain ⟨p, r, hp, hrun⟩ := h.update_runs hu
      have := hI p hp _ ih
      rwa [hrun] at this
    · rw [h.produces.other n fun i ss hu' => hu ⟨i, ss, hu'⟩]
      exact ih

end TinyStm.Client
