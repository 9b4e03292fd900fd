import TinyStm.Lib.Interleave

/-!
# Systems with a history variable

`System.logged` runs a system and keeps, for each process, a log that its own
steps rewrite. The log is not read by the steps, so every run of the system is
the projection of a run with logs.
-/

namespace TinyStm.Interleave

variable {ι G X A E : Type*}

/-- `S` where process `i` keeps a log: `f i a g x l` is its log after a step on
action `a` from `g`, `x` and the log `l`. -/
def System.logged (S : System ι G X A) (f : ι → A → G → X → List E → List E) :
    System ι G (X × List E) A where
  step i a g p := (S.step i a g p.1).map fun q => (q.1, q.2, f i a g p.1 p.2)

variable {S : System ι G X A} {f : ι → A → G → X → List E → List E}

theorem logged_step {i : ι} {a : A} {g g' : G} {x x' : X} {l l' : List E}
    (h : (S.logged f).step i a g (x, l) = some (g', x', l')) :
    S.step i a g x = some (g', x') ∧ l' = f i a g x l := by
  simp only [System.logged, Option.map_eq_some_iff] at h
  obtain ⟨⟨g₁, x₁⟩, hs, he⟩ := h
  cases he
  exact ⟨hs, rfl⟩

/-- The states without the logs. -/
def Config.bare (c : Config ι G (X × List E)) : Config ι G X := ⟨c.shared, fun i => (c.loc i).1⟩

/-- The state with the same log for every process. -/
def Config.withLog (c : Config ι G X) (l : List E) : Config ι G (X × List E) :=
  ⟨c.shared, fun i => (c.loc i, l)⟩

variable [DecidableEq ι] {ok : Config ι G X → ι → A → Prop} {c d : Config ι G X}

/-- Every run of `S` is a run with logs. -/
theorem Run.logged (h : Run S ok c d) (l : List E) :
    ∃ d' : Config ι G (X × List E),
      Run (S.logged f) (fun e i a => ok e.bare i a) (c.withLog l) d' ∧ d'.bare = d := by
  induction h with
  | refl => exact ⟨_, .refl, rfl⟩
  | @tail d e i a _ ho hm ih =>
    obtain ⟨d', hr, rfl⟩ := ih
    obtain ⟨g, x, hs, rfl⟩ := move_eq_some hm
    have hm' : (S.logged f).move d' i a = some ⟨g, Function.update d'.loc i
        (x, f i a d'.shared (d'.loc i).1 (d'.loc i).2)⟩ := by
      have hs' : S.step i a d'.shared (d'.loc i).1 = some (g, x) := hs
      simp [System.move, System.logged, hs']
    refine ⟨_, hr.tail ho hm', ?_⟩
    simp only [Config.bare, Config.mk.injEq, true_and]
    funext j
    rcases eq_or_ne j i with rfl | hj
    · simp
    · simp [Function.update_of_ne hj]

end TinyStm.Interleave
