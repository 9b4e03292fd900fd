import TinyStm.Lib.Interleave

/-!
# Histories and simulation

A label says what a step shows to the outside: a call, a return, or nothing. A
history is what a run shows, in order. `Hist.simulate` is the forward simulation
rule: when every step of one system is matched by a run of another that shows
the same, every history of the first is a history of the second. `atomicObject`
is the system in which each call takes effect in one step between its call and
its return, so that having only its histories is linearizability.
-/

namespace TinyStm.Interleave

variable {ι G X A E : Type*}

def shown (i : ι) (e : Option E) : List (ι × E) := e.toList.map (Prod.mk i)

@[simp] theorem shown_none (i : ι) : shown i (none : Option E) = [] := rfl

@[simp] theorem shown_some (i : ι) (e : E) : shown i (some e) = [(i, e)] := rfl

variable [DecidableEq ι]

/-- Runs from `c` with the history they show. -/
inductive Hist (S : System ι G X A) (ok : Config ι G X → ι → A → Prop)
    (label : A → X → Option E) (c : Config ι G X) : List (ι × E) → Config ι G X → Prop
  | refl : Hist S ok label c [] c
  | tail {h : List (ι × E)} {d e : Config ι G X} {i : ι} {a : A} :
      Hist S ok label c h d → ok d i a → S.move d i a = some e →
      Hist S ok label c (h ++ shown i (label a (d.loc i))) e

variable {S : System ι G X A} {ok : Config ι G X → ι → A → Prop} {label : A → X → Option E}
  {c d e : Config ι G X} {h h' : List (ι × E)}

theorem Hist.trans (h₁ : Hist S ok label c h d) (h₂ : Hist S ok label d h' e) :
    Hist S ok label c (h ++ h') e := by
  induction h₂ with
  | refl => simpa using h₁
  | tail _ ho hm ih =>
    rw [← List.append_assoc]
    exact .tail ih ho hm

theorem Hist.single {i : ι} {a : A} {g : G} {x : X} (ho : ok c i a)
    (hs : S.step i a c.shared (c.loc i) = some (g, x)) :
    Hist S ok label c (shown i (label a (c.loc i))) ⟨g, Function.update c.loc i x⟩ := by
  have hm : S.move c i a = some ⟨g, Function.update c.loc i x⟩ := by
    rw [System.move, hs]
    rfl
  simpa using Hist.tail .refl ho hm

theorem Hist.run (hh : Hist S ok label c h d) : Run S ok c d := by
  induction hh with
  | refl => exact .refl
  | tail _ ho hm ih => exact .tail ih ho hm

/-- What process `i` shows. -/
def own (i : ι) (h : List (ι × E)) : List E := (h.filter fun p => p.1 = i).map Prod.snd

theorem own_append (i : ι) (h h' : List (ι × E)) : own i (h ++ h') = own i h ++ own i h' := by
  simp [own]

theorem own_shown (i j : ι) (e : Option E) : own i (shown j e) = if j = i then e.toList else [] := by
  cases e with
  | none => simp [own]
  | some e => by_cases hj : j = i <;> simp [own, hj]

/-- A relation between what one process shows and its own state, kept by its steps. -/
theorem Hist.own_invariant {i : ι} {P : List E → X → Prop}
    (hstep : ∀ (c : Config ι G X) l a g x, P l (c.loc i) → ok c i a →
      S.step i a c.shared (c.loc i) = some (g, x) → P (l ++ (label a (c.loc i)).toList) x)
    (hh : Hist S ok label c h d) (hc : P [] (c.loc i)) : P (own i h) (d.loc i) := by
  induction hh with
  | refl => exact hc
  | @tail h d e j a _ ho hm ih =>
    obtain ⟨g, x, hs, rfl⟩ := move_eq_some hm
    rw [own_append, own_shown]
    dsimp only
    by_cases hj : j = i
    · subst hj
      rw [if_pos rfl, Function.update_self]
      exact hstep d _ a g x ih ho hs
    · rw [if_neg hj, List.append_nil, Function.update_of_ne (Ne.symm hj)]
      exact ih

/-- The history of a schedule, computed. -/
def System.history (S : System ι G X A) (ok : Config ι G X → ι → A → Prop)
    [∀ c i a, Decidable (ok c i a)] (label : A → X → Option E) :
    List (ι × A) → Config ι G X → Option (List (ι × E) × Config ι G X)
  | [], c => some ([], c)
  | p :: ps, c =>
    if ok c p.1 p.2 then
      (S.move c p.1 p.2).bind fun d =>
        (S.history ok label ps d).map fun r => (shown p.1 (label p.2 (c.loc p.1)) ++ r.1, r.2)
    else none

theorem hist_of_history [∀ c i a, Decidable (ok c i a)] (tr : List (ι × A))
    (hh : S.history ok label tr c = some (h, d)) : Hist S ok label c h d := by
  induction tr generalizing c h with
  | nil =>
    simp only [System.history, Option.some.injEq, Prod.mk.injEq] at hh
    obtain ⟨rfl, rfl⟩ := hh
    exact .refl
  | cons p ps ih =>
    simp only [System.history, Option.ite_none_right_eq_some, Option.bind_eq_some_iff,
      Option.map_eq_some_iff, Prod.mk.injEq] at hh
    obtain ⟨ho, e, hm, ⟨h₂, _⟩, hr, rfl, rfl⟩ := hh
    have hfirst : Hist S ok label c (shown p.1 (label p.2 (c.loc p.1))) e := by
      simpa using Hist.tail .refl ho hm
    exact hfirst.trans (ih hr)

theorem exists_hist_of_history [∀ c i a, Decidable (ok c i a)] (c : Config ι G X)
    (tr : List (ι × A)) (p : List (ι × E) → Config ι G X → Prop) [∀ h d, Decidable (p h d)]
    (hh : ((S.history ok label tr c).any fun r => decide (p r.1 r.2)) = true) :
    ∃ h d, Hist S ok label c h d ∧ p h d := by
  obtain ⟨⟨h, d⟩, hr, hp⟩ := (Option.any_eq_true _ _).mp hh
  exact ⟨h, d, hist_of_history tr hr, of_decide_eq_true hp⟩

/-- Forward simulation. -/
theorem Hist.simulate {G' X' A' : Type*} {T : System ι G' X' A'}
    {ok' : Config ι G' X' → ι → A' → Prop} {label' : A' → X' → Option E}
    {R : Config ι G X → Config ι G' X' → Prop}
    (hstep : ∀ c i a d c', R c c' → ok c i a → S.move c i a = some d →
      ∃ d', Hist T ok' label' c' (shown i (label a (c.loc i))) d' ∧ R d d')
    (hh : Hist S ok label c h d) {c' : Config ι G' X'} (hc : R c c') :
    ∃ d', Hist T ok' label' c' h d' ∧ R d d' := by
  induction hh with
  | refl => exact ⟨c', .refl, hc⟩
  | tail _ ho hm ih =>
    obtain ⟨e', he', hR⟩ := ih
    obtain ⟨d', hd', hR'⟩ := hstep _ _ _ _ _ hR ho hm
    exact ⟨d', he'.trans hd', hR'⟩

/-! ### Atomic objects -/

variable {Q O R : Type*}

inductive Phase (O R : Type*) where
  | idle
  | called (o : O)
  | done (r : R)
  deriving DecidableEq

/-- Every operation takes effect in one step between its call and its return.
The action is the operation to call, or `none` to go on with the current one. -/
def atomicObject (ι : Type*) (apply : O → Q → Q × R) : System ι Q (Phase O R) (Option O) where
  step _ a q
    | .idle => a.map fun o => (q, .called o)
    | .called o => if a.isNone then some ((apply o q).1, .done (apply o q).2) else none
    | .done _ => if a.isNone then some (q, .idle) else none

def atomicLabel : Option O → Phase O R → Option (O ⊕ R)
  | some o, .idle => some (.inl o)
  | none, .done r => some (.inr r)
  | _, _ => none

section

variable {apply : O → Q → Q × R} {c : Config ι Q (Phase O R)} {i : ι}

theorem atomic_step {a : Option O} {q : Q} {p : Phase O R}
    (hs : (atomicObject ι apply).step i a c.shared (c.loc i) = some (q, p)) :
    Hist (atomicObject ι apply) (fun _ _ _ => True) atomicLabel c
      (shown i (atomicLabel a (c.loc i))) ⟨q, Function.update c.loc i p⟩ :=
  .single trivial hs

theorem atomic_call (hi : c.loc i = .idle) (o : O) :
    Hist (atomicObject ι apply) (fun _ _ _ => True) atomicLabel c [(i, .inl o)]
      ⟨c.shared, Function.update c.loc i (.called o)⟩ := by
  have hs : (atomicObject ι apply).step i (some o) c.shared (c.loc i) =
      some (c.shared, .called o) := by
    rw [hi]
    rfl
  have hstep := atomic_step hs
  rw [hi] at hstep
  exact hstep

theorem atomic_effect {o : O} (hi : c.loc i = .called o) :
    Hist (atomicObject ι apply) (fun _ _ _ => True) atomicLabel c []
      ⟨(apply o c.shared).1, Function.update c.loc i (.done (apply o c.shared).2)⟩ := by
  have hs : (atomicObject ι apply).step i none c.shared (c.loc i) =
      some ((apply o c.shared).1, .done (apply o c.shared).2) := by
    rw [hi]
    rfl
  have hstep := atomic_step hs
  rw [hi] at hstep
  exact hstep

theorem atomic_return {r : R} (hi : c.loc i = .done r) :
    Hist (atomicObject ι apply) (fun _ _ _ => True) atomicLabel c [(i, .inr r)]
      ⟨c.shared, Function.update c.loc i .idle⟩ := by
  have hs : (atomicObject ι apply).step i none c.shared (c.loc i) = some (c.shared, .idle) := by
    rw [hi]
    rfl
  have hstep := atomic_step hs
  rw [hi] at hstep
  exact hstep

end

/-- The histories of the atomic object started on `q`. -/
def Linearizes (apply : O → Q → Q × R) (q : Q) (h : List (ι × (O ⊕ R))) : Prop :=
  ∃ d, Hist (atomicObject ι apply) (fun _ _ _ => True) atomicLabel ⟨q, fun _ => .idle⟩ h d

end TinyStm.Interleave
