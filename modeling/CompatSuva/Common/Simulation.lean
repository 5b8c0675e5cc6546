import Mathlib

/-!
# Systems that simulate a specification

A system takes inputs one after another and gives an output to each. What it does is a
relation, for it may depend on more than the input. What it is for is a function on
abstract states, `none` at the inputs that are not allowed.

* `Simulates.runs`: what holds of the outputs and the states of the specification, over
  any inputs that are allowed, holds of the system;
* `Runs.unique`: a system whose steps are determined has one run for given inputs.
-/

namespace CompatSuva.Common

variable {σ α ι ο : Type}

/-- The system takes these inputs from the first state to the second, with these
    outputs. -/
inductive Runs (step : σ → ι → ο → σ → Prop) : σ → List ι → List ο → σ → Prop
  | nil {s : σ} : Runs step s [] [] s
  | cons {s s' s'' : σ} {i : ι} {o : ο} {is : List ι} {os : List ο} : step s i o s' →
      Runs step s' is os s'' → Runs step s (i :: is) (o :: os) s''

/-- The outputs of a specification, and its state then. -/
def specRun (spec : α → ι → Option (ο × α)) : α → List ι → Option (List ο × α)
  | a, [] => some ([], a)
  | a, i :: is =>
    (spec a i).bind fun r => (specRun spec r.2 is).map fun rs => (r.1 :: rs.1, rs.2)

/-- The system has a step for every input that is allowed. It gives the output of the
    specification, and the states are related afterwards as they were before. -/
def Simulates (step : σ → ι → ο → σ → Prop) (spec : α → ι → Option (ο × α))
    (rel : σ → α → Prop) : Prop :=
  ∀ ⦃s a i o a'⦄, rel s a → spec a i = some (o, a') → ∃ s', step s i o s' ∧ rel s' a'

/-- No input can be answered in two ways. -/
def Deterministic (step : σ → ι → ο → σ → Prop) : Prop :=
  ∀ ⦃s i o o' s' s''⦄, step s i o s' → step s i o' s'' → o = o' ∧ s' = s''

variable {step : σ → ι → ο → σ → Prop} {spec : α → ι → Option (ο × α)} {rel : σ → α → Prop}
  {s s' : σ} {a a' : α} {i : ι} {o : ο} {is : List ι} {os os' : List ο}

@[simp] theorem specRun_nil : specRun spec a [] = some ([], a) := rfl

theorem specRun_cons : specRun spec a (i :: is) = some (os, a') ↔
    ∃ o b os', spec a i = some (o, b) ∧ specRun spec b is = some (os', a') ∧ os = o :: os' := by
  constructor
  · intro h
    obtain ⟨⟨o, b⟩, hstep, hrest⟩ := Option.bind_eq_some_iff.mp h
    obtain ⟨⟨os', b'⟩, hrun, heq⟩ := Option.map_eq_some_iff.mp hrest
    obtain ⟨rfl, rfl⟩ := Prod.mk.inj heq
    exact ⟨o, b, os', hstep, hrun, rfl⟩
  · rintro ⟨o, b, os', hstep, hrun, rfl⟩
    simp [specRun, hstep, hrun]

theorem specRun_append {is' : List ι} (h : specRun spec a (is ++ is') = some (os, a')) :
    ∃ b os₁ os₂, specRun spec a is = some (os₁, b) ∧ specRun spec b is' = some (os₂, a') := by
  induction is generalizing a os with
  | nil => exact ⟨a, [], os, rfl, h⟩
  | cons i is ih =>
    obtain ⟨o, b, os', hstep, hrun, rfl⟩ := specRun_cons.mp h
    obtain ⟨c, os₁, os₂, hrun₁, hrun₂⟩ := ih hrun
    exact ⟨c, o :: os₁, os₂, specRun_cons.mpr ⟨o, b, os₁, hstep, hrun₁, rfl⟩, hrun₂⟩

/-- What every allowed input keeps, the inputs keep. -/
theorem specRun_keeps {P : α → Prop}
    (hkeeps : ∀ b i o b', i ∈ is → spec b i = some (o, b') → P b → P b')
    (h : specRun spec a is = some (os, a')) (ha : P a) : P a' := by
  induction is generalizing a os with
  | nil =>
    obtain ⟨rfl, rfl⟩ := Prod.mk.inj (Option.some.inj h)
    exact ha
  | cons i is ih =>
    obtain ⟨o, b, os', hstep, hrun, rfl⟩ := specRun_cons.mp h
    exact ih (fun c j o' c' hj => hkeeps c j o' c' (List.mem_cons_of_mem _ hj)) hrun
      (hkeeps _ _ _ _ List.mem_cons_self hstep ha)

/-- What the specification allows, the system does. -/
theorem Simulates.runs (h : Simulates step spec rel) (hrel : rel s a)
    (hspec : specRun spec a is = some (os, a')) : ∃ s', Runs step s is os s' ∧ rel s' a' := by
  induction is generalizing s a os with
  | nil =>
    obtain ⟨rfl, rfl⟩ := Prod.mk.inj (Option.some.inj hspec)
    exact ⟨s, .nil, hrel⟩
  | cons i is ih =>
    obtain ⟨o, b, os', hstep, hrun, rfl⟩ := specRun_cons.mp hspec
    obtain ⟨s₁, hs₁, hrel₁⟩ := h hrel hstep
    obtain ⟨s', hs', hrel'⟩ := ih hrel₁ hrun
    exact ⟨s', .cons hs₁ hs', hrel'⟩

theorem Runs.unique {s'' : σ} (hdet : Deterministic step) (h : Runs step s is os s')
    (h' : Runs step s is os' s'') : os = os' ∧ s' = s'' := by
  induction h generalizing os' with
  | nil =>
    cases h' with
    | nil => exact ⟨rfl, rfl⟩
  | cons hstep _ ih =>
    cases h' with
    | cons hstep' hrun' =>
      obtain ⟨rfl, rfl⟩ := hdet hstep hstep'
      obtain ⟨rfl, rfl⟩ := ih hrun'
      exact ⟨rfl, rfl⟩

/-- A run over inputs and others after them. -/
theorem Runs.split {is' : List ι} (h : Runs step s (is ++ is') os s') :
    ∃ s₁ os₁ os₂, os = os₁ ++ os₂ ∧ os₁.length = is.length ∧ Runs step s is os₁ s₁ ∧
      Runs step s₁ is' os₂ s' := by
  induction is generalizing s os with
  | nil => exact ⟨s, [], os, rfl, rfl, .nil, h⟩
  | cons i is ih =>
    cases h with
    | cons hstep hrun =>
      obtain ⟨s₁, os₁, os₂, rfl, hlength, hrun₁, hrun₂⟩ := ih hrun
      exact ⟨s₁, _ :: os₁, os₂, rfl, congrArg Nat.succ hlength, .cons hstep hrun₁, hrun₂⟩

/-- When the steps are determined, every run of the system is that of the
    specification. -/
theorem Simulates.of_runs (h : Simulates step spec rel) (hdet : Deterministic step)
    (hrel : rel s a) (hspec : specRun spec a is = some (os, a')) (hrun : Runs step s is os' s') :
    os' = os ∧ rel s' a' := by
  obtain ⟨s₁, hs₁, hrel₁⟩ := h.runs hrel hspec
  obtain ⟨rfl, rfl⟩ := hs₁.unique hdet hrun
  exact ⟨rfl, hrel₁⟩

end CompatSuva.Common
