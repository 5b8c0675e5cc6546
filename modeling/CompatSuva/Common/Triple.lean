import Mathlib

/-!
# Steps that can halt

A step on a state `σ` gives a result or halts, and the state it leaves is there either way:
`ExceptT ε (StateM σ)`. `Triple P m Q E` is partial correctness for such steps: from a state with
`P`, a result leaves `Q` and a halt leaves `E`. The rules follow the structure of a `do` block.
-/

namespace CompatSuva.Common

variable {ε ε' σ α β : Type}

/-- Steps on `σ` that can halt with `ε`. -/
abbrev Halting (ε σ α : Type) := ExceptT ε (StateM σ) α

/-- How a step ends. -/
def Halting.runOn (m : Halting ε σ α) (s : σ) : Except ε α × σ := m s

/-- The step `m`, if `c`. -/
def onlyIf (c : Prop) [Decidable c] (m : Halting ε σ Unit) : Halting ε σ Unit :=
  if c then m else pure ()

/-- What holds at the end: `Q` of a result, `E` of a halt. -/
def Ends (Q : α → σ → Prop) (E : ε → σ → Prop) : Except ε α × σ → Prop
  | (.ok a, s) => Q a s
  | (.error e, s) => E e s

/-- From a state with `P` a result leaves `Q`, and a halt `E`. -/
def Triple (P : σ → Prop) (m : Halting ε σ α) (Q : α → σ → Prop) (E : ε → σ → Prop) : Prop :=
  ∀ s, P s → Ends Q E (m.runOn s)

theorem Ends.mono {Q Q' : α → σ → Prop} {E E' : ε → σ → Prop} {r : Except ε α × σ}
    (h : Ends Q E r) (hQ : ∀ a s, Q a s → Q' a s) (hE : ∀ e s, E e s → E' e s) : Ends Q' E' r := by
  obtain ⟨r, s⟩ := r
  cases r with
  | ok a => exact hQ a s h
  | error e => exact hE e s h

/-- A run of which the outcome is known leaves some state. -/
theorem leaves_of_outcome {r : Except ε α × σ} {a : Except ε α} (h : r.1 = a) :
    ∃ s, r = (a, s) := by
  subst h
  exact ⟨r.2, rfl⟩

theorem Halting.runOn_bind (m : Halting ε σ α) (f : α → Halting ε σ β) (s : σ) :
    (m >>= f).runOn s =
      match m.runOn s with
      | (.ok a, s') => (f a).runOn s'
      | (.error e, s') => (.error e, s') := by
  cases h : m.runOn s with
  | mk r s' =>
    have h' : m s = (r, s') := h
    cases r with
    | ok a =>
      simp only [Halting.runOn, bind, ExceptT.bind, ExceptT.mk, ExceptT.bindCont, StateT.bind, h']
    | error e =>
      simp only [Halting.runOn, bind, ExceptT.bind, ExceptT.mk, ExceptT.bindCont, StateT.bind, h']
      rfl

namespace Triple

variable {P P' : σ → Prop} {Q Q' : α → σ → Prop} {R : β → σ → Prop} {E E' : ε → σ → Prop}
  {m : Halting ε σ α}

theorem pure (a : α) : Triple (Q a) (Pure.pure a : Halting ε σ α) Q E := fun _ h => h

theorem throw (e : ε) : Triple (E e) (MonadExcept.throw e : Halting ε σ α) Q E := fun _ h => h

/-- The rule of consequence. -/
theorem mono (h : Triple P m Q E) (hP : ∀ s, P' s → P s) (hQ : ∀ a s, Q a s → Q' a s)
    (hE : ∀ e s, E e s → E' e s) : Triple P' m Q' E' :=
  fun s hs => (h s (hP s hs)).mono hQ hE

/-- The rule of composition. -/
theorem bind {f : α → Halting ε σ β} (h : Triple P m Q E) (hf : ∀ a, Triple (Q a) (f a) R E) :
    Triple P (m >>= f) R E := by
  intro s hs
  have hm := h s hs
  rw [Halting.runOn_bind]
  cases hrun : m.runOn s with
  | mk r s' =>
    rw [hrun] at hm
    cases r with
    | ok a => exact hf a s' hm
    | error e => exact hm

theorem ite {c : Prop} [Decidable c] {m' : Halting ε σ α} (h : c → Triple P m Q E)
    (h' : ¬ c → Triple P m' Q E) : Triple P (if c then m else m') Q E := by
  split_ifs with hc
  · exact h hc
  · exact h' hc

theorem onlyIf {c : Prop} [Decidable c] {k : Halting ε σ Unit} {Q : Unit → σ → Prop}
    (h : c → Triple P k Q E) (h' : ¬ c → ∀ s, P s → Q () s) : Triple P (onlyIf c k) Q E :=
  ite h fun hc => (pure ()).mono (h' hc) (fun _ _ hq => hq) fun _ _ he => he

/-- Reading the state. -/
theorem bind_get {f : σ → Halting ε σ β} (h : ∀ s, P s → Ends R E ((f s).runOn s)) :
    Triple P (get >>= f) R E := by
  intro s hs
  rw [Halting.runOn_bind]
  exact h s hs

theorem modify {Q : Unit → σ → Prop} (f : σ → σ) (h : ∀ s, P s → Q () (f s)) :
    Triple P (modify f : Halting ε σ Unit) Q E := fun s hs => h s hs

end Triple

end CompatSuva.Common
