import Mathlib

/-!
# Outcomes of fallible steps

`Post E Q m` says what the outcome of `m` can be: a result that satisfies `Q`, or
an error that satisfies `E`. With `E := fun _ => True` it is partial correctness;
an `E` that leaves out an error says that the error does not occur. The rules
follow the structure of a `do` block.
-/

namespace CompatSuva.Common

variable {ε α β : Type}

@[simp] theorem ok_bind (a : α) (f : α → Except ε β) : (Except.ok a >>= f) = f a := rfl

@[simp] theorem error_bind (e : ε) (f : α → Except ε β) : (Except.error e >>= f) = .error e := rfl

@[simp] theorem map_ok (f : α → β) (a : α) : f <$> (Except.ok a : Except ε α) = .ok (f a) := rfl

@[simp] theorem error_map (f : α → β) (e : ε) : f <$> (Except.error e : Except ε α) = .error e :=
  rfl

/-- A block that has a result has one of each of its steps. -/
theorem bind_eq_ok {m : Except ε α} {f : α → Except ε β} {b : β} :
    (m >>= f) = .ok b ↔ ∃ a, m = .ok a ∧ f a = .ok b := by
  cases m with
  | ok a => exact ⟨fun h => ⟨a, rfl, h⟩, fun ⟨_, ha, h⟩ => Except.ok.inj ha ▸ h⟩
  | error e => exact ⟨fun h => (nomatch h), fun ⟨_, ha, _⟩ => (nomatch ha)⟩

/-- Results satisfy `Q`, errors satisfy `E`. -/
def Post (E : ε → Prop) (Q : α → Prop) : Except ε α → Prop
  | .ok a => Q a
  | .error e => E e

namespace Post

variable {E E' : ε → Prop} {Q : α → Prop} {R : β → Prop} {m : Except ε α}

theorem of_ok {a : α} (h : Q a) : Post E Q (.ok a) := h

theorem of_error {e : ε} (h : E e) : Post E Q (.error e) := h

/-- The rule of consequence. -/
theorem mono {Q' : α → Prop} (h : Post E Q m) (hE : ∀ e, E e → E' e) (hQ : ∀ a, Q a → Q' a) :
    Post E' Q' m := by
  cases m with
  | ok a => exact hQ a h
  | error e => exact hE e h

/-- The rule of composition. -/
theorem bind {f : α → Except ε β} (h : Post E Q m) (hf : ∀ a, Q a → Post E R (f a)) :
    Post E R (m >>= f) := by
  cases m with
  | ok a => exact hf a h
  | error e => exact h

theorem map {f : α → β} (h : Post E (fun a => R (f a)) m) : Post E R (f <$> m) := by
  cases m with
  | ok a => exact h
  | error e => exact h

theorem ok {a : α} (h : Post E Q m) (hm : m = .ok a) : Q a := by
  subst hm
  exact h

theorem error {e : ε} (h : Post E Q m) (hm : m = .error e) : E e := by
  subst hm
  exact h

/-- Where no error is possible, there is a result. -/
theorem returns (h : Post (fun _ => False) Q m) : ∃ a, m = .ok a ∧ Q a := by
  cases m with
  | ok a => exact ⟨a, rfl, h⟩
  | error e => exact h.elim

/-- The rule of iteration: what every step keeps, the fold keeps. -/
theorem foldlM {γ : Type} {step : α → γ → Except ε α} (hstep : ∀ a c, Q a → Post E Q (step a c))
    (l : List γ) {a : α} (ha : Q a) : Post E Q (l.foldlM step a) := by
  induction l generalizing a with
  | nil => exact ha
  | cons c l ih =>
    rw [List.foldlM_cons]
    apply bind (hstep a c ha)
    intro b hb
    exact ih hb

end Post

end CompatSuva.Common
