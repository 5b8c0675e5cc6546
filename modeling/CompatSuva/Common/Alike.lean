import CompatSuva.Common.Scanf

/-!
# Outcomes that are alike

The outcomes of two computations are alike when both have a result, and the results are related,
or both fail with the same error. The rules follow the structure of a `do` block, as those of
`Post` do.
-/

namespace CompatSuva.Common

variable {ε α β γ δ : Type}

/-- The results are related, or the errors are the same. -/
def Alike (R : α → β → Prop) : Except ε α → Except ε β → Prop
  | .ok a, .ok b => R a b
  | .error e, .error e' => e = e'
  | .ok _, .error _ => False
  | .error _, .ok _ => False

namespace Alike

variable {R R' : α → β → Prop} {S : γ → δ → Prop} {m : Except ε α} {m' : Except ε β}

theorem of_ok {a : α} {b : β} (h : R a b) : Alike R (.ok a : Except ε α) (.ok b) := h

theorem of_error (e : ε) : Alike R (.error e) (.error e) := rfl

theorem mono (h : Alike R m m') (hR : ∀ a b, R a b → R' a b) : Alike R' m m' := by
  cases m with
  | ok a =>
    cases m' with
    | ok b => exact hR a b h
    | error e => exact h
  | error e =>
    cases m' with
    | ok b => exact h
    | error e' => exact h

/-- The rule of composition. -/
theorem bind {f : α → Except ε γ} {f' : β → Except ε δ} (h : Alike R m m')
    (hf : ∀ a b, R a b → Alike S (f a) (f' b)) : Alike S (m >>= f) (m' >>= f') := by
  cases m with
  | ok a =>
    cases m' with
    | ok b => exact hf a b h
    | error e => exact absurd h not_false
  | error e =>
    cases m' with
    | ok b => exact absurd h not_false
    | error e' =>
      obtain rfl : e = e' := h
      exact of_error e

/-- The rule of iteration. -/
theorem foldlM {ι : Type} {step : α → ι → Except ε α} {step' : β → ι → Except ε β}
    (hstep : ∀ a b i, R a b → Alike R (step a i) (step' b i)) (l : List ι) {a : α} {b : β}
    (hab : R a b) : Alike R (l.foldlM step a) (l.foldlM step' b) := by
  induction l generalizing a b with
  | nil => exact of_ok hab
  | cons i l ih =>
    rw [List.foldlM_cons, List.foldlM_cons]
    apply bind (hstep a b i hab)
    intro a' b' hab'
    exact ih hab'

/-- The rule for a loop over the lines of a file. -/
theorem eachLine (size : ℕ) (starved : ε) {body : α → List Byte → Except ε α}
    {body' : β → List Byte → Except ε β}
    (hbody : ∀ a b line, R a b → Alike R (body a line) (body' b line)) (fuel : ℕ)
    (rest : List Byte) {a : α} {b : β} (hab : R a b) :
    Alike R (eachLine size starved body fuel rest a) (eachLine size starved body' fuel rest b) := by
  induction fuel generalizing rest a b with
  | zero => exact of_error starved
  | succ fuel ih =>
    unfold Common.eachLine
    cases fgets size rest with
    | none => exact of_ok hab
    | some piece =>
      apply bind (hbody a b (cstr piece) hab)
      intro a' b' hab'
      exact ih _ hab'

theorem ok_right (h : Alike R m m') {b : β} (hm : m' = .ok b) : ∃ a, m = .ok a ∧ R a b := by
  subst hm
  cases m with
  | ok a => exact ⟨a, rfl, h⟩
  | error e => exact absurd h not_false

theorem ok_left (h : Alike R m m') {a : α} (hm : m = .ok a) : ∃ b, m' = .ok b ∧ R a b := by
  subst hm
  cases m' with
  | ok b => exact ⟨b, rfl, h⟩
  | error e => exact absurd h not_false

end Alike

end CompatSuva.Common
