import CompatSuva.Common.Simulation

/-!
# A process with a table of descriptors

The table of a process has room for a number of descriptors. What answers a request takes some
and gives some back. Those that it does not give back are missing at every later request.

* `Costs.runs`: what is left after any requests;
* `Costs.bounded`: how many requests there can be that do not give everything back;
* `Costs.refused`: once too few are left, requests are refused for ever.
-/

namespace CompatSuva.Common

/-- A descriptor is taken from the table, or given back. -/
inductive Use where
  | take
  | give
  deriving DecidableEq, Repr

/-- How many are free afterwards; `none` if none was free when one was to be taken. -/
def afterUses : ℕ → List Use → Option ℕ
  | free, [] => some free
  | 0, .take :: _ => none
  | free + 1, .take :: us => afterUses free us
  | free, .give :: us => afterUses (free + 1) us

theorem afterUses_take {free n : ℕ} {us : List Use} (h : afterUses free (.take :: us) = some n) :
    ∃ k, free = k + 1 ∧ afterUses k us = some n := by
  cases free with
  | zero => cases h
  | succ k => exact ⟨k, rfl, h⟩

theorem afterUses_give {free : ℕ} {us : List Use} :
    afterUses free (.give :: us) = afterUses (free + 1) us := by
  cases free with
  | zero => rfl
  | succ k => rfl

/-- What is taken and what is given make up the difference. -/
theorem afterUses_balance {free n : ℕ} {us : List Use} (h : afterUses free us = some n) :
    n + us.count .take = free + us.count .give := by
  induction us generalizing free with
  | nil =>
    rw [afterUses] at h
    obtain rfl := Option.some.inj h
    rfl
  | cons u us ih =>
    cases u with
    | take =>
      obtain ⟨k, rfl, hk⟩ := afterUses_take h
      have := ih hk
      rw [List.count_cons_self, List.count_cons_of_ne (by decide)]
      omega
    | give =>
      rw [afterUses_give] at h
      have := ih h
      rw [List.count_cons_self, List.count_cons_of_ne (by decide)]
      omega

/-- So many are taken and not given back. -/
def Kept (us : List Use) (n : ℕ) : Prop := us.count .take = us.count .give + n

instance (us : List Use) (n : ℕ) : Decidable (Kept us n) := inferInstanceAs (Decidable (_ = _))

theorem Kept.append {us us' : List Use} {n n' : ℕ} (h : Kept us n) (h' : Kept us' n') :
    Kept (us ++ us') (n + n') := by
  unfold Kept at *
  rw [List.count_append, List.count_append]
  omega

/-! ## Requests -/

variable {σ ι ο : Type}

/-- The process, with what is free in its table. A request is answered only in a way for which there
    are enough. -/
def WithTable (answers : σ → ι → ο → List Use → σ → Prop) (s : ℕ × σ) (i : ι) (o : ο)
    (s' : ℕ × σ) : Prop :=
  ∃ us, answers s.2 i o us s'.2 ∧ afterUses s.1 us = some s'.1

/-- What an answer costs is not given back. -/
def Costs (answers : σ → ι → ο → List Use → σ → Prop) (cost : ι → ο → ℕ) : Prop :=
  ∀ ⦃s i o us s'⦄, answers s i o us s' → Kept us (cost i o)

variable {answers : σ → ι → ο → List Use → σ → Prop} {cost : ι → ο → ℕ} {s s' : ℕ × σ}
  {i : ι} {o : ο} {is : List ι} {os : List ο}

theorem Costs.step (h : Costs answers cost) (hstep : WithTable answers s i o s') :
    s'.1 + cost i o = s.1 := by
  obtain ⟨us, hanswers, hafter⟩ := hstep
  have hkept := h hanswers
  have := afterUses_balance hafter
  unfold Kept at hkept
  omega

/-- What requests cost is missing. -/
theorem Costs.runs (h : Costs answers cost) (hrun : Runs (WithTable answers) s is os s') :
    s'.1 + (List.zipWith cost is os).sum = s.1 := by
  induction hrun with
  | nil => rfl
  | cons hstep _ ih =>
    have := h.step hstep
    rw [List.zipWith_cons_cons, List.sum_cons]
    omega

/-- The same, where the cost is known from the request. -/
theorem Costs.runs_map {price : ι → ℕ} (h : Costs answers fun i _ => price i)
    (hrun : Runs (WithTable answers) s is os s') : s'.1 + (is.map price).sum = s.1 := by
  induction hrun with
  | nil => rfl
  | cons hstep _ ih =>
    have := h.step hstep
    rw [List.map_cons, List.sum_cons]
    omega

/-- Where some requests cost one descriptor, they are counted. -/
theorem Costs.count {p : ι → Bool} (h : Costs answers fun i _ => if p i then 1 else 0)
    (hrun : Runs (WithTable answers) s is os s') : s'.1 + is.countP p = s.1 := by
  induction hrun with
  | nil => rfl
  | cons hstep _ ih =>
    have := h.step hstep
    rw [List.countP_cons]
    omega

/-- There are no more requests that cost something than were free. -/
theorem Costs.bounded (h : Costs answers cost) {p : ι → Bool} (hp : ∀ i o, p i → 0 < cost i o)
    (hrun : Runs (WithTable answers) s is os s') : s'.1 + is.countP p ≤ s.1 := by
  induction hrun with
  | nil => exact Nat.le_refl _
  | @cons s s₁ s' i o is os hstep _ ih =>
    have := h.step hstep
    rw [List.countP_cons]
    split
    next hi =>
      have := hp i o hi
      omega
    next => omega

/-- With no more than `few` free, the only answers are refusals. -/
def Refuses (answers : σ → ι → ο → List Use → σ → Prop) (few : ℕ) (refusal : ι → ο → Prop) :
    Prop :=
  ∀ ⦃s i o s'⦄, s.1 ≤ few → WithTable answers s i o s' → refusal i o

/-- The table does not get larger, so that refusals are for ever. -/
theorem Costs.refused (h : Costs answers cost) {few : ℕ} {refusal : ι → ο → Prop}
    (hfew : Refuses answers few refusal) (hs : s.1 ≤ few)
    (hrun : Runs (WithTable answers) s is os s') : List.Forall₂ refusal is os := by
  induction hrun with
  | nil => exact .nil
  | cons hstep _ ih =>
    have := h.step hstep
    exact .cons (hfew hs hstep) (ih (by omega))

end CompatSuva.Common
