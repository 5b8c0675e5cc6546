import Mathlib

/-!
# Words that are added by xor

Maps on machine words that distribute over `^^^`: linear maps over the field of two elements.
Such a map is determined by its values on the words with one bit set, so that an equation
between two of them, or a left inverse, can be checked on these.

* `XorLinear.ext`: two maps that agree on the words with one bit;
* `columns`: the map with given values there;
* `XorLinear.map_xorSum`: such a map goes through sums.
-/

namespace CompatSuva.Common

variable {u v w : ℕ}

/-- The map distributes over xor. -/
def XorLinear (f : BitVec w → BitVec v) : Prop := ∀ x y, f (x ^^^ y) = f x ^^^ f y

namespace XorLinear

variable {f g : BitVec w → BitVec v}

theorem map_zero (h : XorLinear f) : f 0 = 0 := by
  have h0 := h 0 0
  rw [BitVec.xor_self, BitVec.xor_self] at h0
  exact h0

theorem id : XorLinear (fun x : BitVec w => x) := fun _ _ => rfl

theorem zero : XorLinear fun _ : BitVec w => (0 : BitVec v) := fun _ _ => BitVec.xor_self.symm

theorem comp {k : BitVec v → BitVec u} (hk : XorLinear k) (h : XorLinear f) :
    XorLinear fun x => k (f x) := by
  intro x y
  show k (f (x ^^^ y)) = k (f x) ^^^ k (f y)
  rw [h, hk]

theorem xor (h : XorLinear f) (h' : XorLinear g) : XorLinear fun x => f x ^^^ g x := by
  intro x y
  show f (x ^^^ y) ^^^ g (x ^^^ y) = (f x ^^^ g x) ^^^ (f y ^^^ g y)
  rw [h, h']
  ac_rfl

theorem and (m : BitVec w) : XorLinear fun x : BitVec w => x &&& m := by
  intro x y
  ext i hi
  simp only [BitVec.getElem_and, BitVec.getElem_xor, Bool.and_xor_distrib_right]

theorem ushiftRight (k : ℕ) : XorLinear fun x : BitVec w => x >>> k :=
  fun x y => BitVec.ushiftRight_xor_distrib x y k

theorem sshiftRight (k : ℕ) : XorLinear fun x : BitVec w => x.sshiftRight k :=
  fun x y => BitVec.sshiftRight_xor_distrib x y k

/-- A constant, if a bit is set. -/
theorem ite_getLsbD (k : ℕ) (c : BitVec v) :
    XorLinear fun x : BitVec w => if x.getLsbD k then c else 0 := by
  intro x y
  simp only [BitVec.getLsbD_xor]
  cases x.getLsbD k <;> cases y.getLsbD k <;> simp

theorem iterate {f : BitVec w → BitVec w} (h : XorLinear f) (k : ℕ) : XorLinear f^[k] := by
  induction k with
  | zero => exact id
  | succ k ih =>
    rw [Function.iterate_succ]
    exact ih.comp h

/-- What holds on the words with one bit holds everywhere. -/
theorem ext (hf : XorLinear f) (hg : XorLinear g)
    (h : ∀ i < w, f (BitVec.twoPow w i) = g (BitVec.twoPow w i)) (x : BitVec w) : f x = g x := by
  -- by the number of low bits that may be set
  have hlow : ∀ k, k ≤ w → ∀ x : BitVec w, (∀ i, k ≤ i → x.getLsbD i = false) → f x = g x := by
    intro k
    induction k with
    | zero =>
      intro _ x hx
      have hzero : x = 0 := by
        apply BitVec.eq_of_getLsbD_eq
        intro i _
        simp [hx i (Nat.zero_le i)]
      rw [hzero, hf.map_zero, hg.map_zero]
    | succ k ih =>
      intro hk x hx
      cases hbit : x.getLsbD k with
      | false =>
        refine ih (by omega) x fun i hi => ?_
        obtain rfl | hlt := Nat.eq_or_lt_of_le hi
        · exact hbit
        · exact hx i hlt
      | true =>
        have hrest := ih (by omega) (x ^^^ BitVec.twoPow w k) fun i hi => by
          rw [BitVec.getLsbD_xor, BitVec.getLsbD_twoPow]
          obtain rfl | hlt := Nat.eq_or_lt_of_le hi
          · simp [hbit]
            omega
          · simp [hx i hlt]
            omega
        have hsplit : x = (x ^^^ BitVec.twoPow w k) ^^^ BitVec.twoPow w k := by
          rw [BitVec.xor_assoc, BitVec.xor_self, BitVec.xor_zero]
        rw [hsplit, hf, hg, hrest, h k (by omega)]
  exact hlow w le_rfl x fun i hi => BitVec.getLsbD_of_ge x i hi

/-- A map with a left inverse takes nothing but 0 to 0. -/
theorem eq_zero_of_leftInverse {k : BitVec v → BitVec w} (hk : XorLinear k)
    (hinv : ∀ x, k (f x) = x) {x : BitVec w} (h : f x = 0) : x = 0 := by
  rw [← hinv x, h, hk.map_zero]

end XorLinear

/-- The map that takes the word with bit `i` alone to the `i`-th of `cs`, from bit `k` on. -/
def columns (k : ℕ) : List (BitVec v) → BitVec w → BitVec v
  | [], _ => 0
  | c :: cs, x => (if x.getLsbD k then c else 0) ^^^ columns (k + 1) cs x

theorem xorLinear_columns (cs : List (BitVec v)) (k : ℕ) :
    XorLinear (columns k cs : BitVec w → BitVec v) := by
  induction cs generalizing k with
  | nil =>
    intro x y
    simp [columns]
  | cons c cs ih => exact (XorLinear.ite_getLsbD k c).xor (ih (k + 1))

/-! ## Sums -/

/-- The words of a list, added. -/
def xorSum (l : List (BitVec w)) : BitVec w := l.foldr (· ^^^ ·) 0

@[simp] theorem xorSum_nil : xorSum ([] : List (BitVec w)) = 0 := rfl

@[simp] theorem xorSum_cons (x : BitVec w) (l : List (BitVec w)) :
    xorSum (x :: l) = x ^^^ xorSum l := rfl

theorem xorSum_append (l l' : List (BitVec w)) : xorSum (l ++ l') = xorSum l ^^^ xorSum l' := by
  induction l with
  | nil => exact BitVec.zero_xor.symm
  | cons x l ih => rw [List.cons_append, xorSum_cons, ih, xorSum_cons, BitVec.xor_assoc]

theorem XorLinear.map_xorSum {f : BitVec w → BitVec v} (h : XorLinear f) (l : List (BitVec w)) :
    f (xorSum l) = xorSum (l.map f) := by
  induction l with
  | nil => exact h.map_zero
  | cons x l ih => rw [xorSum_cons, h, ih, List.map_cons, xorSum_cons]

/-- A bit clear in every summand is clear in the sum. -/
theorem getLsbD_xorSum {l : List (BitVec w)} {i : ℕ} (h : ∀ x ∈ l, x.getLsbD i = false) :
    (xorSum l).getLsbD i = false := by
  induction l with
  | nil => simp
  | cons x l ih =>
    rw [xorSum_cons, BitVec.getLsbD_xor, h x List.mem_cons_self,
      ih fun y hy => h y (List.mem_cons_of_mem x hy)]
    rfl

end CompatSuva.Common
