import CompatSuva.Common.Lines

/-!
# Strings in a block of memory

A block is the bytes that were allocated for it. A pointer into it is an index, and what is behind
its last byte must not be read. Cursors that split a string in place are at the lengths of what
they have passed: the lemmas here are about blocks cut there.

* `cstr_set`: a NUL put into a block cuts its string;
* `lastIdx`: where `rindex` finds a character, and the parts of the string before it and from it on.
-/

namespace CompatSuva.Common

variable {ε : Type}

/-- `p[0]`, for a pointer to byte `i`; `outside` is a read behind the block. -/
def byteAt (outside : ε) (block : List Byte) (i : ℕ) : Except ε Byte :=
  match block[i]? with
  | some b => .ok b
  | none => .error outside

/-- The string at byte `i`: reading it ends with a NUL. -/
def stringAt (outside : ε) (block : List Byte) (i : ℕ) : Except ε (List Byte) :=
  if (0 : Byte) ∈ block.drop i then .ok (cstr (block.drop i)) else .error outside

theorem byteAt_append (outside : ε) (before : List Byte) (b : Byte) (after : List Byte) {i : ℕ}
    (hi : i = before.length) : byteAt outside (before ++ b :: after) i = .ok b := by
  subst hi
  rw [byteAt, List.getElem?_append_right (Nat.le_refl _), Nat.sub_self, List.getElem?_cons_zero]

theorem byteAt_end (outside : ε) {block : List Byte} {i : ℕ} (hi : block.length ≤ i) :
    byteAt outside block i = .error outside := by
  rw [byteAt, List.getElem?_eq_none_iff.mpr hi]

theorem stringAt_append (outside : ε) (before : List Byte) {s : List Byte} (hs : (0 : Byte) ∉ s)
    (after : List Byte) :
    stringAt outside (before ++ (s ++ 0 :: after)) before.length = .ok s := by
  have hne : ∀ b ∈ s, decide (b ≠ 0) = true := by
    intro b hb
    simpa using fun h0 : b = 0 => hs (h0 ▸ hb)
  rw [stringAt, List.drop_left, if_pos (by simp), cstr, List.takeWhile_append_of_pos hne]
  simp

theorem set_append (before : List Byte) (b b' : Byte) (after : List Byte) {i : ℕ}
    (hi : i = before.length) : (before ++ b :: after).set i b' = before ++ b' :: after := by
  subst hi
  rw [List.set_append_right _ _ (Nat.le_refl _), Nat.sub_self, List.set_cons_zero]

/-- Putting a NUL into a block cuts its string. -/
theorem cstr_set (block : List Byte) {i : ℕ} (hi : i < block.length) :
    cstr (block.set i 0) = (cstr block).take i := by
  induction block generalizing i with
  | nil => exact absurd hi (Nat.not_lt_zero i)
  | cons b block ih =>
    cases i with
    | zero => rfl
    | succ i =>
      rw [List.length_cons] at hi
      rw [List.set_cons_succ, cstr, cstr]
      by_cases hb : b = 0
      · rw [List.takeWhile_cons_of_neg (by simpa using hb),
          List.takeWhile_cons_of_neg (by simpa using hb), List.take_nil]
      · rw [List.takeWhile_cons_of_pos (by simpa using hb),
          List.takeWhile_cons_of_pos (by simpa using hb), List.take_succ_cons]
        exact congrArg _ (ih (by omega))

/-- The string ends at the first NUL. -/
theorem cstr_append_cons (s rest : List Byte) : cstr (s ++ 0 :: rest) = cstr s := by
  induction s with
  | nil => rfl
  | cons b s ih =>
    by_cases hb : b = 0
    · rw [List.cons_append, cstr, cstr, List.takeWhile_cons_of_neg (by simpa using hb),
        List.takeWhile_cons_of_neg (by simpa using hb)]
    · rw [List.cons_append, cstr, cstr, List.takeWhile_cons_of_pos (by simpa using hb),
        List.takeWhile_cons_of_pos (by simpa using hb)]
      exact congrArg _ ih

/-- What is behind a NUL does not count. -/
theorem cstr_append {block : List Byte} (h : (0 : Byte) ∈ block) (rest : List Byte) :
    cstr (block ++ rest) = cstr block := by
  obtain ⟨before, after, rfl⟩ := List.append_of_mem h
  rw [List.append_assoc, List.cons_append, cstr_append_cons, cstr_append_cons]

/-- A block that does not end in its string has a NUL behind it. -/
theorem take_succ_cstr {block : List Byte} (h : (cstr block).length < block.length) :
    block.take ((cstr block).length + 1) = cstr block ++ [0] := by
  induction block with
  | nil => exact absurd h (Nat.not_lt_zero _)
  | cons b block ih =>
    by_cases hb : b = 0
    · rw [cstr, List.takeWhile_cons_of_neg (by simpa using hb), hb]
      rfl
    · have hcons : cstr (b :: block) = b :: cstr block :=
        List.takeWhile_cons_of_pos (by simpa using hb)
      rw [hcons, List.length_cons, List.length_cons] at h
      rw [hcons, List.length_cons, List.take_succ_cons, ih (by omega), List.cons_append]

theorem cstr_drop {block : List Byte} {i : ℕ} (hi : i ≤ (cstr block).length) :
    cstr (block.drop i) = (cstr block).drop i := by
  induction block generalizing i with
  | nil => rw [List.drop_nil, cstr, List.takeWhile_nil, List.drop_nil]
  | cons b block ih =>
    cases i with
    | zero => rfl
    | succ i =>
      by_cases hb : b = 0
      · rw [cstr, List.takeWhile_cons_of_neg (by simpa using hb)] at hi
        exact absurd hi (Nat.not_succ_le_zero i)
      · have hcons : cstr (b :: block) = b :: cstr block :=
          List.takeWhile_cons_of_pos (by simpa using hb)
        rw [hcons, List.length_cons] at hi
        rw [List.drop_succ_cons, hcons, List.drop_succ_cons, ih (by omega)]

/-! ## The last of a kind -/

variable {α : Type}

/-- The index of the last element with `p`. -/
def lastIdx (p : α → Bool) : List α → Option ℕ
  | [] => none
  | a :: s =>
    match lastIdx p s with
    | some i => some (i + 1)
    | none => if p a then some 0 else none

/-- What is before it; all if there is none. -/
def beforeLast (p : α → Bool) (s : List α) : List α :=
  match lastIdx p s with
  | some i => s.take i
  | none => s

/-- It and what is behind it; nothing if there is none. -/
def fromLast (p : α → Bool) (s : List α) : List α :=
  match lastIdx p s with
  | some i => s.drop i
  | none => []

variable {p : α → Bool}

theorem lastIdx_eq_none {s : List α} : lastIdx p s = none ↔ ∀ a ∈ s, p a = false := by
  induction s with
  | nil => simp [lastIdx]
  | cons a s ih =>
    rw [List.forall_mem_cons, lastIdx]
    cases hrest : lastIdx p s with
    | some i =>
      have hne : ¬ ∀ a ∈ s, p a = false := fun h => by simp [ih.mpr h] at hrest
      simp [hne]
    | none =>
      have hall := ih.mp hrest
      simp only [ite_eq_right_iff, reduceCtorEq, imp_false, Bool.not_eq_true]
      exact ⟨fun ha => ⟨ha, hall⟩, fun h => h.1⟩

theorem lastIdx_append {before : List α} {a : α} (ha : p a) {after : List α}
    (hafter : ∀ b ∈ after, p b = false) :
    lastIdx p (before ++ a :: after) = some before.length := by
  induction before with
  | nil =>
    rw [List.nil_append, lastIdx, lastIdx_eq_none.mpr hafter]
    exact if_pos ha
  | cons b before ih =>
    rw [List.cons_append, lastIdx, ih]
    rfl

theorem lastIdx_concat (p : α → Bool) (s : List α) (a : α) :
    lastIdx p (s ++ [a]) = if p a then some s.length else lastIdx p s := by
  induction s with
  | nil => rfl
  | cons b s ih =>
    rw [List.cons_append, lastIdx, ih]
    by_cases ha : p a
    · rw [if_pos ha, if_pos ha]
      rfl
    · rw [if_neg ha, if_neg ha, lastIdx]

theorem lastIdx_some {s : List α} {i : ℕ} (h : lastIdx p s = some i) :
    ∃ before a after, s = before ++ a :: after ∧ before.length = i ∧ p a ∧
      ∀ b ∈ after, p b = false := by
  induction s generalizing i with
  | nil => cases h
  | cons a s ih =>
    rw [lastIdx] at h
    cases hrest : lastIdx p s with
    | some j =>
      obtain ⟨before, b, after, rfl, hlength, hb, hafter⟩ := ih hrest
      rw [hrest] at h
      exact ⟨a :: before, b, after, rfl, by simpa [hlength] using h, hb, hafter⟩
    | none =>
      rw [hrest] at h
      by_cases ha : p a
      · rw [if_pos ha] at h
        exact ⟨[], a, s, rfl, Option.some.inj h, ha, lastIdx_eq_none.mp hrest⟩
      · rw [if_neg ha] at h
        cases h

theorem beforeLast_append_fromLast (p : α → Bool) (s : List α) :
    beforeLast p s ++ fromLast p s = s := by
  unfold beforeLast fromLast
  cases lastIdx p s with
  | some i => exact List.take_append_drop i s
  | none => exact List.append_nil s

theorem beforeLast_append {before : List α} {a : α} (ha : p a) {after : List α}
    (hafter : ∀ b ∈ after, p b = false) : beforeLast p (before ++ a :: after) = before := by
  rw [beforeLast, lastIdx_append ha hafter]
  exact List.take_left

theorem fromLast_append {before : List α} {a : α} (ha : p a) {after : List α}
    (hafter : ∀ b ∈ after, p b = false) : fromLast p (before ++ a :: after) = a :: after := by
  rw [fromLast, lastIdx_append ha hafter]
  exact List.drop_left

theorem beforeLast_none {s : List α} (h : ∀ a ∈ s, p a = false) : beforeLast p s = s := by
  rw [beforeLast, lastIdx_eq_none.mpr h]

theorem fromLast_none {s : List α} (h : ∀ a ∈ s, p a = false) : fromLast p s = [] := by
  rw [fromLast, lastIdx_eq_none.mpr h]

/-- Both parts, with something in front that has none. -/
theorem last_append_left {before : List α} (hbefore : ∀ a ∈ before, p a = false) (s : List α) :
    beforeLast p (before ++ s) = before ++ beforeLast p s ∧
      fromLast p (before ++ s) = fromLast p s := by
  cases h : lastIdx p s with
  | some i =>
    obtain ⟨before', a, after, rfl, -, ha, hafter⟩ := lastIdx_some h
    rw [beforeLast_append ha hafter, fromLast_append ha hafter, ← List.append_assoc,
      beforeLast_append ha hafter, fromLast_append ha hafter]
    exact ⟨rfl, rfl⟩
  | none =>
    have hall := lastIdx_eq_none.mp h
    have hboth : ∀ a ∈ before ++ s, p a = false :=
      fun a ha => (List.mem_append.mp ha).elim (hbefore a) (hall a)
    rw [beforeLast_none hall, fromLast_none hall, beforeLast_none hboth, fromLast_none hboth]
    exact ⟨rfl, rfl⟩

theorem fromLast_eq_nil {s : List α} : fromLast p s = [] ↔ ∀ a ∈ s, p a = false := by
  refine ⟨fun h => ?_, fromLast_none⟩
  cases hlast : lastIdx p s with
  | none => exact lastIdx_eq_none.mp hlast
  | some i =>
    obtain ⟨before, a, after, rfl, -, ha, hafter⟩ := lastIdx_some hlast
    rw [fromLast_append ha hafter] at h
    cases h

theorem lastIdx_of_fromLast {s : List α} (h : fromLast p s ≠ []) :
    lastIdx p s = some (beforeLast p s).length := by
  cases hlast : lastIdx p s with
  | none => exact absurd (fromLast_none (lastIdx_eq_none.mp hlast)) h
  | some i =>
    obtain ⟨before, a, after, rfl, rfl, ha, hafter⟩ := lastIdx_some hlast
    rw [beforeLast_append ha hafter]

end CompatSuva.Common
