import CompatSuva.Common.Lines

/-!
# Splitting a string with `strtok`

`strtok` skips separators before a token, so that its tokens are the fields of the
string that are not empty (`tokens`).
-/

namespace CompatSuva.Common

variable {sep : Byte} {s rest token : List Byte}

/-- `strtok(s, sep)`: the token, and where `strtok(NULL, sep)` goes on. -/
def strtok (sep : Byte) (s : List Byte) : Option (List Byte × List Byte) :=
  match s.dropWhile (· = sep) with
  | [] => none
  | b :: bs => some ((b :: bs).takeWhile (· ≠ sep), ((b :: bs).dropWhile (· ≠ sep)).drop 1)

/-- The fields that are not empty. -/
def tokens (sep : Byte) (s : List Byte) : List (List Byte) := (s.splitOn sep).filter (· ≠ [])

@[simp] theorem tokens_nil (sep : Byte) : tokens sep [] = [] := by
  rw [tokens, List.splitOn_nil]
  rfl

theorem tokens_sep (sep : Byte) (s : List Byte) : tokens sep (sep :: s) = tokens sep s := by
  have h := List.splitOn_append_cons_self [] s (a := sep)
  rw [List.nil_append] at h
  rw [tokens, h, List.splitOn_nil]
  rfl

/-- Separators before a token count for nothing. -/
theorem tokens_dropWhile (sep : Byte) (s : List Byte) :
    tokens sep (s.dropWhile (· = sep)) = tokens sep s := by
  induction s with
  | nil => rfl
  | cons b s ih =>
    by_cases hb : b = sep
    · rw [List.dropWhile_cons_of_pos (by simpa using hb), ih, hb, tokens_sep]
    · rw [List.dropWhile_cons_of_neg (by simpa using hb)]

/-- The first token, up to a separator or the end. -/
theorem tokens_append (hne : token ≠ []) (htoken : sep ∉ token) :
    tokens sep (token ++ sep :: rest) = token :: tokens sep rest := by
  rw [tokens, List.splitOn_append_cons_self_of_not_mem htoken,
    List.filter_cons_of_pos (by simpa using hne), tokens]

theorem tokens_single (hne : token ≠ []) (htoken : sep ∉ token) : tokens sep token = [token] := by
  rw [tokens, List.splitOn_eq_singleton htoken, List.filter_cons_of_pos (by simpa using hne),
    List.filter_nil]

theorem strtok_none (h : strtok sep s = none) : tokens sep s = [] := by
  rw [strtok] at h
  rw [← tokens_dropWhile]
  split at h
  next hnil => rw [hnil, tokens_nil]
  next => exact absurd h (by simp)

/-- A call takes the first of the tokens. -/
theorem strtok_some (h : strtok sep s = some (token, rest)) :
    tokens sep s = token :: tokens sep rest := by
  rw [strtok] at h
  rw [← tokens_dropWhile]
  split at h
  next => exact absurd h (by simp)
  next b bs hdrop =>
    obtain ⟨rfl, rfl⟩ := Prod.mk.inj (Option.some.inj h)
    rw [hdrop]
    have hb : b ≠ sep := by
      have hhead := List.head?_dropWhile_not (fun c => decide (c = sep)) s
      rw [hdrop] at hhead
      simpa using hhead
    have hne : (b :: bs).takeWhile (· ≠ sep) ≠ [] := by
      rw [List.takeWhile_cons_of_pos (by simpa using hb)]
      exact List.cons_ne_nil _ _
    have htoken : sep ∉ (b :: bs).takeWhile (· ≠ sep) := by
      intro hmem
      simpa using List.mem_takeWhile_imp hmem
    have hsplit := (List.takeWhile_append_dropWhile (p := fun c => decide (c ≠ sep))
        (l := b :: bs)).symm
    cases hend : (b :: bs).dropWhile (· ≠ sep) with
    | nil =>
      rw [hend, List.append_nil] at hsplit
      rw [List.drop_nil, tokens_nil]
      rw [← hsplit] at hne htoken ⊢
      exact tokens_single hne htoken
    | cons c cs =>
      have hc : c = sep := by
        have hhead := List.head?_dropWhile_not (fun c => decide (c ≠ sep)) (b :: bs)
        rw [hend] at hhead
        simpa using hhead
      rw [hend, hc] at hsplit
      conv_lhs => rw [hsplit]
      exact tokens_append hne htoken

/-! ## Where tokens come from -/

theorem mem_intercalate_of_mem {fields : List (List Byte)} {field : List Byte} {b : Byte}
    (hfield : field ∈ fields) (hb : b ∈ field) : b ∈ [sep].intercalate fields := by
  induction fields with
  | nil => exact absurd hfield List.not_mem_nil
  | cons f fields ih =>
    cases fields with
    | nil =>
      rw [List.intercalate_singleton]
      exact List.mem_singleton.mp hfield ▸ hb
    | cons f' fields =>
      rw [List.intercalate_cons_cons, List.mem_append, List.mem_append]
      obtain rfl | hfield := List.mem_cons.mp hfield
      · exact Or.inl (Or.inl hb)
      · exact Or.inr (ih hfield)

theorem mem_intercalate {b : Byte} {fields : List (List Byte)}
    (h : b ∈ [sep].intercalate fields) : b = sep ∨ ∃ field ∈ fields, b ∈ field := by
  induction fields with
  | nil => exact absurd h List.not_mem_nil
  | cons field fields ih =>
    cases fields with
    | nil =>
      rw [List.intercalate_singleton] at h
      exact Or.inr ⟨field, List.mem_cons_self, h⟩
    | cons field' fields =>
      rw [List.intercalate_cons_cons, List.mem_append, List.mem_append, List.mem_singleton] at h
      obtain (h | h) | h := h
      · exact Or.inr ⟨field, List.mem_cons_self, h⟩
      · exact Or.inl h
      · obtain heq | ⟨f, hf, hb⟩ := ih h
        · exact Or.inl heq
        · exact Or.inr ⟨f, List.mem_cons_of_mem _ hf, hb⟩

/-- A token is not empty, and its characters are from the string. -/
theorem mem_tokens (h : token ∈ tokens sep s) : token ≠ [] ∧ ∀ b ∈ token, b ∈ s := by
  rw [tokens, List.mem_filter] at h
  refine ⟨by simpa using h.2, fun b hb => ?_⟩
  have hjoin : [sep].intercalate (s.splitOn sep) = s := List.intercalate_splitOn sep
  rw [← hjoin]
  exact mem_intercalate_of_mem h.1 hb

theorem length_intercalate (fields : List (List Byte)) :
    (fields.map fun f => f.length + 1).sum ≤ ([sep].intercalate fields).length + 1 := by
  induction fields with
  | nil => exact Nat.zero_le _
  | cons f fields ih =>
    cases fields with
    | nil =>
      rw [List.intercalate_singleton]
      exact le_refl _
    | cons f' fields =>
      rw [List.intercalate_cons_cons, List.map_cons, List.sum_cons, List.length_append,
        List.length_append, List.length_singleton]
      omega

/-- The tokens, each with one more character, are one longer than the string at most. -/
theorem sum_tokens_le (sep : Byte) (s : List Byte) :
    ((tokens sep s).map fun t => t.length + 1).sum ≤ s.length + 1 := by
  have hall := @length_intercalate sep (s.splitOn sep)
  rw [List.intercalate_splitOn] at hall
  exact (List.Sublist.sum_le_sum (List.filter_sublist.map _) fun _ _ => Nat.zero_le _).trans hall

theorem two_mul_length_le {ts : List (List Byte)} (h : ∀ t ∈ ts, t ≠ []) :
    2 * ts.length ≤ (ts.map fun t => t.length + 1).sum := by
  induction ts with
  | nil => exact le_refl _
  | cons t ts ih =>
    obtain ⟨ht, hts⟩ := List.forall_mem_cons.mp h
    have hpos := List.length_pos_iff.mpr ht
    have hrest := ih hts
    rw [List.length_cons, List.map_cons, List.sum_cons]
    omega

theorem length_tokens_le (sep : Byte) (s : List Byte) : (tokens sep s).length ≤ s.length := by
  have hsum := sum_tokens_le sep s
  have htwo := two_mul_length_le fun t (ht : t ∈ tokens sep s) => (mem_tokens ht).1
  omega

theorem fileOf_eq_intercalate (lines : List (List Byte)) (last : List Byte) :
    fileOf lines last = [10].intercalate (lines ++ [last]) := by
  induction lines with
  | nil => rw [List.nil_append, List.intercalate_singleton, fileOf, List.flatMap_nil,
    List.nil_append]
  | cons line lines ih =>
    rw [List.cons_append, List.intercalate_cons_of_ne_nil (by simp), ← ih, fileOf,
      List.flatMap_cons, List.append_assoc]
    rfl

/-- The tokens of a file of lines are the lines that are not empty. -/
theorem tokens_fileOf {lines : List (List Byte)} {last : List Byte}
    (h : ∀ line ∈ lines ++ [last], 10 ∉ line) :
    tokens 10 (fileOf lines last) = (lines ++ [last]).filter (· ≠ []) := by
  rw [tokens, fileOf_eq_intercalate, List.splitOn_intercalate 10 h (by simp)]

end CompatSuva.Common
