import CompatSuva.Common.Scanf
import CompatSuva.Common.Tokens
import CompatSuva.Audit.Buffer

/-!
# `SecurityAudit_get_uid_zeros`

The function (`SecurityAudit.c` lines 253–274) takes the third token of a line for its
third field, but `strtok` passes over empty fields: what it looks at is the third field
that is not empty. In a line with two such fields the third call returns NULL, which
`strcmp` is given.

* `foldlM_countZero`: what the loop counts;
* `getUidZeros_iff`: when the number returned is that of the lines with uid 0.
-/

namespace CompatSuva.Audit

open CompatSuva.Common CompatSuva.Scl

/-! ## Model -/

/-- The condition of the loop (lines 265–266). `strcmp` of a NULL pointer is undefined. -/
def uidZero (line : List Byte) : Except Halt Bool :=
  match strtok 58 line with
  | none => .ok false
  | some (_, rest) =>
    match strtok 58 rest with
    | none => .ok false
    | some (_, rest) =>
      match strtok 58 rest with
      | none => .error .undefined
      | some (uid, _) => .ok (uid = chars "0")

/-- A round of the loop (lines 264–268); `num_ids` is an `int`. -/
def countZero (numIds : ℕ) (line : List Byte) : Except Halt ℕ := do
  let zero ← uidZero line
  if zero then
    if numIds + 1 < 2 ^ 31 then .ok (numIds + 1) else .error .undefined
  else .ok numIds

/-- `SecurityAudit_get_uid_zeros`; `none` is a file that cannot be opened. -/
def getUidZeros : Option (List Byte) → Except Halt ℤ
  | none => .ok (-1)
  | some file => Int.ofNat <$> eachLine lineLength .starved countZero (file.length + 1) file 0

/-! ## The loop -/

/-- The tokens of a piece of the file. -/
def pieceTokens (piece : List Byte) : List (List Byte) := tokens 58 (cstr piece)

/-- The third token is `0`. -/
def countsZero (piece : List Byte) : Bool := (pieceTokens piece)[2]? = some (chars "0")

theorem uidZero_spec (piece : List Byte) :
    uidZero (cstr piece) =
      if (pieceTokens piece).length = 2 then .error .undefined else .ok (countsZero piece) := by
  rw [uidZero]
  cases h₁ : strtok 58 (cstr piece) with
  | none =>
    have htokens : pieceTokens piece = [] := strtok_none h₁
    simp [countsZero, htokens]
  | some t =>
    obtain ⟨t, rest⟩ := t
    have htokens : pieceTokens piece = t :: tokens 58 rest := strtok_some h₁
    cases h₂ : strtok 58 rest with
    | none => simp [countsZero, htokens, strtok_none h₂, h₂]
    | some u =>
      obtain ⟨u, rest'⟩ := u
      rw [strtok_some h₂] at htokens
      cases h₃ : strtok 58 rest' with
      | none => simp [htokens, strtok_none h₃, h₂, h₃]
      | some v =>
        obtain ⟨v, rest''⟩ := v
        rw [strtok_some h₃] at htokens
        simp [countsZero, htokens, h₂, h₃]

/-- The loop returns if no piece has two tokens, and then the number of those whose third
    token is `0`. -/
theorem foldlM_countZero (ps : List (List Byte)) {n : ℕ} (hn : n < 2 ^ 31) (r : ℕ) :
    (ps.map cstr).foldlM countZero n = .ok r ↔
      (∀ piece ∈ ps, (pieceTokens piece).length ≠ 2) ∧
        n + ps.countP countsZero < 2 ^ 31 ∧ r = n + ps.countP countsZero := by
  induction ps generalizing n with
  | nil =>
    rw [List.countP_nil, Nat.add_zero]
    constructor
    · intro heq
      exact ⟨fun _ hmem => absurd hmem List.not_mem_nil, hn, (Except.ok.inj heq).symm⟩
    · intro h
      exact congrArg Except.ok h.2.2.symm
  | cons piece ps ih =>
    rw [List.map_cons, List.foldlM_cons, countZero, uidZero_spec, List.forall_mem_cons]
    by_cases htwo : (pieceTokens piece).length = 2
    · simp [htwo]
    · rw [if_neg htwo, ok_bind]
      cases hzero : countsZero piece with
      | false =>
        rw [List.countP_cons_of_neg (by simp [hzero])]
        simp only [Bool.false_eq_true, if_false, ok_bind, ih hn, ne_eq, htwo, not_false_eq_true,
          true_and]
      | true =>
        rw [List.countP_cons_of_pos hzero, if_pos rfl]
        by_cases hmax : n + 1 < 2 ^ 31
        · rw [if_pos hmax, ok_bind, ih hmax]
          have hsum : n + 1 + ps.countP countsZero = n + (ps.countP countsZero + 1) := by omega
          rw [hsum]
          simp only [ne_eq, htwo, not_false_eq_true, true_and]
        · rw [if_neg hmax, error_bind]
          refine iff_of_false (by simp) ?_
          intro h
          omega

/-! ## Lines of seven fields -/

/-- A line with the given fields. -/
def record (fields : List (List Byte)) : List Byte := [58].intercalate fields

/-- Seven fields, any of which may be empty, in a line that is read as a whole. -/
structure IsRecord (fields : List (List Byte)) : Prop where
  seven : fields.length = 7
  plain : ∀ field ∈ fields, (58 : Byte) ∉ field ∧ (10 : Byte) ∉ field
  short : (record fields).length < lineLength - 1

/-- A passwd file; its last line may lack the newline. -/
def passwdFile (rows : List (List (List Byte))) (last : Option (List (List Byte))) : List Byte :=
  fileOf (rows.map record) (last.elim [] record)

/-- The fields of its lines, with what stands behind them. -/
def entries (rows : List (List (List Byte))) (last : Option (List (List Byte))) :
    List (List (List Byte) × List Byte) :=
  rows.map (·, [10]) ++ last.toList.map (·, [])

/-- The third field is exactly `0`. -/
def thirdIsZero (fields : List (List Byte)) : Bool := fields[2]? = some (chars "0")

/-- What `strtok` makes of a line. -/
def seenFields (e : List (List Byte) × List Byte) : List (List Byte) :=
  pieceTokens (record e.1 ++ e.2)

/-- The line is counted. -/
def seenZero (e : List (List Byte) × List Byte) : Bool := countsZero (record e.1 ++ e.2)

/-- A uid 0 that is not counted. -/
def missed (e : List (List Byte) × List Byte) : Bool := thirdIsZero e.1 && !seenZero e

/-- A line that is counted for another field. -/
def extra (e : List (List Byte) × List Byte) : Bool := !thirdIsZero e.1 && seenZero e

theorem record_noNewline {fields : List (List Byte)} (h : IsRecord fields) :
    (10 : Byte) ∉ record fields := by
  intro hmem
  obtain heq | ⟨field, hfield, hb⟩ := mem_intercalate hmem
  · exact absurd heq (by decide)
  · exact (h.plain field hfield).2 hb

/-- The colons are there even if the fields are empty. -/
theorem record_ne_nil {fields : List (List Byte)} (h : IsRecord fields) : record fields ≠ [] := by
  have hseven := h.seven
  match fields, hseven with
  | field :: field' :: fields, _ =>
    rw [record, List.intercalate_cons_cons]
    simp

theorem pieces_passwdFile {rows : List (List (List Byte))} {last : Option (List (List Byte))}
    (h : ∀ fields ∈ rows ++ last.toList, IsRecord fields) :
    Pieces lineLength ((entries rows last).map fun e => record e.1 ++ e.2)
      (passwdFile rows last) := by
  have hrows : ∀ line ∈ rows.map record, (10 : Byte) ∉ line ∧ line.length + 1 < lineLength := by
    intro line hline
    obtain ⟨fields, hmem, rfl⟩ := List.mem_map.mp hline
    have hfields := h fields (List.mem_append_left _ hmem)
    have hshort := hfields.short
    exact ⟨record_noNewline hfields, by omega⟩
  cases last with
  | none =>
    have hpieces := pieces_fileOf hrows List.not_mem_nil
      (show ([] : List Byte).length < lineLength by decide)
    rw [linesOf, if_pos rfl, List.map_map] at hpieces
    rw [entries, Option.toList_none, List.map_nil, List.append_nil, List.map_map]
    rw [List.append_nil] at hpieces
    exact hpieces
  | some fields =>
    have hfields := h fields (by simp)
    have hshort := hfields.short
    have hpieces := pieces_fileOf hrows (record_noNewline hfields) (show _ < lineLength by omega)
    rw [linesOf, if_neg (record_ne_nil hfields), List.map_map] at hpieces
    rw [entries, Option.toList_some, List.map_append, List.map_map, List.map_map,
      List.map_singleton]
    show Pieces lineLength (_ ++ [record fields ++ []]) _
    rw [List.append_nil]
    exact hpieces

/-- Two ways to count agree if they err equally often in either direction. -/
theorem countP_eq_iff {α : Type} (p q : α → Bool) (l : List α) :
    l.countP p = l.countP q ↔
      l.countP (fun a => q a && !p a) = l.countP (fun a => !q a && p a) := by
  have hsum : l.countP p + l.countP (fun a => q a && !p a) =
      l.countP q + l.countP (fun a => !q a && p a) := by
    induction l with
    | nil => rfl
    | cons a l ih =>
      simp only [List.countP_cons]
      cases p a <;> cases q a <;> simp <;> omega
  omega

theorem map_ofNat_eq_ok {x : Except Halt ℕ} {n : ℕ} :
    Int.ofNat <$> x = .ok (n : ℤ) ↔ x = .ok n := by
  cases x with
  | ok r => simp
  | error e => simp

/-- The number returned is that of the lines whose third field is `0` exactly if no line
    has two fields that are not empty, as many lines are missed as are counted for another
    field, and an `int` holds the number. -/
theorem getUidZeros_iff {rows : List (List (List Byte))} {last : Option (List (List Byte))}
    (h : ∀ fields ∈ rows ++ last.toList, IsRecord fields) :
    getUidZeros (some (passwdFile rows last)) =
        .ok ((rows ++ last.toList).countP thirdIsZero : ℕ) ↔
      (∀ e ∈ entries rows last, (seenFields e).length ≠ 2) ∧
        (entries rows last).countP missed = (entries rows last).countP extra ∧
        (rows ++ last.toList).countP thirdIsZero < 2 ^ 31 := by
  have hpieces := pieces_passwdFile h
  have hfuel := hpieces.length_le (show 2 ≤ lineLength by decide)
  have hloop := foldlM_countZero ((entries rows last).map fun e => record e.1 ++ e.2)
    (show 0 < 2 ^ 31 by decide) ((rows ++ last.toList).countP thirdIsZero)
  rw [← pieces_eq hpieces (Nat.lt_succ_of_le hfuel),
    ← eachLine_eq (by decide) .starved _ _ (Nat.lt_succ_self _)] at hloop
  have hcount : (rows ++ last.toList).countP thirdIsZero =
      (entries rows last).countP fun e => thirdIsZero e.1 := by
    rw [entries, List.countP_append, List.countP_append, List.countP_map, List.countP_map]
    rfl
  have hiff : (entries rows last).countP (fun e => thirdIsZero e.1) =
        (entries rows last).countP seenZero ↔
      (entries rows last).countP missed = (entries rows last).countP extra :=
    eq_comm.trans (countP_eq_iff seenZero (fun e => thirdIsZero e.1) (entries rows last))
  have hseen : ((entries rows last).map fun e => record e.1 ++ e.2).countP countsZero =
      (entries rows last).countP seenZero := List.countP_map
  rw [getUidZeros, map_ofNat_eq_ok, hloop, List.forall_mem_map, zero_add, hseen, hcount, ← hiff]
  refine and_congr_right fun _ => ?_
  constructor
  · intro h
    exact ⟨h.2, h.2 ▸ h.1⟩
  · intro h
    exact ⟨h.1 ▸ h.2, h.1⟩

/-- The fields `a`, `uid` and `gid`, no password, and four more. -/
def account (uid gid : List Byte) : List (List Byte) :=
  [chars "a", [], uid, gid, chars "a", chars "/", chars "/bin/sh"]

/-- One account with uid 0, and one with gid 0. -/
def accounts : List (List (List Byte)) :=
  [account (chars "0") (chars "1"), account (chars "1") (chars "0")]

theorem isRecord_accounts : ∀ fields ∈ accounts, IsRecord fields := by
  intro fields hfields
  obtain rfl | hfields := List.mem_cons.mp hfields
  · exact ⟨rfl, by decide, by decide⟩
  · rw [List.mem_singleton.mp hfields]
    exact ⟨rfl, by decide, by decide⟩

theorem getUidZeros_accounts : getUidZeros (some (passwdFile accounts none)) = .ok (1 : ℕ) := by
  refine (@getUidZeros_iff accounts none isRecord_accounts).mpr ⟨?_, ?_, ?_⟩
  · decide
  · decide
  · decide

/-- An account with uid 0 and no password is not counted. -/
theorem getUidZeros_misses : ¬ ∀ (rows : List (List (List Byte)))
    (last : Option (List (List Byte))), (∀ fields ∈ rows ++ last.toList, IsRecord fields) →
      getUidZeros (some (passwdFile rows last)) =
        .ok ((rows ++ last.toList).countP thirdIsZero : ℕ) := by
  intro hall
  have h := hall [] (some (account (chars "0") (chars "1"))) fun fields hfields =>
    isRecord_accounts fields (by
      rw [List.mem_singleton.mp hfields]
      exact List.mem_cons_self)
  have hzero : getUidZeros (some (passwdFile [] (some (account (chars "0") (chars "1"))))) =
      .ok 0 := by
    rfl
  rw [hzero] at h
  exact absurd (Except.ok.inj h) (by decide)

end CompatSuva.Audit
