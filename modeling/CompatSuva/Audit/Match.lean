import CompatSuva.Common.Lines
import CompatSuva.Audit.Buffer

/-!
# `get_match`

`get_match` (`SecurityAudit.c` lines 439–473) looks for a line from the current position
on, wraps around at the end of the file and stops where it read its first line.
`start_pos` is 0 until that line has been read. If the line was the last of the file, the
end of the file is already `start_pos`, and the search ends there without wrapping
around.

* `getMatch_spec`: what the search finds, from any position between two pieces of any
  file;
* `getMatch_next`: the search stops at the first match ahead;
* `getMatch_iff`: for a file of lines, when the search decides membership.
-/

namespace CompatSuva.Audit

open CompatSuva.Common CompatSuva.Scl

/-! ## Model -/

/-- A stream that is read, and the byte in front of the static `buffer` of `get_match`. -/
structure Haystack where
  file : List Byte
  pos : ℕ
  below : Byte

/-- "Kill return" (lines 455–458), for a string that is not empty. -/
def killReturn (s : List Byte) : List Byte := if s.getLast? = some 10 then s.dropLast else s

/-- `strncmp(s, t, n) == 0`. -/
def strncmp (s t : List Byte) (n : ℕ) : Bool := s.take n = t.take n

/-- The position behind a piece. For an empty string "Kill return" looks at the byte in
    front of the buffer. -/
def Haystack.advance (h : Haystack) (piece : List Byte) : Haystack :=
  { h with
    pos := h.pos + piece.length
    below := if cstr piece = [] ∧ h.below = 10 then 0 else h.below }

/-- The loop of `get_match` (lines 444–472). -/
def getMatchLoop (needle : List Byte) : ℕ → Haystack → ℕ → Except Halt (Bool × Haystack)
  | 0, _, _ => .error .starved
  | fuel + 1, h, startPos =>
    match fgets lineLength (h.file.drop h.pos) with
    | none =>
      if h.pos = startPos then .ok (false, h)
      else getMatchLoop needle fuel { h with pos := 0 } startPos
    | some piece =>
      let h := h.advance piece
      if strncmp (killReturn (cstr piece)) needle lineLength then .ok (true, h)
      else if h.pos = startPos then .ok (false, h)
      else getMatchLoop needle fuel h (if startPos = 0 then h.pos else startPos)

/-- `get_match`. It reads every piece of the file once at most, and one of them again. -/
def getMatch (needle : List Byte) (h : Haystack) : Except Halt (Bool × Haystack) :=
  getMatchLoop needle (h.file.length + 3) h 0

/-! ## Positions -/

/-- The stream stands between `before` and `after`. -/
structure Haystack.At (h : Haystack) (before after : List (List Byte)) : Prop where
  pieces : Pieces lineLength (before ++ after) h.file
  pos : h.pos = before.flatten.length

/-- A piece is found. -/
def Hit (needle piece : List Byte) : Prop :=
  strncmp (killReturn (cstr piece)) needle lineLength = true

namespace Haystack

variable {h : Haystack} {before after : List (List Byte)} {piece needle : List Byte}

theorem At.pos_piece (hat : h.At before (piece :: after)) : piece.length ≠ 0 := by
  have hne := hat.pieces.ne_nil (by decide) piece
    (List.mem_append_right _ List.mem_cons_self)
  exact fun h0 => hne (List.length_eq_zero_iff.mp h0)

theorem At.rest (hat : h.At before after) : Pieces lineLength after (h.file.drop h.pos) := by
  rw [hat.pos]
  exact hat.pieces.append

theorem At.advance (hat : h.At before (piece :: after)) :
    (h.advance piece).At (before ++ [piece]) after := by
  refine ⟨?_, ?_⟩
  · rw [List.append_assoc]
    exact hat.pieces
  · show h.pos + piece.length = _
    rw [hat.pos, List.flatten_concat, List.length_append]

theorem At.rewind (hat : h.At before []) : ({ h with pos := 0 } : Haystack).At [] before := by
  refine ⟨?_, rfl⟩
  have hpieces := hat.pieces
  rw [List.append_nil] at hpieces
  exact hpieces

theorem At.loop_nil (hat : h.At before []) (fuel startPos : ℕ) :
    getMatchLoop needle (fuel + 1) h startPos =
      if h.pos = startPos then .ok (false, h)
      else getMatchLoop needle fuel { h with pos := 0 } startPos := by
  have hnone : fgets lineLength (h.file.drop h.pos) = none := by
    rw [fgets, if_pos (show h.file.drop h.pos = [] from hat.rest)]
  rw [getMatchLoop, hnone]

theorem At.loop_hit (hat : h.At before (piece :: after)) (hhit : Hit needle piece)
    (fuel startPos : ℕ) :
    getMatchLoop needle (fuel + 1) h startPos = .ok (true, h.advance piece) := by
  rw [getMatchLoop, hat.rest.1]
  exact if_pos hhit

theorem At.loop_miss (hat : h.At before (piece :: after)) (hmiss : ¬ Hit needle piece)
    (fuel startPos : ℕ) :
    getMatchLoop needle (fuel + 1) h startPos =
      if (h.advance piece).pos = startPos then .ok (false, h.advance piece)
      else getMatchLoop needle fuel (h.advance piece)
        (if startPos = 0 then (h.advance piece).pos else startPos) := by
  rw [getMatchLoop, hat.rest.1]
  exact if_neg hmiss

/-- `start_pos` once some pieces have been read. -/
def startAfter (startPos : ℕ) (before skipped : List (List Byte)) : ℕ :=
  if startPos = 0 then
    match skipped with
    | [] => 0
    | piece :: _ => (before ++ [piece]).flatten.length
  else startPos

theorem startAfter_of_ne {startPos : ℕ} (hne : startPos ≠ 0) (before skipped : List (List Byte)) :
    startAfter startPos before skipped = startPos := if_neg hne

/-- The loop passes pieces that do not match, if it is not yet back at `start_pos`. -/
theorem At.loop_skip {skipped : List (List Byte)} {startPos : ℕ}
    (hat : h.At before (skipped ++ after)) (hmiss : ∀ piece ∈ skipped, ¬ Hit needle piece)
    (hstart : startPos ≤ before.flatten.length ∨ (before ++ skipped).flatten.length < startPos)
    (fuel : ℕ) :
    ∃ h', h'.At (before ++ skipped) after ∧ h'.file = h.file ∧
      getMatchLoop needle (fuel + skipped.length) h startPos =
        getMatchLoop needle fuel h' (startAfter startPos before skipped) := by
  induction skipped generalizing h before startPos with
  | nil =>
    refine ⟨h, ?_, rfl, ?_⟩
    · rw [List.append_nil]
      exact hat
    · rw [startAfter]
      split
      next h0 => rw [h0, List.length_nil, Nat.add_zero]
      next => rw [List.length_nil, Nat.add_zero]
  | cons piece skipped ih =>
    rw [List.cons_append] at hat
    have hpiece := hat.pos_piece
    have hadvance := hat.advance
    have hlen : (before ++ [piece]).flatten.length = before.flatten.length + piece.length := by
      rw [List.flatten_concat, List.length_append]
    have hsplit : before ++ piece :: skipped = (before ++ [piece]) ++ skipped :=
      List.append_cons before piece skipped
    have hle : (before ++ [piece]).flatten.length ≤
        (before ++ piece :: skipped).flatten.length := by
      rw [hsplit, @List.flatten_append _ (before ++ [piece]) skipped, List.length_append]
      exact Nat.le_add_right _ _
    have hne : (h.advance piece).pos ≠ startPos := by
      rw [hadvance.pos]
      omega
    have hnext : (if startPos = 0 then (h.advance piece).pos else startPos) ≤
          (before ++ [piece]).flatten.length ∨
        ((before ++ [piece]) ++ skipped).flatten.length <
          (if startPos = 0 then (h.advance piece).pos else startPos) := by
      rw [← hsplit]
      split
      · exact Or.inl hadvance.pos.le
      · omega
    obtain ⟨h', hat', hfile, hloop⟩ := @ih (h.advance piece) (before ++ [piece])
      (if startPos = 0 then (h.advance piece).pos else startPos) hadvance
      (fun p hp => hmiss p (List.mem_cons_of_mem _ hp)) hnext
    refine ⟨h', hsplit ▸ hat', hfile, ?_⟩
    rw [List.length_cons, ← Nat.add_assoc, hat.loop_miss (hmiss piece List.mem_cons_self),
      if_neg hne, hloop]
    congr 1
    by_cases h0 : startPos = 0
    · have hpos : (h.advance piece).pos ≠ 0 := by omega
      rw [if_pos h0, startAfter_of_ne hpos, h0, hadvance.pos]
      rfl
    · rw [if_neg h0, startAfter_of_ne h0, startAfter_of_ne h0]

/-- The loop stops at a match. -/
theorem At.loop_found {skipped : List (List Byte)} {startPos : ℕ}
    (hat : h.At before (skipped ++ piece :: after))
    (hmiss : ∀ piece ∈ skipped, ¬ Hit needle piece) (hhit : Hit needle piece)
    (hstart : startPos ≤ before.flatten.length ∨ (before ++ skipped).flatten.length < startPos)
    {fuel : ℕ} (hfuel : skipped.length < fuel) :
    ∃ h', h'.At (before ++ skipped ++ [piece]) after ∧ h'.file = h.file ∧
      getMatchLoop needle fuel h startPos = .ok (true, h') := by
  obtain ⟨k, rfl⟩ : ∃ k, fuel = k + 1 + skipped.length := ⟨fuel - 1 - skipped.length, by omega⟩
  obtain ⟨h', hat', hfile, hloop⟩ := hat.loop_skip hmiss hstart (k + 1)
  refine ⟨h'.advance piece, hat'.advance, hfile, ?_⟩
  rw [hloop, hat'.loop_hit hhit]

end Haystack

/-! ## The search -/

theorem exists_first_hit {needle : List Byte} {pieces : List (List Byte)}
    (h : ∃ piece ∈ pieces, Hit needle piece) :
    ∃ skipped piece rest, pieces = skipped ++ piece :: rest ∧ (∀ p ∈ skipped, ¬ Hit needle p) ∧
      Hit needle piece := by
  induction pieces with
  | nil => exact absurd h.choose_spec.1 List.not_mem_nil
  | cons p pieces ih =>
    by_cases hp : Hit needle p
    · exact ⟨[], p, pieces, rfl, fun _ hmem => absurd hmem List.not_mem_nil, hp⟩
    · have hrest : ∃ piece ∈ pieces, Hit needle piece := by
        obtain ⟨piece, hmem, hhit⟩ := h
        obtain rfl | hmem := List.mem_cons.mp hmem
        · exact absurd hhit hp
        · exact ⟨piece, hmem, hhit⟩
      obtain ⟨skipped, piece, rest, rfl, hmiss, hhit⟩ := ih hrest
      refine ⟨p :: skipped, piece, rest, rfl, ?_, hhit⟩
      intro q hq
      obtain rfl | hq := List.mem_cons.mp hq
      · exact hp
      · exact hmiss q hq

/-- What the search finds between `before` and `after`: a match ahead, or after the wrap
    one behind; but from the last piece on it does not wrap. -/
def Found (needle : List Byte) (before after : List (List Byte)) : Prop :=
  (∃ piece ∈ after, Hit needle piece) ∨ after.length ≠ 1 ∧ ∃ piece ∈ before, Hit needle piece

/-- The search once it has wrapped: it goes on to the first match, or else to `start_pos`, which is
    behind the first piece it has seen. -/
theorem search_behind {needle : List Byte} {h : Haystack} {before rest : List (List Byte)}
    {first : List Byte} (hat : h.At [] (before ++ first :: rest)) (hfirst : first.length ≠ 0)
    (hmiss : ¬ Hit needle first) {fuel : ℕ} (hfuel : before.length + 1 ≤ fuel) :
    ∃ found h' before' after',
      getMatchLoop needle fuel h (before ++ [first]).flatten.length = .ok (found, h') ∧
      h'.At before' after' ∧ h'.file = h.file ∧
      (found = true ↔ ∃ piece ∈ before, Hit needle piece) := by
  have hlen : (before ++ [first]).flatten.length = before.flatten.length + first.length := by
    rw [List.flatten_concat, List.length_append]
  by_cases hbehind : ∃ piece ∈ before, Hit needle piece
  · obtain ⟨skipped, piece, after, rfl, hmiss', hhit⟩ := exists_first_hit hbehind
    have hshort : ([] ++ skipped).flatten.length <
        ((skipped ++ piece :: after) ++ [first]).flatten.length := by
      rw [hlen, List.nil_append, List.flatten_append, List.length_append]
      omega
    rw [List.length_append] at hfuel
    rw [List.append_assoc] at hat
    obtain ⟨h', hat', hfile, hloop⟩ :=
      hat.loop_found hmiss' hhit (Or.inr hshort) (show skipped.length < fuel by omega)
    exact ⟨true, h', _, _, hloop, hat', hfile, iff_of_true rfl hbehind⟩
  · -- back at the first piece
    have hmiss' : ∀ piece ∈ before, ¬ Hit needle piece :=
      fun piece hmem hhit => hbehind ⟨piece, hmem, hhit⟩
    have hshort : ([] ++ before).flatten.length < (before ++ [first]).flatten.length := by
      rw [hlen, List.nil_append]
      omega
    obtain ⟨j, rfl⟩ : ∃ j, fuel = j + 1 + before.length := ⟨fuel - 1 - before.length, by omega⟩
    obtain ⟨b, hatb, hfile, hloop⟩ := hat.loop_skip hmiss' (Or.inr hshort) (j + 1)
    have hback : (b.advance first).pos = (before ++ [first]).flatten.length := hatb.advance.pos
    rw [hloop, hatb.loop_miss hmiss, Haystack.startAfter_of_ne (by omega), if_pos hback]
    exact ⟨false, b.advance first, _, _, rfl, hatb.advance, hfile,
      iff_of_false Bool.false_ne_true hbehind⟩

/-- The search from a position before the end of the file. -/
theorem search_ahead {needle : List Byte} {h : Haystack} {before rest : List (List Byte)}
    {first : List Byte} (hat : h.At before (first :: rest)) {fuel : ℕ}
    (hfuel : (before ++ first :: rest).length + 2 ≤ fuel) :
    ∃ found h' before' after', getMatchLoop needle fuel h 0 = .ok (found, h') ∧
      h'.At before' after' ∧ h'.file = h.file ∧
      (found = true ↔ Found needle before (first :: rest)) := by
  by_cases hahead : ∃ piece ∈ first :: rest, Hit needle piece
  · obtain ⟨skipped, piece, after, hsplit, hmiss, hhit⟩ := exists_first_hit hahead
    rw [hsplit] at hat hfuel
    obtain ⟨h', hat', hfile, hloop⟩ := @Haystack.At.loop_found h before after piece needle skipped 0
      hat hmiss hhit (Or.inl (Nat.zero_le _)) fuel (by
        simp only [List.length_append, List.length_cons] at hfuel
        omega)
    exact ⟨true, h', _, _, hloop, hat', hfile, iff_of_true rfl (Or.inl hahead)⟩
  · have hmiss : ∀ piece ∈ first :: rest, ¬ Hit needle piece :=
      fun piece hmem hhit => hahead ⟨piece, hmem, hhit⟩
    have hfirst := hat.pos_piece
    simp only [List.length_append, List.length_cons] at hfuel
    obtain ⟨k, rfl⟩ : ∃ k, fuel = k + 1 + (first :: rest).length :=
      ⟨fuel - 1 - (first :: rest).length, by rw [List.length_cons]; omega⟩
    rw [List.length_cons] at hfuel
    obtain ⟨e, hate, hfile, hloop⟩ := @Haystack.At.loop_skip h before [] needle (first :: rest) 0
      (by rw [List.append_nil]; exact hat) hmiss (Or.inl (Nat.zero_le _)) (k + 1)
    -- `start_pos` is behind the first piece, and the stream at the end
    have hlen : (before ++ [first]).flatten.length = before.flatten.length + first.length := by
      rw [List.flatten_concat, List.length_append]
    have hend : e.pos = (before ++ [first]).flatten.length + rest.flatten.length := by
      rw [hate.pos, List.append_cons, List.flatten_append, List.length_append]
    rw [hloop, hate.loop_nil, show Haystack.startAfter 0 before (first :: rest) =
      (before ++ [first]).flatten.length from rfl]
    cases hrest : rest with
    | nil =>
      rw [hrest, List.flatten_nil, List.length_nil, Nat.add_zero] at hend
      rw [hrest] at hahead
      rw [if_pos hend]
      refine ⟨false, e, _, _, rfl, hate, hfile, iff_of_false Bool.false_ne_true ?_⟩
      rintro (h | ⟨hne, -⟩)
      · exact hahead h
      · exact hne rfl
    | cons second tail =>
      have hne := hat.pieces.ne_nil (by decide)
      have hsecond : second.length ≠ 0 :=
        fun h0 => hne second (by simp [hrest]) (List.length_eq_zero_iff.mp h0)
      have hfirst' : first.length ≠ 0 :=
        fun h0 => hne first (by simp) (List.length_eq_zero_iff.mp h0)
      rw [hrest, List.flatten_cons, List.length_append] at hend
      rw [if_neg (by omega)]
      obtain ⟨found, h', before', after', hloop', hat', hfile', hfound⟩ :=
        search_behind hate.rewind hfirst' (hmiss first List.mem_cons_self)
          (show before.length + 1 ≤ k by omega)
      refine ⟨found, h', before', after', hloop', hat', hfile'.trans hfile, hfound.trans ?_⟩
      have hlength : (first :: second :: tail).length ≠ 1 := by simp
      rw [hrest] at hahead
      rw [Found, or_iff_right hahead, and_iff_right hlength]

theorem Haystack.At.length_le {h : Haystack} {before after : List (List Byte)}
    (hat : h.At before after) : (before ++ after).length ≤ h.file.length :=
  hat.pieces.length_le (by decide)

/-- `get_match` returns from any position, and tells whether a piece was found. -/
theorem getMatch_spec {h : Haystack} {before after : List (List Byte)} (hat : h.At before after)
    (needle : List Byte) :
    ∃ found h' before' after', getMatch needle h = .ok (found, h') ∧ h'.At before' after' ∧
      h'.file = h.file ∧ (found = true ↔ Found needle before after) := by
  have hlen := hat.length_le
  cases after with
  | cons first rest => exact search_ahead hat (by omega)
  | nil =>
    rw [getMatch, hat.loop_nil]
    cases before with
    | nil =>
      rw [if_pos (show h.pos = 0 from hat.pos)]
      refine ⟨false, h, _, _, rfl, hat, rfl, iff_of_false Bool.false_ne_true ?_⟩
      simp [Found]
    | cons first rest =>
      have hpos : h.pos ≠ 0 := by
        have hfirst := hat.rewind.pos_piece
        rw [hat.pos, List.flatten_cons, List.length_append]
        omega
      rw [if_neg hpos]
      rw [List.append_nil] at hlen
      obtain ⟨found, h', before', after', hloop, hat', hfile, hfound⟩ :=
        @search_ahead needle _ _ _ _ hat.rewind (h.file.length + 2) (by
          rw [List.nil_append]
          omega)
      refine ⟨found, h', before', after', hloop, hat', hfile, hfound.trans ?_⟩
      simp [Found]

/-- The search stops at the first match ahead. -/
theorem getMatch_next {h : Haystack} {before skipped after : List (List Byte)}
    {needle piece : List Byte} (hat : h.At before (skipped ++ piece :: after))
    (hmiss : ∀ p ∈ skipped, ¬ Hit needle p) (hhit : Hit needle piece) :
    ∃ h', getMatch needle h = .ok (true, h') ∧ h'.At (before ++ skipped ++ [piece]) after ∧
      h'.file = h.file := by
  have hlen := hat.length_le
  simp only [List.length_append, List.length_cons] at hlen
  obtain ⟨h', hat', hfile, hloop⟩ :=
    @Haystack.At.loop_found h before after piece needle skipped 0 hat hmiss hhit
      (Or.inl (Nat.zero_le _)) (h.file.length + 3) (by omega)
  exact ⟨h', hloop, hat', hfile⟩

/-! ## Files of lines -/

/-- A line without its newline: it has no NUL and is read as a whole. -/
structure IsLine (line : List Byte) : Prop where
  noNewline : (10 : Byte) ∉ line
  noNul : (0 : Byte) ∉ line
  short : line.length < lineLength - 1

/-- `get_match`, for one needle after the other. -/
def searches (h : Haystack) (needles : List CStr) : Except Halt Haystack :=
  needles.foldlM (fun h needle => Prod.snd <$> getMatch needle.val h) h

/-- The stream of a file that has just been opened. -/
def opened (file : List Byte) (below : Byte) : Haystack := ⟨file, 0, below⟩

theorem killReturn_line {line : List Byte} (h : (0 : Byte) ∉ line) :
    killReturn (cstr (line ++ [10])) = line := by
  have hno : (0 : Byte) ∉ line ++ [10] := by
    rw [List.mem_append, not_or]
    exact ⟨h, by decide⟩
  rw [cstr_noNul hno, killReturn, List.getLast?_concat, if_pos rfl, List.dropLast_concat]

theorem strncmp_short {s t : List Byte} {n : ℕ} (h : s.length < n) :
    strncmp s t n = true ↔ s = t := by
  rw [strncmp, decide_eq_true_iff, List.take_of_length_le h.le]
  constructor
  · intro heq
    by_cases ht : t.length ≤ n
    · rw [heq, List.take_of_length_le ht]
    · have hlen := congrArg List.length heq
      rw [List.length_take] at hlen
      omega
  · intro heq
    rw [← heq, List.take_of_length_le h.le]

theorem hit_line {line needle : List Byte} (h : IsLine line) :
    Hit needle (line ++ [10]) ↔ line = needle := by
  have hshort := h.short
  rw [Hit, killReturn_line h.noNul, strncmp_short (by omega)]

theorem opened_at {file : List Byte} {pieces : List (List Byte)}
    (h : Pieces lineLength pieces file) (below : Byte) : (opened file below).At [] pieces :=
  ⟨h, rfl⟩

/-- Earlier searches leave the stream between two pieces. -/
theorem searches_spec (needles : List CStr) {h : Haystack} {before after : List (List Byte)}
    (hat : h.At before after) :
    ∃ h' before' after', searches h needles = .ok h' ∧ h'.At before' after' ∧ h'.file = h.file := by
  induction needles generalizing h before after with
  | nil => exact ⟨h, before, after, rfl, hat, rfl⟩
  | cons needle needles ih =>
    obtain ⟨found, h₁, before₁, after₁, hmatch, hat₁, hfile₁, -⟩ := getMatch_spec hat needle.val
    obtain ⟨h', before', after', hrest, hat', hfile⟩ := ih hat₁
    refine ⟨h', before', after', ?_, hat', hfile.trans hfile₁⟩
    rw [searches, List.foldlM_cons, hmatch]
    exact hrest

/-- In a file of lines: at the start of the last one, the search misses what stands in the
    others only. -/
def Misses (lines : List (List Byte)) (pos : ℕ) (needle : List Byte) : Prop :=
  ∃ before last, lines = before ++ [last] ∧ pos = (fileOf before []).length ∧
    needle ∈ before ∧ needle ≠ last

theorem linesOf_nil (lines : List (List Byte)) : linesOf lines [] = lines.map (· ++ [10]) := by
  rw [linesOf, if_pos rfl, List.append_nil]

theorem flatten_lines (lines : List (List Byte)) :
    (lines.map (· ++ [10])).flatten = fileOf lines [] := by
  rw [fileOf, List.append_nil, List.flatMap_def]

theorem length_fileOf_append (before after : List (List Byte)) :
    (fileOf (before ++ after) []).length =
      (fileOf before []).length + (fileOf after []).length := by
  simp only [fileOf, List.flatMap_append, List.append_nil, List.length_append]

theorem length_fileOf_eq_zero {lines : List (List Byte)} (h : (fileOf lines []).length = 0) :
    lines = [] := by
  cases lines with
  | nil => rfl
  | cons line lines =>
    simp only [fileOf, List.flatMap_cons, List.length_append, List.length_singleton] at h
    omega

theorem prefix_of_length {before before' : List (List Byte)} (h : before <+: before')
    (hlen : (fileOf before []).length = (fileOf before' []).length) : before = before' := by
  obtain ⟨more, rfl⟩ := h
  rw [length_fileOf_append] at hlen
  have hmore : more = [] := length_fileOf_eq_zero (by omega)
  rw [hmore, List.append_nil]

/-- The position tells which lines have been read. -/
theorem fileOf_length_inj {before before' after after' : List (List Byte)}
    (h : before ++ after = before' ++ after')
    (hlen : (fileOf before []).length = (fileOf before' []).length) : before = before' := by
  have hstarts : before <+: before' ++ after' := h ▸ List.prefix_append before after
  obtain hle | hle := List.prefix_or_prefix_of_prefix hstarts (List.prefix_append before' after')
  · exact prefix_of_length hle hlen
  · exact (prefix_of_length hle hlen.symm).symm

/-- Between two lines of a file of lines. -/
theorem at_lines {lines : List (List Byte)} (hlines : ∀ line ∈ lines, IsLine line) {h : Haystack}
    {before after : List (List Byte)} (hat : h.At before after) (hfile : h.file = fileOf lines []) :
    ∃ bs as, lines = bs ++ as ∧ before = bs.map (· ++ [10]) ∧ after = as.map (· ++ [10]) ∧
      h.pos = (fileOf bs []).length := by
  have hpieces : Pieces lineLength (linesOf lines []) (fileOf lines []) := by
    refine pieces_fileOf (fun line hline => ?_) List.not_mem_nil (by decide)
    have hl := hlines line hline
    have hshort := hl.short
    exact ⟨hl.noNewline, by omega⟩
  have hsplit : lines.map (· ++ [10]) = before ++ after := by
    rw [← linesOf_nil]
    exact hpieces.unique (hfile ▸ hat.pieces)
  obtain ⟨bs, as, rfl, rfl, rfl⟩ := List.map_eq_append_iff.mp hsplit
  refine ⟨bs, as, rfl, rfl, rfl, ?_⟩
  rw [hat.pos, flatten_lines]

theorem exists_hit_iff {lines : List (List Byte)} (hlines : ∀ line ∈ lines, IsLine line)
    (needle : List Byte) :
    (∃ piece ∈ lines.map (· ++ [10]), Hit needle piece) ↔ needle ∈ lines := by
  constructor
  · intro h
    obtain ⟨piece, hmem, hhit⟩ := h
    obtain ⟨line, hline, rfl⟩ := List.mem_map.mp hmem
    rw [hit_line (hlines line hline)] at hhit
    exact hhit ▸ hline
  · intro h
    exact ⟨_, List.mem_map_of_mem h, (hit_line (hlines needle h)).mpr rfl⟩

/-- In a file of lines, after any earlier searches: `get_match` returns, and tells whether
    the needle is a line unless it starts at the last line and stands before it only. -/
theorem getMatch_iff {lines : List (List Byte)} (hlines : ∀ line ∈ lines, IsLine line)
    (below : Byte)
    {earlier : List CStr} {h : Haystack}
    (hleft : searches (opened (fileOf lines []) below) earlier = .ok h) (needle : CStr) :
    (∃ found h', getMatch needle.val h = .ok (found, h') ∧ (found = true ↔ needle.val ∈ lines)) ↔
      ¬ Misses lines h.pos needle.val := by
  obtain ⟨pieces, hpieces⟩ := @pieces_exist lineLength (by decide) (fileOf lines [])
  obtain ⟨h₁, before, after, hsearches, hat, hfile⟩ :=
    searches_spec earlier (opened_at hpieces below)
  obtain rfl : h₁ = h := Except.ok.inj (hsearches.symm.trans hleft)
  obtain ⟨bs, as, hsplit, rfl, rfl, hpos⟩ := at_lines hlines hat hfile
  obtain ⟨found, h', _, _, hmatch, -, -, hfound⟩ := getMatch_spec hat needle.val
  have hbs : ∀ line ∈ bs, IsLine line :=
    fun line hline => hlines line (hsplit ▸ List.mem_append_left _ hline)
  have has : ∀ line ∈ as, IsLine line :=
    fun line hline => hlines line (hsplit ▸ List.mem_append_right _ hline)
  rw [Found, exists_hit_iff has, exists_hit_iff hbs, List.length_map] at hfound
  have hmisses : Misses lines h₁.pos needle.val ↔
      as.length = 1 ∧ needle.val ∈ bs ∧ needle.val ∉ as := by
    constructor
    · rintro ⟨bs', last, hsplit', hpos', hmem, hne⟩
      obtain rfl : bs = bs' := fileOf_length_inj (hsplit.symm.trans hsplit') (hpos.symm.trans hpos')
      obtain rfl : as = [last] := List.append_cancel_left (hsplit.symm.trans hsplit')
      exact ⟨rfl, hmem, fun h => hne (List.mem_singleton.mp h)⟩
    · rintro ⟨hone, hmem, hno⟩
      obtain ⟨last, rfl⟩ := List.length_eq_one_iff.mp hone
      exact ⟨bs, last, hsplit, hpos, hmem, fun heq => hno (heq ▸ List.mem_singleton_self _)⟩
  have hmem : needle.val ∈ lines ↔ needle.val ∈ bs ∨ needle.val ∈ as := by
    rw [hsplit, List.mem_append]
  rw [hmisses]
  constructor
  · rintro ⟨found', h'', heq, hiff⟩ ⟨hone, hin, hno⟩
    rw [hmatch] at heq
    rw [← (Prod.mk.inj (Except.ok.inj heq)).1, hfound, hmem] at hiff
    obtain hin' | ⟨hne, -⟩ := hiff.mpr (Or.inl hin)
    · exact hno hin'
    · exact hne hone
  · intro hnot
    refine ⟨found, h', hmatch, ?_⟩
    rw [hfound, hmem]
    constructor
    · intro h
      obtain h | ⟨-, h⟩ := h
      · exact Or.inr h
      · exact Or.inl h
    · intro h
      by_cases hin : needle.val ∈ as
      · exact Or.inl hin
      · have hbehind : needle.val ∈ bs := h.resolve_right hin
        exact Or.inr ⟨fun hone => hnot ⟨hone, hbehind, hin⟩, hbehind⟩

/-- The lines `a`, `b` and `c`. -/
def threeLines : List (List Byte) := [chars "a", chars "b", chars "c"]

theorem isLine_threeLines : ∀ line ∈ threeLines, IsLine line := by
  simp only [threeLines, List.forall_mem_cons]
  exact ⟨⟨by decide, by decide, by decide⟩, ⟨by decide, by decide, by decide⟩,
    ⟨by decide, by decide, by decide⟩, by simp⟩

/-- A line that a search has found is found again, behind the end of the file. -/
theorem getMatch_iff_again : ∃ h found h',
    searches (opened (fileOf threeLines []) 0) [⟨chars "a", by decide⟩] = .ok h ∧
      getMatch (chars "a") h = .ok (found, h') ∧ (found = true ↔ chars "a" ∈ threeLines) := by
  have hearlier : searches (opened (fileOf threeLines []) 0) [⟨chars "a", by decide⟩] =
      .ok ⟨fileOf threeLines [], 2, 0⟩ := by rfl
  have hmisses : ¬ Misses threeLines 2 (chars "a") := by
    rintro ⟨before, last, hsplit, hpos, -, -⟩
    have hlen := congrArg List.length hsplit
    have hbefore : before = threeLines.take 2 := by
      rw [hsplit]
      exact (List.take_left' (by simpa [threeLines] using hlen.symm)).symm
    rw [hbefore] at hpos
    exact absurd hpos (by decide)
  obtain ⟨found, h', hmatch, hfound⟩ :=
    (getMatch_iff isLine_threeLines 0 hearlier ⟨chars "a", by decide⟩).mpr hmisses
  exact ⟨_, found, h', hearlier, hmatch, hfound⟩

/-- The lines `a` and `b`. -/
def twoLines : List (List Byte) := [chars "a", chars "b"]

theorem isLine_twoLines : ∀ line ∈ twoLines, IsLine line := by
  intro line hline
  obtain rfl | hline := List.mem_cons.mp hline
  · exact isLine_threeLines _ (by decide)
  · rw [List.mem_singleton.mp hline]
    exact isLine_threeLines _ (by decide)

/-- Once `a` has been found, it is not found again. -/
theorem getMatch_misses : ¬ ∀ (lines : List (List Byte)) (below : Byte) (earlier : List CStr)
    (h : Haystack) (needle : CStr), (∀ line ∈ lines, IsLine line) →
      searches (opened (fileOf lines []) below) earlier = .ok h →
        ∃ found h', getMatch needle.val h = .ok (found, h') ∧
          (found = true ↔ needle.val ∈ lines) := by
  intro hall
  obtain ⟨found, h', hmatch, hiff⟩ :=
    hall twoLines 0 [⟨chars "a", by decide⟩] ⟨fileOf twoLines [], 2, 0⟩ ⟨chars "a", by decide⟩
      isLine_twoLines (by rfl)
  have hfalse : getMatch (chars "a") ⟨fileOf twoLines [], 2, 0⟩ =
      .ok (false, ⟨fileOf twoLines [], 4, 0⟩) := by rfl
  rw [hfalse] at hmatch
  rw [← (Prod.mk.inj (Except.ok.inj hmatch)).1] at hiff
  exact Bool.false_ne_true (hiff.mpr (by decide))

end CompatSuva.Audit
