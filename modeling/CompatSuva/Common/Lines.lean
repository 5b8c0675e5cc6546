import CompatSuva.Common.LittleEndian

/-!
# Reading a file line by line

`fgets` gives the next line, with its newline, or as much of it as fits. What it gives
one after the other are the pieces of the file (`Pieces`): every file has them, they
make up the file, and for a file of short lines they are the lines (`pieces_fileLines`).
-/

namespace CompatSuva.Common

/-- Up to `n` bytes, the first newline being the last of them. -/
def takeLine : ℕ → List Byte → List Byte
  | 0, _ => []
  | _ + 1, [] => []
  | n + 1, b :: bs => if b = 10 then [b] else b :: takeLine n bs

/-- `fgets(s, size, file)`, where `rest` has not been read: what `s` gets. -/
def fgets (size : ℕ) (rest : List Byte) : Option (List Byte) :=
  if rest = [] then none else some (takeLine (size - 1) rest)

/-- The C string in a buffer. -/
def cstr (bs : List Byte) : List Byte := bs.takeWhile (· ≠ 0)

theorem cstr_noNul {s : List Byte} (h : 0 ∉ s) : cstr s = s := by
  rw [cstr, List.takeWhile_eq_self_iff]
  intro b hb
  simpa using fun h0 : b = 0 => h (h0 ▸ hb)

theorem takeLine_prefix (n : ℕ) (bs : List Byte) : takeLine n bs <+: bs := by
  induction n generalizing bs with
  | zero => exact List.nil_prefix
  | succ n ih =>
    cases bs with
    | nil => exact List.nil_prefix
    | cons b bs =>
      rw [takeLine]
      split
      · exact List.cons_prefix_cons.mpr ⟨rfl, List.nil_prefix⟩
      · exact List.cons_prefix_cons.mpr ⟨rfl, ih bs⟩

theorem takeLine_ne_nil {n : ℕ} (hn : n ≠ 0) {bs : List Byte} (h : bs ≠ []) :
    takeLine n bs ≠ [] := by
  obtain ⟨k, rfl⟩ := Nat.exists_eq_succ_of_ne_zero hn
  cases bs with
  | nil => exact absurd rfl h
  | cons b bs =>
    rw [takeLine]
    split
    · exact List.cons_ne_nil _ _
    · exact List.cons_ne_nil _ _

/-- A line that is short enough is read as a whole. -/
theorem takeLine_line {n : ℕ} {line : List Byte} (hline : 10 ∉ line) (hlen : line.length < n)
    (rest : List Byte) : takeLine n (line ++ 10 :: rest) = line ++ [10] := by
  induction line generalizing n with
  | nil =>
    obtain ⟨k, rfl⟩ := Nat.exists_eq_add_one_of_ne_zero (Nat.ne_zero_of_lt hlen)
    rw [List.nil_append, takeLine, if_pos rfl, List.nil_append]
  | cons b line ih =>
    rw [List.length_cons] at hlen
    obtain ⟨k, rfl⟩ := Nat.exists_eq_add_one_of_ne_zero (Nat.ne_zero_of_lt hlen)
    have hb : b ≠ 10 := fun h => hline (h ▸ List.mem_cons_self)
    have htail : 10 ∉ line := fun h => hline (List.mem_cons_of_mem _ h)
    rw [List.cons_append, takeLine, if_neg hb, ih htail (by omega), List.cons_append]

/-- So is a last line without newline. -/
theorem takeLine_last {n : ℕ} {line : List Byte} (hline : 10 ∉ line) (hlen : line.length ≤ n) :
    takeLine n line = line := by
  induction line generalizing n with
  | nil => cases n <;> rfl
  | cons b line ih =>
    rw [List.length_cons] at hlen
    obtain ⟨k, rfl⟩ : ∃ k, n = k + 1 := ⟨n - 1, by omega⟩
    have hb : b ≠ 10 := fun h => hline (h ▸ List.mem_cons_self)
    have htail : 10 ∉ line := fun h => hline (List.mem_cons_of_mem _ h)
    rw [takeLine, if_neg hb, ih htail (by omega)]

/-- Calls of `fgets` give these pieces until the end of the file. -/
def Pieces (size : ℕ) : List (List Byte) → List Byte → Prop
  | [], rest => rest = []
  | piece :: pieces, rest =>
    fgets size rest = some piece ∧ Pieces size pieces (rest.drop piece.length)

theorem fgets_eq_some {size : ℕ} {rest piece : List Byte} (h : fgets size rest = some piece) :
    rest ≠ [] ∧ takeLine (size - 1) rest = piece := by
  rw [fgets] at h
  split at h
  · exact absurd h (by simp)
  next hne => exact ⟨hne, Option.some.inj h⟩

theorem fgets_append {size : ℕ} {rest piece : List Byte} (h : fgets size rest = some piece) :
    piece ++ rest.drop piece.length = rest := by
  obtain ⟨-, heq⟩ := fgets_eq_some h
  obtain ⟨tail, htail⟩ := heq ▸ takeLine_prefix (size - 1) rest
  rw [← htail, List.drop_left]

/-- The pieces make up the file. -/
theorem Pieces.flatten {size : ℕ} {pieces : List (List Byte)} {file : List Byte}
    (h : Pieces size pieces file) : pieces.flatten = file := by
  induction pieces generalizing file with
  | nil => exact h.symm
  | cons piece pieces ih =>
    rw [List.flatten_cons, ih h.2]
    exact fgets_append h.1

/-- Without NUL in the file, what `fgets` stores is the string. -/
theorem Pieces.map_cstr {size : ℕ} {pieces : List (List Byte)} {file : List Byte}
    (h : Pieces size pieces file) (hno : (0 : Byte) ∉ file) : pieces.map cstr = pieces := by
  refine (List.map_congr_left fun piece hpiece => cstr_noNul fun h0 => hno ?_).trans (List.map_id _)
  rw [← h.flatten]
  exact List.mem_flatten.mpr ⟨piece, hpiece, h0⟩

/-- No piece is empty. -/
theorem Pieces.ne_nil {size : ℕ} (hsize : 2 ≤ size) {pieces : List (List Byte)} {file : List Byte}
    (h : Pieces size pieces file) : ∀ piece ∈ pieces, piece ≠ [] := by
  induction pieces generalizing file with
  | nil => exact fun _ hmem => absurd hmem List.not_mem_nil
  | cons piece pieces ih =>
    intro p hp
    obtain rfl | hp := List.mem_cons.mp hp
    · obtain ⟨hne, heq⟩ := fgets_eq_some h.1
      exact heq ▸ takeLine_ne_nil (by omega) hne
    · exact ih h.2 p hp

/-- The rest of the file has the rest of the pieces. -/
theorem Pieces.append {size : ℕ} {before after : List (List Byte)} {file : List Byte}
    (h : Pieces size (before ++ after) file) :
    Pieces size after (file.drop before.flatten.length) := by
  induction before generalizing file with
  | nil => exact h
  | cons piece before ih =>
    rw [List.flatten_cons, List.length_append, ← List.drop_drop]
    exact ih h.2

/-- A file has one list of pieces. -/
theorem Pieces.unique {size : ℕ} {pieces pieces' : List (List Byte)} {file : List Byte}
    (h : Pieces size pieces file) (h' : Pieces size pieces' file) : pieces = pieces' := by
  induction pieces generalizing pieces' file with
  | nil =>
    cases pieces' with
    | nil => rfl
    | cons piece pieces' => exact absurd h (fgets_eq_some h'.1).1
  | cons piece pieces ih =>
    cases pieces' with
    | nil => exact absurd h' (fgets_eq_some h.1).1
    | cons piece' pieces' =>
      have heq : piece = piece' := Option.some.inj (h.1.symm.trans h'.1)
      subst heq
      rw [ih h.2 h'.2]

theorem Pieces.length_le {size : ℕ} (hsize : 2 ≤ size) {pieces : List (List Byte)}
    {file : List Byte} (h : Pieces size pieces file) : pieces.length ≤ file.length := by
  induction pieces generalizing file with
  | nil => exact Nat.zero_le _
  | cons piece pieces ih =>
    have hle := ih h.2
    have hne := List.length_pos_iff.mpr (h.ne_nil hsize piece List.mem_cons_self)
    have hlen := congrArg List.length (fgets_append h.1)
    rw [List.length_append] at hlen
    rw [List.length_cons]
    omega

/-- Every file is read in pieces. -/
theorem pieces_exist {size : ℕ} (hsize : 2 ≤ size) (file : List Byte) :
    ∃ pieces, Pieces size pieces file := by
  induction hlen : file.length using Nat.strong_induction_on generalizing file with
  | _ n ih =>
    by_cases hfile : file = []
    · exact ⟨[], hfile⟩
    · have hline : takeLine (size - 1) file ≠ [] := takeLine_ne_nil (by omega) hfile
      have hpos := List.length_pos_iff.mpr hline
      have hpos' := List.length_pos_iff.mpr hfile
      obtain ⟨pieces, hpieces⟩ := ih (file.length - (takeLine (size - 1) file).length) (by omega)
        (file.drop (takeLine (size - 1) file).length) List.length_drop
      exact ⟨takeLine (size - 1) file :: pieces, by rw [fgets, if_neg hfile], hpieces⟩

/-! ## Lines -/

/-- The lines of a file, each with its newline; the last may have none. -/
def fileLines : List Byte → List (List Byte)
  | [] => []
  | b :: bs =>
    if b = 10 then [b] :: fileLines bs
    else
      match fileLines bs with
      | [] => [[b]]
      | l :: ls => (b :: l) :: ls

theorem fileLines_eq_nil {file : List Byte} : fileLines file = [] ↔ file = [] := by
  cases file with
  | nil => exact iff_of_true rfl rfl
  | cons b bs =>
    refine iff_of_false (fun h => ?_) (List.cons_ne_nil b bs)
    rw [fileLines] at h
    split at h
    · cases h
    · split at h
      · cases h
      · cases h

/-- What is read of the first line, and the lines that are left. -/
theorem takeLine_lines {file l : List Byte} {ls : List (List Byte)} (h : fileLines file = l :: ls)
    (n : ℕ) : takeLine n file = l.take n ∧
      fileLines (file.drop (l.take n).length) = if l.length ≤ n then ls else l.drop n :: ls := by
  induction n generalizing file l ls with
  | zero =>
    have hpos : ¬ l.length ≤ 0 := fun hle => by
      have hnil : l = [] := List.eq_nil_of_length_eq_zero (by omega)
      cases file with
      | nil => cases h
      | cons b bs =>
        rw [fileLines] at h
        split at h
        · rw [hnil] at h
          cases h
        · split at h
          · rw [hnil] at h
            cases h
          · rw [hnil] at h
            cases h
    rw [if_neg hpos]
    exact ⟨rfl, h⟩
  | succ n ih =>
    cases file with
    | nil => cases h
    | cons b bs =>
      rw [fileLines] at h
      by_cases hb : b = 10
      · rw [if_pos hb] at h
        obtain ⟨rfl, rfl⟩ := List.cons.inj h
        rw [takeLine, if_pos hb, if_pos (by simp)]
        exact ⟨by simp, by simp⟩
      rw [if_neg hb] at h
      cases hbs : fileLines bs with
      | nil =>
        simp only [hbs] at h
        obtain ⟨rfl, rfl⟩ := List.cons.inj h
        rw [fileLines_eq_nil.mp hbs, takeLine, if_neg hb, if_pos (by simp)]
        exact ⟨by cases n <;> simp [takeLine], by simp [fileLines]⟩
      | cons l' ls' =>
        simp only [hbs] at h
        obtain ⟨rfl, rfl⟩ := List.cons.inj h
        obtain ⟨htake, hdrop⟩ := ih hbs
        rw [takeLine, if_neg hb, htake, List.take_succ_cons, List.length_cons, List.drop_succ_cons,
          hdrop, List.length_cons, List.drop_succ_cons]
        simp only [Nat.succ_le_succ_iff]
        exact ⟨trivial, trivial⟩

/-- There are at least as many pieces as lines, and not more only if the lines fit. -/
theorem Pieces.length_fileLines_le {size : ℕ} (hsize : 2 ≤ size) {pieces : List (List Byte)}
    {file : List Byte} (h : Pieces size pieces file) :
    (fileLines file).length ≤ pieces.length ∧
      (pieces.length ≤ (fileLines file).length → ∀ l ∈ fileLines file, l.length < size) := by
  induction pieces generalizing file with
  | nil =>
    rw [fileLines_eq_nil.mpr h]
    exact ⟨Nat.le_refl _, fun _ l hl => absurd hl List.not_mem_nil⟩
  | cons piece pieces ih =>
    obtain ⟨hne, heq⟩ := fgets_eq_some h.1
    obtain ⟨l, ls, hlines⟩ := List.exists_cons_of_ne_nil (mt fileLines_eq_nil.mp hne)
    obtain ⟨htake, hdrop⟩ := takeLine_lines hlines (size - 1)
    obtain ⟨hle, hfits⟩ := ih h.2
    rw [← heq, htake, hdrop] at hle hfits
    rw [hlines, List.length_cons, List.length_cons]
    by_cases hlong : l.length ≤ size - 1
    · rw [if_pos hlong] at hle hfits
      exact ⟨by omega, fun hlength =>
        List.forall_mem_cons.mpr ⟨by omega, hfits (by omega)⟩⟩
    · rw [if_neg hlong, List.length_cons] at hle
      exact ⟨by omega, fun hlength => absurd hlength (by omega)⟩

/-- Lines that fit are the pieces. -/
theorem pieces_fileLines {size : ℕ} {file : List Byte}
    (hfits : ∀ l ∈ fileLines file, l.length < size) : Pieces size (fileLines file) file := by
  induction hlines : fileLines file generalizing file with
  | nil => exact fileLines_eq_nil.mp hlines
  | cons l ls ih =>
    rw [hlines] at hfits
    have hl := hfits l List.mem_cons_self
    obtain ⟨htake, hdrop⟩ := takeLine_lines hlines (size - 1)
    have hall : l.take (size - 1) = l := List.take_of_length_le (by omega)
    rw [hall] at htake hdrop
    rw [if_pos (by omega)] at hdrop
    have hne : file ≠ [] := fun hnil => by rw [hnil] at hlines; cases hlines
    refine ⟨by rw [fgets, if_neg hne, htake], ?_⟩
    exact ih (fun l' hl' => hfits l' (List.mem_cons_of_mem _ (hdrop ▸ hl'))) hdrop

/-- The pieces are the lines if there are as many, or if these fit. -/
theorem Pieces.eq_fileLines {size : ℕ} (hsize : 2 ≤ size) {pieces : List (List Byte)}
    {file : List Byte} (h : Pieces size pieces file)
    (hlength : pieces.length = (fileLines file).length) :
    pieces = fileLines file ∧ ∀ l ∈ fileLines file, l.length < size := by
  have hfits := (h.length_fileLines_le hsize).2 (Nat.le_of_eq hlength)
  exact ⟨h.unique (pieces_fileLines hfits), hfits⟩

/-! ## Files of lines -/

/-- Lines, each with its newline; and what stands behind the last newline. -/
def fileOf (lines : List (List Byte)) (last : List Byte) : List Byte :=
  (lines.flatMap fun line => line ++ [10]) ++ last

/-- The pieces of such a file. -/
def linesOf (lines : List (List Byte)) (last : List Byte) : List (List Byte) :=
  lines.map (· ++ [10]) ++ if last = [] then [] else [last]

theorem pieces_fileOf {size : ℕ} {lines : List (List Byte)} {last : List Byte}
    (hlines : ∀ line ∈ lines, 10 ∉ line ∧ line.length + 1 < size) (hlast : 10 ∉ last)
    (hlen : last.length < size) : Pieces size (linesOf lines last) (fileOf lines last) := by
  induction lines with
  | nil =>
    by_cases hnil : last = []
    · rw [hnil]
      rfl
    · rw [linesOf, if_neg hnil]
      refine ⟨?_, ?_⟩
      · rw [fileOf, List.flatMap_nil, List.nil_append, fgets, if_neg hnil,
          takeLine_last hlast (by omega)]
      · exact List.drop_length
  | cons line lines ih =>
    obtain ⟨hline, hshort⟩ := hlines line List.mem_cons_self
    have hfile : fileOf (line :: lines) last = (line ++ [10]) ++ fileOf lines last := by
      rw [fileOf, List.flatMap_cons, List.append_assoc]
      rfl
    rw [hfile]
    refine ⟨?_, ?_⟩
    · rw [fgets, if_neg (by simp), List.append_assoc, List.singleton_append,
        takeLine_line hline (by omega)]
    · have hdrop : ((line ++ [10]) ++ fileOf lines last).drop (line ++ [10]).length =
          fileOf lines last := List.drop_left
      rw [hdrop]
      exact ih fun l hl => hlines l (List.mem_cons_of_mem _ hl)

end CompatSuva.Common
