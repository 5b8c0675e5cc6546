import CompatSuva.Common.Block
import CompatSuva.Common.Scanf
import CompatSuva.Common.Outcome
import CompatSuva.Scl.Types

/-!
# The package list of a Cobalt system

Model of the Cobalt branch of `Software_CreatePackageList` (`Software.c` lines 113–172). Each line
of the listing names a file; name, version and release of a package are found in it by cutting it
at its dashes, in place. `line` is a block of `BUFSIZE` bytes that still has the end of longer
lines; a version is taken for one if it does not start with a letter, and the name is what is
before the last character from `'a'` on.

* `cobaltLine_spec`: what is found in a line;
* `cobaltLine_ok_iff`: when it is found without undefined behaviour.
-/

namespace CompatSuva.Software

open CompatSuva.Common CompatSuva.Scl

/-! ## Model -/

/-- Undefined behaviour: an index outside `line`, a NULL from `rindex`, a string that does not fit
    its array; `starved` does not happen. -/
inductive Fault where
  | line
  | null
  | release
  | version
  | extra
  | starved
  deriving DecidableEq, Repr

/-- `BUFSIZE`, the size of `line`. -/
def lineSize : ℕ := 500

/-- `line[i] = '\0'`. -/
def cut (line : List Byte) (i : ℤ) : Except Fault (List Byte) :=
  if 0 ≤ i ∧ i < line.length then .ok (line.set i.toNat 0) else .error .line

/-- `strcpy` into an array of `size` bytes. -/
def strcpy (size : ℕ) (overflow : Fault) (s : List Byte) : Except Fault (List Byte) :=
  if s.length < size then .ok s else .error overflow

/-- A comparison of characters, which are signed. -/
def below (limit b : Byte) : Bool := b.toInt8 < limit.toInt8

/-- `'-'`. -/
def isDash (b : Byte) : Bool := b = 45

/-- `'.'`. -/
def isDot (b : Byte) : Bool := b = 46

/-- `rindex`: the string it finds, or NULL. -/
def rindex (p : Byte → Bool) (s : List Byte) : Option (List Byte) := (lastIdx p s).map s.drop

/-- `line[strlen(line)-strlen(s)] = '\0'`. -/
def cutOff (line s : List Byte) : Except Fault (List Byte) :=
  cut line (strlen line - s.length)

/-- The release, which is cut off (lines 125–127). -/
def takeRelease (line : List Byte) : Except Fault (List Byte × List Byte) :=
  match rindex isDash (cstr line) with
  | none => .error .null
  | some cobaltrel => do
    let release ← strcpy 20 .release cobaltrel
    let line ← cutOff line release
    return (line, release)

/-- An extra release number is cut off (lines 131–139). -/
def dropExtra (line : List Byte) : Except Fault (List Byte) :=
  match rindex isDash (cstr line) with
  | none => .ok line
  | some cobaltver =>
    if cobaltver.length ≤ 2 then do
      let cobaltextraversion ← strcpy 5 .extra cobaltver
      cutOff line cobaltextraversion
    else .ok line

/-- Version and release (lines 139–148). -/
def takeVersion (line release : List Byte) : Except Fault (List Byte × List Byte) :=
  match rindex isDash (cstr line) with
  | none => .ok (release, chars "-")
  | some cobaltver =>
    if below 65 (cobaltver.getD 1 0) then do
      let version ← strcpy 100 .version cobaltver
      return (version, release)
    else .ok (release, chars "-")

/-- `while (line[count] < 'a') count--;` -/
def scanBack (line : List Byte) : ℕ → Except Fault ℕ
  | 0 => do
    let b ← byteAt .line line 0
    if below 97 b then .error .line else .ok 0
  | count + 1 => do
    let b ← byteAt .line line (count + 1)
    if below 97 b then scanBack line count else .ok (count + 1)

/-- What is behind the name is cut off (lines 150–165). -/
def cutName (line : List Byte) : Except Fault (List Byte) := do
  let count ← scanBack line (strlen line)
  let line ← cut line (count + 1)
  match rindex isDot (cstr line) with
  | none => return line
  | some _ =>
    match rindex isDash (cstr line) with
    | none => return line
    | some cobaltname => cutOff line cobaltname

/-- What is printed of a package. -/
structure Entry where
  name : List Byte
  version : List Byte
  release : List Byte
  deriving DecidableEq, Repr

/-- The body of the loop: `line` as it is left, and the package. `cobaltextraversion` keeps its
    string from one line to the next, but nothing reads it before it is set. -/
def cobaltLine (line : List Byte) : Except Fault (List Byte × Entry) := do
  let line ← cut line (strlen line - 8)
  let (line, release) ← takeRelease line
  let line ← dropExtra line
  let (version, release) ← takeVersion line release
  let line ← cutName line
  let name ← stringAt .line line 16
  return (line, ⟨name, version.drop 1, release.drop 1⟩)

/-- `fgets` stores a piece. -/
def store (line piece : List Byte) : List Byte := piece ++ 0 :: line.drop (piece.length + 1)

/-- A round of the loop; the packages so far are with the line. -/
def cobaltRound (s : List Byte × List Entry) (piece : List Byte) :
    Except Fault (List Byte × List Entry) := do
  let (line, entry) ← cobaltLine (store s.1 piece)
  return (line, s.2 ++ [entry])

/-- The loop, on the output of the listing. -/
def cobaltLoop (listing line : List Byte) : Except Fault (List Byte × List Entry) :=
  eachPiece lineSize .starved cobaltRound (listing.length + 1) listing (line, [])

/-! ## In terms of the text -/

/-- The text of a line without its last eight characters. -/
def stem (text : List Byte) : List Byte := text.take (text.length - 8)

/-- What is left for name and version. -/
def package (s : List Byte) : List Byte :=
  if (fromLast isDash (beforeLast isDash s)).length ≤ 2 then
    beforeLast isDash (beforeLast isDash s)
  else beforeLast isDash s

/-- A dash, and behind it no letter. -/
def LooksLikeVersion (v : List Byte) : Prop := v ≠ [] ∧ below 65 (v.getD 1 0)

instance (v : List Byte) : Decidable (LooksLikeVersion v) := inferInstanceAs (Decidable (_ ∧ _))

/-- There is a release, and release and version fit their arrays. -/
def PartsFit (s : List Byte) : Prop :=
  fromLast isDash s ≠ [] ∧ (fromLast isDash s).length < 20 ∧
    (LooksLikeVersion (fromLast isDash (package s)) →
      (fromLast isDash (package s)).length < 100)

/-- The version, with its dash. -/
def versionOf (s : List Byte) : List Byte :=
  if LooksLikeVersion (fromLast isDash (package s)) then fromLast isDash (package s)
  else fromLast isDash s

/-- The release, with its dash. -/
def releaseOf (s : List Byte) : List Byte :=
  if LooksLikeVersion (fromLast isDash (package s)) then fromLast isDash s else chars "-"

/-- Where `scanBack` stops. -/
def isLetter (b : Byte) : Bool := !below 97 b

/-- Up to the last such character. -/
def uptoLetter (s : List Byte) : List Byte :=
  beforeLast isLetter s ++ (fromLast isLetter s).take 1

/-- The name, with its directory. -/
def nameOf (s : List Byte) : List Byte :=
  if fromLast isDot (uptoLetter s) = [] then uptoLetter s else beforeLast isDash (uptoLetter s)

/-! ## Cutting the line -/

/-- The line has a text. -/
structure Holds (line s : List Byte) : Prop where
  text : cstr line = s
  ended : s.length < line.length

/-- The line has become another, with a text. Behind the first 16 bytes there still is a NUL, if
    there was. -/
structure CutTo (line s line' : List Byte) : Prop extends Holds line' s where
  length_eq : line'.length = line.length
  nul : (0 : Byte) ∈ line'.drop 16 ↔ (0 : Byte) ∈ line.drop 16

variable {line line' line'' s s' t : List Byte}

theorem CutTo.refl (h : Holds line s) : CutTo line s line := ⟨h, rfl, Iff.rfl⟩

theorem CutTo.trans (h : CutTo line s line') (h' : CutTo line' s' line'') :
    CutTo line s' line'' :=
  ⟨h'.toHolds, h'.length_eq.trans h.length_eq, h'.nul.trans h.nul⟩

theorem Holds.strlen_eq (h : Holds line s) : strlen line = s.length := congrArg List.length h.text

/-- The NUL of the text. -/
theorem Holds.nul (h : Holds line s) : (line)[s.length]? = some 0 := by
  have htake := take_succ_cstr (h.text ▸ h.ended)
  rw [h.text] at htake
  have hget := congrArg (fun bs => bs[s.length]?) htake
  simpa [List.getElem?_take] using hget

theorem mem_drop_set {i k : ℕ} (hi : (line)[k]? = some 0) (hik : i ≤ k) :
    (0 : Byte) ∈ (line.set i 0).drop 16 ↔ (0 : Byte) ∈ line.drop 16 := by
  simp only [List.mem_iff_getElem?, List.getElem?_drop]
  constructor
  · rintro ⟨j, hj⟩
    by_cases hij : i = 16 + j
    · exact ⟨k - 16, by rw [show 16 + (k - 16) = k by omega, hi]⟩
    · rw [List.getElem?_set_ne hij] at hj
      exact ⟨j, hj⟩
  · rintro ⟨j, hj⟩
    refine ⟨j, ?_⟩
    by_cases hij : i = 16 + j
    · rw [← hij] at hj ⊢
      rw [List.getElem?_set_self (List.getElem?_eq_some_iff.mp hj).1]
    · rw [List.getElem?_set_ne hij, hj]

theorem cut_spec (h : Holds line (s ++ t)) :
    ∃ line', cut line s.length = .ok line' ∧ CutTo line s line' := by
  have hended := h.ended
  rw [List.length_append] at hended
  have hlt : s.length < line.length := by omega
  refine ⟨line.set s.length 0, ?_, ⟨?_, ?_⟩, List.length_set, ?_⟩
  · rw [cut, if_pos ⟨by omega, by omega⟩, Int.toNat_natCast]
  · rw [cstr_set line hlt, h.text, List.take_left]
  · rw [List.length_set]
    exact hlt
  · refine mem_drop_set h.nul ?_
    rw [List.length_append]
    omega

theorem cutOff_spec (h : Holds line (s ++ t)) :
    ∃ line', cutOff line t = .ok line' ∧ CutTo line s line' := by
  obtain ⟨line', hcut, hto⟩ := cut_spec h
  refine ⟨line', ?_, hto⟩
  rw [cutOff, h.strlen_eq, List.length_append, show ((s.length + t.length : ℕ) : ℤ) - t.length =
    s.length by omega, hcut]

theorem rindex_eq (p : Byte → Bool) (s : List Byte) :
    rindex p s = if fromLast p s = [] then none else some (fromLast p s) := by
  rw [rindex]
  cases h : lastIdx p s with
  | none => rw [if_pos (fromLast_none (lastIdx_eq_none.mp h))]; rfl
  | some i =>
    obtain ⟨before, a, after, rfl, rfl, ha, hafter⟩ := lastIdx_some h
    rw [fromLast_append ha hafter, if_neg (List.cons_ne_nil _ _), Option.map_some, List.drop_left]

/-- What `rindex` finds is cut off. -/
theorem cutOff_fromLast (h : Holds line s) (p : Byte → Bool) :
    ∃ line', cutOff line (fromLast p s) = .ok line' ∧ CutTo line (beforeLast p s) line' :=
  cutOff_spec ((beforeLast_append_fromLast p s).symm ▸ h)

/-! ## The parts -/

theorem takeRelease_spec (h : Holds line s) (hdash : fromLast isDash s ≠ [])
    (hfits : (fromLast isDash s).length < 20) :
    ∃ line', takeRelease line = .ok (line', fromLast isDash s) ∧
      CutTo line (beforeLast isDash s) line' := by
  obtain ⟨line', hcut, hto⟩ := cutOff_fromLast h isDash
  refine ⟨line', ?_, hto⟩
  rw [takeRelease, h.text, rindex_eq, if_neg hdash]
  simp only [strcpy, if_pos hfits, ok_bind, hcut]
  rfl

theorem takeRelease_error (h : Holds line s)
    (hfails : ¬ (fromLast isDash s ≠ [] ∧ (fromLast isDash s).length < 20)) :
    ∃ f, takeRelease line = .error f := by
  rw [takeRelease, h.text, rindex_eq]
  by_cases hdash : fromLast isDash s = []
  · rw [if_pos hdash]
    exact ⟨_, rfl⟩
  · rw [if_neg hdash]
    simp only [strcpy, if_neg fun hlt => hfails ⟨hdash, hlt⟩]
    exact ⟨_, rfl⟩

theorem dropExtra_spec (h : Holds line (beforeLast isDash s)) :
    ∃ line', dropExtra line = .ok line' ∧ CutTo line (package s) line' := by
  obtain ⟨line', hcut, hto⟩ := cutOff_fromLast h isDash
  rw [dropExtra, h.text, rindex_eq, package]
  by_cases hdash : fromLast isDash (beforeLast isDash s) = []
  · have hshort : (fromLast isDash (beforeLast isDash s)).length ≤ 2 := by simp [hdash]
    rw [if_pos hdash, if_pos hshort, beforeLast_none (fromLast_eq_nil.mp hdash)]
    exact ⟨line, rfl, .refl h⟩
  rw [if_neg hdash]
  by_cases hshort : (fromLast isDash (beforeLast isDash s)).length ≤ 2
  · have hfits : (fromLast isDash (beforeLast isDash s)).length < 5 := by omega
    refine ⟨line', ?_, by rwa [if_pos hshort]⟩
    simp only [if_pos hshort, strcpy, if_pos hfits, ok_bind, hcut]
  · rw [if_neg hshort]
    exact ⟨line, if_neg hshort, .refl h⟩

theorem takeVersion_eq (h : Holds line (package s)) :
    takeVersion line (fromLast isDash s) =
      if LooksLikeVersion (fromLast isDash (package s)) → (fromLast isDash (package s)).length < 100
      then .ok (versionOf s, releaseOf s) else .error .version := by
  rw [takeVersion, h.text, rindex_eq, versionOf, releaseOf]
  by_cases hlooks : LooksLikeVersion (fromLast isDash (package s))
  · rw [if_neg hlooks.1, if_pos hlooks, if_pos hlooks]
    by_cases hfits : (fromLast isDash (package s)).length < 100
    · simp only [if_pos hlooks.2, strcpy, if_pos hfits, if_pos fun _ => hfits]
      rfl
    · have hnot : ¬ (LooksLikeVersion (fromLast isDash (package s)) →
          (fromLast isDash (package s)).length < 100) := fun himp => hfits (himp hlooks)
      simp only [if_pos hlooks.2, strcpy, if_neg hfits, if_neg hnot]
      rfl
  · rw [if_neg hlooks, if_neg hlooks, if_pos fun h => absurd h hlooks]
    by_cases hdash : fromLast isDash (package s) = []
    · rw [if_pos hdash]
    · rw [if_neg hdash]
      simp only [if_neg fun h => hlooks ⟨hdash, h⟩]

/-- The scan, in terms of the bytes before the cursor. -/
theorem scanBack_eq {count : ℕ} (h : count < line.length) :
    scanBack line count =
      match lastIdx isLetter (line.take (count + 1)) with
      | some i => .ok i
      | none => .error .line := by
  induction count with
  | zero =>
    obtain ⟨b, rest, rfl⟩ : ∃ b rest, line = b :: rest := List.exists_cons_of_length_pos h
    rw [scanBack, byteAt, List.getElem?_cons_zero]
    by_cases hb : below 97 b <;> simp [hb, lastIdx, isLetter]
  | succ count ih =>
    have htake : line.take (count + 1 + 1) = line.take (count + 1) ++ [(line)[count + 1]] :=
      (List.take_append_getElem h).symm
    rw [scanBack, byteAt, List.getElem?_eq_getElem h, htake, lastIdx_concat]
    by_cases hb : below 97 (line)[count + 1]
    · simp only [ok_bind, ih (by omega), isLetter, hb, Bool.not_true]
      rfl
    · simp only [ok_bind, isLetter, hb, Bool.not_false]
      simp [Nat.min_eq_left (Nat.le_of_lt h)]

theorem scanBack_strlen (h : Holds line s) :
    scanBack line (strlen line) =
      match lastIdx isLetter s with
      | some i => .ok i
      | none => .error .line := by
  have htake := take_succ_cstr (h.text ▸ h.ended)
  rw [h.text] at htake
  rw [h.strlen_eq, scanBack_eq h.ended, htake, lastIdx_concat, if_neg (by decide)]

theorem cutName_error (h : Holds line s) (hletter : fromLast isLetter s = []) :
    cutName line = .error .line := by
  rw [cutName, scanBack_strlen h, lastIdx_eq_none.mpr (fromLast_eq_nil.mp hletter)]
  rfl

theorem cutName_spec (h : Holds line s) (hletter : fromLast isLetter s ≠ []) :
    ∃ line', cutName line = .ok line' ∧ CutTo line (nameOf s) line' := by
  obtain ⟨b, rest, hrest⟩ := List.exists_cons_of_ne_nil hletter
  have hupto : uptoLetter s = beforeLast isLetter s ++ [b] := by rw [uptoLetter, hrest]; rfl
  have hsplit : s = uptoLetter s ++ rest := by
    rw [hupto, List.append_assoc, List.singleton_append, ← hrest, beforeLast_append_fromLast]
  have hlength : (uptoLetter s).length = (beforeLast isLetter s).length + 1 := by simp [hupto]
  obtain ⟨line₁, hcut, hto⟩ := cut_spec (hsplit ▸ h)
  rw [hlength, Nat.cast_succ] at hcut
  rw [cutName, scanBack_strlen h, lastIdx_of_fromLast hletter, nameOf]
  simp only [ok_bind, hcut, hto.text, rindex_eq]
  by_cases hdot : fromLast isDot (uptoLetter s) = []
  · simp only [if_pos hdot]
    exact ⟨line₁, rfl, hto⟩
  simp only [if_neg hdot]
  by_cases hdash : fromLast isDash (uptoLetter s) = []
  · simp only [if_pos hdash, beforeLast_none (fromLast_eq_nil.mp hdash)]
    exact ⟨line₁, rfl, hto⟩
  · simp only [if_neg hdash]
    obtain ⟨line₂, hcut', hto'⟩ := cutOff_fromLast hto.toHolds isDash
    exact ⟨line₂, hcut', hto.trans hto'⟩

/-! ## A line -/

/-- A text that is parsed. -/
structure TextOk (text : List Byte) : Prop where
  ending : 8 ≤ text.length
  parts : PartsFit (stem text)
  letter : fromLast isLetter (package (stem text)) ≠ []

theorem cut_stem (h : Holds line t) (hending : 8 ≤ t.length) :
    ∃ line', cut line (strlen line - 8) = .ok line' ∧ CutTo line (stem t) line' := by
  obtain ⟨line', hcut, hto⟩ := cut_spec (s := stem t) (t := t.drop (t.length - 8))
    ((List.take_append_drop _ t).symm ▸ h)
  have hlength : (stem t).length = t.length - 8 := by rw [stem, List.length_take]; omega
  refine ⟨line', ?_, hto⟩
  rw [← hcut, h.strlen_eq, hlength, Nat.cast_sub hending]
  rfl

/-- A line that is parsed, and what is found in it. -/
theorem cobaltLine_spec (h : Holds line t) (hok : TextOk t) (hnul : (0 : Byte) ∈ line.drop 16) :
    ∃ line', cobaltLine line =
        .ok (line', ⟨cstr (line'.drop 16), (versionOf (stem t)).drop 1,
          (releaseOf (stem t)).drop 1⟩) ∧
      CutTo line (nameOf (package (stem t))) line' := by
  obtain ⟨hending, ⟨hdash, hrelease, hversion⟩, hletter⟩ := hok
  obtain ⟨line₁, heq₁, hto₁⟩ := cut_stem h hending
  obtain ⟨line₂, heq₂, hto₂⟩ := takeRelease_spec hto₁.toHolds hdash hrelease
  obtain ⟨line₃, heq₃, hto₃⟩ := dropExtra_spec hto₂.toHolds
  obtain ⟨line₄, heq₄, hto₄⟩ := cutName_spec hto₃.toHolds hletter
  have hto := ((hto₁.trans hto₂).trans hto₃).trans hto₄
  refine ⟨line₄, ?_, hto⟩
  simp only [cobaltLine, heq₁, heq₂, heq₃, takeVersion_eq hto₃.toHolds, if_pos hversion, heq₄,
    stringAt, if_pos (hto.nul.mpr hnul), ok_bind]
  rfl

theorem cobaltLine_error (h : Holds line t)
    (hfails : ¬ (TextOk t ∧ (0 : Byte) ∈ line.drop 16)) : ∃ f, cobaltLine line = .error f := by
  by_cases hending : 8 ≤ t.length
  swap
  · refine ⟨.line, ?_⟩
    rw [cobaltLine, cut, h.strlen_eq, if_neg fun hin => hending (by omega)]
    rfl
  obtain ⟨line₁, heq₁, hto₁⟩ := cut_stem h hending
  simp only [cobaltLine, heq₁, ok_bind]
  by_cases hrelease : fromLast isDash (stem t) ≠ [] ∧ (fromLast isDash (stem t)).length < 20
  swap
  · obtain ⟨f, hf⟩ := takeRelease_error hto₁.toHolds hrelease
    exact ⟨f, by rw [hf]; rfl⟩
  obtain ⟨line₂, heq₂, hto₂⟩ := takeRelease_spec hto₁.toHolds hrelease.1 hrelease.2
  obtain ⟨line₃, heq₃, hto₃⟩ := dropExtra_spec hto₂.toHolds
  simp only [heq₂, heq₃, takeVersion_eq hto₃.toHolds, ok_bind]
  by_cases hversion : LooksLikeVersion (fromLast isDash (package (stem t))) →
      (fromLast isDash (package (stem t))).length < 100
  swap
  · exact ⟨.version, by rw [if_neg hversion]; rfl⟩
  rw [if_pos hversion]
  by_cases hletter : fromLast isLetter (package (stem t)) = []
  · exact ⟨.line, by simp only [cutName_error hto₃.toHolds hletter, ok_bind]; rfl⟩
  obtain ⟨line₄, heq₄, hto₄⟩ := cutName_spec hto₃.toHolds hletter
  have hto := ((hto₁.trans hto₂).trans hto₃).trans hto₄
  have hnul : ¬ (0 : Byte) ∈ line₄.drop 16 := fun hin =>
    hfails ⟨⟨hending, ⟨hrelease.1, hrelease.2, hversion⟩, hletter⟩, hto.nul.mp hin⟩
  exact ⟨.line, by simp only [heq₄, stringAt, if_neg hnul, ok_bind]; rfl⟩

/-- When a line is parsed without undefined behaviour. -/
theorem cobaltLine_ok_iff (h : Holds line t) :
    (∃ r, cobaltLine line = .ok r) ↔ TextOk t ∧ (0 : Byte) ∈ line.drop 16 := by
  constructor
  · rintro ⟨r, hr⟩
    by_contra hfails
    obtain ⟨f, hf⟩ := cobaltLine_error h hfails
    rw [hf] at hr
    cases hr
  · rintro ⟨hok, hnul⟩
    obtain ⟨line', heq, -⟩ := cobaltLine_spec h hok hnul
    exact ⟨_, heq⟩

/-! ## What is behind a line -/

section

variable (rest : List Byte)

theorem strlen_append (h0 : (0 : Byte) ∈ line) : strlen (line ++ rest) = strlen line :=
  congrArg List.length (cstr_append h0 rest)

theorem cut_frame {i : ℤ} (h : cut line i = .ok line') :
    cut (line ++ rest) i = .ok (line' ++ rest) ∧ (0 : Byte) ∈ line' := by
  rw [cut] at h
  split at h
  next hin =>
    cases h
    have hlt : i.toNat < line.length := by omega
    refine ⟨?_, List.mem_set hlt 0⟩
    rw [cut, if_pos ⟨hin.1, by rw [List.length_append]; omega⟩, List.set_append_left _ _ hlt]
  next => cases h

theorem cutOff_frame (h0 : (0 : Byte) ∈ line) (h : cutOff line s = .ok line') :
    cutOff (line ++ rest) s = .ok (line' ++ rest) ∧ (0 : Byte) ∈ line' := by
  rw [cutOff, strlen_append rest h0]
  exact cut_frame rest h

theorem takeRelease_frame {r : List Byte × List Byte} (h0 : (0 : Byte) ∈ line)
    (h : takeRelease line = .ok r) :
    takeRelease (line ++ rest) = .ok (r.1 ++ rest, r.2) ∧ (0 : Byte) ∈ r.1 := by
  rw [takeRelease] at h ⊢
  rw [cstr_append h0]
  cases hrel : rindex isDash (cstr line) with
  | none =>
    rw [hrel] at h
    cases h
  | some cobaltrel =>
    rw [hrel] at h
    obtain ⟨release, hcpy, h⟩ := bind_eq_ok.mp h
    obtain ⟨line', hcut, h⟩ := bind_eq_ok.mp h
    cases h
    obtain ⟨heq, hmem⟩ := cutOff_frame rest h0 hcut
    refine ⟨?_, hmem⟩
    simp only [hcpy, heq, ok_bind]
    rfl

theorem dropExtra_frame (h0 : (0 : Byte) ∈ line) (h : dropExtra line = .ok line') :
    dropExtra (line ++ rest) = .ok (line' ++ rest) ∧ (0 : Byte) ∈ line' := by
  rw [dropExtra] at h ⊢
  rw [cstr_append h0]
  cases hver : rindex isDash (cstr line) with
  | none =>
    rw [hver] at h
    cases h
    exact ⟨rfl, h0⟩
  | some cobaltver =>
    simp only [hver] at h ⊢
    by_cases hshort : cobaltver.length ≤ 2
    · rw [if_pos hshort] at h ⊢
      obtain ⟨extra, hcpy, hcut⟩ := bind_eq_ok.mp h
      rw [hcpy]
      exact cutOff_frame rest h0 hcut
    · rw [if_neg hshort] at h ⊢
      cases h
      exact ⟨rfl, h0⟩

theorem byteAt_frame {i : ℕ} {b : Byte} (h : byteAt Fault.line line i = .ok b) :
    byteAt Fault.line (line ++ rest) i = .ok b := by
  rw [byteAt] at h ⊢
  split at h
  next b' hi =>
    rw [List.getElem?_append_left (List.getElem?_eq_some_iff.mp hi).1, hi]
    exact h
  next => cases h

theorem scanBack_frame {count i : ℕ} (h : scanBack line count = .ok i) :
    scanBack (line ++ rest) count = .ok i := by
  induction count with
  | zero =>
    rw [scanBack] at h ⊢
    obtain ⟨b, hb, h⟩ := bind_eq_ok.mp h
    rw [byteAt_frame rest hb]
    exact h
  | succ count ih =>
    rw [scanBack] at h ⊢
    obtain ⟨b, hb, h⟩ := bind_eq_ok.mp h
    rw [byteAt_frame rest hb, ok_bind]
    split at h
    next hbelow =>
      rw [if_pos hbelow]
      exact ih h
    next hbelow =>
      rw [if_neg hbelow]
      exact h

theorem cutName_frame (h0 : (0 : Byte) ∈ line) (h : cutName line = .ok line') :
    cutName (line ++ rest) = .ok (line' ++ rest) ∧ (0 : Byte) ∈ line' := by
  rw [cutName] at h ⊢
  obtain ⟨count, hscan, h⟩ := bind_eq_ok.mp h
  obtain ⟨line₁, hcut, h⟩ := bind_eq_ok.mp h
  obtain ⟨heq, hmem⟩ := cut_frame rest hcut
  simp only [strlen_append rest h0, scanBack_frame rest hscan, heq, ok_bind, cstr_append hmem]
  cases hdot : rindex isDot (cstr line₁) with
  | none =>
    rw [hdot] at h
    cases h
    exact ⟨rfl, hmem⟩
  | some _ =>
    simp only [hdot] at h ⊢
    cases hdash : rindex isDash (cstr line₁) with
    | none =>
      rw [hdash] at h
      cases h
      exact ⟨rfl, hmem⟩
    | some cobaltname =>
      rw [hdash] at h
      exact cutOff_frame rest hmem h

/-- What is parsed in a line does not depend on what is behind it. -/
theorem cobaltLine_frame {r : List Byte × Entry} (h0 : (0 : Byte) ∈ line)
    (h : cobaltLine line = .ok r) : cobaltLine (line ++ rest) = .ok (r.1 ++ rest, r.2) := by
  rw [cobaltLine] at h ⊢
  obtain ⟨line₁, h₁, h⟩ := bind_eq_ok.mp h
  obtain ⟨heq₁, hmem₁⟩ := cut_frame rest h₁
  obtain ⟨⟨line₂, release⟩, h₂, h⟩ := bind_eq_ok.mp h
  obtain ⟨heq₂, hmem₂⟩ := takeRelease_frame rest hmem₁ h₂
  obtain ⟨line₃, h₃, h⟩ := bind_eq_ok.mp h
  obtain ⟨heq₃, hmem₃⟩ := dropExtra_frame rest hmem₂ h₃
  obtain ⟨⟨version, release'⟩, h₄, h⟩ := bind_eq_ok.mp h
  have heq₄ : takeVersion (line₃ ++ rest) release = .ok (version, release') := by
    rw [← h₄, takeVersion, takeVersion, cstr_append hmem₃]
  obtain ⟨line₅, h₅, h⟩ := bind_eq_ok.mp h
  obtain ⟨heq₅, -⟩ := cutName_frame rest hmem₃ h₅
  obtain ⟨name, h₆, h⟩ := bind_eq_ok.mp h
  cases h
  have heq₆ : stringAt Fault.line (line₅ ++ rest) 16 = .ok name := by
    rw [stringAt] at h₆ ⊢
    split at h₆
    next hmem =>
      have hlen : 16 ≤ line₅.length := by
        by_contra hlt
        rw [List.drop_of_length_le (by omega)] at hmem
        exact absurd hmem List.not_mem_nil
      rw [List.drop_append_of_le_length hlen, cstr_append hmem,
        if_pos (List.mem_append_left _ hmem)]
      exact h₆
    next => cases h₆
  simp only [strlen_append rest h0, heq₁, heq₂, heq₃, heq₄, heq₅, heq₆, ok_bind]
  rfl

end

/-! ## The loop -/

/-- `line` after `fgets`. -/
theorem holds_store (line piece : List Byte) : Holds (store line piece) (cstr piece) := by
  refine ⟨cstr_append_cons piece _, ?_⟩
  have hle : (cstr piece).length ≤ piece.length := (List.takeWhile_sublist _).length_le
  rw [store, List.length_append, List.length_cons]
  omega

theorem mem_drop_store {line piece : List Byte} (h : 16 ≤ piece.length) :
    (0 : Byte) ∈ (store line piece).drop 16 := by
  rw [store, List.drop_append_of_le_length h]
  simp

/-- One package for each piece. -/
theorem length_foldlM_cobaltRound {ps : List (List Byte)} {s r : List Byte × List Entry}
    (h : ps.foldlM cobaltRound s = .ok r) : r.2.length = s.2.length + ps.length := by
  induction ps generalizing s with
  | nil =>
    cases h
    rfl
  | cons piece ps ih =>
    rw [List.foldlM_cons, cobaltRound] at h
    cases hline : cobaltLine (store s.1 piece) with
    | error f =>
      rw [hline] at h
      cases h
    | ok r' =>
      rw [hline] at h
      have hrest := ih (s := (r'.1, s.2 ++ [r'.2])) h
      rw [hrest, List.length_append, List.length_singleton, List.length_cons]
      omega

end CompatSuva.Software
