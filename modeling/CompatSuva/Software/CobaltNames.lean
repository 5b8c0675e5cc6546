import CompatSuva.Software.Cobalt

/-!
# Which Cobalt packages are listed as they should

The listing has the files `N-V-R.md5lst` in `/var/lib/cobalt/`, for a name `N`, a version `V` and a
release `R`.

* `cobalt_safe_iff`: which file names are parsed without undefined behaviour;
* `cobalt_entry_iff`: which well-formed names are parsed as they should.
-/

namespace CompatSuva.Software

open CompatSuva.Common CompatSuva.Scl

/-! ## A listing -/

/-- The files are listed with this directory. -/
def directory : List Byte := chars "/var/lib/cobalt/"

/-- The line of a file in the listing. -/
def listingLine (F : List Byte) : List Byte := directory ++ F ++ chars ".md5lst\n"

theorem directory_noDash : ∀ b ∈ directory, isDash b = false := by decide +kernel

theorem stem_listingLine (F : List Byte) : stem (listingLine F) = directory ++ F := by
  have hlength : (listingLine F).length - 8 = (directory ++ F).length := by
    rw [listingLine, List.length_append]
    rfl
  rw [stem, hlength, listingLine, List.take_left]

theorem package_directory (F : List Byte) : package (directory ++ F) = directory ++ package F := by
  simp only [package, last_append_left directory_noDash]
  split
  · rfl
  · rfl

theorem partsFit_directory (F : List Byte) : PartsFit (directory ++ F) ↔ PartsFit F := by
  rw [PartsFit, package_directory, (last_append_left directory_noDash _).2,
    (last_append_left directory_noDash _).2, PartsFit]

/-- A short line is read as a whole. -/
theorem fgets_listingLine {F : List Byte} (hline : 10 ∉ F)
    (hfits : (listingLine F).length < lineSize)
    (rest : List Byte) : fgets lineSize (listingLine F ++ rest) = some (listingLine F) := by
  have hsplit : listingLine F = (directory ++ F ++ chars ".md5lst") ++ [10] := by
    rw [List.append_assoc]
    rfl
  have hno : (10 : Byte) ∉ directory ++ F ++ chars ".md5lst" := by
    simp only [List.mem_append, not_or]
    exact ⟨⟨by decide, hline⟩, by decide⟩
  have hlength : (directory ++ F ++ chars ".md5lst").length < lineSize - 1 := by
    rw [hsplit, List.length_append, List.length_singleton] at hfits
    omega
  have hne : listingLine F ++ rest ≠ [] := by
    rw [hsplit]
    simp
  rw [fgets, if_neg hne, hsplit, List.append_assoc, List.singleton_append,
    takeLine_line hno hlength rest]

theorem listingLine_noNul {F : List Byte} (h0 : (0 : Byte) ∉ F) : (0 : Byte) ∉ listingLine F := by
  simp only [listingLine, List.mem_append, not_or]
  exact ⟨⟨by decide, h0⟩, by decide⟩

theorem holds_listingLine {F : List Byte} (h0 : (0 : Byte) ∉ F) (line : List Byte) :
    Holds (store line (listingLine F)) (listingLine F) := by
  have h := holds_store line (listingLine F)
  rwa [cstr_noNul (listingLine_noNul h0)] at h

theorem length_listingLine (F : List Byte) : (listingLine F).length = F.length + 24 := by
  rw [listingLine, List.length_append, List.length_append, Nat.add_comm directory.length,
    Nat.add_assoc]
  rfl

/-- The directory has letters. -/
theorem letter_directory (s : List Byte) : fromLast isLetter (directory ++ s) ≠ [] := by
  intro h
  have hall := fromLast_eq_nil.mp h 116 (List.mem_append_left s (by decide +kernel))
  exact absurd hall (by decide)

/-- A file name without slash or newline is parsed without undefined behaviour exactly if it has a
    dash, and release and version fit their arrays. -/
theorem cobalt_safe_iff {F : List Byte} (hF : ∀ b ∈ F, b ≠ 0 ∧ b ≠ 10 ∧ b ≠ 47)
    (hfits : (listingLine F).length < lineSize) (line rest : List Byte) :
    fgets lineSize (listingLine F ++ rest) = some (listingLine F) ∧
      ((∃ r, cobaltLine (store line (listingLine F)) = .ok r) ↔ PartsFit F) := by
  have h0 : (0 : Byte) ∉ F := fun h => (hF 0 h).1 rfl
  have h10 : (10 : Byte) ∉ F := fun h => (hF 10 h).2.1 rfl
  have hlength := length_listingLine F
  refine ⟨fgets_listingLine h10 hfits rest, ?_⟩
  rw [cobaltLine_ok_iff (holds_listingLine h0 line), ← partsFit_directory, ← stem_listingLine]
  constructor
  · exact fun h => h.1.parts
  · intro hparts
    refine ⟨⟨by omega, hparts, ?_⟩, mem_drop_store (by omega)⟩
    rw [stem_listingLine, package_directory]
    exact letter_directory _

/-- A name, a version and a release, each of one letter or digit. -/
theorem cobalt_safe_iff_short :
    fgets lineSize (listingLine (chars "a-1-2") ++ []) = some (listingLine (chars "a-1-2")) ∧
      ((∃ r, cobaltLine (store (List.replicate 500 0) (listingLine (chars "a-1-2"))) = .ok r) ↔
        PartsFit (chars "a-1-2")) :=
  cobalt_safe_iff (by decide +kernel) (by decide +kernel) _ _

/-- A name without a dash. -/
theorem cobalt_safe_noDash :
    ¬ ∀ F : List Byte, (∀ b ∈ F, b ≠ 0 ∧ b ≠ 10 ∧ b ≠ 47) → (listingLine F).length < lineSize →
      ∀ line : List Byte, line.length = lineSize →
        ∃ r, cobaltLine (store line (listingLine F)) = .ok r := by
  intro hall
  obtain ⟨r, hr⟩ := hall (chars "base") (by decide +kernel) (by decide +kernel)
    (List.replicate 500 0) List.length_replicate
  have hfails : cobaltLine (store (List.replicate 500 0) (listingLine (chars "base"))) =
      .error .null := by decide +kernel
  rw [hfails] at hr
  cases hr

/-! ## Well-formed names -/

/-- Letters, digits, underscores and dashes. -/
def isNameChar (b : Byte) : Bool :=
  (48 ≤ b && b ≤ 57) || (65 ≤ b && b ≤ 90) || (97 ≤ b && b ≤ 122) || b = 95 || b = 45

/-- A name that ends in a lower-case letter, a version that starts with a digit, and a release, with
    no dash in these two. -/
structure WellFormed (N V R : List Byte) : Prop where
  name : ∀ b ∈ N, isNameChar b
  last : ∃ N' c, N = N' ++ [c] ∧ 97 ≤ c ∧ c ≤ 122
  digit : ∃ d V', V = d :: V' ∧ 48 ≤ d ∧ d ≤ 57
  version_length : 2 ≤ V.length ∧ V.length + 1 < 100
  release_length : 0 < R.length ∧ R.length + 1 < 20
  version : ∀ b ∈ V, b ≠ 45 ∧ b ≠ 0 ∧ b ≠ 10
  release : ∀ b ∈ R, b ≠ 45 ∧ b ≠ 0 ∧ b ≠ 10

/-- The file of a package. -/
def packageFile (N V R : List Byte) : List Byte := N ++ 45 :: V ++ 45 :: R

/-- What is listed for it. -/
def entriesOf (line listing : List Byte) : Except Fault (List Entry) :=
  Prod.snd <$> cobaltLoop listing line

theorem isNameChar_spec :
    ∀ b : Byte, isNameChar b → isDot b = false ∧ b ≠ 0 ∧ b ≠ 10 ∧ b ≠ 47 :=
  forall_byte.mpr (by decide +kernel)

theorem isLetter_lower : ∀ b : Byte, 97 ≤ b ∧ b ≤ 122 → isLetter b :=
  forall_byte.mpr (by decide +kernel)

theorem below_digit : ∀ b : Byte, 48 ≤ b ∧ b ≤ 57 → below 65 b :=
  forall_byte.mpr (by decide +kernel)

section

variable {N V R : List Byte} (h : WellFormed N V R)

theorem noDash_of {s : List Byte} (hs : ∀ b ∈ s, b ≠ 45 ∧ b ≠ 0 ∧ b ≠ 10) :
    ∀ b ∈ s, isDash b = false := fun b hb => by simpa [isDash] using (hs b hb).1

include h

theorem WellFormed.release_part :
    beforeLast isDash (packageFile N V R) = N ++ 45 :: V ∧
      fromLast isDash (packageFile N V R) = 45 :: R :=
  ⟨beforeLast_append rfl (noDash_of h.release), fromLast_append rfl (noDash_of h.release)⟩

theorem WellFormed.package_eq : package (packageFile N V R) = N ++ 45 :: V := by
  have hversion := h.version_length
  rw [package, h.release_part.1, fromLast_append rfl (noDash_of h.version), if_neg]
  rw [List.length_cons]
  omega

theorem WellFormed.version_part : fromLast isDash (package (packageFile N V R)) = 45 :: V := by
  rw [h.package_eq, fromLast_append rfl (noDash_of h.version)]

theorem WellFormed.looksLikeVersion : LooksLikeVersion (45 :: V) := by
  obtain ⟨d, V', rfl, hd⟩ := h.digit
  exact ⟨List.cons_ne_nil _ _, below_digit d hd⟩

theorem WellFormed.partsFit : PartsFit (packageFile N V R) := by
  have hversion := h.version_length
  have hrelease := h.release_length
  refine ⟨?_, ?_, fun _ => ?_⟩
  · rw [h.release_part.2]
    exact List.cons_ne_nil _ _
  · rw [h.release_part.2, List.length_cons]
    omega
  · rw [h.version_part, List.length_cons]
    omega

theorem WellFormed.plain : ∀ b ∈ packageFile N V R, b ≠ 0 ∧ b ≠ 10 := by
  intro b hb
  simp only [packageFile, List.mem_append, List.mem_cons] at hb
  obtain (hb | rfl | hb) | rfl | hb := hb
  · exact ⟨(isNameChar_spec b (h.name b hb)).2.1, (isNameChar_spec b (h.name b hb)).2.2.1⟩
  · exact ⟨by decide, by decide⟩
  · exact (h.version b hb).2
  · exact ⟨by decide, by decide⟩
  · exact (h.release b hb).2

end

/-- The version has no character from `'a'` on, or a dot before the last of them. -/
def NoLateLetter (V : List Byte) : Prop :=
  (∀ b ∈ V, isLetter b = false) ∨ ∃ b ∈ beforeLast isLetter V, isDot b

theorem uptoLetter_append {before : List Byte} {b : Byte} (hb : isLetter b) {after : List Byte}
    (hafter : ∀ a ∈ after, isLetter a = false) :
    uptoLetter (before ++ b :: after) = before ++ [b] := by
  rw [uptoLetter, beforeLast_append hb hafter, fromLast_append hb hafter]
  rfl

/-- What is before the version, where the version has no letter. -/
theorem nameOf_noLetter {before V : List Byte} {c : Byte} (hc : isLetter c)
    (hdot : ∀ b ∈ before ++ [c], isDot b = false) (hV : ∀ b ∈ V, isLetter b = false) :
    nameOf (before ++ [c] ++ 45 :: V) = before ++ [c] := by
  have hafter : ∀ b ∈ 45 :: V, isLetter b = false :=
    List.forall_mem_cons.mpr ⟨by decide, hV⟩
  have hupto : uptoLetter (before ++ [c] ++ 45 :: V) = before ++ [c] := by
    rw [List.append_assoc, List.singleton_append, uptoLetter_append hc hafter]
  rw [nameOf, hupto, if_pos (fromLast_none hdot)]

/-- And where it has one: only with a dot before it is the version cut off. -/
theorem nameOf_letter {before V₁ V₂ : List Byte} {c : Byte} (hc : isLetter c)
    (hdot : ∀ b ∈ before, isDot b = false) (hV₂ : ∀ b ∈ V₂, isLetter b = false)
    (hdash : ∀ b ∈ V₁ ++ [c], isDash b = false) :
    nameOf (before ++ 45 :: (V₁ ++ c :: V₂)) =
      if ∃ b ∈ V₁, isDot b then before else before ++ 45 :: (V₁ ++ [c]) := by
  have hupto : uptoLetter (before ++ 45 :: (V₁ ++ c :: V₂)) = before ++ 45 :: (V₁ ++ [c]) := by
    rw [← List.cons_append, ← List.append_assoc, uptoLetter_append hc hV₂, List.append_assoc,
      List.cons_append]
  have hcdot : isDot c = false := by
    by_contra hdot'
    have hcdot : c = 46 := by simpa [isDot] using hdot'
    rw [hcdot] at hc
    exact absurd hc (by decide)
  rw [nameOf, hupto]
  by_cases hV₁ : ∃ b ∈ V₁, isDot b
  · obtain ⟨b, hb, hbdot⟩ := hV₁
    have hhas : fromLast isDot (before ++ 45 :: (V₁ ++ [c])) ≠ [] := fun hnil => by
      have := fromLast_eq_nil.mp hnil b (by simp [hb])
      rw [hbdot] at this
      cases this
    rw [if_neg hhas, if_pos ⟨b, hb, hbdot⟩, beforeLast_append rfl hdash]
  · have hnone : ∀ b ∈ before ++ 45 :: (V₁ ++ [c]), isDot b = false := by
      intro b hb
      simp only [List.mem_append, List.mem_cons, List.not_mem_nil, or_false] at hb
      obtain hb | rfl | hb | rfl := hb
      · exact hdot b hb
      · rfl
      · simpa using fun hbdot : isDot b = true => hV₁ ⟨b, hb, hbdot⟩
      · exact hcdot
    rw [if_pos (fromLast_none hnone), if_neg hV₁]

/-- Which versions are cut off. -/
theorem WellFormed.nameOf_iff {N V R : List Byte} (h : WellFormed N V R) :
    16 ≤ (nameOf (directory ++ (N ++ 45 :: V))).length ∧
      ((nameOf (directory ++ (N ++ 45 :: V))).drop 16 = N ↔ NoLateLetter V) := by
  obtain ⟨N', c, hN, hc⟩ := h.last
  have hletter := isLetter_lower c hc
  have hdirectory : directory.length = 16 := rfl
  have hdrop (s : List Byte) : (directory ++ s).drop 16 = s := List.drop_left' hdirectory
  have hdot : ∀ b ∈ directory ++ N, isDot b = false := by
    intro b hb
    obtain hb | hb := List.mem_append.mp hb
    · exact (show ∀ b ∈ directory, isDot b = false by decide +kernel) b hb
    · exact (isNameChar_spec b (h.name b hb)).1
  cases hlast : lastIdx isLetter V with
  | none =>
    have hnone := lastIdx_eq_none.mp hlast
    have heq : nameOf (directory ++ (N ++ 45 :: V)) = directory ++ N := by
      rw [hN, ← List.append_assoc] at hdot
      rw [hN, ← List.append_assoc, ← List.append_assoc, nameOf_noLetter hletter hdot hnone]
    rw [heq, hdrop, List.length_append]
    exact ⟨by omega, iff_of_true rfl (.inl hnone)⟩
  | some i =>
    obtain ⟨V₁, b, V₂, rfl, -, hb, hV₂⟩ := lastIdx_some hlast
    have hdash : ∀ a ∈ V₁ ++ [b], isDash a = false := by
      intro a ha
      refine noDash_of h.version a ?_
      simp only [List.mem_append, List.mem_cons, List.not_mem_nil, or_false] at ha ⊢
      exact ha.imp_right .inl
    have hlate : NoLateLetter (V₁ ++ b :: V₂) ↔ ∃ a ∈ V₁, isDot a := by
      rw [NoLateLetter, beforeLast_append hb hV₂, or_iff_right]
      intro hall
      have := hall b (by simp)
      rw [hb] at this
      cases this
    rw [hlate, ← List.append_assoc, nameOf_letter hb hdot hV₂ hdash]
    by_cases hV₁ : ∃ a ∈ V₁, isDot a
    · rw [if_pos hV₁, hdrop, List.length_append]
      exact ⟨by omega, iff_of_true rfl hV₁⟩
    · rw [if_neg hV₁, List.append_assoc, hdrop, List.length_append]
      refine ⟨by omega, iff_of_false (fun heq => ?_) hV₁⟩
      have hlength := congrArg List.length heq
      rw [List.length_append, List.length_cons] at hlength
      omega

/-! ## One line -/

theorem length_entriesOf {listing line : List Byte} {ps : List (List Byte)}
    (hps : Pieces lineSize ps listing) {entries : List Entry}
    (h : entriesOf line listing = .ok entries) : entries.length = ps.length := by
  have hfuel := hps.length_le (by decide)
  rw [entriesOf, cobaltLoop, eachPiece_eq _ _ hps (by omega)] at h
  cases hloop : ps.foldlM cobaltRound (line, []) with
  | error f =>
    rw [hloop] at h
    cases h
  | ok r =>
    rw [hloop] at h
    cases h
    simpa using length_foldlM_cobaltRound hloop

/-- The package of a listing of one line. -/
theorem entriesOf_single {F : List Byte} (h10 : 10 ∉ F)
    (hfits : (listingLine F).length < lineSize) (line : List Byte) :
    entriesOf line (listingLine F) =
      (fun r => [r.2]) <$> cobaltLine (store line (listingLine F)) := by
  have hfgets := fgets_listingLine h10 hfits []
  rw [List.append_nil] at hfgets
  have hps : Pieces lineSize [listingLine F] (listingLine F) := ⟨hfgets, List.drop_length⟩
  have hlength := length_listingLine F
  rw [entriesOf, cobaltLoop, eachPiece_eq _ _ hps (by rw [List.length_singleton]; omega),
    List.foldlM_cons, cobaltRound]
  cases cobaltLine (store line (listingLine F)) with
  | error f => rfl
  | ok r => rfl

/-- A line that does not fit the buffer is read in more than one piece. -/
theorem entriesOf_long {F line : List Byte} (hlong : ¬ (listingLine F).length < lineSize)
    (e : Entry) : entriesOf line (listingLine F) ≠ .ok [e] := by
  intro h
  obtain ⟨ps, hps⟩ := pieces_exist (show 2 ≤ lineSize by decide) (listingLine F)
  have hlength := length_entriesOf hps h
  match ps, hps, hlength with
  | [p], hps, _ =>
    have hall := hps.flatten
    have htake := length_takeLine_le (lineSize - 1) (listingLine F)
    rw [(fgets_eq_some hps.1).2] at htake
    rw [List.flatten_cons, List.flatten_nil, List.append_nil] at hall
    rw [← hall] at hlong
    have hsize : lineSize = 500 := rfl
    omega

/-- A well-formed name is parsed as it should exactly if its line fits the buffer and its version
    has no character from `'a'` on without a dot before it. -/
theorem cobalt_entry_iff {N V R : List Byte} (h : WellFormed N V R) (line : List Byte) :
    entriesOf line (listingLine (packageFile N V R)) = .ok [⟨N, V, R⟩] ↔
      (listingLine (packageFile N V R)).length < lineSize ∧ NoLateLetter V := by
  by_cases hfits : (listingLine (packageFile N V R)).length < lineSize
  swap
  · exact iff_of_false (entriesOf_long hfits _) fun hand => hfits hand.1
  have h0 : (0 : Byte) ∉ packageFile N V R := fun hin => (h.plain 0 hin).1 rfl
  have h10 : (10 : Byte) ∉ packageFile N V R := fun hin => (h.plain 10 hin).2 rfl
  have hlength := length_listingLine (packageFile N V R)
  have hstem := stem_listingLine (packageFile N V R)
  have hpackage : package (stem (listingLine (packageFile N V R))) =
      directory ++ (N ++ 45 :: V) := by
    rw [hstem, package_directory, h.package_eq]
  have hok : TextOk (listingLine (packageFile N V R)) := by
    refine ⟨by omega, ?_, ?_⟩
    · rw [hstem, partsFit_directory]
      exact h.partsFit
    · rw [hpackage]
      exact letter_directory _
  have hlooks : LooksLikeVersion (fromLast isDash (directory ++ (N ++ 45 :: V))) := by
    rw [(last_append_left directory_noDash _).2, fromLast_append rfl (noDash_of h.version)]
    exact h.looksLikeVersion
  obtain ⟨line', heq, hto⟩ := cobaltLine_spec (holds_listingLine h0 line) hok
    (mem_drop_store (by omega))
  obtain ⟨hlen, hiff⟩ := h.nameOf_iff
  have hname : cstr (line'.drop 16) = (nameOf (directory ++ (N ++ 45 :: V))).drop 16 := by
    have htext := hto.text
    rw [hpackage] at htext
    rw [cstr_drop (by rw [htext]; exact hlen), htext]
  have hversion : (versionOf (stem (listingLine (packageFile N V R)))).drop 1 = V := by
    rw [versionOf, hpackage, if_pos hlooks, (last_append_left directory_noDash _).2,
      fromLast_append rfl (noDash_of h.version)]
    rfl
  have hrelease : (releaseOf (stem (listingLine (packageFile N V R)))).drop 1 = R := by
    rw [releaseOf, hpackage, if_pos hlooks, hstem, (last_append_left directory_noDash _).2,
      h.release_part.2]
    rfl
  rw [entriesOf_single h10 hfits, heq, hname, hversion, hrelease, map_ok, and_iff_right hfits,
    ← hiff]
  constructor
  · intro hentry
    exact (Entry.mk.inj (List.cons.inj (Except.ok.inj hentry)).1).1
  · intro hN
    rw [hN]

theorem wellFormed_beta : WellFormed (chars "pkg") (chars "1.0b3") (chars "2") where
  name := by decide +kernel
  last := ⟨chars "pk", 103, by decide +kernel⟩
  digit := ⟨49, chars ".0b3", by decide +kernel⟩
  version_length := by decide +kernel
  release_length := by decide +kernel
  version := by decide +kernel
  release := by decide +kernel

theorem cobalt_entry_iff_beta :
    entriesOf (List.replicate 500 0)
        (listingLine (packageFile (chars "pkg") (chars "1.0b3") (chars "2"))) =
      .ok [⟨chars "pkg", chars "1.0b3", chars "2"⟩] ↔
    (listingLine (packageFile (chars "pkg") (chars "1.0b3") (chars "2"))).length < lineSize ∧
      NoLateLetter (chars "1.0b3") :=
  cobalt_entry_iff wellFormed_beta _

theorem wellFormed_noDot : WellFormed (chars "pkg") (chars "10b") (chars "2") where
  name := by decide +kernel
  last := ⟨chars "pk", 103, by decide +kernel⟩
  digit := ⟨49, chars "0b", by decide +kernel⟩
  version_length := by decide +kernel
  release_length := by decide +kernel
  version := by decide +kernel
  release := by decide +kernel

/-- A version with a letter and no dot stays with the name. -/
theorem cobalt_entry_noDot :
    ¬ ∀ N V R : List Byte, WellFormed N V R →
      (listingLine (packageFile N V R)).length < lineSize →
        ∀ line : List Byte, line.length = lineSize →
          entriesOf line (listingLine (packageFile N V R)) = .ok [⟨N, V, R⟩] := by
  intro hall
  have hentry := hall (chars "pkg") (chars "10b") (chars "2") wellFormed_noDot (by decide +kernel)
    (List.replicate 500 0) List.length_replicate
  have hfound : entriesOf (List.replicate 500 0)
      (listingLine (packageFile (chars "pkg") (chars "10b") (chars "2"))) =
        .ok [⟨chars "pkg-10b", chars "10b", chars "2"⟩] := by decide +kernel
  rw [hfound] at hentry
  exact absurd hentry (by decide +kernel)

end CompatSuva.Software
