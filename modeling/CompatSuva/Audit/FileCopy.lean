import CompatSuva.Common.LittleEndian

/-!
# Copying the AIDE database

Model of `file_copy` (`SecurityAudit.c` lines 552–585), with which `SecurityAudit_run_aide` puts the
new database over the old one. The target is truncated when it is opened. The loop ends where
`fread` returns 0, be it for the end of the file or for an error, and what `fclose` returns is not
looked at.

* `copyLoop_eq`: what the loop returns and what it has written, by the outcomes of the calls;
* `fileCopy_prefix`: once both files are open, the target has the start of the source;
* `fileCopy_iff`: when it is a copy for a return of 0, and what it was for one of 1.
-/

namespace CompatSuva.Audit

open CompatSuva.Common

/-! ## Model -/

/-- `COPY_BUFFER_SIZE`. -/
def copyBufferSize : ℕ := 4096

/-- A round of the loop: how many bytes `fread` gives, if there are as many, and how many of them
    `fwrite` takes. -/
structure Round where
  count : ℕ
  accepted : ℕ
  deriving DecidableEq, Repr

/-- The outcomes of the calls: whether the files are opened, the rounds, behind which `fread`
    returns 0, and how many bytes that `fwrite` has taken are in the target in the end. After an
    `fclose` that succeeds these are all of them. -/
structure Schedule where
  openIn : Bool
  openOut : Bool
  rounds : List Round
  flushed : ℕ
  deriving DecidableEq, Repr

/-- `data_len`, where `left` bytes of the source have not been read. -/
def Round.dataLen (r : Round) (left : ℕ) : ℕ := min r.count (min copyBufferSize left)

/-- The loop: what is returned, and what `fwrite` has taken. -/
def copyLoop : List Round → List Byte → List Byte → ℤ × List Byte
  | [], _, out => (0, out)
  | r :: rounds, left, out =>
    let dataLen := r.dataLen left.length
    if dataLen = 0 then (0, out)
    else if min r.accepted dataLen < dataLen then (1, out ++ left.take (min r.accepted dataLen))
    else copyLoop rounds (left.drop dataLen) (out ++ left.take dataLen)

/-- What a call comes to. -/
structure Copied where
  ret : ℤ
  target : List Byte
  deriving DecidableEq, Repr

/-- `file_copy`, of `source`, where the target has held `old`. -/
def fileCopy (s : Schedule) (source old : List Byte) : Copied :=
  if !s.openIn then ⟨1, old⟩
  else if !s.openOut then ⟨1, old⟩
  else
    let r := copyLoop s.rounds source []
    ⟨r.1, r.2.take s.flushed⟩

/-! ## The outcomes of the calls -/

/-- Some `fwrite` takes less than it is given. -/
def ShortWrite : ℕ → List Round → Prop
  | _, [] => False
  | left, r :: rounds =>
    r.dataLen left ≠ 0 ∧
      (r.accepted < r.dataLen left ∨ ShortWrite (left - r.dataLen left) rounds)

instance decidableShortWrite : ∀ left rounds, Decidable (ShortWrite left rounds)
  | _, [] => isFalse id
  | left, r :: rounds =>
    have := decidableShortWrite (left - r.dataLen left) rounds
    inferInstanceAs (Decidable (_ ∧ _))

/-- How many bytes `fwrite` takes. -/
def taken : ℕ → List Round → ℕ
  | _, [] => 0
  | left, r :: rounds =>
    if r.accepted < r.dataLen left then r.accepted
    else if r.dataLen left = 0 then 0
    else r.dataLen left + taken (left - r.dataLen left) rounds

theorem Round.dataLen_le (r : Round) (left : ℕ) : r.dataLen left ≤ left := by
  rw [Round.dataLen]
  omega

theorem taken_le (left : ℕ) (rounds : List Round) : taken left rounds ≤ left := by
  induction rounds generalizing left with
  | nil => exact Nat.zero_le left
  | cons r rounds ih =>
    have hle := r.dataLen_le left
    have hrest := ih (left - r.dataLen left)
    rw [taken]
    split_ifs <;> omega

/-- What a short `fwrite` does not take is missing. -/
theorem taken_lt {left : ℕ} {rounds : List Round} (h : ShortWrite left rounds) :
    taken left rounds < left := by
  induction rounds generalizing left with
  | nil => exact h.elim
  | cons r rounds ih =>
    have hle := r.dataLen_le left
    rw [taken]
    by_cases hshort : r.accepted < r.dataLen left
    · rw [if_pos hshort]
      omega
    · have hrest := ih (h.2.resolve_left hshort)
      rw [if_neg hshort, if_neg h.1]
      omega

/-- The loop, by the outcomes. -/
theorem copyLoop_eq (rounds : List Round) (left out : List Byte) :
    copyLoop rounds left out =
      (if ShortWrite left.length rounds then 1 else 0,
        out ++ left.take (taken left.length rounds)) := by
  induction rounds generalizing left out with
  | nil => rw [copyLoop, taken, List.take_zero, List.append_nil,
      if_neg fun h : ShortWrite left.length [] => h]
  | cons r rounds ih =>
    have hle := r.dataLen_le left.length
    rw [copyLoop, taken]
    by_cases hend : r.dataLen left.length = 0
    · have hwrite : ¬ ShortWrite left.length (r :: rounds) := fun h => h.1 hend
      rw [if_pos hend, if_neg hwrite, if_neg (by omega), if_pos hend, List.take_zero,
        List.append_nil]
    rw [if_neg hend]
    by_cases hshort : r.accepted < r.dataLen left.length
    · have hmin : min r.accepted (r.dataLen left.length) = r.accepted := by omega
      have hwrite : ShortWrite left.length (r :: rounds) := ⟨hend, .inl hshort⟩
      rw [hmin, if_pos hshort, if_pos hwrite, if_pos hshort]
    · have hiff : ShortWrite left.length (r :: rounds) ↔
          ShortWrite (left.length - r.dataLen left.length) rounds :=
        ⟨fun h => h.2.resolve_left hshort, fun h => ⟨hend, .inr h⟩⟩
      rw [if_neg (by omega), ih, List.length_drop, if_neg hshort, if_neg hend, List.take_add,
        List.append_assoc, if_congr hiff rfl rfl]

/-! ## The copy -/

/-- What `file_copy` is for: a return of 0 says that the target is a copy, and any other that it is
    still there. -/
def Safe (source old : List Byte) (c : Copied) : Prop :=
  (c.ret = 0 → c.target = source) ∧ (c.ret ≠ 0 → c.target = old)

theorem fileCopy_eq {s : Schedule} (hin : s.openIn = true) (hout : s.openOut = true)
    (source old : List Byte) :
    fileCopy s source old =
      ⟨if ShortWrite source.length s.rounds then 1 else 0,
        source.take (min s.flushed (taken source.length s.rounds))⟩ := by
  simp only [fileCopy, hin, hout, Bool.not_true, copyLoop_eq, List.nil_append, List.take_take]
  rfl

/-- The target has the start of the source. -/
theorem fileCopy_prefix {s : Schedule} (hin : s.openIn = true) (hout : s.openOut = true)
    (source old : List Byte) : (fileCopy s source old).target <+: source := by
  rw [fileCopy_eq hin hout]
  exact List.take_prefix _ source

/-- A return of 0 means a copy, and another that nothing has changed, exactly if a file is not
    opened; or `fwrite` takes the whole source, and all of it gets to the target; or a `fwrite` is
    short, and what got to the target was there before. -/
theorem fileCopy_iff (s : Schedule) (source old : List Byte) :
    Safe source old (fileCopy s source old) ↔
      s.openIn = false ∨ s.openOut = false ∨
      (taken source.length s.rounds = source.length ∧ source.length ≤ s.flushed) ∨
      (ShortWrite source.length s.rounds ∧
        source.take (min s.flushed (taken source.length s.rounds)) = old) := by
  have hunchanged : Safe source old ⟨1, old⟩ := ⟨fun h => absurd h one_ne_zero, fun _ => rfl⟩
  cases hin : s.openIn with
  | false =>
    rw [show fileCopy s source old = ⟨1, old⟩ by rw [fileCopy, hin]; rfl]
    exact iff_of_true hunchanged (.inl rfl)
  | true =>
    cases hout : s.openOut with
    | false =>
      rw [show fileCopy s source old = ⟨1, old⟩ by rw [fileCopy, hin, hout]; rfl]
      exact iff_of_true hunchanged (.inr (.inl rfl))
    | true =>
      have hle := taken_le source.length s.rounds
      rw [fileCopy_eq hin hout, Safe]
      by_cases hshort : ShortWrite source.length s.rounds
      · have hlt := taken_lt hshort
        rw [if_pos hshort]
        constructor
        · exact fun h => .inr (.inr (.inr ⟨hshort, h.2 one_ne_zero⟩))
        · rintro (h | h | ⟨hall, -⟩ | ⟨-, hsame⟩)
          · cases h
          · cases h
          · omega
          · exact ⟨fun h => absurd h one_ne_zero, fun _ => hsame⟩
      · rw [if_neg hshort]
        constructor
        · intro h
          have hlength := congrArg List.length (h.1 rfl)
          rw [List.length_take] at hlength
          exact .inr (.inr (.inl ⟨by omega, by omega⟩))
        · rintro (h | h | ⟨hall, hflushed⟩ | ⟨h, -⟩)
          · cases h
          · cases h
          · exact ⟨fun _ => List.take_of_length_le (by omega), fun h => absurd rfl h⟩
          · exact absurd h hshort

/-- `fread` fails at once: 0 is returned, and nothing is left of the target. -/
theorem fileCopy_readError :
    ¬ ∀ (s : Schedule) (source old : List Byte), Safe source old (fileCopy s source old) := by
  intro hall
  have hcopy := (hall ⟨true, true, [], 0⟩ [1] [2]).1 (by decide)
  exact absurd hcopy (by decide)

end CompatSuva.Audit
