import CompatSuva.Common.Lines
import CompatSuva.Scl.Types

/-!
# Legal names

Model of `legal_name` and `legal_string` (`sutil.c` lines 567–637). They keep the legal characters
of a buffer, some of them only where they do not repeat the last one kept. `c` is set where a
character is kept and cleared at the end of each round, but not before the first: a first character
that is not kept lets whatever `c` held through.

* `legal_cases`: what is in the buffer afterwards;
* `legal_iff`: when that are the legal characters.
-/

namespace CompatSuva.Sutil

open CompatSuva.Common CompatSuva.Scl

/-! ## Model -/

/-- A `char` as an `int`. -/
def charVal (b : Byte) : ℤ := if b.toNat < 128 then b.toNat else b.toNat - 256

/-- An `int` as a `char`. -/
def toChar (z : ℤ) : Byte := UInt8.ofNat (z % 256).toNat

/-- `isalnum`, in the C locale. -/
def isAlnum (b : Byte) : Bool := (48 ≤ b && b ≤ 57) || (65 ≤ b && b ≤ 90) || (97 ≤ b && b ≤ 122)

/-- A sanitiser: the characters it keeps, and those of them that it does not repeat. -/
structure Legal where
  allowed : Byte → Bool
  single : Byte → Bool

namespace Legal

variable (L : Legal)

/-- The tests of a character, where `l` is the last one kept. -/
def keeps (b : Byte) (l : ℤ) : Bool := L.allowed b && !(L.single b && l = charVal b)

/-- The loop, where `newName` has been stored. -/
def loop : List Byte → ℤ → ℤ → List Byte → List Byte
  | [], _, _, newName => newName
  | b :: rest, c, l, newName =>
    if L.keeps b l then loop rest 0 (charVal b) (newName ++ [toChar (charVal b)])
    else if b = 0 then newName
    else if c ≠ 0 then loop rest 0 c (newName ++ [toChar c])
    else loop rest 0 l newName

/-- A string in a buffer of `len` bytes that was cleared. -/
def padded (len : ℕ) (s : List Byte) : List Byte := s ++ List.replicate (len - s.length) 0

/-- The function: whether it does not return NULL, and what is in the buffer. `malloc` is whether
    there is memory, `c` what the variable holds before it is set. -/
def run (malloc : Bool) (c : ℤ) (name : List Byte) : Bool × List Byte :=
  if malloc then (true, padded name.length (L.loop name c 0 [])) else (false, name)

end Legal

/-- What `legal_name` keeps: it tests for `isalnum`, `'_'`, and `'.'` if that is not the last. -/
def nameLegal : Legal where
  allowed b := isAlnum b || b = 95 || b = 46
  single b := b = 46

/-- `legal_name`. -/
def legalName : Bool → ℤ → List Byte → Bool × List Byte := nameLegal.run

/-- What `legal_string` keeps: also `'-'`, and `' '` if that is not the last. -/
def stringLegal : Legal where
  allowed b := isAlnum b || b = 95 || b = 45 || b = 46 || b = 32
  single b := b = 46 || b = 32

/-- `legal_string`. -/
def legalString : Bool → ℤ → List Byte → Bool × List Byte := stringLegal.run

/-! ## Characters -/

theorem charVal_injective : Function.Injective charVal := by
  intro b b' h
  have hb := b.toNat_lt
  have hb' := b'.toNat_lt
  rw [charVal, charVal] at h
  refine UInt8.toNat_inj.mp ?_
  split at h <;> split at h <;> omega

theorem toChar_charVal (b : Byte) : toChar (charVal b) = b := by
  have hb := b.toNat_lt
  refine UInt8.toNat_inj.mp ?_
  rw [toChar, UInt8.toNat_ofNat', charVal]
  split <;> omega

namespace Legal

variable {L : Legal}

/-! ## What is kept -/

variable (L) in
/-- The legal characters of a string, `l` being the last one kept before. -/
def sift : ℤ → List Byte → List Byte
  | _, [] => []
  | l, b :: s => if L.keeps b l then b :: sift (charVal b) s else sift l s

variable (L) in
/-- The buffer with the legal characters before its first NUL. -/
def clean (name : List Byte) : List Byte := padded name.length (L.sift 0 (cstr name))

theorem sift_sublist (l : ℤ) (s : List Byte) : (L.sift l s).Sublist s := by
  induction s generalizing l with
  | nil => exact List.Sublist.refl _
  | cons b s ih =>
    rw [sift]
    split
    · exact (ih _).cons_cons b
    · exact (ih _).cons b

theorem allowed_of_mem_sift {l : ℤ} {s : List Byte} {b : Byte} (h : b ∈ L.sift l s) :
    L.allowed b = true := by
  induction s generalizing l with
  | nil => exact absurd h List.not_mem_nil
  | cons b' s ih =>
    rw [sift] at h
    split at h
    next hkeeps =>
      obtain rfl | h := List.mem_cons.mp h
      · rw [keeps, Bool.and_eq_true] at hkeeps
        exact hkeeps.1
      · exact ih h
    next => exact ih h

theorem sift_sift (l : ℤ) (s : List Byte) : L.sift l (L.sift l s) = L.sift l s := by
  induction s generalizing l with
  | nil => rfl
  | cons b s ih =>
    rw [sift]
    split
    next hkeeps => rw [sift, if_pos hkeeps, ih]
    next => exact ih l

/-- The loop with `c` cleared. -/
theorem loop_zero (name : List Byte) (l : ℤ) (newName : List Byte) (hnul : L.allowed 0 = false) :
    L.loop name 0 l newName = newName ++ L.sift l (cstr name) := by
  induction name generalizing l newName with
  | nil => exact (List.append_nil _).symm
  | cons b name ih =>
    rw [loop]
    by_cases hb : b = 0
    · subst hb
      have hkeeps : ¬ L.keeps 0 l = true := by simp [keeps, hnul]
      rw [if_neg hkeeps, if_pos rfl, show cstr (0 :: name) = [] from rfl, sift, List.append_nil]
    · have hcstr : cstr (b :: name) = b :: cstr name :=
        List.takeWhile_cons_of_pos (by simpa using hb)
      rw [hcstr, sift]
      by_cases hkeeps : L.keeps b l = true
      · rw [if_pos hkeeps, if_pos hkeeps, ih, toChar_charVal, List.append_assoc]
        rfl
      · rw [if_neg hkeeps, if_neg hkeeps, if_neg hb, if_neg (not_not.mpr rfl), ih]

/-! ## Buffers -/

theorem cstr_padded {s : List Byte} (hs : (0 : Byte) ∉ s) (len : ℕ) : cstr (padded len s) = s := by
  have hne : ∀ b ∈ s, decide (b ≠ 0) = true := by
    intro b hb
    simpa using fun h0 : b = 0 => hs (h0 ▸ hb)
  rw [padded, cstr, List.takeWhile_append_of_pos hne]
  cases len - s.length <;> simp [List.replicate_succ]

theorem length_padded {s : List Byte} {len : ℕ} (h : s.length ≤ len) :
    (padded len s).length = len := by
  rw [padded, List.length_append, List.length_replicate]
  omega

theorem noNul_sift (hnul : L.allowed 0 = false) (l : ℤ) (s : List Byte) :
    (0 : Byte) ∉ L.sift l s := fun h => by
  have := allowed_of_mem_sift h
  rw [hnul] at this
  cases this

theorem length_sift_le (l : ℤ) (name : List Byte) : (L.sift l (cstr name)).length ≤ name.length :=
  (sift_sublist l _).length_le.trans (List.takeWhile_sublist _).length_le

theorem length_clean (name : List Byte) : (L.clean name).length = name.length :=
  length_padded (length_sift_le 0 name)

theorem clean_clean (hnul : L.allowed 0 = false) (name : List Byte) :
    L.clean (L.clean name) = L.clean name := by
  rw [clean, length_clean, clean, cstr_padded (noNul_sift hnul _ _), sift_sift]

theorem mem_clean {name : List Byte} {b : Byte} (h : b ∈ L.clean name) : L.allowed b ∨ b = 0 := by
  rw [clean, padded, List.mem_append] at h
  obtain h | h := h
  · exact Or.inl (allowed_of_mem_sift h)
  · exact Or.inr (List.eq_of_mem_replicate h)

/-! ## What the variable lets through -/

variable (L) in
/-- The first character is not kept, and the variable is not 0. -/
def Leaks (c : ℤ) (name : List Byte) : Prop := c ≠ 0 ∧ ∃ b ∈ name.head?, b ≠ 0 ∧ L.allowed b = false

theorem keeps_first (hnul : L.allowed 0 = false) {b : Byte} (hb : L.allowed b = true) :
    L.keeps b 0 = true := by
  have hne : charVal b ≠ 0 := fun h => by
    rw [show (0 : ℤ) = charVal 0 from rfl] at h
    rw [charVal_injective h, hnul] at hb
    cases hb
  simp [keeps, hb, Ne.symm hne]

/-- What the loop stores. -/
theorem loop_cases (hnul : L.allowed 0 = false) (c : ℤ) (name : List Byte) :
    L.Leaks c name ∧ L.loop name c 0 [] = toChar c :: L.sift c (cstr name) ∨
      ¬ L.Leaks c name ∧ L.loop name c 0 [] = L.sift 0 (cstr name) := by
  cases name with
  | nil => exact Or.inr ⟨by simp [Leaks], rfl⟩
  | cons b name =>
    by_cases hleaks : L.Leaks c (b :: name)
    · refine Or.inl ⟨hleaks, ?_⟩
      obtain ⟨hc, b', hb', hb, hnot⟩ := hleaks
      obtain rfl := Option.some.inj hb'
      have hkeeps : ∀ l, ¬ L.keeps b l = true := fun l => by simp [keeps, hnot]
      have hcstr : cstr (b :: name) = b :: cstr name :=
        List.takeWhile_cons_of_pos (by simpa using hb)
      rw [loop, if_neg (hkeeps 0), if_neg hb, if_pos hc, loop_zero _ _ _ hnul, hcstr, sift,
        if_neg (hkeeps c)]
      rfl
    · refine Or.inr ⟨hleaks, ?_⟩
      have hzero := loop_zero (b :: name) 0 [] hnul
      rw [List.nil_append] at hzero
      rw [← hzero, loop, loop]
      by_cases hkeeps : L.keeps b 0 = true
      · rw [if_pos hkeeps, if_pos hkeeps]
      · rw [if_neg hkeeps, if_neg hkeeps]
        by_cases hb : b = 0
        · rw [if_pos hb, if_pos hb]
        · have hc : c = 0 := by
            by_contra hc
            refine hleaks ⟨hc, b, rfl, hb, ?_⟩
            by_contra hallowed
            exact hkeeps (keeps_first hnul (by simpa using hallowed))
          rw [hc]

/-- A character that must not be repeated hides the same character if that is kept first. -/
theorem sift_cases (hnul : L.allowed 0 = false) (l : ℤ) (s : List Byte) :
    (∃ d, L.single d ∧ l = charVal d ∧ L.sift 0 s = d :: L.sift l s) ∨
      (¬ ∃ d, L.single d ∧ l = charVal d ∧ (L.sift 0 s).head? = some d) ∧
        L.sift l s = L.sift 0 s := by
  induction s with
  | nil => exact Or.inr ⟨by simp [sift], rfl⟩
  | cons b s ih =>
    by_cases hb : L.allowed b = true
    · have hkeeps := keeps_first hnul hb
      rw [sift, sift, if_pos hkeeps]
      by_cases hsame : L.single b = true ∧ l = charVal b
      · refine Or.inl ⟨b, hsame.1, hsame.2, ?_⟩
        rw [if_neg (by simp [keeps, hsame.1, hsame.2]), hsame.2]
      · refine Or.inr ⟨?_, ?_⟩
        · rintro ⟨d, hsingle, hl, hd⟩
          obtain rfl := Option.some.inj hd
          exact hsame ⟨hsingle, hl⟩
        · have hkeeps' : L.keeps b l = true := by
            cases hsingle : L.single b with
            | false => simp [keeps, hb, hsingle]
            | true =>
              have hl : ¬ l = charVal b := fun hl => hsame ⟨hsingle, hl⟩
              simp [keeps, hb, hsingle, hl]
          rw [if_pos hkeeps']
    · have hskip : ∀ l, ¬ L.keeps b l = true := fun l => by simp [keeps, hb]
      rw [sift, sift, if_neg (hskip 0), if_neg (hskip l)]
      exact ih

/-- A byte in front of a string without NUL changes the buffer, but a NUL in front of nothing. -/
theorem padded_cons_eq_iff {s : List Byte} (hs : (0 : Byte) ∉ s) (b : Byte) {len : ℕ}
    (hlen : s.length < len) : padded len (b :: s) = padded len s ↔ b = 0 ∧ s = [] := by
  constructor
  · intro h
    have hcstr := congrArg cstr h
    rw [cstr_padded hs] at hcstr
    by_cases hb : b = 0
    · subst hb
      exact ⟨rfl, hcstr.symm⟩
    · rw [cstr_padded (by simp [Ne.symm hb, hs])] at hcstr
      have := congrArg List.length hcstr
      rw [List.length_cons] at this
      omega
  · rintro ⟨rfl, rfl⟩
    obtain ⟨k, rfl⟩ := Nat.exists_eq_add_one_of_ne_zero (Nat.ne_zero_of_lt hlen)
    rfl

variable (L) in
/-- What the variable holds does not show: it is 0; the first character is kept or ends the string;
    nothing is kept, and the variable is a NUL as a `char`; or it is a character that is not
    repeated, and that one is kept first. -/
def Hidden (c : ℤ) (name : List Byte) : Prop :=
  c = 0 ∨ (∀ b ∈ name.head?, b = 0 ∨ L.allowed b) ∨
    (toChar c = 0 ∧ L.sift 0 (cstr name) = []) ∨
    ∃ d, L.single d ∧ c = charVal d ∧ (L.sift 0 (cstr name)).head? = some d

theorem run_iff (hnul : L.allowed 0 = false) (c : ℤ) (name : List Byte) :
    L.run true c name = (true, L.clean name) ↔ L.Hidden c name := by
  have hrun : L.run true c name = (true, L.clean name) ↔
      padded name.length (L.loop name c 0 []) = padded name.length (L.sift 0 (cstr name)) := by
    rw [run, if_pos rfl, clean, Prod.mk.injEq, and_iff_right rfl]
  rw [hrun]
  obtain ⟨hleaks, hloop⟩ | ⟨hnot, hloop⟩ := loop_cases hnul c name
  · obtain ⟨hc, b, hb, hb0, hballowed⟩ := hleaks
    have hother : ¬ (c = 0 ∨ ∀ b ∈ name.head?, b = 0 ∨ L.allowed b = true) := by
      rintro (h | h)
      · exact hc h
      · obtain h | h := h b hb
        · exact hb0 h
        · rw [hballowed] at h
          cases h
    have hhidden : L.Hidden c name ↔ (toChar c = 0 ∧ L.sift 0 (cstr name) = []) ∨
        ∃ d, L.single d ∧ c = charVal d ∧ (L.sift 0 (cstr name)).head? = some d := by
      rw [Hidden, ← or_assoc, or_iff_right hother]
    rw [hhidden, hloop]
    obtain ⟨d, hd, rfl, hsift⟩ | ⟨hno, hsift⟩ := sift_cases hnul c (cstr name)
    · rw [toChar_charVal, ← hsift]
      exact iff_of_true rfl (Or.inr ⟨d, hd, rfl, by rw [hsift]; rfl⟩)
    · have hlen : (L.sift 0 (cstr name)).length < name.length := by
        obtain ⟨b', rest, rfl⟩ := List.exists_cons_of_ne_nil (show name ≠ [] by
          rintro rfl
          cases hb)
        obtain rfl := Option.some.inj hb
        have hcstr : cstr (b' :: rest) = b' :: cstr rest :=
          List.takeWhile_cons_of_pos (by simpa using hb0)
        rw [hcstr, sift, if_neg (by simp [keeps, hballowed]), List.length_cons]
        exact Nat.lt_succ_of_le (length_sift_le 0 rest)
      rw [hsift, padded_cons_eq_iff (noNul_sift hnul _ _) _ hlen, or_iff_left hno]
  · rw [hloop]
    refine iff_of_true rfl ?_
    by_cases hc : c = 0
    · exact Or.inl hc
    · refine Or.inr (Or.inl fun b hb => ?_)
      by_contra hbad
      rw [not_or] at hbad
      exact hnot ⟨hc, b, hb, hbad.1, by simpa using hbad.2⟩

/-- A clean buffer starts with a legal character or a NUL. -/
theorem hidden_clean (c : ℤ) (name : List Byte) : L.Hidden c (L.clean name) :=
  Or.inr (Or.inl fun _ hb => (mem_clean (List.mem_of_mem_head? hb)).symm)

end Legal

/-- The buffer is overwritten with the legal characters before its first NUL, so that only these and
    NULs are in it, and doing it again changes nothing. -/
structure Sanitises (f : Bool → ℤ → List Byte → Bool × List Byte) (L : Legal) (c : ℤ)
    (name : List Byte) : Prop where
  clean : f true c name = (true, L.clean name)
  allowed : ∀ b ∈ (f true c name).2, L.allowed b ∨ b = 0
  idempotent : ∀ c', f true c' (f true c name).2 = f true c name

theorem sanitises_run_iff {L : Legal} (hnul : L.allowed 0 = false) (c : ℤ) (name : List Byte) :
    Sanitises L.run L c name ↔ L.Hidden c name := by
  rw [← Legal.run_iff hnul]
  refine ⟨fun h => h.clean, fun h => ⟨h, fun b hb => ?_, fun c' => ?_⟩⟩
  · rw [h] at hb
    exact Legal.mem_clean hb
  · rw [h, (Legal.run_iff hnul c' _).mpr (Legal.hidden_clean c' name), Legal.clean_clean hnul]

/-- Both sanitise a buffer exactly if what the variable holds does not show. -/
theorem legal_iff (c : ℤ) (name : List Byte) :
    (Sanitises legalName nameLegal c name ↔ nameLegal.Hidden c name) ∧
      (Sanitises legalString stringLegal c name ↔ stringLegal.Hidden c name) :=
  ⟨sanitises_run_iff rfl c name, sanitises_run_iff rfl c name⟩

/-- Of an exclamation mark, a letter is left. -/
theorem legal_leaks :
    ¬ ∀ (c : ℤ) (name : List Byte), name ≠ [] → (∀ b ∈ name, b.toNat < 128) →
      Sanitises legalName nameLegal c name ∧ Sanitises legalString stringLegal c name := by
  intro h
  obtain ⟨hname, -⟩ := h 65 (chars "!") (by decide) (by decide +kernel)
  exact absurd hname.clean (by decide +kernel)

end CompatSuva.Sutil
