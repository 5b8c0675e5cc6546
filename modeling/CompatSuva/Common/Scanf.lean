import CompatSuva.Common.Lines
import CompatSuva.Common.Outcome

/-!
# Scanning the lines of a file

`eachLine` is a loop over `fgets`, a fold over the pieces of the file. `sscanf` reads the
directives `%s`, `%*s` and `%li`, with white space between them; its strings go to arrays, which
they must fit.

* `eachLine_eq`: the loop, in terms of the pieces;
* `sscanf_strs`: scanning strings takes the first of the words;
* `scanLong_decimalInt`: `%li` reads a decimal numeral, if it is that of a `long`.
-/

namespace CompatSuva.Common

variable {ε σ : Type}

/-! ## Lines -/

/-- `while (fgets(…)) body`, where `rest` has not been read; `starved` is a loop that has gone round
    too often, which does not happen. -/
def eachLine (size : ℕ) (starved : ε) (body : σ → List Byte → Except ε σ) :
    ℕ → List Byte → σ → Except ε σ
  | 0, _, _ => .error starved
  | fuel + 1, rest, s =>
    match fgets size rest with
    | none => .ok s
    | some piece => do
      let s ← body s (cstr piece)
      eachLine size starved body fuel (rest.drop piece.length) s

/-- The same loop, where the body has what `fgets` stores and not only the string. -/
def eachPiece (size : ℕ) (starved : ε) (body : σ → List Byte → Except ε σ) :
    ℕ → List Byte → σ → Except ε σ
  | 0, _, _ => .error starved
  | fuel + 1, rest, s =>
    match fgets size rest with
    | none => .ok s
    | some piece => do
      let s ← body s piece
      eachPiece size starved body fuel (rest.drop piece.length) s

theorem eachPiece_eq {size : ℕ} (starved : ε) (body : σ → List Byte → Except ε σ)
    {ps : List (List Byte)} {file : List Byte} (h : Pieces size ps file) {fuel : ℕ}
    (hfuel : ps.length < fuel) (s : σ) :
    eachPiece size starved body fuel file s = ps.foldlM body s := by
  induction ps generalizing file fuel s with
  | nil =>
    obtain ⟨k, rfl⟩ := Nat.exists_eq_add_one_of_ne_zero (Nat.ne_zero_of_lt hfuel)
    rw [eachPiece, fgets, if_pos (show file = [] from h)]
    rfl
  | cons piece ps ih =>
    rw [List.length_cons] at hfuel
    obtain ⟨k, rfl⟩ := Nat.exists_eq_add_one_of_ne_zero (Nat.ne_zero_of_lt hfuel)
    rw [eachPiece, h.1, List.foldlM_cons]
    exact congrArg _ (funext fun s => ih h.2 (by omega) s)

/-- What the lines of the file put in the buffer of `fgets`. -/
def pieces (size : ℕ) : ℕ → List Byte → List (List Byte)
  | 0, _ => []
  | fuel + 1, rest =>
    match fgets size rest with
    | none => []
    | some piece => cstr piece :: pieces size fuel (rest.drop piece.length)

theorem pieces_eq {size : ℕ} {ps : List (List Byte)} {rest : List Byte} (h : Pieces size ps rest)
    {fuel : ℕ} (hfuel : ps.length < fuel) : pieces size fuel rest = ps.map cstr := by
  induction ps generalizing rest fuel with
  | nil =>
    obtain ⟨k, rfl⟩ := Nat.exists_eq_add_one_of_ne_zero (Nat.ne_zero_of_lt hfuel)
    rw [pieces, fgets, if_pos (show rest = [] from h)]
    rfl
  | cons piece ps ih =>
    rw [List.length_cons] at hfuel
    obtain ⟨k, rfl⟩ := Nat.exists_eq_add_one_of_ne_zero (Nat.ne_zero_of_lt hfuel)
    rw [pieces, h.1, List.map_cons]
    exact congrArg _ (ih h.2 (by omega))

theorem length_takeLine_le (n : ℕ) (bs : List Byte) : (takeLine n bs).length ≤ n := by
  induction n generalizing bs with
  | zero => exact Nat.le_refl _
  | succ n ih =>
    cases bs with
    | nil => exact Nat.zero_le _
    | cons b bs =>
      rw [takeLine]
      split
      · exact Nat.succ_le_succ (Nat.zero_le _)
      · exact Nat.succ_le_succ (ih bs)

/-- No piece is longer than the buffer. -/
theorem length_pieces {size : ℕ} (hsize : 2 ≤ size) {fuel : ℕ} {rest msg : List Byte}
    (h : msg ∈ pieces size fuel rest) : msg.length < size := by
  induction fuel generalizing rest with
  | zero => exact absurd h List.not_mem_nil
  | succ fuel ih =>
    rw [pieces] at h
    split at h
    · exact absurd h List.not_mem_nil
    next piece hpiece =>
      obtain rfl | h := List.mem_cons.mp h
      · obtain ⟨-, heq⟩ := fgets_eq_some hpiece
        have hcstr : (cstr piece).length ≤ piece.length := (List.takeWhile_sublist _).length_le
        have htake := length_takeLine_le (size - 1) rest
        rw [heq] at htake
        omega
      · exact ih h

/-- The loop is a fold over the pieces. -/
theorem eachLine_eq {size : ℕ} (hsize : 2 ≤ size) (starved : ε) (body : σ → List Byte → Except ε σ)
    (file : List Byte) {fuel : ℕ} (hfuel : file.length < fuel) (s : σ) :
    eachLine size starved body fuel file s = (pieces size fuel file).foldlM body s := by
  obtain ⟨ps, hps⟩ := pieces_exist hsize file
  have hlen := hps.length_le hsize
  rw [pieces_eq hps (by omega)]
  replace hfuel : ps.length < fuel := by omega
  clear hlen
  induction ps generalizing file fuel s with
  | nil =>
    obtain ⟨k, rfl⟩ := Nat.exists_eq_add_one_of_ne_zero (Nat.ne_zero_of_lt hfuel)
    rw [eachLine, fgets, if_pos (show file = [] from hps)]
    rfl
  | cons piece ps ih =>
    rw [List.length_cons] at hfuel
    obtain ⟨k, rfl⟩ := Nat.exists_eq_add_one_of_ne_zero (Nat.ne_zero_of_lt hfuel)
    rw [eachLine, hps.1, List.map_cons, List.foldlM_cons]
    exact congrArg _ (funext fun s => ih _ s hps.2 (by omega))

/-! ## Words -/

/-- `isspace`. -/
def isSpace (b : Byte) : Bool := b = 32 || (9 ≤ b && b ≤ 13)

/-- `%s`: the word, and what is behind it. -/
def scanStr (s : List Byte) : Option (List Byte × List Byte) :=
  match s.dropWhile isSpace with
  | [] => none
  | b :: bs => some ((b :: bs).takeWhile (!isSpace ·), (b :: bs).dropWhile (!isSpace ·))

theorem scanStr_some {s word rest : List Byte} (h : scanStr s = some (word, rest)) :
    s.dropWhile isSpace = word ++ rest ∧ word ≠ [] ∧ ∀ b ∈ rest.head?, isSpace b := by
  unfold scanStr at h
  split at h
  · cases h
  next b bs hdrop =>
    obtain ⟨rfl, rfl⟩ := Prod.mk.inj (Option.some.inj h)
    have hb : isSpace b = false := by
      have hhead := List.head?_dropWhile_not isSpace s
      rw [hdrop] at hhead
      simpa using hhead
    refine ⟨by rw [hdrop, List.takeWhile_append_dropWhile], ?_, fun c hc => ?_⟩
    · rw [List.takeWhile_cons_of_pos (by simpa using hb)]
      exact List.cons_ne_nil _ _
    · have hhead := List.head?_dropWhile_not (!isSpace ·) (b :: bs)
      rw [Option.mem_def.mp hc] at hhead
      simpa using hhead

theorem length_scanStr {s word rest : List Byte} (h : scanStr s = some (word, rest)) :
    word.length + rest.length ≤ s.length ∧ 0 < word.length := by
  obtain ⟨hsplit, hne, -⟩ := scanStr_some h
  have hle := List.length_dropWhile_le isSpace s
  rw [hsplit, List.length_append] at hle
  exact ⟨hle, List.length_pos_iff.mpr hne⟩

/-- The words of a string. -/
def words (s : List Byte) : List (List Byte) :=
  match _h : scanStr s with
  | none => []
  | some (word, rest) => word :: words rest
termination_by s.length
decreasing_by
  have := length_scanStr ‹_›
  omega

theorem words_none {s : List Byte} (h : scanStr s = none) : words s = [] := by
  rw [words]
  split
  · rfl
  next heq => rw [h] at heq; cases heq

theorem words_some {s word rest : List Byte} (h : scanStr s = some (word, rest)) :
    words s = word :: words rest := by
  rw [words]
  split
  next heq => rw [h] at heq; cases heq
  next heq =>
    rw [h] at heq
    obtain ⟨rfl, rfl⟩ := Prod.mk.inj (Option.some.inj heq)
    rfl

instance decidableWordsEq : ∀ (ws : List (List Byte)) (s : List Byte), Decidable (words s = ws)
  | [], s =>
    match hscan : scanStr s with
    | none => isTrue (words_none hscan)
    | some (_, _) => isFalse fun h => by rw [words_some hscan] at h; cases h
  | w :: ws, s =>
    match hscan : scanStr s with
    | none => isFalse fun h => by rw [words_none hscan] at h; cases h
    | some (word, rest) =>
      have := decidableWordsEq ws rest
      decidable_of_iff (word = w ∧ words rest = ws) (by rw [words_some hscan, List.cons.injEq])

/-- No word is longer than the string. -/
theorem length_word_le {s word : List Byte} (h : word ∈ words s) : word.length ≤ s.length := by
  induction hlen : s.length using Nat.strong_induction_on generalizing s with
  | _ n ih =>
    cases hscan : scanStr s with
    | none =>
      rw [words_none hscan] at h
      exact absurd h List.not_mem_nil
    | some r =>
      obtain ⟨first, rest⟩ := r
      have hsplit := length_scanStr hscan
      rw [words_some hscan] at h
      obtain rfl | h := List.mem_cons.mp h
      · omega
      · have := ih rest.length (by omega) h rfl
        omega

/-! ## Numbers -/

/-- The value of a digit, in bases up to 16. -/
def digitVal (b : Byte) : ℕ :=
  if 48 ≤ b ∧ b ≤ 57 then b.toNat - 48
  else if 97 ≤ b ∧ b ≤ 102 then b.toNat - 87
  else if 65 ≤ b ∧ b ≤ 70 then b.toNat - 55
  else 16

/-- `LONG_MAX`. -/
def longMax : ℤ := 2 ^ 63 - 1

/-- What a `long` makes of a number in a text. -/
def clampLong (z : ℤ) : ℤ := max (min z longMax) (-longMax - 1)

/-- The value of a string of digits. -/
def digitsVal (base : ℕ) (ds : List Byte) : ℕ := ds.foldl (fun v d => v * base + digitVal d) 0

/-- The sign, the prefix that gives the base, and the rest of an integer. -/
def scanPrefix (s : List Byte) : Bool × ℕ × List Byte :=
  let (neg, s) :=
    match s with
    | 45 :: r => (true, r)
    | 43 :: r => (false, r)
    | _ => (false, s)
  match s with
  | 48 :: 120 :: r => (neg, 16, r)
  | 48 :: 88 :: r => (neg, 16, r)
  | 48 :: _ => (neg, 8, s)
  | _ => (neg, 10, s)

/-- `%li`: the number, no farther from 0 than a `long` goes, and what is behind it. -/
def scanLong (s : List Byte) : Option (ℤ × List Byte) :=
  let (neg, base, s) := scanPrefix (s.dropWhile isSpace)
  let ds := s.takeWhile (digitVal · < base)
  if ds = [] then none
  else
    let v : ℤ := digitsVal base ds
    some (clampLong (if neg then -v else v), s.drop ds.length)

/-- `%lu` of a number: its decimal numeral. -/
def decimal (n : ℕ) : List Byte :=
  if n = 0 then [48] else (Nat.digits 10 n).reverse.map fun d => UInt8.ofNat (48 + d)

/-- `%li` of a `long`. -/
def decimalInt (z : ℤ) : List Byte := if z < 0 then 45 :: decimal z.natAbs else decimal z.natAbs

theorem digitVal_digit : ∀ d < 10, digitVal (UInt8.ofNat (48 + d)) = d := by decide

/-- What holds of the 256 values holds of every byte. -/
theorem forall_byte {p : Byte → Prop} : (∀ b, p b) ↔ ∀ v : Fin 256, p (UInt8.ofNat v) := by
  constructor
  · exact fun h v => h _
  · intro h b
    have hb := h ⟨b.toNat, b.toNat_lt⟩
    rwa [UInt8.ofNat_toNat] at hb

theorem digitVal_space {b : Byte} (h : isSpace b) : digitVal b = 16 := by
  have hall : ∀ b : Byte, isSpace b → digitVal b = 16 := forall_byte.mpr (by decide +kernel)
  exact hall b h

theorem digitsVal_digits (n : ℕ) :
    digitsVal 10 ((Nat.digits 10 n).reverse.map fun d => UInt8.ofNat (48 + d)) = n := by
  have hfold : ∀ ds : List ℕ, (∀ d ∈ ds, d < 10) →
      digitsVal 10 (ds.reverse.map fun d => UInt8.ofNat (48 + d)) = Nat.ofDigits 10 ds := by
    intro ds hds
    induction ds with
    | nil => rfl
    | cons d ds ih =>
      have hd := hds d List.mem_cons_self
      have hrest := ih fun x hx => hds x (List.mem_cons_of_mem _ hx)
      rw [digitsVal] at hrest ⊢
      rw [List.reverse_cons, List.map_append, List.foldl_append, hrest, Nat.ofDigits_cons]
      simp only [List.map_cons, List.map_nil, List.foldl_cons, List.foldl_nil, digitVal_digit d hd]
      ring
  rw [hfold _ fun d hd => Nat.digits_lt_base (by norm_num) hd, Nat.ofDigits_digits]

/-- A decimal numeral but that of 0 starts with one of the digits 1 to 9. -/
theorem decimal_cons {n : ℕ} (hn : n ≠ 0) :
    ∃ d ds, (1 ≤ d ∧ d < 10) ∧ decimal n = UInt8.ofNat (48 + d) :: ds := by
  have hne : Nat.digits 10 n ≠ [] := Nat.digits_ne_nil_iff_ne_zero.mpr hn
  have hlast : (Nat.digits 10 n).getLast hne ≠ 0 := Nat.getLast_digit_ne_zero 10 hn
  have hlt : (Nat.digits 10 n).getLast hne < 10 :=
    Nat.digits_lt_base (by norm_num) (List.getLast_mem hne)
  refine ⟨(Nat.digits 10 n).getLast hne,
    (Nat.digits 10 n).dropLast.reverse.map fun d => UInt8.ofNat (48 + d), ⟨by omega, hlt⟩, ?_⟩
  rw [decimal, if_neg hn]
  conv_lhs => rw [← List.dropLast_append_getLast hne]
  rw [List.reverse_append, List.reverse_singleton, List.singleton_append, List.map_cons]

theorem digitVal_decimal {n : ℕ} : ∀ b ∈ decimal n, digitVal b < 10 := by
  intro b hb
  rw [decimal] at hb
  split at hb
  · rw [List.mem_singleton.mp hb]
    decide
  · obtain ⟨d, hd, rfl⟩ := List.mem_map.mp hb
    have hlt := Nat.digits_lt_base (by norm_num) (List.mem_reverse.mp hd)
    rw [digitVal_digit d hlt]
    exact hlt

theorem digitsVal_decimal (n : ℕ) : digitsVal 10 (decimal n) = n := by
  rw [decimal]
  split
  next hn =>
    rw [hn]
    rfl
  next => exact digitsVal_digits n

theorem decimalInt_ne_nil (z : ℤ) : decimalInt z ≠ [] := by
  have hne : decimal z.natAbs ≠ [] := by
    by_cases hz : z.natAbs = 0
    · rw [hz]
      decide
    · obtain ⟨d, ds, -, hcons⟩ := decimal_cons hz
      rw [hcons]
      exact List.cons_ne_nil _ _
  rw [decimalInt]
  split
  · exact List.cons_ne_nil _ _
  · exact hne

/-- The bytes of a decimal numeral are digits and the minus sign. -/
theorem mem_decimalInt {z : ℤ} {b : Byte} (h : b ∈ decimalInt z) : b = 45 ∨ digitVal b < 10 := by
  rw [decimalInt] at h
  split at h
  · obtain rfl | h := List.mem_cons.mp h
    · exact Or.inl rfl
    · exact Or.inr (digitVal_decimal b h)
  · exact Or.inr (digitVal_decimal b h)

theorem decimalInt_injective : Function.Injective decimalInt := by
  intro z z' h
  have hminus : ∀ n ds, 45 :: ds ≠ decimal n := fun n ds heq => by
    have hmem : (45 : Byte) ∈ decimal n := heq ▸ List.mem_cons_self
    exact absurd (digitVal_decimal 45 hmem) (by decide)
  have habs : ∀ {n n' : ℕ}, decimal n = decimal n' → n = n' := fun {n n'} heq => by
    rw [← digitsVal_decimal n, heq, digitsVal_decimal]
  rw [decimalInt, decimalInt] at h
  split at h
  · split at h
    · have := habs (List.cons.inj h).2
      omega
    · exact absurd h (hminus _ _)
  · split at h
    · exact absurd h.symm (hminus _ _)
    · have := habs h
      omega

/-- A `long` has at most twenty bytes. -/
theorem length_decimalInt {z : ℤ} (hlo : -longMax - 1 ≤ z) (hhi : z ≤ longMax) :
    (decimalInt z).length ≤ 20 := by
  have hmax : longMax = 9223372036854775807 := rfl
  have hdigits : (decimal z.natAbs).length ≤ 19 := by
    rw [decimal]
    split
    · decide
    · rw [List.length_map, List.length_reverse, Nat.digits_length_le_iff (by norm_num)]
      omega
  rw [decimalInt]
  split
  · rw [List.length_cons]
    omega
  · omega

/-- What stands behind a word: nothing, or white space. -/
def Ended (rest : List Byte) : Prop := ∀ b ∈ rest.head?, isSpace b

theorem scanPrefix_zero {rest : List Byte} (hrest : Ended rest) :
    scanPrefix (48 :: rest) = (false, 8, 48 :: rest) := by
  cases rest with
  | nil => rfl
  | cons b rest =>
    have hb : isSpace b := hrest b rfl
    have hx : b ≠ 120 := fun h => by rw [h] at hb; exact absurd hb (by decide)
    have hX : b ≠ 88 := fun h => by rw [h] at hb; exact absurd hb (by decide)
    simp [scanPrefix, hx, hX]

theorem scanPrefix_digit {d : ℕ} (hpos : 1 ≤ d) (hlt : d < 10) (ds : List Byte) :
    scanPrefix (UInt8.ofNat (48 + d) :: ds) = (false, 10, UInt8.ofNat (48 + d) :: ds) := by
  have hne : ∀ d < 10, 1 ≤ d → UInt8.ofNat (48 + d) ≠ 45 ∧ UInt8.ofNat (48 + d) ≠ 43 ∧
      UInt8.ofNat (48 + d) ≠ 48 := by decide
  obtain ⟨h45, h43, h48⟩ := hne d hlt hpos
  generalize UInt8.ofNat (48 + d) = b at h45 h43 h48
  simp [scanPrefix, h45, h43, h48]

theorem takeWhile_digits {base : ℕ} (hbase : base ≤ 16) {ds rest : List Byte}
    (hds : ∀ b ∈ ds, digitVal b < base) (hrest : Ended rest) :
    (ds ++ rest).takeWhile (digitVal · < base) = ds := by
  rw [List.takeWhile_append_of_pos (by simpa using hds)]
  cases rest with
  | nil => simp
  | cons b rest =>
    rw [List.takeWhile_cons_of_neg, List.append_nil]
    rw [digitVal_space (hrest b rfl)]
    simpa using hbase

theorem scanPrefix_minus {d : ℕ} (hpos : 1 ≤ d) (hlt : d < 10) (ds : List Byte) :
    scanPrefix (45 :: UInt8.ofNat (48 + d) :: ds) = (true, 10, UInt8.ofNat (48 + d) :: ds) := by
  have hne : ∀ d < 10, 1 ≤ d → UInt8.ofNat (48 + d) ≠ 48 := by decide
  have h48 := hne d hlt hpos
  generalize UInt8.ofNat (48 + d) = b at h48
  simp [scanPrefix, h48]

/-- Sign, base and digits, as they were found. -/
theorem scanLong_of_split {s ds rest : List Byte} {neg : Bool} {base : ℕ} (hbase : base ≤ 16)
    (h : scanPrefix (s.dropWhile isSpace) = (neg, base, ds ++ rest)) (hne : ds ≠ [])
    (hds : ∀ b ∈ ds, digitVal b < base) (hrest : Ended rest) :
    scanLong s =
      some (clampLong (if neg then -(digitsVal base ds : ℤ) else digitsVal base ds), rest) := by
  have htake := takeWhile_digits hbase hds hrest
  unfold scanLong
  rw [h]
  simp only [htake, if_neg hne, List.drop_left]

/-- A decimal numeral is read as its number, if that is a `long`. -/
theorem scanLong_decimalInt {s rest : List Byte} {z : ℤ}
    (h : s.dropWhile isSpace = decimalInt z ++ rest) (hrest : Ended rest) :
    scanLong s = some (clampLong z, rest) := by
  by_cases hz : z = 0
  · subst hz
    have hsplit : scanPrefix (s.dropWhile isSpace) = (false, 8, [48] ++ rest) := by
      rw [h]
      exact scanPrefix_zero hrest
    have hdigit : ∀ b ∈ [(48 : Byte)], digitVal b < 8 := fun b hb => by
      rw [List.mem_singleton.mp hb]
      decide
    rw [scanLong_of_split (by norm_num) hsplit (List.cons_ne_nil _ _) hdigit hrest]
    rfl
  · obtain ⟨d, ds, ⟨hpos, hlt⟩, hcons⟩ := decimal_cons (show z.natAbs ≠ 0 by omega)
    have hne : decimal z.natAbs ≠ [] := hcons ▸ List.cons_ne_nil _ _
    by_cases hneg : z < 0
    · have hprefix : scanPrefix (s.dropWhile isSpace) = (true, 10, decimal z.natAbs ++ rest) := by
        rw [h, decimalInt, if_pos hneg, hcons]
        exact scanPrefix_minus hpos hlt _
      rw [scanLong_of_split (by norm_num) hprefix hne digitVal_decimal hrest, digitsVal_decimal,
        if_pos rfl, show -(z.natAbs : ℤ) = z by omega]
    · have hprefix : scanPrefix (s.dropWhile isSpace) = (false, 10, decimal z.natAbs ++ rest) := by
        rw [h, decimalInt, if_neg hneg, hcons]
        exact scanPrefix_digit hpos hlt _
      rw [scanLong_of_split (by norm_num) hprefix hne digitVal_decimal hrest, digitsVal_decimal,
        if_neg (by decide), show (z.natAbs : ℤ) = z by omega]

/-! ## `sscanf` -/

/-- A directive: `%*s`, `%s` into an array of `size` bytes, or `%li`. -/
inductive Directive where
  | skip
  | str (size : ℕ)
  | long
  deriving DecidableEq, Repr

/-- What a directive stores. -/
inductive Field where
  | str (s : List Byte)
  | long (v : ℤ)
  deriving DecidableEq, Repr

/-- `sscanf` with the directives, white space between them: what is stored, up to the first that
    does not match; `none` where a string does not fit its array. -/
def sscanf : List Directive → List Byte → Option (List Field)
  | [], _ => some []
  | .skip :: ds, s =>
    match scanStr s with
    | none => some []
    | some (_, rest) => sscanf ds rest
  | .str size :: ds, s =>
    match scanStr s with
    | none => some []
    | some (word, rest) =>
      if word.length < size then (Field.str word :: ·) <$> sscanf ds rest else none
  | .long :: ds, s =>
    match scanLong s with
    | none => some []
    | some (v, rest) => (Field.long v :: ·) <$> sscanf ds rest

/-- The first words fit the arrays. -/
def WordsFit : List ℕ → List (List Byte) → Prop
  | size :: sizes, word :: ws => word.length < size ∧ WordsFit sizes ws
  | _, _ => True

instance decidableWordsFit : ∀ sizes ws, Decidable (WordsFit sizes ws)
  | [], _ => isTrue (by simp [WordsFit])
  | _ :: _, [] => isTrue (by simp [WordsFit])
  | size :: sizes, word :: ws =>
    have := decidableWordsFit sizes ws
    inferInstanceAs (Decidable (word.length < size ∧ WordsFit sizes ws))

theorem wordsFit_nil (sizes : List ℕ) : WordsFit sizes [] := by
  cases sizes <;> simp [WordsFit]

/-- Strings are the first words behind those that are skipped, if these fit. -/
theorem sscanf_strs (k : ℕ) (sizes : List ℕ) (s : List Byte) :
    sscanf (List.replicate k .skip ++ sizes.map .str) s =
      if WordsFit sizes ((words s).drop k) then
        some ((((words s).drop k).take sizes.length).map .str)
      else none := by
  induction k generalizing s with
  | zero =>
    rw [List.replicate_zero, List.nil_append, List.drop_zero]
    induction sizes generalizing s with
    | nil => simp [sscanf, WordsFit]
    | cons size sizes ih =>
      rw [List.map_cons, sscanf]
      cases hscan : scanStr s with
      | none => simp [words_none hscan, WordsFit]
      | some r =>
        obtain ⟨word, rest⟩ := r
        simp only [words_some hscan, WordsFit, ih rest]
        by_cases hword : word.length < size
        · by_cases hrest : WordsFit sizes (words rest)
          · simp [hword, hrest]
          · simp [hword, hrest]
        · simp [hword]
  | succ k ih =>
    rw [List.replicate_succ, List.cons_append, sscanf]
    cases hscan : scanStr s with
    | none => simp [words_none hscan, wordsFit_nil]
    | some r =>
      obtain ⟨word, rest⟩ := r
      simp only [words_some hscan, List.drop_succ_cons, ih rest]

theorem words_cons {s word : List Byte} {ws : List (List Byte)} (h : words s = word :: ws) :
    ∃ rest, scanStr s = some (word, rest) ∧ words rest = ws := by
  cases hscan : scanStr s with
  | none =>
    rw [words_none hscan] at h
    cases h
  | some r =>
    obtain ⟨first, rest⟩ := r
    rw [words_some hscan] at h
    obtain ⟨rfl, rfl⟩ := List.cons.inj h
    exact ⟨rest, rfl, rfl⟩

theorem sscanf_skip {s word : List Byte} {ws : List (List Byte)} (h : words s = word :: ws)
    (ds : List Directive) :
    ∃ rest, sscanf (.skip :: ds) s = sscanf ds rest ∧ words rest = ws := by
  obtain ⟨rest, hscan, hrest⟩ := words_cons h
  exact ⟨rest, by rw [sscanf, hscan], hrest⟩

/-- `%li` at a word that is a decimal numeral. -/
theorem sscanf_long {s : List Byte} {z : ℤ} {ws : List (List Byte)}
    (h : words s = decimalInt z :: ws) (ds : List Directive) :
    ∃ rest, sscanf (.long :: ds) s = (Field.long (clampLong z) :: ·) <$> sscanf ds rest ∧
      words rest = ws := by
  obtain ⟨rest, hscan, hrest⟩ := words_cons h
  obtain ⟨hsplit, -, hended⟩ := scanStr_some hscan
  exact ⟨rest, by rw [sscanf, scanLong_decimalInt hsplit hended], hrest⟩

end CompatSuva.Common
