import CompatSuva.Common.LittleEndian

/-!
# SCL types and values

The data model of the SCL format (`suva_api.h`): the thirteen `enum scl_type`
constructors, the C objects a `void *val` argument can point at, and the typed
values they stand for.

`Value` is the abstract side: what a caller means to send. `Value.Rep v o n`
says that the C arguments `val = o`, `array_len = n` represent `v`; scalars
ignore `array_len`, and an array of no elements may be a null pointer.
`Value.enc` is the encoding of a value in a payload:

* a scalar is its bytes;
* a string is a length, the characters and one trailing byte;
* an array is a count and its elements; the strings of a string array each have
  a length of their own and share one trailing byte.
-/

namespace CompatSuva.Scl

open CompatSuva.Common

/-! ## Types -/

/-- `enum scl_type` (`suva_api.h` lines 76–95), in the order of the source. -/
inductive SclType where
  | int | string | float | long | doub | bool
  | intA | stringA | floatA | longA | doubA | boolA
  | data
  deriving DecidableEq, Repr

/-- `type >= scl_type_complex`, where `scl_type_complex` is `SCL_INT_A`. -/
def SclType.isComplex : SclType → Bool
  | .int | .string | .float | .long | .doub | .bool => false
  | .intA | .stringA | .floatA | .longA | .doubA | .boolA | .data => true

/-- `SCL_LEN_LEN`: bytes of a length or count field. -/
def sclLenLen : ℕ := 4

/-- `SCL_INT_LEN`, `SCL_FLOAT_LEN`, `SCL_LONG_LEN`, `SCL_DOUB_LEN` and
    `SCL_BOOL_LEN` (`suva_api.h` lines 11–15) for the types made of elements of
    one size; an `SCL_DATA` counts bytes. The string types have no such size. -/
def SclType.elemLen : SclType → ℕ
  | .int | .intA => 4
  | .long | .longA => 8
  | .float | .floatA => 4
  | .doub | .doubA => 8
  | .bool | .boolA => 1
  | .data => 1
  | .string | .stringA => 0

/-! ## C objects and values -/

/-- A C string: its characters, none of them NUL. -/
def CStr := {s : List Byte // (0 : Byte) ∉ s}

instance : DecidableEq CStr := inferInstanceAs (DecidableEq {s : List Byte // (0 : Byte) ∉ s})

/-- The characters of a string literal. -/
def chars (s : String) : List Byte := s.toList.map fun c => UInt8.ofNat c.toNat

/-- `strlen`: the bytes before the first NUL. -/
def strlen (m : List Byte) : ℕ := (m.takeWhile (· ≠ 0)).length

/-- What a `void *val` argument points at: nothing, the bytes found in memory
    from that address on, or an array of `char *`. -/
inductive Obj where
  | null
  | mem (bytes : List Byte)
  | ptrs (strings : List (Option (List Byte)))
  deriving DecidableEq

/-- A typed value. -/
inductive Value where
  | int (v : BitVec 32)
  | string (s : Option CStr)
  | float (v : BitVec 32)
  | long (v : BitVec 64)
  | doub (v : BitVec 64)
  | bool (v : Byte)
  | intA (vs : List (BitVec 32))
  | stringA (ss : List (Option CStr))
  | floatA (vs : List (BitVec 32))
  | longA (vs : List (BitVec 64))
  | doubA (vs : List (BitVec 64))
  | boolA (vs : List Byte)
  | data (bs : List Byte)
  deriving DecidableEq

/-- The `enum scl_type` of a value. -/
def Value.type : Value → SclType
  | .int _ => .int
  | .string _ => .string
  | .float _ => .float
  | .long _ => .long
  | .doub _ => .doub
  | .bool _ => .bool
  | .intA _ => .intA
  | .stringA _ => .stringA
  | .floatA _ => .floatA
  | .longA _ => .longA
  | .doubA _ => .doubA
  | .boolA _ => .boolA
  | .data _ => .data

/-- The characters of a string that may be missing. -/
def strBytes (s : Option CStr) : List Byte := s.elim [] Subtype.val

@[simp] theorem strBytes_none : strBytes none = [] := rfl

@[simp] theorem strBytes_some (s : CStr) : strBytes (some s) = s.val := rfl

/-- The NUL-terminated image of a string in memory. -/
def CStr.image (s : CStr) : List Byte := s.val ++ [0]

@[simp] theorem strlen_image (s : CStr) (junk : List Byte) :
    strlen (s.image ++ junk) = s.val.length := by
  have h : ∀ b ∈ s.val, (decide (b ≠ 0)) = true := by
    intro b hb
    simpa using fun h0 : b = 0 => s.property (h0 ▸ hb)
  rw [strlen, CStr.image, List.append_assoc, List.takeWhile_append_of_pos h]
  simp

@[simp] theorem take_image (s : CStr) (junk : List Byte) :
    (s.image ++ junk).take s.val.length = s.val := by
  simp [CStr.image]

/-- The elements of an array value, as bytes; the payload of `SCL_DATA`. -/
def Value.elems : Value → List Byte
  | .intA vs => vs.flatMap bytesOf
  | .floatA vs => vs.flatMap bytesOf
  | .longA vs => vs.flatMap bytesOf
  | .doubA vs => vs.flatMap bytesOf
  | .boolA vs => vs
  | .data bs => bs
  | .int v => bytesOf v
  | .float v => bytesOf v
  | .long v => bytesOf v
  | .doub v => bytesOf v
  | .bool v => [v]
  | .string _ => []
  | .stringA _ => []

/-- The number of elements of a value: the count of an array, 1 for a scalar. -/
def Value.count : Value → ℕ
  | .intA vs => vs.length
  | .stringA ss => ss.length
  | .floatA vs => vs.length
  | .longA vs => vs.length
  | .doubA vs => vs.length
  | .boolA vs => vs.length
  | .data bs => bs.length
  | _ => 1

/-- The argument pair `val = o`, `array_len = n` represents the value. `junk` is
    whatever follows the object in memory. -/
def Value.Rep : Value → Obj → ℤ → Prop
  | .string s, o, _ =>
    match s with
    | none => o = .null
    | some s => ∃ junk, o = .mem (s.image ++ junk)
  | .stringA ss, o, n =>
    n = ss.length ∧ ((ss = [] ∧ o = .null) ∨
      ∃ ps, o = .ptrs ps ∧ List.Forall₂ (fun p s => match s with
        | none => p = none
        | some s => ∃ junk, p = some (CStr.image s ++ junk)) ps ss)
  | v, o, n =>
    (v.type.isComplex → n = v.count) ∧
      ((v.elems = [] ∧ o = .null) ∨ ∃ junk, o = .mem (v.elems ++ junk))

/-- A value queued on a connection, with the C arguments that represent it. -/
structure Queued where
  value : Value
  object : Obj
  arrayLen : ℤ
  rep : value.Rep object arrayLen

/-! ## The encoding -/

/-- The four bytes of a length or count field. -/
def lenBytes (n : ℕ) : List Byte := bytesOf (BitVec.ofNat 32 n)

@[simp] theorem length_lenBytes (n : ℕ) : (lenBytes n).length = 4 := by
  rw [lenBytes, length_bytesOf]

/-- The encoding of a value in a payload. -/
def Value.enc : Value → List Byte
  | .string s => lenBytes (strBytes s).length ++ strBytes s ++ [0]
  | .stringA ss =>
    lenBytes ss.length ++ ss.flatMap (fun s => lenBytes (strBytes s).length ++ strBytes s) ++ [0]
  | v => (if v.type.isComplex then lenBytes v.count else []) ++ v.elems

/-- The value a reader gets back: a string without characters reads as NULL. -/
def normStr (s : Option CStr) : Option CStr :=
  match s with
  | none => none
  | some s => if s.val = [] then none else some s

/-- The value a reader gets back. -/
def Value.norm : Value → Value
  | .string s => .string (normStr s)
  | .stringA ss => .stringA (ss.map normStr)
  | v => v

/-! ## Values made of elements -/

/-- Every value but the strings and string arrays is made of elements of one
    size. -/
def SclType.IsFlat (type : SclType) : Prop := type ≠ .string ∧ type ≠ .stringA

theorem Value.cases_type (v : Value) :
    (∃ s, v = .string s) ∨ (∃ ss, v = .stringA ss) ∨ v.type.IsFlat := by
  cases v <;> simp [SclType.IsFlat, Value.type]

theorem Value.rep_flat {v : Value} (hv : v.type.IsFlat) {o : Obj} {n : ℤ} (h : v.Rep o n) :
    (v.type.isComplex → n = v.count) ∧
      ((v.elems = [] ∧ o = .null) ∨ ∃ junk, o = .mem (v.elems ++ junk)) := by
  cases v with
  | string s => exact absurd rfl hv.1
  | stringA ss => exact absurd rfl hv.2
  | _ => exact h

theorem Value.enc_flat {v : Value} (hv : v.type.IsFlat) :
    v.enc = (if v.type.isComplex then lenBytes v.count else []) ++ v.elems := by
  cases v with
  | string s => exact absurd rfl hv.1
  | stringA ss => exact absurd rfl hv.2
  | _ => rfl

theorem Value.norm_flat {v : Value} (hv : v.type.IsFlat) : v.norm = v := by
  cases v with
  | string s => exact absurd rfl hv.1
  | stringA ss => exact absurd rfl hv.2
  | _ => rfl

theorem Value.length_elems {v : Value} (hv : v.type.IsFlat) :
    v.elems.length = v.type.elemLen * v.count := by
  have hmap : ∀ {w : ℕ} (vs : List (BitVec w)),
      (vs.flatMap bytesOf).length = w / 8 * vs.length := by
    intro w vs
    induction vs with
    | nil => simp
    | cons x vs ih => simp [ih]; ring
  obtain ⟨hs, hA⟩ := hv
  cases v <;> simp_all [Value.elems, Value.type, SclType.elemLen, Value.count]

theorem Value.count_scalar {v : Value} (h : v.type.isComplex = false) : v.count = 1 := by
  cases v <;> simp_all [Value.type, SclType.isComplex, Value.count]

end CompatSuva.Scl
