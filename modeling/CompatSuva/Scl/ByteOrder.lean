import CompatSuva.Common.Memory
import CompatSuva.Scl.Types

/-!
# Byte order

With `SCO_BIG_ENDIAN` the code runs on a big-endian host, whose words have their
bytes in memory the other way round, and swaps the bytes of words in place with
`swap` (`sutil.c`), in some places. A `Build` is one of the two.

* `load_swap`, `swap_of_outside`: `swap` reverses the bytes it is given;
* `Build.swapImage_image`: the image of a word, swapped, is its little-endian one in
  both builds;
* `Value.swap`: on a big-endian host the objects of a value are those of another
  one on a little-endian host.
-/

namespace CompatSuva.Scl

open CompatSuva.Common

/-! ## `swap` -/

/-- The loop of `swap`, with the pointers `a` and `b`. -/
def swapLoop : ℕ → Memory → ℤ → ℤ → Memory
  | 0, m, _, _ => m
  | fuel + 1, m, a, b =>
    if a < b then
      let tmp := m a
      let m := Function.update m a (m (b - 1))
      swapLoop fuel (Function.update m (b - 1) tmp) (a + 1) (b - 1)
    else m

/-- `swap` (`sutil.c` lines 554–565), on the `len` bytes at `src`. -/
def swap (m : Memory) (src : ℤ) (len : ℕ) : Memory := swapLoop len m src (src + len)

/-- The loop exchanges the bytes from both ends. -/
theorem swapLoop_eq (fuel : ℕ) (m : Memory) (a b : ℤ) (hfuel : b - a ≤ fuel) (x : ℤ) :
    swapLoop fuel m a b x = if a ≤ x ∧ x < b then m (a + b - 1 - x) else m x := by
  induction fuel generalizing m a b with
  | zero =>
    have hout : ¬ (a ≤ x ∧ x < b) := by
      push_cast at hfuel
      omega
    rw [swapLoop, if_neg hout]
  | succ fuel ih =>
    rw [swapLoop]
    split_ifs with hab hx hx
    · rw [ih _ _ _ (by push_cast at hfuel; omega)]
      by_cases hxa : x = a
      · rw [if_neg (by omega), hxa]
        have hend : a + b - 1 - a = b - 1 := by ring
        rw [hend]
        by_cases hmid : a = b - 1
        · rw [← hmid, Function.update_self]
        · rw [Function.update_of_ne hmid, Function.update_self]
      · by_cases hxb : x = b - 1
        · rw [if_neg (by omega), hxb, Function.update_self]
          congr 1
          ring
        · rw [if_pos (by omega), Function.update_of_ne (by omega), Function.update_of_ne (by omega)]
          congr 1
          ring
    · rw [ih _ _ _ (by push_cast at hfuel; omega), if_neg (by omega),
        Function.update_of_ne (by omega), Function.update_of_ne (by omega)]
    · omega
    · rfl

theorem swap_of_outside (m : Memory) {src x : ℤ} {len : ℕ} (h : x < src ∨ src + len ≤ x) :
    swap m src len x = m x := by
  rw [swap, swapLoop_eq _ _ _ _ (by omega), if_neg (by omega)]

/-- `swap` reverses the bytes. -/
theorem load_swap (m : Memory) (src : ℤ) (len : ℕ) :
    load (swap m src len) src len = (load m src len).reverse := by
  apply List.ext_getElem (by simp)
  intro i h₁ h₂
  have hi : i < len := by simpa using h₁
  simp only [load, List.getElem_map, List.getElem_range, List.getElem_reverse, List.length_map,
    List.length_range]
  rw [swap, swapLoop_eq _ _ _ _ (by omega), if_pos (by omega)]
  congr 1
  omega

/-! ## The two builds -/

/-- The code without and with `SCO_BIG_ENDIAN`, on a host it is meant for. -/
inductive Build where
  | plain
  | bigEndian
  deriving DecidableEq, Repr

namespace Build

/-- The bytes of a word in the memory of the host, given those of a little-endian one. -/
def order : Build → List Byte → List Byte
  | plain, bs => bs
  | bigEndian, bs => bs.reverse

/-- The image of a variable in the memory of the host. -/
def image (b : Build) {w : ℕ} (v : BitVec w) : List Byte := b.order (bytesOf v)

/-- The number that the host reads. -/
def number (b : Build) (bs : List Byte) : ℕ := leNat (b.order bs)

/-- The `w`-bit word that the host reads. -/
def word (b : Build) (w : ℕ) (bs : List Byte) : BitVec w := wordOf w (b.order bs)

/-- `swap`, under `#ifdef SCO_BIG_ENDIAN`. -/
def swap : Build → Memory → ℤ → ℕ → Memory
  | plain, m, _, _ => m
  | bigEndian, m, src, len => Scl.swap m src len

/-- `swap` on a variable, given its image. -/
def swapImage (b : Build) (bs : List Byte) : List Byte :=
  load (b.swap (store (fun _ => 0) 0 bs) 0 bs.length) 0 bs.length

@[simp] theorem order_plain (bs : List Byte) : plain.order bs = bs := rfl

@[simp] theorem order_bigEndian (bs : List Byte) : bigEndian.order bs = bs.reverse := rfl

@[simp] theorem length_order (b : Build) (bs : List Byte) : (b.order bs).length = bs.length := by
  cases b <;> simp

@[simp] theorem order_order (b : Build) (bs : List Byte) : b.order (b.order bs) = bs := by
  cases b <;> simp

theorem swap_of_outside (b : Build) (m : Memory) {src x : ℤ} {len : ℕ}
    (h : x < src ∨ src + len ≤ x) : b.swap m src len x = m x := by
  cases b with
  | plain => rfl
  | bigEndian => exact Scl.swap_of_outside m h

theorem load_swap (b : Build) (m : Memory) (src : ℤ) (len : ℕ) :
    load (b.swap m src len) src len = b.order (load m src len) := by
  cases b with
  | plain => rfl
  | bigEndian => exact Scl.load_swap m src len

@[simp] theorem swapImage_eq (b : Build) (bs : List Byte) : b.swapImage bs = b.order bs := by
  rw [swapImage, load_swap, (holds_store _ _ _).load rfl]

/-- A variable that is swapped has its bytes as on a little-endian host. -/
theorem swapImage_image (b : Build) {w : ℕ} (v : BitVec w) :
    b.swapImage (b.image v) = bytesOf v := by
  rw [swapImage_eq, image, order_order]

/-- A word that reads the same in both orders. -/
def Palindrome (bs : List Byte) : Prop := bs.reverse = bs

end Build

/-! ## Words in the other order -/

theorem bytesOf_wordOf {w : ℕ} (hw : 8 ∣ w) {bs : List Byte} (h : bs.length = w / 8) :
    bytesOf (wordOf w bs) = bs := by
  have hlt := leNat_lt bs
  obtain ⟨k, rfl⟩ := hw
  rw [Nat.mul_div_cancel_left _ (by norm_num)] at h
  have hpow : 256 ^ bs.length = 2 ^ (8 * k) := by
    simp [h, pow_mul]
  rw [bytesOf, wordOf, BitVec.toNat_ofNat, Nat.mod_eq_of_lt (hpow ▸ hlt),
    Nat.mul_div_cancel_left _ (by norm_num), ← h, leBytes_leNat]

/-- The word whose bytes are those of `v` the other way round. -/
def swapWord {w : ℕ} (v : BitVec w) : BitVec w := wordOf w (bytesOf v).reverse

theorem bytesOf_swapWord {w : ℕ} (hw : 8 ∣ w) (v : BitVec w) :
    bytesOf (swapWord v) = (bytesOf v).reverse := bytesOf_wordOf hw (by simp)

theorem swapWord_eq_iff {w : ℕ} (hw : 8 ∣ w) (v : BitVec w) :
    swapWord v = v ↔ Build.Palindrome (bytesOf v) := by
  constructor
  · intro h
    rw [Build.Palindrome, ← bytesOf_swapWord hw, h]
  · intro h
    rw [swapWord, h, wordOf_bytesOf hw]

/-- Numbers of one length are equal if their bytes are. -/
theorem leNat_inj {bs bs' : List Byte} (hlen : bs.length = bs'.length) :
    leNat bs = leNat bs' ↔ bs = bs' := by
  constructor
  · intro h
    rw [← leBytes_leNat bs, ← leBytes_leNat bs', h, hlen]
  · rintro rfl
    rfl

/-! ## Values in the other order -/

namespace Value

/-- The elements of a value, each with its bytes on a little-endian host. -/
def elements : Value → List (List Byte)
  | .int v | .float v => [bytesOf v]
  | .long v | .doub v => [bytesOf v]
  | .bool v => [[v]]
  | .intA vs | .floatA vs => vs.map bytesOf
  | .longA vs | .doubA vs => vs.map bytesOf
  | .boolA vs | .data vs => vs.map fun v => [v]
  | .string _ | .stringA _ => []

/-- The value that a little-endian host finds in the objects that hold `v` on a
    big-endian one. -/
def swap : Value → Value
  | .int v => .int (swapWord v)
  | .float v => .float (swapWord v)
  | .long v => .long (swapWord v)
  | .doub v => .doub (swapWord v)
  | .intA vs => .intA (vs.map swapWord)
  | .floatA vs => .floatA (vs.map swapWord)
  | .longA vs => .longA (vs.map swapWord)
  | .doubA vs => .doubA (vs.map swapWord)
  | v => v

theorem flatten_elements (v : Value) : v.elements.flatten = v.elems := by
  have hsingle : ∀ bs : List Byte, (bs.map fun v => [v]).flatten = bs := by
    intro bs
    induction bs with
    | nil => rfl
    | cons b bs ih => simp [ih]
  cases v <;> simp [elements, elems, List.flatMap_def, hsingle]

@[simp] theorem type_swap (v : Value) : v.swap.type = v.type := by
  cases v <;> simp only [swap, type]

@[simp] theorem count_swap (v : Value) : v.swap.count = v.count := by
  cases v <;> simp [swap, count]

theorem elements_swap (v : Value) : v.swap.elements = v.elements.map List.reverse := by
  have h₄ : ∀ v : BitVec 32, bytesOf (swapWord v) = (bytesOf v).reverse :=
    bytesOf_swapWord (by decide)
  have h₈ : ∀ v : BitVec 64, bytesOf (swapWord v) = (bytesOf v).reverse :=
    bytesOf_swapWord (by decide)
  cases v <;> simp [swap, elements, h₄, h₈]

/-- The elements of a flat value have one size. -/
theorem length_of_mem_elements {v : Value} {e : List Byte} (h : e ∈ v.elements) :
    e.length = v.type.elemLen := by
  cases v <;> simp_all [elements, type, SclType.elemLen]
  all_goals
    obtain ⟨x, -, rfl⟩ := h
    simp

theorem length_elements {v : Value} (h : v.type.IsFlat) : v.elements.length = v.count := by
  obtain ⟨hs, hA⟩ := h
  cases v <;> simp_all [elements, count, type]

end Value

/-- The value whose objects on a little-endian host are those of `v` on the host of
    the build. -/
def Build.host : Build → Value → Value
  | plain, v => v
  | bigEndian, v => v.swap

end CompatSuva.Scl
