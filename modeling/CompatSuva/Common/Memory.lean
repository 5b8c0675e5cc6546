import CompatSuva.Common.LittleEndian

/-!
# Flat byte memory

A memory is a total function from addresses to bytes. An access outside an
object is then not an error but a read of whatever lies there, and staying
inside an object is a property of the accesses, to be proved.

* `load`, `store`: the bytes at an address, and overwriting them;
* `Holds m a bs`: the bytes `bs` stand at address `a`;
* `Agree m m' lo hi`: the two memories are equal on `[lo, hi)`; `Holds.congr`
  is the frame rule that goes with it.
-/

namespace CompatSuva.Common

/-- A byte-addressed memory. -/
abbrev Memory := ℤ → Byte

/-- The `k` bytes at address `a`. -/
def load (m : Memory) (a : ℤ) (k : ℕ) : List Byte := (List.range k).map fun i : ℕ => m (a + i)

/-- Overwrite the bytes at address `a` with `bs`. -/
def store (m : Memory) (a : ℤ) (bs : List Byte) : Memory := fun x =>
  if a ≤ x then (bs[(x - a).toNat]?).getD (m x) else m x

/-- The bytes `bs` stand at address `a`. -/
def Holds (m : Memory) (a : ℤ) (bs : List Byte) : Prop :=
  ∀ i (h : i < bs.length), m (a + i) = bs[i]

/-- `m` and `m'` are equal on `[lo, hi)`. -/
def Agree (m m' : Memory) (lo hi : ℤ) : Prop := ∀ x, lo ≤ x → x < hi → m x = m' x

@[simp] theorem length_load (m : Memory) (a : ℤ) (k : ℕ) : (load m a k).length = k := by
  simp [load]

theorem Holds.load {m : Memory} {a : ℤ} {bs : List Byte} (h : Holds m a bs) {k : ℕ}
    (hk : k = bs.length) : load m a k = bs := by
  subst hk
  apply List.ext_getElem (by simp)
  intro i h1 h2
  simp [Common.load, h i h2]

theorem holds_load (m : Memory) (a : ℤ) (k : ℕ) : Holds m a (load m a k) := by
  intro i h
  simp [Common.load]

theorem load_add (m : Memory) (a : ℤ) (j k : ℕ) :
    load m a (j + k) = load m a j ++ load m (a + j) k := by
  apply List.ext_getElem (by simp)
  intro i h1 h2
  by_cases hi : i < j
  · rw [List.getElem_append_left (by simpa using hi)]
    simp [load]
  · rw [List.getElem_append_right (by simpa using hi)]
    simp only [load, List.getElem_map, List.getElem_range, List.length_map, List.length_range]
    congr 1
    omega

theorem Holds.nil (m : Memory) (a : ℤ) : Holds m a [] := fun i h => by simp at h

theorem holds_append {m : Memory} {a : ℤ} {xs ys : List Byte} :
    Holds m a (xs ++ ys) ↔ Holds m a xs ∧ Holds m (a + xs.length) ys := by
  constructor
  · intro h
    refine ⟨fun i hi => ?_, fun i hi => ?_⟩
    · rw [h i (by simp; omega), List.getElem_append_left hi]
    · have := h (xs.length + i) (by simp; omega)
      rw [List.getElem_append_right (by omega)] at this
      simpa [add_assoc] using this
  · rintro ⟨h1, h2⟩ i hi
    by_cases hx : i < xs.length
    · rw [List.getElem_append_left hx, h1 i hx]
    · have hy : i - xs.length < ys.length := by simp at hi; omega
      rw [List.getElem_append_right (by omega), ← h2 _ hy]
      congr 1
      omega

theorem holds_singleton {m : Memory} {a : ℤ} {b : Byte} : Holds m a [b] ↔ m a = b := by
  constructor
  · intro h
    simpa using h 0 (by simp)
  · intro h i hi
    have : i = 0 := by simp at hi; omega
    subst this
    simpa using h

theorem Agree.symm {m m' : Memory} {lo hi : ℤ} (h : Agree m m' lo hi) : Agree m' m lo hi :=
  fun x h1 h2 => (h x h1 h2).symm

theorem Agree.trans {m m' m'' : Memory} {lo hi : ℤ} (h : Agree m m' lo hi)
    (h' : Agree m' m'' lo hi) : Agree m m'' lo hi :=
  fun x h1 h2 => (h x h1 h2).trans (h' x h1 h2)

theorem Agree.mono {m m' : Memory} {lo hi lo' hi' : ℤ} (h : Agree m m' lo hi) (hlo : lo ≤ lo')
    (hhi : hi' ≤ hi) : Agree m m' lo' hi' :=
  fun x h1 h2 => h x (by omega) (by omega)

/-- Frame rule: what stands in `[lo, hi)` survives changes elsewhere. -/
theorem Holds.congr {m m' : Memory} {a : ℤ} {bs : List Byte} (h : Holds m a bs) {lo hi : ℤ}
    (hagree : Agree m m' lo hi) (hlo : lo ≤ a) (hhi : a + bs.length ≤ hi) : Holds m' a bs := by
  intro i hi'
  rw [← h i hi']
  exact (hagree _ (by omega) (by omega)).symm

theorem store_eq_of_lt {m : Memory} {a x : ℤ} {bs : List Byte} (h : x < a) :
    store m a bs x = m x := by
  simp [store, not_le.mpr h]

theorem store_eq_of_ge {m : Memory} {a x : ℤ} {bs : List Byte} (h : a + bs.length ≤ x) :
    store m a bs x = m x := by
  unfold store
  split_ifs
  · rw [List.getElem?_eq_none (by omega), Option.getD_none]
  · rfl

/-- What was stored stands there. -/
theorem holds_store (m : Memory) (a : ℤ) (bs : List Byte) : Holds (store m a bs) a bs := by
  intro i hi
  simp [store, List.getElem?_eq_getElem hi]

theorem agree_store_below {m : Memory} {a lo hi : ℤ} {bs : List Byte} (h : hi ≤ a) :
    Agree m (store m a bs) lo hi :=
  fun _ _ h2 => (store_eq_of_lt (by omega)).symm

theorem agree_store_above {m : Memory} {a lo hi : ℤ} {bs : List Byte} (h : a + bs.length ≤ lo) :
    Agree m (store m a bs) lo hi :=
  fun _ h1 _ => (store_eq_of_ge (by omega)).symm

end CompatSuva.Common
