import Mathlib

/-!
# A heap of cells

A heap is a finite map from addresses to cells; address 0 is the null pointer.
The cells of one heap all have one type, as the objects of one `struct` do.

`size` bounds the length of any walk along distinct cells, so it serves as fuel
for the loops over linked structures.
-/

namespace CompatSuva.Common

/-- A machine address; 0 is the null pointer. -/
abbrev Addr := ℕ

/-- A finite map from addresses to live cells. -/
structure Heap (α : Type) where
  cells : AList (fun _ : Addr => α)

namespace Heap

variable {α : Type}

/-- The heap without cells. -/
def empty : Heap α := ⟨∅⟩

/-- The cell at `a`, if it is live. -/
def get (h : Heap α) (a : Addr) : Option α := h.cells.lookup a

/-- Make `c` the cell at `a`. -/
def set (h : Heap α) (a : Addr) (c : α) : Heap α := ⟨h.cells.insert a c⟩

/-- The cell at `a` is no longer live. -/
def free (h : Heap α) (a : Addr) : Heap α := ⟨h.cells.erase a⟩

/-- The number of live cells. -/
def size (h : Heap α) : ℕ := h.cells.entries.length

@[simp] theorem get_empty (a : Addr) : (empty : Heap α).get a = none := AList.lookup_empty a

@[simp] theorem get_set (h : Heap α) (a : Addr) (c : α) : (h.set a c).get a = some c :=
  AList.lookup_insert _

theorem get_set_ne (h : Heap α) {a b : Addr} (c : α) (hne : b ≠ a) :
    (h.set a c).get b = h.get b := AList.lookup_insert_ne hne

@[simp] theorem get_free (h : Heap α) (a : Addr) : (h.free a).get a = none :=
  AList.lookup_erase _ _

theorem get_free_ne (h : Heap α) {a b : Addr} (hne : b ≠ a) : (h.free a).get b = h.get b :=
  AList.lookup_erase_ne hne

/-- One address is freed, then others: all of them are free, and the rest is as it was. -/
theorem free_cons {h h' : Heap α} {a : Addr} {as : List Addr} (ha : a ∉ as)
    (hfreed : ∀ b ∈ as, h'.get b = none) (hkept : ∀ b, b ∉ as → h'.get b = (h.free a).get b) :
    (∀ b ∈ a :: as, h'.get b = none) ∧ ∀ b, b ∉ a :: as → h'.get b = h.get b := by
  constructor
  · intro b hb
    rcases List.mem_cons.mp hb with rfl | hb
    · rw [hkept _ ha, get_free]
    · exact hfreed b hb
  · intro b hb
    rw [List.mem_cons, not_or] at hb
    rw [hkept b hb.2, get_free_ne _ hb.1]

/-- Distinct live addresses are no more than the heap's size. -/
theorem length_le_size (h : Heap α) {l : List Addr} (hnd : l.Nodup)
    (hlive : ∀ a ∈ l, (h.get a).isSome) : l.length ≤ h.size := by
  have hsub : l ⊆ h.cells.keys := fun a ha => AList.mem_keys.mp
    (AList.lookup_isSome.mp (hlive a ha))
  calc l.length ≤ h.cells.keys.length := (hnd.subperm hsub).length_le
    _ = h.size := by simp [AList.keys, List.keys, size]

end Heap

end CompatSuva.Common
