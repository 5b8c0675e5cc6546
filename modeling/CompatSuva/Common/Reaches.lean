import Mathlib

/-!
# Reachability inside a shrinking set

A depth-first search that takes every node it comes to out of the set `T` of nodes left, and
then searches from the successors of the node, one after another. Each search finds a smaller
set than the one before. `Reaches r T x y` says that a search from `x` with the nodes `T` left
takes out `y`.

* `reaches_iff`: the node itself, and what its successors reach without it;
* `reaches_diff`: what is left to reach after a closed set has been taken out;
-/

namespace CompatSuva.Common

variable {α : Type} (r : α → α → Prop)

/-- There is a path from `x` to `y`, all of whose nodes are in `T`. -/
def Reaches (T : Set α) (x y : α) : Prop :=
  x ∈ T ∧ Relation.ReflTransGen (fun a b => r a b ∧ b ∈ T) x y

variable {r} {T : Set α} {x y z c : α}

theorem Reaches.refl (h : x ∈ T) : Reaches r T x x := ⟨h, .refl⟩

theorem Reaches.tail (h : Reaches r T x y) (hstep : r y z) (hz : z ∈ T) : Reaches r T x z :=
  ⟨h.1, h.2.tail ⟨hstep, hz⟩⟩

theorem Reaches.mem (h : Reaches r T x y) : y ∈ T := by
  obtain ⟨hx, hpath⟩ := h
  induction hpath with
  | refl => exact hx
  | tail _ hstep _ => exact hstep.2

theorem Reaches.trans (h : Reaches r T x y) (h' : Reaches r T y z) : Reaches r T x z :=
  ⟨h.1, h.2.trans h'.2⟩

/-- More nodes, more paths. -/
theorem Reaches.mono {T' : Set α} (h : Reaches r T' x y) (hsub : T' ⊆ T) : Reaches r T x y := by
  obtain ⟨hx, hpath⟩ := h
  induction hpath with
  | refl => exact .refl (hsub hx)
  | tail _ hstep ih => exact ih.tail hstep.1 (hsub hstep.2)

/-- Only the relation inside `T` matters. -/
theorem Reaches.congr {r' : α → α → Prop} (h : Reaches r T x y)
    (hr : ∀ a ∈ T, ∀ b, r a b → r' a b) : Reaches r' T x y := by
  obtain ⟨hx, hpath⟩ := h
  induction hpath with
  | refl => exact .refl hx
  | @tail a b hprev hstep ih =>
    have ha : a ∈ T := Reaches.mem ⟨hx, hprev⟩
    exact ih.tail (hr a ha b hstep.1) hstep.2

/-- What a search from `x` finds: `x`, and what it finds from the successors when `x` is not
    there any more. -/
theorem reaches_iff (hx : x ∈ T) :
    Reaches r T x y ↔ y = x ∨ ∃ c, r x c ∧ Reaches r (T \ {x}) c y := by
  constructor
  · rintro ⟨-, hpath⟩
    induction hpath with
    | refl => exact Or.inl rfl
    | @tail a b _ hstep ih =>
      -- the part of the path behind the last visit of `x`
      by_cases hb : b = x
      · exact Or.inl hb
      · have hmem : b ∈ T \ {x} := ⟨hstep.2, hb⟩
        obtain rfl | ⟨c, hc, hreach⟩ := ih
        · exact Or.inr ⟨b, hstep.1, .refl hmem⟩
        · exact Or.inr ⟨c, hc, hreach.tail hstep.1 hmem⟩
  · rintro (rfl | ⟨c, hc, hreach⟩)
    · exact .refl hx
    · have hstep : Reaches r T x c := (Reaches.refl hx).tail hc hreach.1.1
      exact hstep.trans (hreach.mono Set.sdiff_subset)

/-- After a set has been taken out that no path leaves. -/
theorem reaches_diff {G : Set α} (hG : ∀ a ∈ G, ∀ b, Reaches r T a b → b ∈ G) :
    Reaches r (T \ G) x y ↔ Reaches r T x y ∧ y ∉ G := by
  constructor
  · intro h
    exact ⟨h.mono Set.sdiff_subset, h.mem.2⟩
  · rintro ⟨⟨hx, hpath⟩, hy⟩
    induction hpath with
    | refl => exact .refl ⟨hx, hy⟩
    | @tail a b hprev hstep ih =>
      have ha : a ∉ G := by
        intro ha
        have hmem : a ∈ T := Reaches.mem ⟨hx, hprev⟩
        exact hy (hG a ha b ((Reaches.refl hmem).tail hstep.1 hstep.2))
      exact (ih ha).tail hstep.1 ⟨hstep.2, hy⟩

end CompatSuva.Common
