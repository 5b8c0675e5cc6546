import CompatSuva.Common.Heap

/-!
# Owners of the cells of a heap

The live cells of a heap are divided among owners: each has a list of addresses, no address is
on two of the lists, and no other cell is live. A step that works on the cells of one owner
gives some up and takes others, which were not live; the cells of the other owners stay as they
are. So a program that keeps to such steps loses no cell and frees none twice.

* `Moves.trans`, `Moves.frame`: steps one after another, and the cells that a step leaves alone;
* `Divided.move`, `Divided.hand`: the division after a step, and after cells change hands;
* `Divided.size_eq`: the number of live cells.
-/

namespace CompatSuva.Common

variable {α ι : Type} {h h' h'' : Heap α} {own own' own'' : List Addr}

/-- From `h` to `h'` the cells `own` are given up for the cells `own'`, and no other cell
    changes. -/
structure Moves (h h' : Heap α) (own own' : List Addr) : Prop where
  nodup : own.Nodup → own'.Nodup
  live : ∀ a ∈ own', (h'.get a).isSome
  fresh : ∀ a ∈ own', a ∉ own → h.get a = none
  freed : ∀ a ∈ own, a ∉ own' → h'.get a = none
  kept : ∀ a, a ∉ own → a ∉ own' → h'.get a = h.get a

namespace Moves

theorem refl (hlive : ∀ a ∈ own, (h.get a).isSome) : Moves h h own own :=
  ⟨id, hlive, fun _ ha hn => absurd ha hn, fun _ ha hn => absurd ha hn, fun _ _ _ => rfl⟩

/-- A cell is allocated. -/
theorem alloc {a : Addr} (ha : h.get a = none) (c : α) : Moves h (h.set a c) [] [a] where
  nodup _ := List.nodup_singleton a
  live b hb := by
    rw [List.mem_singleton.mp hb, Heap.get_set]
    rfl
  fresh b hb _ := List.mem_singleton.mp hb ▸ ha
  freed b hb _ := absurd hb List.not_mem_nil
  kept b _ hb := Heap.get_set_ne h c (fun heq => hb (List.mem_singleton.mpr heq))

/-- A cell is written. -/
theorem write (h : Heap α) (a : Addr) (c : α) : Moves h (h.set a c) [a] [a] where
  nodup := id
  live b hb := by
    rw [List.mem_singleton.mp hb, Heap.get_set]
    rfl
  fresh b hb hn := absurd hb hn
  freed b hb hn := absurd hb hn
  kept b _ hb := Heap.get_set_ne h c (fun heq => hb (List.mem_singleton.mpr heq))

/-- A cell is freed. -/
theorem release (h : Heap α) (a : Addr) : Moves h (h.free a) [a] [] where
  nodup _ := List.nodup_nil
  live b hb := absurd hb List.not_mem_nil
  fresh b hb _ := absurd hb List.not_mem_nil
  freed b hb _ := by rw [List.mem_singleton.mp hb, Heap.get_free]
  kept b hb _ := Heap.get_free_ne h (fun heq => hb (List.mem_singleton.mpr heq))

/-- The order of the addresses is of no account. -/
theorem perm {own₁ own₁' : List Addr} (hm : Moves h h' own own') (hp : own.Perm own₁)
    (hp' : own'.Perm own₁') : Moves h h' own₁ own₁' where
  nodup hn := hp'.nodup_iff.mp (hm.nodup (hp.nodup_iff.mpr hn))
  live a ha := hm.live a (hp'.mem_iff.mpr ha)
  fresh a ha hn := hm.fresh a (hp'.mem_iff.mpr ha) (fun h => hn (hp.mem_iff.mp h))
  freed a ha hn := hm.freed a (hp.mem_iff.mpr ha) (fun h => hn (hp'.mem_iff.mp h))
  kept a hn hn' := hm.kept a (fun h => hn (hp.mem_iff.mp h)) (fun h => hn' (hp'.mem_iff.mp h))

theorem trans (hm : Moves h h' own own') (hm' : Moves h' h'' own' own'') :
    Moves h h'' own own'' where
  nodup hn := hm'.nodup (hm.nodup hn)
  live := hm'.live
  fresh a ha hn := by
    by_cases ha' : a ∈ own'
    · exact hm.fresh a ha' hn
    · rw [← hm.kept a hn ha']
      exact hm'.fresh a ha ha'
  freed a ha hn := by
    by_cases ha' : a ∈ own'
    · exact hm'.freed a ha' hn
    · rw [hm'.kept a ha' hn]
      exact hm.freed a ha ha'
  kept a hn hn'' := by
    by_cases ha' : a ∈ own'
    · rw [hm'.freed a ha' hn'', hm.fresh a ha' hn]
    · rw [hm'.kept a ha' hn'', hm.kept a hn ha']

/-- Live cells that the step does not own are not among those it takes. -/
theorem not_mem (hm : Moves h h' own own') {a : Addr} (hlive : (h.get a).isSome) (ha : a ∉ own) :
    a ∉ own' := by
  intro ha'
  rw [hm.fresh a ha' ha] at hlive
  exact Bool.false_ne_true hlive

theorem get_eq (hm : Moves h h' own own') {a : Addr} (hlive : (h.get a).isSome) (ha : a ∉ own) :
    h'.get a = h.get a :=
  hm.kept a ha (hm.not_mem hlive ha)

/-- The frame rule. -/
theorem frame (hm : Moves h h' own own') (others : List Addr)
    (hlive : ∀ a ∈ others, (h.get a).isSome) (hdisj : ∀ a ∈ others, a ∉ own) :
    Moves h h' (others ++ own) (others ++ own') where
  nodup hn := by
    obtain ⟨hothers, hown, -⟩ := List.nodup_append.mp hn
    refine List.nodup_append'.mpr ⟨hothers, hm.nodup hown, ?_⟩
    intro a ha ha'
    exact hm.not_mem (hlive a ha) (hdisj a ha) ha'
  live a ha := by
    obtain ha | ha := List.mem_append.mp ha
    · rw [hm.get_eq (hlive a ha) (hdisj a ha)]
      exact hlive a ha
    · exact hm.live a ha
  fresh a ha hn := by
    rw [List.mem_append, not_or] at hn
    obtain ha | ha := List.mem_append.mp ha
    · exact absurd ha hn.1
    · exact hm.fresh a ha hn.2
  freed a ha hn := by
    rw [List.mem_append, not_or] at hn
    obtain ha | ha := List.mem_append.mp ha
    · exact absurd ha hn.1
    · exact hm.freed a ha hn.2
  kept a hn hn' := by
    rw [List.mem_append, not_or] at hn hn'
    exact hm.kept a hn.2 hn'.2

end Moves

/-! ## Divisions -/

/-- The live cells are those of the owners, each of one owner. -/
structure Divided (h : Heap α) (own : ι → List Addr) : Prop where
  nodup : ∀ i, (own i).Nodup
  disjoint : ∀ i j a, i ≠ j → a ∈ own i → a ∉ own j
  live_iff : ∀ a, (h.get a).isSome ↔ ∃ i, a ∈ own i

namespace Divided

variable {own : ι → List Addr}

theorem empty : Divided (Heap.empty : Heap α) (fun _ : ι => []) where
  nodup _ := List.nodup_nil
  disjoint _ _ _ _ ha := absurd ha List.not_mem_nil
  live_iff a := by simp

theorem live (hd : Divided h own) {i : ι} {a : Addr} (ha : a ∈ own i) : (h.get a).isSome :=
  (hd.live_iff a).mpr ⟨i, ha⟩

/-- The cells of the others are what they were. -/
theorem get_eq (hd : Divided h own) {i j : ι} {own' : List Addr} (hm : Moves h h' (own i) own')
    (hne : j ≠ i) {a : Addr} (ha : a ∈ own j) : h'.get a = h.get a :=
  hm.get_eq (hd.live ha) (hd.disjoint j i a hne ha)

/-- The live cells, counted by owner. -/
theorem size_eq [Fintype ι] (hd : Divided h own) : h.size = ∑ i, (own i).length := by
  have hkeys : h.cells.keys.toFinset = Finset.univ.biUnion fun i => (own i).toFinset := by
    ext a
    have hlive := hd.live_iff a
    rw [Heap.get, AList.lookup_isSome, AList.mem_keys] at hlive
    simp [hlive]
  have hdisj : ∀ i ∈ Finset.univ, ∀ j ∈ Finset.univ, i ≠ j →
      Disjoint (own i).toFinset (own j).toFinset := by
    intro i _ j _ hne
    rw [List.disjoint_toFinset_iff_disjoint]
    intro a hi hj
    exact hd.disjoint i j a hne hi hj
  calc h.size = h.cells.keys.length := by simp [AList.keys, List.keys, Heap.size]
    _ = h.cells.keys.toFinset.card := (List.toFinset_card_of_nodup h.cells.keys_nodup).symm
    _ = ∑ i, (own i).toFinset.card := by rw [hkeys, Finset.card_biUnion hdisj]
    _ = ∑ i, (own i).length :=
      Finset.sum_congr rfl fun i _ => List.toFinset_card_of_nodup (hd.nodup i)

variable [DecidableEq ι]

/-- A step on the cells of one owner. -/
theorem move (hd : Divided h own) {i : ι} {own' : List Addr} (hm : Moves h h' (own i) own') :
    Divided h' (Function.update own i own') := by
  have hother : ∀ j a, j ≠ i → a ∈ own j → a ∉ own' := by
    intro j a hne ha
    exact hm.not_mem (hd.live ha) (hd.disjoint j i a hne ha)
  refine ⟨fun j => ?_, fun j k a hne hj hk => ?_, fun a => ?_⟩
  · by_cases hj : j = i
    · subst hj
      rw [Function.update_self]
      exact hm.nodup (hd.nodup j)
    · rw [Function.update_of_ne hj]
      exact hd.nodup j
  · by_cases hji : j = i
    · subst hji
      rw [Function.update_self] at hj
      rw [Function.update_of_ne (Ne.symm hne)] at hk
      exact hother k a (Ne.symm hne) hk hj
    · rw [Function.update_of_ne hji] at hj
      by_cases hki : k = i
      · subst hki
        rw [Function.update_self] at hk
        exact hother j a hji hj hk
      · rw [Function.update_of_ne hki] at hk
        exact hd.disjoint j k a hne hj hk
  · constructor
    · intro hlive
      by_cases ha' : a ∈ own'
      · exact ⟨i, by rwa [Function.update_self]⟩
      · by_cases ha : a ∈ own i
        · rw [hm.freed a ha ha'] at hlive
          exact absurd hlive Bool.false_ne_true
        · rw [hm.kept a ha ha'] at hlive
          obtain ⟨j, hj⟩ := (hd.live_iff a).mp hlive
          have hji : j ≠ i := fun heq => ha (heq ▸ hj)
          exact ⟨j, by rwa [Function.update_of_ne hji]⟩
    · rintro ⟨j, hj⟩
      by_cases hji : j = i
      · subst hji
        rw [Function.update_self] at hj
        exact hm.live a hj
      · rw [Function.update_of_ne hji] at hj
        rw [hd.get_eq hm hji hj]
        exact hd.live hj

/-- One owner hands its cells to another. -/
theorem hand (hd : Divided h own) {i j : ι} (hne : i ≠ j) :
    Divided h (Function.update (Function.update own i []) j (own j ++ own i)) := by
  have hmem : ∀ k a, a ∈ Function.update (Function.update own i []) j (own j ++ own i) k ↔
      (k ≠ i ∧ a ∈ own k) ∨ (k = j ∧ a ∈ own i) := by
    intro k a
    by_cases hkj : k = j
    · subst hkj
      rw [Function.update_self, List.mem_append]
      simp [Ne.symm hne]
    · rw [Function.update_of_ne hkj]
      by_cases hki : k = i
      · subst hki
        simp [hkj]
      · simp [hki, hkj]
  refine ⟨fun k => ?_, fun k l a hkl hk hl => ?_, fun a => ?_⟩
  · by_cases hkj : k = j
    · subst hkj
      rw [Function.update_self]
      refine List.nodup_append'.mpr ⟨hd.nodup k, hd.nodup i, ?_⟩
      intro a hk hi
      exact hd.disjoint i k a hne hi hk
    · rw [Function.update_of_ne hkj]
      by_cases hki : k = i
      · subst hki
        rw [Function.update_self]
        exact List.nodup_nil
      · rw [Function.update_of_ne hki]
        exact hd.nodup k
  · rw [hmem] at hk hl
    rcases hk with ⟨hki, hk⟩ | ⟨rfl, hk⟩
    · rcases hl with ⟨-, hl⟩ | ⟨-, hl⟩
      · exact hd.disjoint k l a hkl hk hl
      · exact hd.disjoint k i a hki hk hl
    · rcases hl with ⟨hli, hl⟩ | ⟨rfl, -⟩
      · exact hd.disjoint l i a hli hl hk
      · exact hkl rfl
  · rw [hd.live_iff]
    constructor
    · rintro ⟨k, hk⟩
      by_cases hki : k = i
      · exact ⟨j, (hmem j a).mpr (Or.inr ⟨rfl, hki ▸ hk⟩)⟩
      · exact ⟨k, (hmem k a).mpr (Or.inl ⟨hki, hk⟩)⟩
    · rintro ⟨k, hk⟩
      rcases (hmem k a).mp hk with ⟨-, hk⟩ | ⟨-, hk⟩
      · exact ⟨k, hk⟩
      · exact ⟨i, hk⟩

end Divided

end CompatSuva.Common
