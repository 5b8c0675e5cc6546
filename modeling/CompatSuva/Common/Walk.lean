import CompatSuva.Common.HashTable

/-!
# Walks whose body removes other entries

`HashTable.sweep` reads the link of an entry before it runs the body. That is enough when the
body may remove the entry it is at (`Rep.sweep`). Here the body, run at `x`, removes every
entry `y` with `kills x y`. If the next entry is among them, the walk goes on at a node that
has been released.

`SparesEvery` says that this does not happen. It is stated on the entries as they were at the
start: those killed by entries that the walk has passed (`seen`) are no longer there.

* `Rep.sweepLoop_walk`: one bucket;
* `Rep.sweep_walk`: the walk returns exactly when every next entry is spared, and what it
  leaves then.
-/

namespace CompatSuva.Common

namespace HashTable

variable {n : ℕ} {β κ σ : Type}

/-! ## What is left -/

section

variable (kills : Addr × β → Addr × β → Prop)

/-- No entry in `seen` has killed `x`. -/
def Left (seen : List (Addr × β)) (x : Addr × β) : Prop := ∀ z ∈ seen, ¬ kills z x

/-- Along `l`, behind the entries `seen`, no entry kills the next one left. -/
def SparesNext : List (Addr × β) → List (Addr × β) → Prop
  | _, [] => True
  | seen, x :: l =>
    (Left kills seen x → ∀ mid y post, l = mid ++ y :: post → (∀ w ∈ mid, ¬ Left kills seen w) →
        Left kills seen y → ¬ kills x y) ∧
      SparesNext (seen ++ [x]) l

/-- The same for one bucket after the other. -/
def SparesAll : List (Addr × β) → List (List (Addr × β)) → Prop
  | _, [] => True
  | seen, l :: ls => SparesNext kills seen l ∧ SparesAll (seen ++ l) ls

/-- In a walk over all buckets no entry kills the next one left. -/
structure SparesEvery (L : Fin n → List (Addr × β)) : Prop where
  all : SparesAll kills [] ((List.finRange n).map L)

open Classical in
/-- The buckets behind the entries `seen`. -/
noncomputable def bucketsLeft (L : Fin n → List (Addr × β)) (seen : List (Addr × β)) :
    Fin n → List (Addr × β) := fun i => (L i).filter (Left kills seen)

variable {kills}

@[simp] theorem left_nil (x : Addr × β) : Left kills [] x := fun _ hz => absurd hz List.not_mem_nil

theorem left_append_singleton (seen : List (Addr × β)) (x y : Addr × β) :
    Left kills (seen ++ [x]) y ↔ Left kills seen y ∧ ¬ kills x y := by
  unfold Left
  rw [List.forall_mem_append, List.forall_mem_singleton]

/-- An entry that has been killed kills nothing more. -/
theorem left_of_not_left (htrans : ∀ x y z, kills x y → kills y z → kills x z)
    {seen : List (Addr × β)} {x : Addr × β} (hx : ¬ Left kills seen x) :
    Left kills (seen ++ [x]) = Left kills seen := by
  funext y
  rw [left_append_singleton, eq_iff_iff, and_iff_left_iff_imp]
  intro hy hxy
  apply hx
  intro z hz hzx
  exact hy z hz (htrans z x y hzx hxy)

theorem bucketsLeft_nil (L : Fin n → List (Addr × β)) : bucketsLeft kills L [] = L := by
  funext i
  exact List.filter_eq_self.mpr fun x _ => by simp

variable (kills) in
open Classical in
/-- Another entry kills some of those that are left. -/
theorem length_left_le (seen l : List (Addr × β)) (x : Addr × β) :
    (l.filter (Left kills (seen ++ [x]))).length ≤ (l.filter (Left kills seen)).length := by
  refine (List.monotone_filter_right l fun y hy => ?_).length_le
  simp only [decide_eq_true_eq, left_append_singleton] at hy ⊢
  exact hy.1

open Classical in
/-- If `x` spares the next entry, it is next before and after `x`. -/
theorem headAddr_spared {seen l : List (Addr × β)} {x : Addr × β}
    (hnext : ∀ mid y post, l = mid ++ y :: post → (∀ w ∈ mid, ¬ Left kills seen w) →
      Left kills seen y → ¬ kills x y) :
    headAddr (l.filter (Left kills seen)) = headAddr (l.filter (Left kills (seen ++ [x]))) := by
  have hsub := length_left_le kills seen l x
  cases hfilter : l.filter (Left kills seen) with
  | nil =>
    rw [hfilter, List.length_nil, Nat.le_zero, List.length_eq_zero_iff] at hsub
    rw [hsub]
  | cons y ys =>
    obtain ⟨mid, post, hl', hmid, hy, -⟩ := List.filter_eq_cons_iff.mp hfilter
    have hmid' : ∀ w ∈ mid, ¬ Left kills seen w := fun w hw => by simpa using hmid w hw
    have hy' : Left kills seen y := by simpa using hy
    have hfilter' : l.filter (Left kills (seen ++ [x])) =
        y :: post.filter (Left kills (seen ++ [x])) := by
      refine List.filter_eq_cons_iff.mpr ⟨mid, post, hl', fun w hw => ?_, ?_, rfl⟩
      · simpa [left_append_singleton] using fun h => absurd h (hmid' w hw)
      · simpa [left_append_singleton] using ⟨hy', hnext mid y post hl' hmid' hy'⟩
    rw [hfilter']
    rfl

/-- What spares the next entry in every bucket does so in each. -/
theorem SparesAll.bucket {seen l : List (Addr × β)} {ls₁ ls₂ : List (List (Addr × β))}
    (h : SparesAll kills seen (ls₁ ++ l :: ls₂)) : SparesNext kills (seen ++ ls₁.flatten) l := by
  induction ls₁ generalizing seen with
  | nil =>
    rw [List.flatten_nil, List.append_nil]
    exact h.1
  | cons l₁ ls₁ ih =>
    have hrest := ih h.2
    rwa [List.append_assoc] at hrest

/-- A walk in which no entry kills another one of its bucket. -/
theorem sparesEvery_of_apart {L : Fin n → List (Addr × β)} (hnodup : ∀ i, (L i).Nodup)
    (hapart : ∀ i, ∀ x ∈ L i, ∀ y ∈ L i, kills x y → x = y) : SparesEvery kills L := by
  have hnext : ∀ (l seen : List (Addr × β)), l.Nodup →
      (∀ x ∈ l, ∀ y ∈ l, kills x y → x = y) → SparesNext kills seen l := by
    intro l
    induction l with
    | nil => exact fun _ _ _ => trivial
    | cons x l ih =>
      intro seen hnd hkills
      obtain ⟨hx, hnd'⟩ := List.nodup_cons.mp hnd
      refine ⟨fun _ mid y post hl _ _ hxy => ?_, ih _ hnd' fun x hx y hy =>
        hkills x (List.mem_cons_of_mem _ hx) y (List.mem_cons_of_mem _ hy)⟩
      have hy : y ∈ l := by simp [hl]
      rw [hkills x List.mem_cons_self y (List.mem_cons_of_mem _ hy) hxy] at hx
      exact hx hy
  have hall : ∀ (is : List (Fin n)) (seen : List (Addr × β)),
      SparesAll kills seen (is.map L) := by
    intro is
    induction is with
    | nil => exact fun _ => trivial
    | cons i is ih => exact fun seen => ⟨hnext _ seen (hnodup i) (hapart i), ih _⟩
  exact ⟨hall _ _⟩

/-- The entries passed before bucket `i` are from other buckets. -/
theorem SparesEvery.bucket {L : Fin n → List (Addr × β)} (h : SparesEvery kills L) (i : Fin n) :
    ∃ seen, (∀ z ∈ seen, ∃ j, j ≠ i ∧ z ∈ L j) ∧ SparesNext kills seen (L i) := by
  obtain ⟨is, js, hsplit⟩ := List.append_of_mem (List.mem_finRange i)
  have hnd := List.nodup_finRange n
  rw [hsplit] at hnd
  have hi : i ∉ is := fun hmem =>
    (List.nodup_append.mp hnd).2.2 i hmem i List.mem_cons_self rfl
  have hall := h.all
  rw [hsplit, List.map_append, List.map_cons] at hall
  refine ⟨[] ++ (is.map L).flatten, fun z hz => ?_, hall.bucket⟩
  rw [List.nil_append] at hz
  obtain ⟨l, hl, hzl⟩ := List.mem_flatten.mp hz
  obtain ⟨j, hj, rfl⟩ := List.mem_map.mp hl
  exact ⟨j, fun hji => hi (hji ▸ hj), hzl⟩

end

/-! ## The walk -/

section

variable {key : β → κ} {hash : κ → Fin n} {kills : Addr × β → Addr × β → Prop}
  {tbl : σ → HashTable n β} {body : σ → β → Option σ} {Inv : List (Addr × β) → σ → Prop}
  {L : Fin n → List (Addr × β)}

variable (key hash kills tbl body Inv L) in
/-- What the body does at an entry: it returns, and exactly what the entry kills is gone. -/
def Body : Prop :=
  ∀ s seen i x, Inv seen s → Rep key hash (tbl s) (bucketsLeft kills L seen) → x ∈ L i →
    Left kills seen x → ∃ s', body s x.2 = some s' ∧ Inv (seen ++ [x]) s' ∧
      Rep key hash (tbl s') (bucketsLeft kills L (seen ++ [x])) ∧
      ∀ y, y ∈ L i → Left kills seen y → kills x y → (tbl s').cells.get y.1 = none

open Classical in
/-- The walk along what is left of the rest `l` of a bucket. -/
theorem Rep.sweepLoop_walk (hbody : Body key hash kills tbl body Inv L)
    (htrans : ∀ x y z, kills x y → kills y z → kills x z)
    (hskip : ∀ s seen x, ¬ Left kills seen x → Inv seen s → Inv (seen ++ [x]) s)
    {s : σ} {seen : List (Addr × β)} (hs : Inv seen s)
    (hL : Rep key hash (tbl s) (bucketsLeft kills L seen)) {i : Fin n} {pre l : List (Addr × β)}
    (hi : L i = pre ++ l) {fuel : ℕ} (hfuel : (l.filter (Left kills seen)).length < fuel) :
    (SparesNext kills seen l →
      ∃ s', HashTable.sweepLoop tbl body fuel s (headAddr (l.filter (Left kills seen))) = some s' ∧
        Inv (seen ++ l) s' ∧ Rep key hash (tbl s') (bucketsLeft kills L (seen ++ l))) ∧
    (¬ SparesNext kills seen l →
      HashTable.sweepLoop tbl body fuel s (headAddr (l.filter (Left kills seen))) = none) := by
  induction l generalizing s seen pre fuel with
  | nil =>
    obtain ⟨f, rfl⟩ := Nat.exists_eq_add_one_of_ne_zero (Nat.ne_zero_of_lt hfuel)
    refine ⟨fun _ => ⟨s, ?_, by rwa [List.append_nil], by rwa [List.append_nil]⟩,
      fun hno => absurd trivial hno⟩
    simp [HashTable.sweepLoop, headAddr]
  | cons x l ih =>
    have hpre : L i = (pre ++ [x]) ++ l := by rw [hi, List.append_assoc, List.singleton_append]
    by_cases hx : Left kills seen x
    · rw [List.filter_cons_of_pos (by simpa using hx)] at hfuel ⊢
      obtain ⟨f, rfl⟩ := Nat.exists_eq_add_one_of_ne_zero (Nat.ne_zero_of_lt hfuel)
      rw [List.length_cons] at hfuel
      have hmem : x ∈ L i := by simp [hi]
      have hchain : IsChain (tbl s).cells x.1 (x :: l.filter (Left kills seen)) := by
        have := hL.chain i
        rw [bucketsLeft, hi, List.filter_append,
          List.filter_cons_of_pos (by simpa using hx)] at this
        exact this.append
      obtain ⟨s', hrun, hs', hL', hdead⟩ := hbody s seen i x hs hL hmem hx
      rw [HashTable.sweepLoop_cons hchain hrun]
      by_cases hnext : ∀ mid y post, l = mid ++ y :: post → (∀ w ∈ mid, ¬ Left kills seen w) →
          Left kills seen y → ¬ kills x y
      · have hsub := length_left_le kills seen l x
        rw [headAddr_spared hnext, show seen ++ x :: l = (seen ++ [x]) ++ l by simp]
        have hrest := ih hs' hL' hpre (lt_of_le_of_lt hsub (Nat.lt_of_succ_lt_succ hfuel))
        exact ⟨fun h => hrest.1 h.2, fun h => hrest.2 fun h' => h ⟨fun _ => hnext, h'⟩⟩
      · refine ⟨fun h => absurd (h.1 hx) hnext, fun _ => ?_⟩
        push Not at hnext
        obtain ⟨mid, y, post, hl', hmid, hy, hkill⟩ := hnext
        have hfilter : l.filter (Left kills seen) = y :: post.filter (Left kills seen) :=
          List.filter_eq_cons_iff.mpr ⟨mid, post, hl', fun w hw => by simpa using hmid w hw,
            by simpa using hy, rfl⟩
        have hy0 : y.1 ≠ 0 := (hchain.get_mem (show y ∈ x :: l.filter (Left kills seen) by
          simp [hfilter])).1
        rw [hfilter, List.length_cons] at hfuel
        obtain ⟨g, rfl⟩ : ∃ g, f = g + 1 := ⟨f - 1, by omega⟩
        have hgone : (tbl s').cells.get y.1 = none := hdead y (by simp [hi, hl']) hy hkill
        rw [hfilter, headAddr]
        simp only [HashTable.sweepLoop, if_neg hy0, hgone]
    · rw [List.filter_cons_of_neg (by simpa using hx)] at hfuel ⊢
      have hsame := left_of_not_left htrans hx
      have hbuckets : bucketsLeft kills L (seen ++ [x]) = bucketsLeft kills L seen := by
        unfold bucketsLeft
        rw [hsame]
      have hrest := @ih s (seen ++ [x]) (hskip s seen x hx hs) (by rwa [hbuckets]) (pre ++ [x]) hpre
        fuel (by rwa [hsame])
      rw [hsame, show (seen ++ [x]) ++ l = seen ++ x :: l by simp] at hrest
      exact ⟨fun h => hrest.1 h.2, fun h => hrest.2 fun h' => h ⟨fun hx' => absurd hx' hx, h'⟩⟩

open Classical in
/-- The walk over all buckets: it returns exactly when every next entry is spared. -/
theorem Rep.sweep_walk (hbody : Body key hash kills tbl body Inv L)
    (htrans : ∀ x y z, kills x y → kills y z → kills x z)
    (hskip : ∀ s seen x, ¬ Left kills seen x → Inv seen s → Inv (seen ++ [x]) s)
    {s : σ} (hs : Inv [] s) (hL : Rep key hash (tbl s) L) :
    (SparesEvery kills L →
      ∃ s', HashTable.sweep tbl body s = some s' ∧ Inv ((List.finRange n).flatMap L) s' ∧
        Rep key hash (tbl s') (bucketsLeft kills L ((List.finRange n).flatMap L))) ∧
    (¬ SparesEvery kills L → HashTable.sweep tbl body s = none) := by
  have hbuckets : ∀ (is : List (Fin n)) (s : σ) (seen : List (Addr × β)), Inv seen s →
      Rep key hash (tbl s) (bucketsLeft kills L seen) →
      (SparesAll kills seen (is.map L) →
        ∃ s', is.foldlM (fun s i => HashTable.sweepLoop tbl body ((tbl s).cells.size + 1) s
            ((tbl s).head i)) s = some s' ∧ Inv (seen ++ is.flatMap L) s' ∧
          Rep key hash (tbl s') (bucketsLeft kills L (seen ++ is.flatMap L))) ∧
      (¬ SparesAll kills seen (is.map L) →
        is.foldlM (fun s i => HashTable.sweepLoop tbl body ((tbl s).cells.size + 1) s
          ((tbl s).head i)) s = none) := by
    intro is
    induction is with
    | nil =>
      intro s seen hs hL
      refine ⟨fun _ => ⟨s, rfl, ?_, ?_⟩, fun hno => absurd trivial hno⟩
      · rwa [List.flatMap_nil, List.append_nil]
      · rwa [List.flatMap_nil, List.append_nil]
    | cons i is ih =>
      intro s seen hs hL
      have hfuel := Nat.lt_succ_of_le (hL.chain i).length_le_size
      have hloop := Rep.sweepLoop_walk hbody htrans hskip hs hL (List.nil_append (L i)).symm hfuel
      have hhead : headAddr ((L i).filter (Left kills seen)) = (tbl s).head i :=
        (hL.chain i).head_eq.symm
      rw [hhead] at hloop
      rw [List.foldlM_cons, List.flatMap_cons, ← List.append_assoc]
      constructor
      · rintro ⟨hnext, hrest⟩
        obtain ⟨s', hrun, hs', hL'⟩ := hloop.1 hnext
        rw [hrun]
        exact (ih s' _ hs' hL').1 hrest
      · intro hno
        by_cases hnext : SparesNext kills seen (L i)
        · obtain ⟨s', hrun, hs', hL'⟩ := hloop.1 hnext
          rw [hrun]
          exact (ih s' _ hs' hL').2 fun hrest => hno ⟨hnext, hrest⟩
        · rw [hloop.2 hnext]
          rfl
  have hall := hbuckets (List.finRange n) s [] hs (by rwa [bucketsLeft_nil])
  exact ⟨fun h => hall.1 h.all, fun h => hall.2 fun h' => h ⟨h'⟩⟩

end

end HashTable

end CompatSuva.Common
