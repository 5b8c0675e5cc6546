import CompatSuva.Common.Scanf
import CompatSuva.Common.Simulation
import CompatSuva.Audit.DbDiff

/-!
# A history of audits

What `get_new_xuids` and `get_new_dot_files` are for: each reports what was not there in the last
audit, from a file it keeps. The calls are made in any order, with any programs, and some of them
fail.

The search of `get_match` starts where the last one has ended. `search` is what it does with the
lines of the file, by their numbers, and `report` what the comparison makes of it.

* `getMatch_search`: `get_match` is `search`, for any file;
* `audits_refine`: any number of calls give the reports of `audit`, and keep the files so;
* `new_reported`: what was not there in the last audit that has succeeded is reported;
* `removed_silent`: when lines have only gone since, nothing is reported.
-/

namespace CompatSuva.Audit.History

open CompatSuva.Common CompatSuva.Scl CompatSuva.Audit.DbDiff

/-! ## Searching and reporting -/

section

variable {α : Type}

/-- The search for a row with `p`, from row `k` on: whether one is found, and the number of the row
    behind. It wraps around, but not from the last row. -/
def search (p : α → Bool) (rows : List α) (k : ℕ) : Bool × ℕ :=
  match (rows.drop k).findIdx? p with
  | some j => (true, k + j + 1)
  | none =>
    if k + 1 = rows.length then (false, k + 1)
    else
      match (rows.take k).findIdx? p with
      | some j => (true, j + 1)
      | none => (false, if k = rows.length then min 1 k else k + 1)

variable {p : α → Bool} {rows : List α} {k : ℕ}

/-- The search goes on in a part of the list, up to the first that has `p`. -/
theorem findIdx?_first {skipped rest : List α} {a : α} (hmiss : ∀ x ∈ skipped, p x = false)
    (ha : p a = true) : (skipped ++ a :: rest).findIdx? p = some skipped.length := by
  rw [List.findIdx?_append, List.findIdx?_eq_none_iff.mpr hmiss, List.findIdx?_cons, ha]
  simp

theorem search_ahead {before skipped rest : List α} {a : α} (hmiss : ∀ x ∈ skipped, p x = false)
    (ha : p a = true) : search p (before ++ (skipped ++ a :: rest)) before.length =
      (true, before.length + skipped.length + 1) := by
  rw [search, List.drop_left, findIdx?_first hmiss ha]

theorem search_behind {skipped rest after : List α} {a : α} (hafter : ∀ x ∈ after, p x = false)
    (hone : after.length ≠ 1) (hmiss : ∀ x ∈ skipped, p x = false) (ha : p a = true) :
    search p ((skipped ++ a :: rest) ++ after) (skipped ++ a :: rest).length =
      (true, skipped.length + 1) := by
  have hlength : ¬ (skipped ++ a :: rest).length + 1 =
      ((skipped ++ a :: rest) ++ after).length := by
    rw [@List.length_append _ (skipped ++ a :: rest) after]
    omega
  rw [search, List.drop_left, List.findIdx?_eq_none_iff.mpr hafter]
  simp only [hlength, if_false]
  rw [List.take_left, findIdx?_first hmiss ha]

/-- Nothing is found: the search ends one row further on. -/
theorem search_none {before after : List α} (hall : ∀ x ∈ before ++ after, p x = false) :
    search p (before ++ after) before.length =
      (false, if after = [] then min 1 before.length else before.length + 1) := by
  have hafter : ∀ x ∈ after, p x = false := fun x hx => hall x (List.mem_append_right _ hx)
  have hbefore : ∀ x ∈ before, p x = false := fun x hx => hall x (List.mem_append_left _ hx)
  rw [search, List.drop_left, List.findIdx?_eq_none_iff.mpr hafter]
  simp only [List.take_left, List.findIdx?_eq_none_iff.mpr hbefore, List.length_append]
  cases after with
  | nil => simp
  | cons a after => simp

/-- At the last row, the rows before it are not looked at. -/
theorem search_last {before : List α} {a : α} (ha : p a = false) :
    search p (before ++ [a]) before.length = (false, before.length + 1) := by
  rw [search, List.drop_left, List.findIdx?_eq_none_iff.mpr (by simpa using ha)]
  simp

/-- From the end the search begins anew. -/
theorem search_end (h : rows ≠ []) : search p rows rows.length = search p rows 0 := by
  have hpos := List.length_pos_iff.mpr h
  simp only [search, List.drop_length, List.take_length, List.findIdx?_nil, List.drop_zero,
    List.take_zero, Nat.zero_add]
  cases rows.findIdx? p with
  | some j => simp
  | none =>
    by_cases hone : rows.length = 1
    · simp [hone]
    · have hmin : min 1 rows.length = 1 := by omega
      simp [hmin, Ne.symm hone, Ne.symm hpos.ne']

theorem search_map {β : Type} (f : β → α) (l : List β) (k : ℕ) :
    search p (l.map f) k = search (fun b => p (f b)) l k := by
  simp only [search, ← List.map_drop, ← List.map_take, List.findIdx?_map, List.length_map]
  rfl

theorem search_congr {q : α → Bool} (h : ∀ x ∈ rows, p x = q x) :
    search p rows k = search q rows k := by
  have hmap : rows.map p = rows.map q := List.map_congr_left h
  have heq : search id (rows.map p) k = search id (rows.map q) k := by rw [hmap]
  rw [search_map, search_map] at heq
  exact heq

variable [DecidableEq α]

/-- The rows that are not found, one search after the other. -/
def report (rows : List α) : ℕ → List α → List α
  | _, [] => []
  | k, x :: xs =>
    let r := search (fun y => y = x) rows k
    if r.1 then report rows r.2 xs else x :: report rows r.2 xs

/-- Where the searches for `xs` end. -/
def searchEnd (rows : List α) (k : ℕ) (xs : List α) : ℕ :=
  xs.foldl (fun k x => (search (fun y => y = x) rows k).2) k

variable {x : α} {xs : List α}

theorem report_sublist (rows : List α) (k : ℕ) (xs : List α) : (report rows k xs).Sublist xs := by
  induction xs generalizing k with
  | nil => exact .slnil
  | cons x xs ih =>
    rw [report]
    split_ifs
    · exact (ih _).cons x
    · exact (ih _).cons_cons x

/-- A search fails if there is no such row, and from the last row if it is another one. -/
theorem search_false_iff (hk : k ≤ rows.length) : (search (fun y => y = x) rows k).1 = false ↔
    x ∉ rows ∨ k + 1 = rows.length ∧ rows.getLast? ≠ some x := by
  obtain ⟨before, after, rfl, rfl⟩ : ∃ before after, rows = before ++ after ∧ before.length = k :=
    ⟨rows.take k, rows.drop k, (List.take_append_drop k rows).symm, by simpa using hk⟩
  have hself : decide (x = x) = true := decide_eq_true rfl
  have hmiss : ∀ {l : List α}, x ∉ l → ∀ y ∈ l, (fun y => decide (y = x)) y = false :=
    fun hnot y hy => decide_eq_false fun heq => hnot (heq ▸ hy)
  by_cases hafter : x ∈ after
  · obtain ⟨skipped, rest, rfl, hskipped⟩ := List.eq_append_cons_of_mem hafter
    rw [search_ahead (hmiss hskipped) hself]
    refine iff_of_false (by simp) ?_
    rintro (hnot | ⟨hlast, hne⟩)
    · exact hnot (List.mem_append_right _ hafter)
    · simp only [List.length_append, List.length_cons] at hlast
      have hrest : rest = [] := List.eq_nil_of_length_eq_zero (by omega)
      exact hne (by simp [hrest])
  · by_cases hone : after.length = 1
    · obtain ⟨y, rfl⟩ := List.length_eq_one_iff.mp hone
      have hne : y ≠ x := fun heq => hafter (by simp [heq])
      have hy : (fun z => decide (z = x)) y = false := decide_eq_false hne
      rw [@search_last _ (fun z => decide (z = x)) before y hy]
      refine iff_of_true rfl (Or.inr ⟨by simp, ?_⟩)
      simpa using hne
    · have hlength : before.length + 1 ≠ (before ++ after).length := by
        rw [List.length_append]
        omega
      by_cases hbefore : x ∈ before
      · obtain ⟨skipped, rest, rfl, hskipped⟩ := List.eq_append_cons_of_mem hbefore
        rw [search_behind (hmiss hafter) hone (hmiss hskipped) hself]
        refine iff_of_false (by simp) ?_
        rintro (hnot | ⟨hlast, -⟩)
        · exact hnot (List.mem_append_left _ hbefore)
        · exact hlength hlast
      · have hnot : x ∉ before ++ after := by simp [hbefore, hafter]
        rw [search_none (hmiss hnot)]
        exact iff_of_true rfl (Or.inl hnot)

omit [DecidableEq α] in
theorem search_le (hk : k ≤ rows.length) : (search p rows k).2 ≤ rows.length := by
  unfold search
  cases hahead : (rows.drop k).findIdx? p with
  | some j =>
    have hj := (List.findIdx?_eq_some_iff_findIdx_eq.mp hahead).1
    rw [List.length_drop] at hj
    simp only
    omega
  | none =>
    by_cases hlast : k + 1 = rows.length
    · simp [hlast]
    simp only [hlast, if_false]
    cases hbehind : (rows.take k).findIdx? p with
    | some j =>
      have hj := (List.findIdx?_eq_some_iff_findIdx_eq.mp hbehind).1
      rw [List.length_take] at hj
      simp only
      omega
    | none =>
      simp only
      split_ifs <;> omega

/-- What is reported: what is not in the list; and what the search for begins at its last row,
    unless it is that row. -/
theorem mem_report_iff (hk : k ≤ rows.length) : x ∈ report rows k xs ↔
    ∃ before after, xs = before ++ x :: after ∧
      (x ∉ rows ∨ searchEnd rows k before + 1 = rows.length ∧ rows.getLast? ≠ some x) := by
  induction xs generalizing k with
  | nil =>
    refine iff_of_false List.not_mem_nil ?_
    rintro ⟨before, after, h, -⟩
    simp at h
  | cons y ys ih =>
    have hrest := ih (@search_le _ (fun z => z = y) rows k hk)
    constructor
    · intro hx
      rw [report] at hx
      cases hfound : (search (fun z => z = y) rows k).1 with
      | true =>
        rw [if_pos hfound] at hx
        obtain ⟨before, after, rfl, hcase⟩ := hrest.mp hx
        exact ⟨y :: before, after, rfl, hcase⟩
      | false =>
        rw [if_neg (by simp [hfound])] at hx
        rcases List.mem_cons.mp hx with rfl | hx
        · exact ⟨[], ys, rfl, (search_false_iff hk).mp hfound⟩
        · obtain ⟨before, after, rfl, hcase⟩ := hrest.mp hx
          exact ⟨y :: before, after, rfl, hcase⟩
    · rintro ⟨before, after, heq, hcase⟩
      rw [report]
      cases before with
      | nil =>
        obtain ⟨rfl, -⟩ := List.cons.inj heq
        have hfound := (search_false_iff hk).mpr hcase
        rw [if_neg (by simp [hfound])]
        exact List.mem_cons_self
      | cons z before =>
        obtain ⟨rfl, rfl⟩ := List.cons.inj heq
        have hx := hrest.mpr ⟨before, after, rfl, hcase⟩
        split_ifs
        · exact hx
        · exact List.mem_cons_of_mem _ hx

/-- What comes in the order of the list is found, one after the other. -/
theorem report_eq_nil (h : xs.Sublist (rows.drop k)) : report rows k xs = [] := by
  induction xs generalizing k with
  | nil => rfl
  | cons x xs ih =>
    have hx : x ∈ rows.drop k := h.subset List.mem_cons_self
    have hk : k < rows.length := by
      by_contra hle
      rw [List.drop_of_length_le (by omega)] at hx
      exact List.not_mem_nil hx
    obtain ⟨skipped, rest, hsplit, hskipped⟩ := List.eq_append_cons_of_mem hx
    have hrows : rows = rows.take k ++ (skipped ++ x :: rest) := by
      rw [← hsplit, List.take_append_drop]
    have hlen : (rows.take k).length = k := by
      rw [List.length_take]
      omega
    have hmiss : ∀ y ∈ skipped, (fun y => decide (y = x)) y = false := by
      intro y hy
      exact decide_eq_false fun heq => hskipped (heq ▸ hy)
    have hfound : search (fun y => y = x) rows k = (true, k + skipped.length + 1) := by
      have hahead := @search_ahead _ (fun y => decide (y = x)) (rows.take k) skipped rest x hmiss
        (decide_eq_true rfl)
      rwa [← hrows, hlen] at hahead
    have hdrop : rows.drop (k + skipped.length + 1) = rest := by
      rw [Nat.add_assoc, ← List.drop_drop, hsplit, List.drop_append,
        List.drop_of_length_le (by omega), Nat.add_sub_cancel_left]
      rfl
    rw [report, hfound]
    refine ih ?_
    rw [hdrop]
    -- `xs` comes behind the first `x`
    rw [hsplit] at h
    obtain ⟨r₁, r₂, heq, hmem, hsub⟩ := List.cons_sublist_iff.mp h
    rcases List.append_eq_append_iff.mp heq with ⟨more, rfl, hmore⟩ | ⟨more, rfl, -⟩
    · cases more with
      | nil => exact absurd (by simpa using hmem) hskipped
      | cons y more =>
        obtain ⟨-, rfl⟩ := List.cons.inj hmore
        exact hsub.trans (List.sublist_append_right ..)
    · exact absurd (List.mem_append_left _ hmem) hskipped

end

/-! ## `get_match` as a search -/

/-- The stream stands in front of piece `k`. -/
structure Stands (h : Haystack) (pieces : List (List Byte)) (k : ℕ) : Prop where
  le : k ≤ pieces.length
  at_ : h.At (pieces.take k) (pieces.drop k)

/-- A piece is found; `Hit` as a test. -/
def hits (needle piece : List Byte) : Bool := strncmp (killReturn (cstr piece)) needle lineLength

variable {needle : List Byte} {h : Haystack} {before after pieces : List (List Byte)} {k : ℕ}

theorem stands_of_at (hat : h.At before after) : Stands h (before ++ after) before.length := by
  refine ⟨by simp, ?_⟩
  rw [List.take_left, List.drop_left]
  exact hat

theorem not_hit {piece : List Byte} : ¬ Hit needle piece ↔ hits needle piece = false := by
  rw [Hit, hits, Bool.not_eq_true]

/-- The search once it has wrapped. -/
theorem loop_behind {first : List Byte} {rest : List (List Byte)}
    (hat : h.At [] (before ++ first :: rest)) (hmiss : ∀ piece ∈ first :: rest, ¬ Hit needle piece)
    (hrest : rest ≠ []) {fuel : ℕ} (hfuel : before.length + 1 ≤ fuel) :
    ∃ h', getMatchLoop needle fuel h (before ++ [first]).flatten.length =
        .ok ((search (hits needle) (before ++ first :: rest) before.length).1, h') ∧
      Stands h' (before ++ first :: rest)
        (search (hits needle) (before ++ first :: rest) before.length).2 ∧ h'.file = h.file := by
  have hlen : (before ++ [first]).flatten.length = before.flatten.length + first.length := by
    rw [List.flatten_concat, List.length_append]
  have hfirst : first.length ≠ 0 := by
    have hne := hat.pieces.ne_nil (by decide) first (by simp)
    exact fun h0 => hne (List.length_eq_zero_iff.mp h0)
  have hone : (first :: rest).length ≠ 1 := by
    have hpos := List.length_pos_iff.mpr hrest
    rw [List.length_cons]
    omega
  have hafter : ∀ piece ∈ first :: rest, hits needle piece = false :=
    fun piece hmem => not_hit.mp (hmiss piece hmem)
  by_cases hbehind : ∃ piece ∈ before, Hit needle piece
  · obtain ⟨skipped, piece, more, rfl, hmiss', hhit⟩ := exists_first_hit hbehind
    have hshort : ([] ++ skipped).flatten.length <
        ((skipped ++ piece :: more) ++ [first]).flatten.length := by
      rw [hlen, List.nil_append, List.flatten_append, List.length_append]
      omega
    rw [List.length_append] at hfuel
    have hat₀ := hat
    rw [List.append_assoc] at hat₀
    obtain ⟨h', hat', hfile, hloop⟩ :=
      hat₀.loop_found hmiss' hhit (Or.inr hshort) (show skipped.length < fuel by omega)
    have hst := stands_of_at hat'
    rw [search_behind hafter hone (fun p hp => not_hit.mp (hmiss' p hp)) hhit]
    refine ⟨h', hloop, ?_, hfile⟩
    simpa using hst
  · -- back at the first piece
    have hmiss' : ∀ piece ∈ before, ¬ Hit needle piece :=
      fun piece hmem hhit => hbehind ⟨piece, hmem, hhit⟩
    have hshort : ([] ++ before).flatten.length < (before ++ [first]).flatten.length := by
      rw [hlen, List.nil_append]
      omega
    obtain ⟨j, rfl⟩ : ∃ j, fuel = j + 1 + before.length := ⟨fuel - 1 - before.length, by omega⟩
    obtain ⟨b, hatb, hfile, hloop⟩ := hat.loop_skip hmiss' (Or.inr hshort) (j + 1)
    have hback : (b.advance first).pos = (before ++ [first]).flatten.length := hatb.advance.pos
    have hall : ∀ piece ∈ before ++ first :: rest, hits needle piece = false := by
      intro piece hmem
      rcases List.mem_append.mp hmem with hmem | hmem
      · exact not_hit.mp (hmiss' piece hmem)
      · exact hafter piece hmem
    rw [search_none hall, if_neg (List.cons_ne_nil first rest), hloop,
      hatb.loop_miss (hmiss first List.mem_cons_self), Haystack.startAfter_of_ne (by omega),
      if_pos hback]
    have hst := stands_of_at hatb.advance
    refine ⟨b.advance first, rfl, ?_, hfile⟩
    simpa using hst

/-- The search from a piece of the file. -/
theorem loop_search {first : List Byte} {rest : List (List Byte)}
    (hat : h.At before (first :: rest)) {fuel : ℕ}
    (hfuel : (before ++ first :: rest).length + 2 ≤ fuel) :
    ∃ h', getMatchLoop needle fuel h 0 =
        .ok ((search (hits needle) (before ++ first :: rest) before.length).1, h') ∧
      Stands h' (before ++ first :: rest)
        (search (hits needle) (before ++ first :: rest) before.length).2 ∧ h'.file = h.file := by
  by_cases hahead : ∃ piece ∈ first :: rest, Hit needle piece
  · obtain ⟨skipped, piece, more, hsplit, hmiss, hhit⟩ := exists_first_hit hahead
    rw [hsplit] at hat hfuel ⊢
    obtain ⟨h', hat', hfile, hloop⟩ := @Haystack.At.loop_found h before more piece needle skipped 0
      hat hmiss hhit (Or.inl (Nat.zero_le _)) fuel (by
        simp only [List.length_append, List.length_cons] at hfuel
        omega)
    have hst := stands_of_at hat'
    rw [search_ahead (fun p hp => not_hit.mp (hmiss p hp)) hhit]
    refine ⟨h', hloop, ?_, hfile⟩
    simpa [Nat.add_assoc] using hst
  · have hmiss : ∀ piece ∈ first :: rest, ¬ Hit needle piece :=
      fun piece hmem hhit => hahead ⟨piece, hmem, hhit⟩
    simp only [List.length_append, List.length_cons] at hfuel
    obtain ⟨j, rfl⟩ : ∃ j, fuel = j + 1 + (first :: rest).length :=
      ⟨fuel - 1 - (first :: rest).length, by rw [List.length_cons]; omega⟩
    rw [List.length_cons] at hfuel
    obtain ⟨e, hate, hfile, hloop⟩ := @Haystack.At.loop_skip h before [] needle (first :: rest) 0
      (by rw [List.append_nil]; exact hat) hmiss (Or.inl (Nat.zero_le _)) (j + 1)
    -- `start_pos` is behind the first piece, and the stream at the end
    have hlen : (before ++ [first]).flatten.length = before.flatten.length + first.length := by
      rw [List.flatten_concat, List.length_append]
    have hend : e.pos = (before ++ [first]).flatten.length + rest.flatten.length := by
      rw [hate.pos, List.append_cons, List.flatten_append, List.length_append]
    rw [hloop, hate.loop_nil, show Haystack.startAfter 0 before (first :: rest) =
      (before ++ [first]).flatten.length from rfl]
    by_cases hrest : rest = []
    · subst hrest
      rw [List.flatten_nil, List.length_nil, Nat.add_zero] at hend
      rw [if_pos hend, search_last (not_hit.mp (hmiss first List.mem_cons_self))]
      have hst := stands_of_at hate
      refine ⟨e, rfl, ?_, hfile⟩
      simpa using hst
    · have hrestlen : rest.flatten.length ≠ 0 := by
        obtain ⟨second, tail, rfl⟩ := List.exists_cons_of_ne_nil hrest
        have hne := hat.pieces.ne_nil (by decide) second (by simp)
        have hpos := List.length_pos_iff.mpr hne
        rw [List.flatten_cons, List.length_append]
        omega
      rw [if_neg (by omega)]
      obtain ⟨h', hloop', hst, hfile'⟩ :=
        loop_behind hate.rewind hmiss hrest (show before.length + 1 ≤ j by omega)
      exact ⟨h', hloop', hst, hfile'.trans hfile⟩

/-- `get_match` from any piece of any file. -/
theorem getMatch_search (hst : Stands h pieces k) (needle : List Byte) :
    ∃ h', getMatch needle h = .ok ((search (hits needle) pieces k).1, h') ∧
      Stands h' pieces (search (hits needle) pieces k).2 ∧ h'.file = h.file := by
  obtain ⟨hk, hat⟩ := hst
  have hlen := hat.length_le
  have hklen : (pieces.take k).length = k := by
    rw [List.length_take]
    omega
  have hsplit : pieces.take k ++ pieces.drop k = pieces := List.take_append_drop k pieces
  cases hafter : pieces.drop k with
  | cons first rest =>
    rw [hafter] at hat hlen hsplit
    obtain ⟨h', hloop, hst, hfile⟩ := @loop_search needle h _ _ _ hat (h.file.length + 3) (by omega)
    rw [hsplit, hklen] at hloop hst
    exact ⟨h', hloop, hst, hfile⟩
  | nil =>
    rw [hafter, List.append_nil] at hsplit
    rw [hafter, List.append_nil] at hlen
    rw [hafter] at hat
    rw [getMatch, hat.loop_nil]
    rw [hsplit] at hat hlen hklen
    subst hklen
    cases hpieces : pieces with
    | nil =>
      subst hpieces
      rw [if_pos (show h.pos = 0 from hat.pos)]
      exact ⟨h, rfl, ⟨le_refl _, hat⟩, rfl⟩
    | cons first rest =>
      have hpos : h.pos ≠ 0 := by
        rw [hpieces] at hat
        have hfirst := hat.rewind.pos_piece
        rw [hat.pos, List.flatten_cons, List.length_append]
        omega
      rw [if_neg hpos, ← hpieces, search_end (by simp [hpieces])]
      have hrewind := hat.rewind
      rw [hpieces] at hrewind hlen ⊢
      obtain ⟨h', hloop, hst, hfile⟩ :=
        @loop_search needle _ _ _ _ hrewind (h.file.length + 2) (by
          rw [List.nil_append]
          omega)
      exact ⟨h', hloop, hst, hfile⟩

/-! ## The comparison -/

/-- A piece, as it is compared. -/
def shown (piece : List Byte) : List Byte := killReturn (cstr piece)

theorem length_shown_le (piece : List Byte) : (shown piece).length ≤ piece.length := by
  have hcstr : (cstr piece).length ≤ piece.length := (List.takeWhile_prefix _).length_le
  unfold shown killReturn
  split_ifs
  · rw [List.length_dropLast]
    omega
  · exact hcstr

theorem Pieces.length_lt {size : ℕ} (hsize : 2 ≤ size) {file : List Byte}
    (h : Pieces size pieces file) : ∀ piece ∈ pieces, piece.length < size := by
  induction pieces generalizing file with
  | nil => exact fun _ hmem => absurd hmem List.not_mem_nil
  | cons piece pieces ih =>
    intro p hp
    obtain rfl | hp := List.mem_cons.mp hp
    · obtain ⟨-, heq⟩ := fgets_eq_some h.1
      have hlen := length_takeLine_le (size - 1) file
      rw [heq] at hlen
      omega
    · exact ih h.2 p hp

theorem hits_eq {piece : List Byte} (hpiece : piece.length < lineLength) :
    hits needle piece = decide (shown piece = needle) := by
  rw [Bool.eq_iff_iff, decide_eq_true_iff]
  exact strncmp_short ((length_shown_le piece).trans_lt hpiece)

/-- The search in the pieces is one in what is compared. -/
theorem Stands.search_eq (hst : Stands h pieces k) (needle : List Byte) :
    search (hits needle) pieces k = search (fun y => y = needle) (pieces.map shown) k := by
  have hpieces := hst.at_.pieces
  rw [List.take_append_drop] at hpieces
  rw [search_map]
  exact search_congr fun piece hmem => hits_eq (Pieces.length_lt (by decide) hpieces piece hmem)

/-- The buffer holds the text, uncut. -/
def Uncut (d : BufferDesc) (text : List Byte) : Prop :=
  (∃ n, d.Good n text ∧ n ≤ 7) ∧ d.superseded = false

/-- Calls have left the buffer in this state. -/
def Left (d : BufferDesc) : Prop := ∃ n text, d.Good n text ∧ n ≤ 7

theorem Left.clear {d : BufferDesc} (hd : Left d) : Uncut d.clearBuffer [] := by
  obtain ⟨n, text, hgood, hn⟩ := hd
  exact ⟨⟨n, good_clearBuffer hgood, hn⟩, rfl⟩

theorem Uncut.left {d : BufferDesc} {text : List Byte} (hd : Uncut d text) : Left d := by
  obtain ⟨⟨n, hgood, hn⟩, -⟩ := hd
  exact ⟨n, text, hgood, hn⟩

theorem Uncut.text_eq {d : BufferDesc} {text : List Byte} (hd : Uncut d text) : d.text = text := by
  obtain ⟨⟨n, hgood, -⟩, -⟩ := hd
  exact hgood.rep.text_eq

/-- A line that leaves the text within 256k. -/
theorem Uncut.addLine {d : BufferDesc} {text : List Byte} (hd : Uncut d text)
    {evs : List Realloc} (hok : ∀ e ∈ evs, e.Ok) (line : CStr)
    (hshort : text.length + line.val.length ≤ sizeLimit) :
    ∃ d' evs', Audit.addLine d line.val evs = .ok (d', evs') ∧ (∀ e ∈ evs', e.Ok) ∧
      Uncut d' (text ++ line.val) := by
  obtain ⟨⟨n, hgood, hn⟩, hsup⟩ := hd
  have hlimit : sizeLimit ≤ 2 ^ 30 := by decide
  obtain ⟨d', evs', m, hadd, hok', hm⟩ := addLine_spec hok hgood hsup line (by omega)
  have hm7 : m ≤ 7 := hm.short_iff.mpr ⟨hn, hshort⟩
  exact ⟨d', evs', hadd, hok', ⟨m, hm.good_short hm7, hm7⟩, hm.not_superseded hm7⟩

theorem fileOf_cons (line : List Byte) (lines : List (List Byte)) (last : List Byte) :
    fileOf (line :: lines) last = line ++ ([10] ++ fileOf lines last) := by
  simp [fileOf]

/-- The comparison makes the report. -/
theorem compare_report (needles : List (List Byte)) (hneedles : ∀ t ∈ needles, (0 : Byte) ∉ t)
    (hst : Stands h pieces k) {evs : List Realloc} (hok : ∀ e ∈ evs, e.Ok) {d : BufferDesc}
    {text : List Byte} (hd : Uncut d text)
    (htotal : text.length + (needles.map fun t => t.length + 1).sum ≤ sizeLimit) :
    ∃ h' d' evs', needles.foldlM compareStep (h, d, evs) = .ok (h', d', evs') ∧
      (∀ e ∈ evs', e.Ok) ∧
      Uncut d' (text ++ fileOf (report (pieces.map shown) k needles) []) := by
  induction needles generalizing h k d text evs with
  | nil =>
    refine ⟨h, d, evs, rfl, hok, ?_⟩
    simpa [report, fileOf] using hd
  | cons needle needles ih =>
    rw [List.map_cons, List.sum_cons] at htotal
    obtain ⟨hneedle, hrest⟩ := List.forall_mem_cons.mp hneedles
    obtain ⟨h₁, hmatch, hst₁, -⟩ := getMatch_search hst needle
    rw [hst.search_eq] at hmatch hst₁
    rw [List.foldlM_cons, compareStep, hmatch, report]
    cases hfound : (search (fun y => y = needle) (pieces.map shown) k).1 with
    | true =>
      obtain ⟨h', d', evs', hfold, hok', hd'⟩ := ih hrest hst₁ hok hd (by omega)
      exact ⟨h', d', evs', hfold, hok', by simpa using hd'⟩
    | false =>
      obtain ⟨d₁, evs₁, hadd₁, hok₁, hd₁⟩ := hd.addLine hok ⟨needle, hneedle⟩ (by
        show text.length + needle.length ≤ sizeLimit
        omega)
      replace hd₁ : Uncut d₁ (text ++ needle) := hd₁
      obtain ⟨d₂, evs₂, hadd₂, hok₂, hd₂⟩ := hd₁.addLine hok₁ ⟨[10], by decide⟩ (by
        rw [List.length_append]
        show text.length + needle.length + 1 ≤ sizeLimit
        omega)
      replace hd₂ : Uncut d₂ (text ++ needle ++ [10]) := hd₂
      obtain ⟨h', d', evs', hfold, hok', hd'⟩ := ih hrest hst₁ hok₂ hd₂ (by
        simp only [List.length_append, List.length_singleton]
        omega)
      refine ⟨h', d', evs', ?_, hok', ?_⟩
      · rw [← hfold]
        show ((Audit.addLine d needle evs >>= _) >>= _) = _
        rw [hadd₁]
        show ((Audit.addLine d₁ [10] evs₁ >>= _) >>= _) = _
        rw [hadd₂]
        rfl
      · simpa [fileOf_cons] using hd'

/-! ## A call of `db_diff` -/

/-- What `db_diff` and `get_passwordless` return when the program fails. -/
def programFailure (p : Program) : Option (List Byte) :=
  if p.exec = false then some (chars "<error>1\nFailed to execute command")
  else if p.fdopen = false then some (chars "<error>2\nFailed to open pipe as stream")
  else if p.exited = false then some (chars "<error>1\nFailed to execute command")
  else none

/-- What `db_diff` returns when something fails. -/
def failure (p : Program) : Option (List Byte) :=
  (programFailure p).or
    (if p.readable = false then some (chars "<error>4\nFailed opening db file for reading")
    else if p.writable = false then some (chars "<error>5\nFailed opening db file for writing")
    else none)

/-- A program that prints lines, and what becomes of its run. -/
structure Listing where
  program : Program
  lines : List (List Byte)
  last : List Byte
  isOutput : IsOutput lines last
  output : program.output = fileOf lines last
  short : (fileOf lines last).length < sizeLimit

/-- What is kept of the lines has no `%`. -/
structure PlainListing extends Listing where
  plain : (37 : Byte) ∉ kept lines last

/-- What the file is compared as, when these lines are in it. -/
def rowsOf (lines : List (List Byte)) (last : List Byte) : List (List Byte) :=
  lines ++ if last = [] then [] else [last]

namespace PlainListing

/-- What is kept of the output. -/
def rows (x : PlainListing) : List (List Byte) :=
  rowsOf (x.lines.filter keepLine) (if keepLine x.last then x.last else [])

/-- The lines that are looked for. -/
def news (x : PlainListing) : List (List Byte) := x.rows.filter (· ≠ [])

end PlainListing

theorem shown_linesOf {lines : List (List Byte)} {last : List Byte} (h : IsOutput lines last) :
    (linesOf lines last).map shown = rowsOf lines last := by
  have hlines : (lines.map (· ++ [10])).map shown = lines := by
    rw [List.map_map]
    conv_rhs => rw [← List.map_id lines]
    exact List.map_congr_left fun line hline => killReturn_line (h.isLine line hline).noNul
  have hlast : shown last = last := by
    rw [shown, cstr_noNul h.isLast.noNul, killReturn, if_neg]
    exact fun heq => h.isLast.noNewline (List.mem_of_getLast? heq)
  rw [linesOf, rowsOf, List.map_append, hlines]
  split_ifs
  · rfl
  · rw [List.map_singleton, hlast]

theorem filter_rowsOf (lines : List (List Byte)) (last : List Byte) :
    (rowsOf lines last).filter (· ≠ []) = (lines ++ [last]).filter (· ≠ []) := by
  rw [rowsOf, List.filter_append, List.filter_append]
  congr 1
  split_ifs with hnil
  · simp [hnil]
  · rfl

theorem tokens_kept (x : PlainListing) : tokens 10 (kept x.lines x.last) = x.news := by
  have hkept := x.isOutput.kept
  have htokens := @tokens_fileOf (x.lines.filter keepLine) (if keepLine x.last then x.last else [])
    (fun line hline => by
      rcases List.mem_append.mp hline with hline | hline
      · exact (hkept.isLine line hline).noNewline
      · rw [List.mem_singleton.mp hline]
        exact hkept.isLast.noNewline)
  rw [kept, htokens, PlainListing.news, PlainListing.rows, filter_rowsOf]

/-- The buffers are in order, and the file is compared as these rows. -/
structure Knows (s : State) (rows : List (List Byte)) : Prop where
  buf : Left s.buf
  buf2 : Left s.buf2
  reallocs : ∀ e ∈ s.reallocs, e.Ok
  rows : ∃ pieces, Pieces lineLength pieces s.db ∧ pieces.map shown = rows

variable {s : State} {rows : List (List Byte)}

/-- `db_diff` returns the report, or what has failed; only with a report does the file change. -/
theorem dbDiff_spec (h : Knows s rows) (x : PlainListing) :
    ∃ s', dbDiff s x.program =
        .ok ((failure x.program).getD (fileOf (report rows 0 x.news) []), s') ∧
      Knows s' (if failure x.program = none then x.rows else rows) := by
  obtain ⟨n, text, hgood, hn⟩ := h.buf2
  obtain ⟨buf2, evs₁, m, hgrab, hok₁, hgood₂, hm⟩ :=
    grab_output x.isOutput hgood hn h.reallocs
  rw [← x.output] at hgrab
  obtain ⟨pieces, hpieces, hrows⟩ := h.rows
  have hno : ∀ t ∈ tokens 10 (kept x.lines x.last), (0 : Byte) ∉ t :=
    fun t ht h0 => hgood₂.rep.noNul ((mem_tokens ht).2 0 h0)
  have hsum := sum_tokens_le 10 (kept x.lines x.last)
  have hshort : (kept x.lines x.last).length ≤ (fileOf x.lines x.last).length := by
    have hlines : ((x.lines.filter keepLine).flatMap fun line => line ++ [10]).length ≤
        (x.lines.flatMap fun line => line ++ [10]).length :=
      (List.filter_sublist.flatMap fun line => line ++ [10]).length_le
    have hlast : (if keepLine x.last then x.last else []).length ≤ x.last.length := by
      split
      · exact le_refl _
      · exact Nat.zero_le _
    simp only [kept, fileOf, List.length_append]
    omega
  have hlimit := x.short
  obtain ⟨hay, buf, evs₂, hfold, hok₂, hbuf⟩ :=
    compare_report _ hno (stands_of_at (opened_at hpieces s.below)) hok₁ h.buf.clear (by
      rw [List.length_nil]
      omega)
  rw [List.nil_append, List.nil_append, hrows, tokens_kept, List.length_nil] at hbuf
  have hcompare : compareLoop (buf2.text.length + 1) buf2.text
      (opened s.db s.below, s.buf.clearBuffer, evs₁) = .ok (hay, buf, evs₂) := by
    rw [hgood₂.rep.text_eq,
      compareLoop_eq (Nat.lt_succ_of_le (length_tokens_le 10 (kept x.lines x.last))), hfold]
  have hprint : fprintf buf2.text = some (kept x.lines x.last) := by
    rw [hgood₂.rep.text_eq, fprintf_plain x.plain]
  have hleft : ∀ {d : BufferDesc}, Left d → Left d.clearBuffer := fun hd => hd.clear.left
  have hleft₂ : Left buf2 := ⟨m, _, hgood₂, hm⟩
  have hkept : ∃ pieces, Pieces lineLength pieces (kept x.lines x.last) ∧
      pieces.map shown = x.rows :=
    ⟨_, x.isOutput.kept.pieces, shown_linesOf x.isOutput.kept⟩
  unfold dbDiff failure programFailure
  simp only [hgrab]
  cases x.program.exec with
  | false => exact ⟨_, rfl, hleft h.buf, hleft h.buf2, h.reallocs, h.rows⟩
  | true =>
    cases x.program.fdopen with
    | false => exact ⟨_, rfl, hleft h.buf, hleft h.buf2, h.reallocs, h.rows⟩
    | true =>
      cases x.program.exited with
      | false => exact ⟨_, rfl, hleft h.buf, hleft₂, hok₁, h.rows⟩
      | true =>
        cases x.program.readable with
        | false => exact ⟨_, rfl, hleft h.buf, hleft₂, hok₁, h.rows⟩
        | true =>
          simp only [Bool.true_eq_false, if_false, ok_bind, hcompare, hprint, hbuf.text_eq]
          cases x.program.writable with
          | false => exact ⟨_, rfl, hbuf.left, hleft₂, hok₂, h.rows⟩
          | true => exact ⟨_, rfl, hbuf.left, hleft₂, hok₂, hkept⟩

/-! ## Calls -/

/-- The two files. -/
inductive Db where
  | xuids
  | dotfiles
  deriving DecidableEq, Repr

/-- The suvlet: its buffers, the outcomes of `realloc`, the byte in front of the buffer of
    `get_match`, and the files. -/
structure Auditor where
  buf : BufferDesc
  buf2 : BufferDesc
  reallocs : List Realloc
  below : Byte
  db : Db → List Byte

namespace Auditor

/-- What a call of `db_diff` sees. -/
def state (a : Auditor) (which : Db) : State := ⟨a.buf, a.buf2, a.reallocs, a.below, a.db which⟩

/-- The suvlet after a call of `db_diff`. -/
def put (a : Auditor) (which : Db) (s : State) : Auditor :=
  ⟨s.buf, s.buf2, s.reallocs, s.below, Function.update a.db which s.db⟩

/-- `db_diff` on one of the files. -/
def diff (which : Db) (a : Auditor) (p : Program) : Except Halt (List Byte × Auditor) :=
  (fun r => (r.1, a.put which r.2)) <$> dbDiff (a.state which) p

/-- `SecurityAudit_get_new_xuids` (lines 206–209). -/
def getNewXuids (a : Auditor) (p : Program) : Except Halt (List Byte × Auditor) := diff .xuids a p

/-- `SecurityAudit_get_new_dot_files` (lines 212–215). -/
def getNewDotFiles (a : Auditor) (p : Program) : Except Halt (List Byte × Auditor) :=
  diff .dotfiles a p

/-- The loop that collects the output of `passwordless` (lines 241–243). -/
def passwordlessLoop : ℕ → List Byte → BufferDesc × List Realloc →
    Except Halt (BufferDesc × List Realloc)
  | 0, _, _ => .error .starved
  | fuel + 1, rest, s =>
    match fgets lineLength rest with
    | none => .ok s
    | some piece => do
      let s ← addLine s.1 (cstr piece) s.2
      passwordlessLoop fuel (rest.drop piece.length) s

/-- `SecurityAudit_get_passwordless` (lines 218–251). -/
def getPasswordless (a : Auditor) (p : Program) : Except Halt (List Byte × Auditor) :=
  let a := { a with buf := a.buf.clearBuffer }
  if p.exec = false then .ok (chars "<error>1\nFailed to execute command", a)
  else if p.fdopen = false then .ok (chars "<error>2\nFailed to open pipe as stream", a)
  else do
    let (buf, reallocs) ← passwordlessLoop (p.output.length + 1) p.output (a.buf, a.reallocs)
    let a := { a with buf := buf, reallocs := reallocs }
    if p.exited = false then .ok (chars "<error>1\nFailed to execute command", a)
    else .ok (a.buf.text, a)

end Auditor

/-- A call, with the program that it runs. -/
inductive Call where
  | getNew (which : Db) (x : PlainListing)
  | getPasswordless (x : Listing)

/-- A call is served. -/
def serve (a : Auditor) : Call → Except Halt (List Byte × Auditor)
  | .getNew .xuids x => a.getNewXuids x.program
  | .getNew .dotfiles x => a.getNewDotFiles x.program
  | .getPasswordless x => a.getPasswordless x.program

/-- A call is served with this reply. -/
def Serves (a : Auditor) (c : Call) (reply : List Byte) (a' : Auditor) : Prop :=
  serve a c = .ok (reply, a')

/-- What the calls are for: `known` are the lines of the last audits. -/
def audit (known : Db → List (List Byte)) : Call → List Byte × (Db → List (List Byte))
  | .getNew which x =>
    ((failure x.program).getD (fileOf (report (known which) 0 x.news) []),
      if failure x.program = none then Function.update known which x.rows else known)
  | .getPasswordless x => ((programFailure x.program).getD (fileOf x.lines x.last), known)

/-- The buffers are in order, and the files are compared as these rows. -/
def Keeps (a : Auditor) (known : Db → List (List Byte)) : Prop :=
  ∀ which, Knows (a.state which) (known which)

variable {a a' : Auditor} {known : Db → List (List Byte)}

/-- The output is collected as it is. -/
theorem passwordlessLoop_spec {rest : List Byte} (hpieces : Pieces lineLength pieces rest)
    (hno : (0 : Byte) ∉ rest) {fuel : ℕ} (hfuel : pieces.length < fuel) {d : BufferDesc}
    {text : List Byte} {evs : List Realloc} (hok : ∀ e ∈ evs, e.Ok) (hd : Uncut d text)
    (htotal : text.length + rest.length ≤ sizeLimit) :
    ∃ d' evs', Auditor.passwordlessLoop fuel rest (d, evs) = .ok (d', evs') ∧
      (∀ e ∈ evs', e.Ok) ∧ Uncut d' (text ++ rest) := by
  induction pieces generalizing rest fuel d text evs with
  | nil =>
    obtain ⟨k, rfl⟩ := Nat.exists_eq_add_one_of_ne_zero (Nat.ne_zero_of_lt hfuel)
    obtain rfl : rest = [] := hpieces
    refine ⟨d, evs, ?_, hok, by simpa using hd⟩
    rw [Auditor.passwordlessLoop, fgets, if_pos rfl]
  | cons piece pieces ih =>
    rw [List.length_cons] at hfuel
    obtain ⟨k, rfl⟩ := Nat.exists_eq_add_one_of_ne_zero (Nat.ne_zero_of_lt hfuel)
    obtain ⟨hfgets, hrest⟩ := hpieces
    have hsplit := fgets_append hfgets
    have hlen : rest.length = piece.length + (rest.drop piece.length).length := by
      rw [← List.length_append, hsplit]
    rw [← hsplit, List.mem_append, not_or] at hno
    obtain ⟨hpiece, hdrop⟩ := hno
    obtain ⟨d₁, evs₁, hadd, hok₁, hd₁⟩ := hd.addLine hok ⟨piece, hpiece⟩ (by
      show text.length + piece.length ≤ sizeLimit
      omega)
    obtain ⟨d', evs', hloop, hok', hd'⟩ :=
      ih hrest hdrop (show pieces.length < k by omega) hok₁ hd₁ (by
      rw [List.length_append]
      show text.length + piece.length + (rest.drop piece.length).length ≤ sizeLimit
      omega)
    refine ⟨d', evs', ?_, hok', ?_⟩
    · rw [Auditor.passwordlessLoop, hfgets]
      simp only [cstr_noNul hpiece, hadd, ok_bind]
      exact hloop
    · rw [List.append_assoc] at hd'
      exact hsplit ▸ hd'

theorem diff_spec (h : Keeps a known) (which : Db) (x : PlainListing) :
    ∃ a', Auditor.diff which a x.program = .ok ((audit known (.getNew which x)).1, a') ∧
      Keeps a' (audit known (.getNew which x)).2 := by
  obtain ⟨s', hrun, hs'⟩ := dbDiff_spec (h which) x
  refine ⟨a.put which s', by rw [Auditor.diff, hrun]; rfl, fun other => ?_⟩
  by_cases hother : other = which
  · subst hother
    have hdb : (a.put other s').state other = s' := by
      simp [Auditor.put, Auditor.state]
    rw [hdb, audit]
    convert hs' using 1
    split_ifs
    · exact Function.update_self ..
    · rfl
  · have hdb : ((a.put which s').state other).db = a.db other := Function.update_of_ne hother ..
    have hknown : (audit known (.getNew which x)).2 other = known other := by
      rw [audit]
      simp only
      split_ifs
      · exact Function.update_of_ne hother ..
      · rfl
    rw [hknown]
    refine ⟨hs'.buf, hs'.buf2, hs'.reallocs, ?_⟩
    rw [hdb]
    exact (h other).rows

theorem getPasswordless_spec (h : Keeps a known) (x : Listing) :
    ∃ a', a.getPasswordless x.program = .ok ((audit known (.getPasswordless x)).1, a') ∧
      Keeps a' known := by
  have hfirst := h .xuids
  have hlen := x.isOutput.pieces.length_le (by decide)
  have hlimit := x.short
  obtain ⟨buf, evs, hloop, hok, hbuf⟩ :=
    passwordlessLoop_spec x.isOutput.pieces x.isOutput.noNul (Nat.lt_succ_of_le hlen)
      hfirst.reallocs hfirst.buf.clear (by
        rw [List.length_nil]
        omega)
  rw [List.nil_append] at hbuf
  rw [← x.output] at hloop
  have hkeeps : ∀ {d : BufferDesc} {evs : List Realloc}, Left d → (∀ e ∈ evs, e.Ok) →
      Keeps { a with buf := d, reallocs := evs } known :=
    fun hd hok which => ⟨hd, (h which).buf2, hok, (h which).rows⟩
  have hcleared : Keeps { a with buf := a.buf.clearBuffer } known :=
    hkeeps hfirst.buf.clear.left hfirst.reallocs
  replace hloop : Auditor.passwordlessLoop (x.program.output.length + 1) x.program.output
    (a.buf.clearBuffer, a.reallocs) = .ok (buf, evs) := hloop
  cases hexec : x.program.exec with
  | false =>
    refine ⟨_, ?_, hcleared⟩
    simp [Auditor.getPasswordless, audit, programFailure, hexec]
  | true =>
    cases hfdopen : x.program.fdopen with
    | false =>
      refine ⟨_, ?_, hcleared⟩
      simp [Auditor.getPasswordless, audit, programFailure, hexec, hfdopen]
    | true =>
      refine ⟨_, ?_, hkeeps hbuf.left hok⟩
      cases hexited : x.program.exited <;>
        simp [Auditor.getPasswordless, audit, programFailure, hexec, hfdopen, hexited, hloop,
          hbuf.text_eq]

/-- Every call does what it is for. -/
theorem serve_spec (h : Keeps a known) (c : Call) :
    ∃ a', Serves a c (audit known c).1 a' ∧ Keeps a' (audit known c).2 := by
  cases c with
  | getNew which x =>
    cases which with
    | xuids => exact diff_spec h .xuids x
    | dotfiles => exact diff_spec h .dotfiles x
  | getPasswordless x => exact getPasswordless_spec h x

/-! ## Sessions -/

/-- The replies to any calls, and the lines of the last audits then. -/
def audits : (Db → List (List Byte)) → List Call → List (List Byte) × (Db → List (List Byte))
  | known, [] => ([], known)
  | known, c :: cs =>
    let rest := audits (audit known c).2 cs
    ((audit known c).1 :: rest.1, rest.2)

/-- The lines of the last audit that has succeeded. -/
def lastKnown (which : Db) : List (List Byte) → List Call → List (List Byte)
  | rows, [] => rows
  | rows, .getNew w x :: cs =>
    lastKnown which (if w = which ∧ failure x.program = none then x.rows else rows) cs
  | rows, .getPasswordless _ :: cs => lastKnown which rows cs

theorem specRun_audit (known : Db → List (List Byte)) (cs : List Call) :
    specRun (fun known c => some (audit known c)) known cs = some (audits known cs) := by
  induction cs generalizing known with
  | nil => rfl
  | cons c cs ih => rw [specRun, Option.bind_some, ih, Option.map_some, audits]

theorem audits_append (known : Db → List (List Byte)) (cs cs' : List Call) :
    audits known (cs ++ cs') = ((audits known cs).1 ++ (audits (audits known cs).2 cs').1,
      (audits (audits known cs).2 cs').2) := by
  induction cs generalizing known with
  | nil => rfl
  | cons c cs ih => simp only [List.cons_append, audits, ih]

theorem length_audits (known : Db → List (List Byte)) (cs : List Call) :
    (audits known cs).1.length = cs.length := by
  induction cs generalizing known with
  | nil => rfl
  | cons c cs ih => rw [audits, List.length_cons, List.length_cons, ih]

theorem audits_known (known : Db → List (List Byte)) (cs : List Call) (which : Db) :
    (audits known cs).2 which = lastKnown which (known which) cs := by
  induction cs generalizing known with
  | nil => rfl
  | cons c cs ih =>
    rw [audits, ih]
    cases c with
    | getPasswordless x => rfl
    | getNew w x =>
      rw [lastKnown, audit]
      congr 1
      by_cases hfail : failure x.program = none
      · by_cases hw : w = which
        · subst hw
          simp [hfail]
        · simp [hfail, hw, Function.update_of_ne (Ne.symm hw)]
      · simp [hfail]

theorem serves_simulates :
    Simulates Serves (fun known c => some (audit known c)) Keeps := by
  intro a known c reply known' h hspec
  obtain ⟨rfl, rfl⟩ := Prod.mk.inj (Option.some.inj hspec)
  exact serve_spec h c

theorem serves_deterministic : Deterministic Serves := by
  intro a c reply reply' a' a'' h h'
  exact Prod.mk.inj (Except.ok.inj (h.symm.trans h'))

theorem runs_exist (h : Keeps a known) (cs : List Call) :
    ∃ replies a', Runs Serves a cs replies a' := by
  obtain ⟨a', hrun, -⟩ := serves_simulates.runs h (specRun_audit known cs)
  exact ⟨_, a', hrun⟩

theorem runs_eq (h : Keeps a known) {cs : List Call} {replies : List (List Byte)}
    (hrun : Runs Serves a cs replies a') :
    replies = (audits known cs).1 ∧ Keeps a' (audits known cs).2 :=
  serves_simulates.of_runs serves_deterministic h (specRun_audit known cs) hrun

/-- Any calls in any order, of which any may fail: all return, with the replies of `audits`, and the
    files are compared afterwards as the lines of the last audits. -/
theorem audits_refine (h : Keeps a known) (cs : List Call) :
    (∃ replies a', Runs Serves a cs replies a') ∧
      ∀ replies a', Runs Serves a cs replies a' →
        replies = (audits known cs).1 ∧
          Keeps a' fun which => lastKnown which (known which) cs := by
  refine ⟨runs_exist h cs, fun replies a' hrun => ?_⟩
  obtain ⟨rfl, hkeeps⟩ := runs_eq h hrun
  refine ⟨rfl, fun which => ?_⟩
  show Knows (a'.state which) (lastKnown which (known which) cs)
  rw [← audits_known]
  exact hkeeps which

theorem isLine_letter {c : Byte} (hnewline : c ≠ 10) (hnul : c ≠ 0) : IsLine [c] := by
  refine ⟨by simpa using hnewline.symm, by simpa using hnul.symm, ?_⟩
  show 1 < 4095
  omega

theorem isOutput_a : IsOutput [chars "a"] [] :=
  isOutput_singleton (isLine_letter (by decide) (by decide))

theorem isOutput_ba : IsOutput [chars "b", chars "a"] [] := by
  refine ⟨fun line hline => ?_, isLine_nil, by decide⟩
  rcases List.mem_cons.mp hline with rfl | hline
  · exact isLine_letter (by decide) (by decide)
  · exact List.mem_singleton.mp hline ▸ isLine_letter (by decide) (by decide)

theorem plain_a : (37 : Byte) ∉ kept [chars "a"] [] := by decide

theorem plain_ba : (37 : Byte) ∉ kept [chars "b", chars "a"] [] := by decide

theorem short_a : (fileOf [chars "a"] []).length < sizeLimit := by decide

theorem short_ba : (fileOf [chars "b", chars "a"] []).length < sizeLimit := by decide

/-- A run that prints `a`. -/
def listingA : PlainListing :=
  ⟨⟨printing (fileOf [chars "a"] []), _, _, isOutput_a, rfl, short_a⟩, plain_a⟩

/-- One that prints `b` and `a`. -/
def listingBA : PlainListing :=
  ⟨⟨printing (fileOf [chars "b", chars "a"] []), _, _, isOutput_ba, rfl, short_ba⟩, plain_ba⟩

/-- One that would print `b` and `a`, but is not started. -/
def notStarted : PlainListing :=
  ⟨⟨{ printing (fileOf [chars "b", chars "a"] []) with exec := false }, _, _, isOutput_ba, rfl,
    short_ba⟩, plain_ba⟩

/-- Buffers as a call leaves them, and empty files. -/
theorem keeps_empty {d : BufferDesc} (hd : Usable d) :
    Keeps ⟨d, d, [], 0, fun _ => []⟩ fun _ => [] := by
  obtain ⟨n, text, hgood, hn⟩ := hd.good
  exact fun which => ⟨⟨n, text, hgood, hn⟩, ⟨n, text, hgood, hn⟩, by simp [Auditor.state],
    [], rfl, rfl⟩

/-- The calls of the examples: the second one fails. -/
def threeCalls : List Call :=
  [.getNew .xuids listingA, .getNew .xuids notStarted, .getNew .xuids listingBA]

theorem audits_refine_three : ∃ d, Usable d ∧ ∀ replies a',
    Runs Serves ⟨d, d, [], 0, fun _ => []⟩ threeCalls replies a' →
      replies = [chars "a\n", chars "<error>1\nFailed to execute command", chars "b\n"] := by
  obtain ⟨d, hd⟩ := constructor_usable
  refine ⟨d, hd, fun replies a' hrun => ?_⟩
  rw [((audits_refine (keeps_empty hd) threeCalls).2 replies a' hrun).1]
  decide

theorem failure_eq_none {p : Program} (hp : p.Succeeds) : failure p = none := by
  obtain ⟨hexec, hfdopen, hexited, hreadable, hwritable⟩ := hp
  simp [failure, programFailure, hexec, hfdopen, hexited, hreadable, hwritable]

/-- The reply to a call among others. -/
theorem reply_eq (h : Keeps a known) {before after : List Call} {c : Call}
    {replies : List (List Byte)} (hrun : Runs Serves a (before ++ c :: after) replies a') :
    replies[before.length]? = some (audit (audits known before).2 c).1 := by
  obtain ⟨rfl, -⟩ := runs_eq h hrun
  rw [audits_append, List.getElem?_append_right (length_audits known before).le, length_audits,
    Nat.sub_self, audits, List.getElem?_cons_zero]

theorem reply_report (h : Keeps a known) {before after : List Call} {which : Db}
    {x : PlainListing} (hx : x.program.Succeeds) {replies : List (List Byte)}
    (hrun : Runs Serves a (before ++ .getNew which x :: after) replies a') :
    replies[before.length]? =
      some (fileOf (report (lastKnown which (known which) before) 0 x.news) []) := by
  rw [reply_eq h hrun, audit, failure_eq_none hx, Option.getD_none, audits_known]

/-- No line gets lost: an audit that succeeds reports every line that the last one that has
    succeeded has not seen, whatever has failed between them and whatever else has been called. It
    reports nothing but lines of its own, in their order; and one that has been seen only if the
    search for it begins at the last line of the file. -/
theorem new_reported (h : Keeps a known) {before after : List Call} {which : Db}
    {x : PlainListing} (hx : x.program.Succeeds) {replies : List (List Byte)}
    (hrun : Runs Serves a (before ++ .getNew which x :: after) replies a') :
    ∃ reported, replies[before.length]? = some (fileOf reported []) ∧
      reported.Sublist x.news ∧
      (∀ line ∈ x.news, line ∉ lastKnown which (known which) before → line ∈ reported) ∧
      ∀ line ∈ reported, line ∈ lastKnown which (known which) before →
        ∃ sought rest, x.news = sought ++ line :: rest ∧
          searchEnd (lastKnown which (known which) before) 0 sought + 1 =
            (lastKnown which (known which) before).length := by
  refine ⟨_, reply_report h hx hrun, report_sublist _ 0 x.news, fun line hline hnew => ?_,
    fun line hline hseen => ?_⟩
  · obtain ⟨sought, rest, hnews⟩ := List.append_of_mem hline
    exact (mem_report_iff (Nat.zero_le _)).mpr ⟨sought, rest, hnews, Or.inl hnew⟩
  · obtain ⟨sought, rest, hnews, hnew | ⟨hlast, -⟩⟩ := (mem_report_iff (Nat.zero_le _)).mp hline
    · exact absurd hseen hnew
    · exact ⟨sought, rest, hnews, hlast⟩

/-- `b` is reported by the first audit that succeeds behind it. -/
theorem new_reported_three : ∃ d replies a' reported,
    Runs Serves ⟨d, d, [], 0, fun _ => []⟩ threeCalls replies a' ∧
      replies[2]? = some (fileOf reported []) ∧ chars "b" ∈ reported := by
  obtain ⟨d, hd⟩ := constructor_usable
  obtain ⟨replies, a', hrun⟩ := runs_exist (keeps_empty hd) threeCalls
  obtain ⟨reported, hreply, -, hnew, -⟩ := @new_reported _ a' _ (keeps_empty hd)
    [.getNew .xuids listingA, .getNew .xuids notStarted] [] .xuids listingBA
    (succeeds_printing _) replies hrun
  exact ⟨d, replies, a', reported, hrun, hreply, hnew _ (by decide) (by decide)⟩

/-- When lines have gone since the last audit, and the others have kept their order, the reply is
    empty. -/
theorem removed_silent (h : Keeps a known) {before after : List Call} {which : Db}
    {x : PlainListing} (hx : x.program.Succeeds)
    (hsub : x.news.Sublist (lastKnown which (known which) before)) {replies : List (List Byte)}
    (hrun : Runs Serves a (before ++ .getNew which x :: after) replies a') :
    replies[before.length]? = some [] := by
  rw [reply_report h hx hrun, report_eq_nil hsub]
  rfl

/-- `b` goes. -/
theorem removed_silent_two : ∃ d replies a',
    Runs Serves ⟨d, d, [], 0, fun _ => []⟩ [.getNew .xuids listingBA, .getNew .xuids listingA]
      replies a' ∧ replies[1]? = some [] := by
  obtain ⟨d, hd⟩ := constructor_usable
  obtain ⟨replies, a', hrun⟩ := runs_exist (keeps_empty hd)
    [.getNew .xuids listingBA, .getNew .xuids listingA]
  have hsub : listingA.news.Sublist
      (lastKnown .xuids [] [.getNew .xuids listingBA]) := by
    show [chars "a"].Sublist [chars "b", chars "a"]
    exact (List.Sublist.refl _).cons _
  exact ⟨d, replies, a', hrun, @removed_silent _ a' _ (keeps_empty hd) [.getNew .xuids listingBA] []
    .xuids listingA (succeeds_printing _) hsub replies hrun⟩

end CompatSuva.Audit.History
