import CompatSuva.Common.Block
import CompatSuva.Common.Outcome
import CompatSuva.Common.Tokens
import CompatSuva.Scl.Types

/-!
# Splitting a command line

Model of `arg_array` and `array_push` (`sutil.c` lines 275–319 and 400–414). Two cursors run over a
copy of the string: `arg_start` at the start of an argument, `arg_end` looking for its end. The
memory of the copy and of the array is there; a read behind the copy is undefined.

* `argLoop_eq`: the loop, in terms of the string;
* `argArray_returns_iff`: when it does not read beyond the string;
* `argArray_quoted_iff`: when it gives back arguments that were quoted.
-/

namespace CompatSuva.Sutil

open CompatSuva.Common CompatSuva.Scl

/-! ## Model -/

/-- A read behind a block, and a write; `running` is a loop of the model that has gone round too
    often. -/
inductive Fault where
  | outside
  | overflow
  | running
  deriving DecidableEq, Repr

/-- `array_push`, on the strings of the array up to its NULL. -/
def arrayPush (array : List (List Byte)) (string : List Byte) : List (List Byte) :=
  array ++ [string]

/-- The variables of `arg_array`; `tmp` is what `arg_tmp` points to, the cursors are indices. -/
structure ArgState where
  tmp : List Byte
  argStart : ℕ
  argEnd : ℕ
  q : Bool
  array : List (List Byte)

/-- The loop (lines 282–314). -/
def argLoop : ℕ → ArgState → Except Fault (List (List Byte))
  | 0, _ => .error .running
  | fuel + 1, s => do
    let c ← byteAt .outside s.tmp s.argStart
    if c = 0 then return s.array
    else if c = 32 then
      argLoop fuel { s with argStart := s.argStart + 1, argEnd := s.argStart + 1 }
    else if c = 34 then
      argLoop fuel { s with q := true, argStart := s.argStart + 1, argEnd := s.argStart + 1 }
    else
      let e ← byteAt .outside s.tmp s.argEnd
      if ((e = 32 ∨ e = 0) ∧ s.q = false) ∨ (e = 34 ∧ s.q = true) then
        if e = 0 then
          let arg ← stringAt .outside s.tmp s.argStart
          return arrayPush s.array arg
        else
          let tmp := s.tmp.set s.argEnd 0
          let arg ← stringAt .outside tmp s.argStart
          argLoop fuel ⟨tmp, s.argEnd + 1, s.argEnd + 1, false, arrayPush s.array arg⟩
      else argLoop fuel { s with argEnd := s.argEnd + 1 }

/-- `arg_array`. Each round moves a cursor, and no byte is passed by both without one being read
    behind the other: two rounds more than the string has bytes are enough. -/
def argArray (array : List (List Byte)) (arg : CStr) : Except Fault (List (List Byte)) :=
  argLoop (arg.val.length + 2) ⟨arg.val ++ [0], 0, 0, false, array⟩

/-! ## In terms of the string -/

/-- What the cursors are at: between arguments, or in one that starts with these bytes. -/
inductive Place where
  | between
  | inside (arg : List Byte)

/-- The arguments in the rest of a string; `none` where a quoted one has no end. -/
def args : Bool → Place → List Byte → Option (List (List Byte))
  | _, .between, [] => some []
  | q, .between, c :: rest =>
    if c = 32 then args q .between rest
    else if c = 34 then args true .between rest
    else args q (.inside [c]) rest
  | q, .inside arg, [] => if q then none else some [arg]
  | q, .inside arg, c :: rest =>
    if (c = 32 ∧ q = false) ∨ (c = 34 ∧ q = true) then (arg :: ·) <$> args false .between rest
    else args q (.inside (arg ++ [c])) rest

/-- The bytes passed by `arg_end` alone. -/
def Place.text : Place → List Byte
  | .between => []
  | .inside arg => arg

/-- An argument starts with a byte that is not skipped. -/
def Place.Starts : Place → Prop
  | .between => True
  | .inside arg => ∃ c w, arg = c :: w ∧ c ≠ 0 ∧ c ≠ 32 ∧ c ≠ 34 ∧ (0 : Byte) ∉ w

/-- The variables when the cursors are at a place: `before` is what both have passed. -/
def cursors (before : List Byte) (place : Place) (rest : List Byte) (q : Bool)
    (array : List (List Byte)) : ArgState :=
  ⟨before ++ (place.text ++ (rest ++ [0])), before.length, before.length + place.text.length, q,
    array⟩

theorem cursors_pass (before : List Byte) (c : Byte) (rest : List Byte) (q : Bool)
    (array : List (List Byte)) :
    (⟨before ++ (c :: (rest ++ [0])), before.length + 1, before.length + 1, q, array⟩ : ArgState) =
      cursors (before ++ [c]) .between rest q array := by
  simp [cursors, Place.text]

theorem cursors_close (before arg rest : List Byte) (c : Byte) (array : List (List Byte)) :
    (⟨before ++ (arg ++ c :: (rest ++ [0])), before.length + arg.length + 1,
        before.length + arg.length + 1, false, array⟩ : ArgState) =
      cursors (before ++ arg ++ [c]) .between rest false array := by
  simp [cursors, Place.text, Nat.add_assoc]

theorem cursors_next (before arg rest : List Byte) (c : Byte) (q : Bool)
    (array : List (List Byte)) :
    (⟨before ++ (arg ++ c :: (rest ++ [0])), before.length, before.length + arg.length + 1, q,
        array⟩ : ArgState) = cursors before (.inside (arg ++ [c])) rest q array := by
  simp [cursors, Place.text, Nat.add_assoc]

/-- Between arguments, one byte on. -/
theorem argLoop_between (fuel : ℕ) (before : List Byte) {c : Byte} (hc : c ≠ 0) (rest : List Byte)
    (q : Bool) (array : List (List Byte)) :
    argLoop (fuel + 1) (cursors before .between (c :: rest) q array) =
      if c = 32 then argLoop fuel (cursors (before ++ [c]) .between rest q array)
      else if c = 34 then argLoop fuel (cursors (before ++ [c]) .between rest true array)
      else argLoop fuel (cursors before (.inside [c]) rest q array) := by
  have hbyte : byteAt Fault.outside (before ++ c :: (rest ++ [0])) before.length = .ok c :=
    byteAt_append _ _ _ _ rfl
  show argLoop (fuel + 1) ⟨before ++ c :: (rest ++ [0]), before.length, before.length, q, array⟩ = _
  rw [argLoop, hbyte, ok_bind, if_neg hc]
  by_cases hspace : c = 32
  · rw [if_pos hspace, if_pos hspace, ← cursors_pass]
  · rw [if_neg hspace, if_neg hspace]
    by_cases hquote : c = 34
    · rw [if_pos hquote, if_pos hquote, ← cursors_pass]
    · rw [if_neg hquote, if_neg hquote, ok_bind, if_neg (by simp [hc, hspace, hquote])]
      exact congrArg _ (cursors_next before [] rest c q array)

/-- In an argument, one byte on. -/
theorem argLoop_inside (fuel : ℕ) (before : List Byte) {c : Byte} (hc : c ≠ 0) {arg : List Byte}
    (harg : Place.Starts (.inside arg)) (rest : List Byte) (q : Bool) (array : List (List Byte)) :
    argLoop (fuel + 1) (cursors before (.inside arg) (c :: rest) q array) =
      if (c = 32 ∧ q = false) ∨ (c = 34 ∧ q = true) then
        argLoop fuel (cursors (before ++ arg ++ [0]) .between rest false (array ++ [arg]))
      else argLoop fuel (cursors before (.inside (arg ++ [c])) rest q array) := by
  obtain ⟨d, w, rfl, hd0, hd32, hd34, hw⟩ := harg
  have hstart : byteAt Fault.outside (before ++ (d :: w ++ c :: (rest ++ [0]))) before.length =
      .ok d := byteAt_append _ _ _ _ rfl
  have hend : byteAt Fault.outside (before ++ (d :: w ++ c :: (rest ++ [0])))
      (before.length + (d :: w).length) = .ok c := by
    rw [← List.append_assoc]
    exact byteAt_append _ _ _ _ List.length_append.symm
  show argLoop (fuel + 1) ⟨before ++ (d :: w ++ c :: (rest ++ [0])), before.length,
    before.length + (d :: w).length, q, array⟩ = _
  rw [argLoop, hstart, ok_bind, if_neg hd0, if_neg hd32, if_neg hd34, hend, ok_bind]
  simp only [hc, or_false]
  by_cases hstop : (c = 32 ∧ q = false) ∨ (c = 34 ∧ q = true)
  · have hset : (before ++ (d :: w ++ c :: (rest ++ [0]))).set (before.length + (d :: w).length) 0 =
        before ++ (d :: w ++ 0 :: (rest ++ [0])) := by
      rw [← List.append_assoc, set_append _ _ _ _ List.length_append.symm, List.append_assoc]
    have hstring : stringAt Fault.outside (before ++ (d :: w ++ 0 :: (rest ++ [0]))) before.length =
        .ok (d :: w) := stringAt_append _ _ (by simp [hw, Ne.symm hd0]) _
    rw [if_pos hstop, if_pos hstop, if_neg not_false, hset, hstring, ok_bind, cursors_close]
    rfl
  · rw [if_neg hstop, if_neg hstop, cursors_next]

/-- At the end of the string: an argument with an opening quote has no end there, and `arg_end`
    goes on. -/
theorem argLoop_end (fuel : ℕ) (before : List Byte) {place : Place} (hplace : place.Starts)
    (q : Bool) (array : List (List Byte)) :
    argLoop (fuel + 2) (cursors before place [] q array) =
      match args q place [] with
      | some as => .ok (array ++ as)
      | none => .error .outside := by
  cases place with
  | between =>
    have hbyte : byteAt Fault.outside (before ++ [0]) before.length = .ok 0 :=
      byteAt_append _ _ _ _ rfl
    show argLoop (fuel + 2) ⟨before ++ [0], before.length, before.length, q, array⟩ =
      .ok (array ++ [])
    rw [argLoop, hbyte, ok_bind, if_pos rfl, List.append_nil]
    rfl
  | inside arg =>
    obtain ⟨d, w, rfl, hd0, hd32, hd34, hw⟩ := hplace
    have hstart : byteAt Fault.outside (before ++ (d :: w ++ [0])) before.length = .ok d :=
      byteAt_append _ _ _ _ rfl
    have hend : byteAt Fault.outside (before ++ (d :: w ++ [0]))
        (before.length + (d :: w).length) = .ok 0 := by
      rw [← List.append_assoc]
      exact byteAt_append _ _ _ _ List.length_append.symm
    have hbeyond : byteAt Fault.outside (before ++ (d :: w ++ [0]))
        (before.length + (d :: w).length + 1) = .error .outside := by
      refine byteAt_end _ ?_
      simp only [List.length_append, List.length_singleton]
      omega
    show argLoop (fuel + 2) ⟨before ++ (d :: w ++ [0]), before.length,
      before.length + (d :: w).length, q, array⟩ = _
    rw [argLoop, hstart, ok_bind, if_neg hd0, if_neg hd32, if_neg hd34, hend, ok_bind]
    cases q with
    | false =>
      have hstring : stringAt Fault.outside (before ++ (d :: w ++ [0])) before.length =
          .ok (d :: w) :=
        stringAt_append _ _ (by simp [hw, Ne.symm hd0]) []
      rw [if_pos (by simp), if_pos rfl, hstring, ok_bind]
      rfl
    | true =>
      rw [if_neg (by simp), argLoop]
      simp only [hstart, ok_bind, hd0, hd32, hd34, if_false, hbeyond, error_bind]
      rfl

/-- The loop collects the arguments of what is behind the cursors. -/
theorem argLoop_eq (fuel : ℕ) (before rest : List Byte) (place : Place) (q : Bool)
    (array : List (List Byte)) (hplace : place.Starts) (hrest : (0 : Byte) ∉ rest)
    (hfuel : rest.length + 2 ≤ fuel) :
    argLoop fuel (cursors before place rest q array) =
      match args q place rest with
      | some as => .ok (array ++ as)
      | none => .error .outside := by
  induction rest generalizing fuel before place q array with
  | nil =>
    obtain ⟨k, rfl⟩ : ∃ k, fuel = k + 2 := ⟨fuel - 2, by simp at hfuel; omega⟩
    exact argLoop_end k before hplace q array
  | cons c rest ih =>
    rw [List.length_cons] at hfuel
    obtain ⟨k, rfl⟩ : ∃ k, fuel = k + 1 := ⟨fuel - 1, by omega⟩
    have hc : c ≠ 0 := fun h => hrest (h ▸ List.mem_cons_self)
    have hrest' : (0 : Byte) ∉ rest := fun h => hrest (List.mem_cons_of_mem _ h)
    have hk : rest.length + 2 ≤ k := by omega
    cases place with
    | between =>
      rw [argLoop_between k before hc, args]
      by_cases hspace : c = 32
      · rw [if_pos hspace, if_pos hspace]
        exact ih k _ .between q array trivial hrest' hk
      · rw [if_neg hspace, if_neg hspace]
        by_cases hquote : c = 34
        · rw [if_pos hquote, if_pos hquote]
          exact ih k _ .between true array trivial hrest' hk
        · rw [if_neg hquote, if_neg hquote]
          exact ih k _ (.inside [c]) q array ⟨c, [], rfl, hc, hspace, hquote, by simp⟩ hrest' hk
    | inside arg =>
      rw [argLoop_inside k before hc hplace, args]
      by_cases hstop : (c = 32 ∧ q = false) ∨ (c = 34 ∧ q = true)
      · rw [if_pos hstop, if_pos hstop, ih k _ .between false _ trivial hrest' hk]
        cases args false .between rest with
        | none => rfl
        | some as => exact congrArg _ (List.append_assoc array [arg] as)
      · rw [if_neg hstop, if_neg hstop]
        refine ih k _ (.inside (arg ++ [c])) q array ?_ hrest' hk
        obtain ⟨d, w, rfl, hd0, hd32, hd34, hw⟩ := hplace
        exact ⟨d, w ++ [c], rfl, hd0, hd32, hd34, by simp [hw, Ne.symm hc]⟩

theorem argArray_eq (array : List (List Byte)) (arg : CStr) :
    argArray array arg =
      match args false .between arg.val with
      | some as => .ok (array ++ as)
      | none => .error .outside :=
  argLoop_eq _ [] arg.val .between false array trivial arg.property (Nat.le_refl _)

/-! ## Unbalanced quotes -/

/-- Where the cursors are, and whether a quote was opened since the last argument. -/
inductive Mode where
  | between (quote : Bool)
  | inside (quote : Bool)
  deriving DecidableEq, Repr

/-- A byte further: an argument with a quote ends at the next quote, one without at a space. -/
def Mode.next : Mode → Byte → Mode
  | .between quote, c =>
    if c = 32 then .between quote else if c = 34 then .between true else .inside quote
  | .inside quote, c =>
    if (c = 32 ∧ quote = false) ∨ (c = 34 ∧ quote = true) then .between false else .inside quote

/-- The string ends in an argument of which the closing quote is missing. -/
def Unclosed (s : List Byte) : Prop := s.foldl Mode.next (.between false) = .inside true

instance (s : List Byte) : Decidable (Unclosed s) := inferInstanceAs (Decidable (_ = _))

/-- The mode at a place. -/
def Place.mode (q : Bool) : Place → Mode
  | .between => .between q
  | .inside _ => .inside q

theorem args_eq_none_iff (q : Bool) (place : Place) (s : List Byte) :
    args q place s = none ↔ s.foldl Mode.next (place.mode q) = .inside true := by
  induction s generalizing q place with
  | nil => cases place <;> cases q <;> simp [args, Place.mode]
  | cons c s ih =>
    rw [List.foldl_cons]
    cases place with
    | between =>
      rw [args, Place.mode, Mode.next]
      split
      · exact ih q .between
      · split
        · exact ih true .between
        · exact ih q (.inside [c])
    | inside arg =>
      rw [args, Place.mode, Mode.next]
      split
      · rw [Option.map_eq_map, Option.map_eq_none_iff]
        exact ih false .between
      · exact ih q (.inside (arg ++ [c]))

/-- It comes to an end, without a read beyond the string, unless a closing quote is missing. -/
theorem argArray_returns_iff (array : List (List Byte)) (arg : CStr) :
    (∃ array', argArray array arg = .ok array') ↔ ¬ Unclosed arg.val := by
  rw [argArray_eq, Unclosed, ← show Place.mode false .between = .between false from rfl,
    ← args_eq_none_iff]
  cases args false .between arg.val with
  | none => simp
  | some as => simp

/-- One quote in front of a letter. -/
theorem argArray_reads_beyond :
    ¬ ∀ (array : List (List Byte)) (arg : CStr), ∃ array', argArray array arg = .ok array' := by
  intro h
  obtain ⟨array', hrun⟩ := h [] ⟨chars "\"a", by decide⟩
  have hread : argArray [] ⟨chars "\"a", by decide⟩ = .error .outside := by rfl
  rw [hread] at hrun
  cases hrun

/-! ## Quoting -/

/-- An argument in double quotes. -/
def quoted (a : List Byte) : List Byte := 34 :: (a ++ [34])

theorem noNul_quoted (a : CStr) : (0 : Byte) ∉ quoted a.val := by
  rw [quoted, List.mem_cons, List.mem_append, List.mem_singleton]
  rintro (h | h | h)
  · exact absurd h (by decide)
  · exact a.property h
  · exact absurd h (by decide)

/-- Arguments in double quotes, with single spaces between them. -/
def commandLine (as : List CStr) : CStr :=
  ⟨[32].intercalate (as.map fun a => quoted a.val), by
    intro h
    obtain h | ⟨field, hfield, hmem⟩ := mem_intercalate h
    · exact absurd h (by decide)
    · obtain ⟨a, -, rfl⟩ := List.mem_map.mp hfield
      exact noNul_quoted a hmem⟩

/-- What is left of a quoted argument: the spaces behind the opening quote are skipped. -/
def shown (a : List Byte) : List Byte := a.dropWhile (· = 32)

/-- In an argument with an opening quote, up to the closing one. -/
theorem args_inside_quoted {a : List Byte} (ha : (34 : Byte) ∉ a) (arg rest : List Byte) :
    args true (.inside arg) (a ++ 34 :: rest) =
      ((arg ++ a) :: ·) <$> args false .between rest := by
  induction a generalizing arg with
  | nil => rw [List.nil_append, args, if_pos (by simp), List.append_nil]
  | cons c a ih =>
    have hc : c ≠ 34 := fun h => ha (h ▸ List.mem_cons_self)
    rw [List.cons_append, args, if_neg (by simp [hc]),
      ih fun h => ha (List.mem_cons_of_mem _ h), List.append_assoc, List.singleton_append]

/-- From behind the opening quote to behind the closing one. If only spaces are between them, no
    argument is found, and the quote stays open. -/
theorem args_opened {a : List Byte} (ha : (34 : Byte) ∉ a) (rest : List Byte) :
    args true .between (a ++ 34 :: rest) =
      if shown a = [] then args true .between rest
      else (shown a :: ·) <$> args false .between rest := by
  induction a with
  | nil => rfl
  | cons c a ih =>
    have ha' : (34 : Byte) ∉ a := fun h => ha (List.mem_cons_of_mem _ h)
    have hc : c ≠ 34 := fun h => ha (h ▸ List.mem_cons_self)
    rw [List.cons_append, args, shown]
    by_cases hspace : c = 32
    · rw [if_pos hspace, ih ha', List.dropWhile_cons_of_pos (by simpa using hspace)]
      rfl
    · rw [if_neg hspace, if_neg hc, args_inside_quoted ha',
        List.dropWhile_cons_of_neg (by simpa using hspace), if_neg (List.cons_ne_nil _ _)]
      rfl

/-- A quoted argument, whether a quote is open before it or not. -/
theorem args_quoted {a : List Byte} (ha : (34 : Byte) ∉ a) (q : Bool) (rest : List Byte) :
    args q .between (quoted a ++ rest) =
      if shown a = [] then args true .between rest
      else (shown a :: ·) <$> args false .between rest := by
  rw [quoted, List.cons_append, args, if_neg (by decide), if_pos rfl, List.append_assoc,
    List.singleton_append, args_opened ha]

/-- Quoted arguments are found without their leading spaces, if anything is left of them. -/
theorem args_commandLine {as : List CStr} (h : ∀ a ∈ as, (34 : Byte) ∉ a.val) (q : Bool) :
    args q .between (commandLine as).val =
      some ((as.map fun a => shown a.val).filter (· ≠ [])) := by
  show args q .between ([32].intercalate (as.map fun a => quoted a.val)) = _
  induction as generalizing q with
  | nil => rfl
  | cons a as ih =>
    obtain ⟨ha, has⟩ := List.forall_mem_cons.mp h
    -- what is behind the argument
    have hrest : ∃ rest, [32].intercalate ((a :: as).map fun a => quoted a.val) =
        quoted a.val ++ rest ∧ ∀ q, args q .between rest =
          some ((as.map fun a => shown a.val).filter (· ≠ [])) := by
      cases as with
      | nil => exact ⟨[], by simp, fun q => rfl⟩
      | cons b as =>
        refine ⟨32 :: [32].intercalate ((b :: as).map fun a => quoted a.val), ?_, fun q => ?_⟩
        · simp [List.intercalate]
        · rw [args, if_pos rfl]
          exact ih has q
    obtain ⟨rest, hline, hargs⟩ := hrest
    rw [hline, args_quoted ha, List.map_cons]
    by_cases hnil : shown a.val = []
    · rw [if_pos hnil, hargs, List.filter_cons_of_neg (by simpa using hnil)]
    · rw [if_neg hnil, hargs, List.filter_cons_of_pos (by simpa using hnil)]
      rfl

theorem shown_eq_iff {a : List Byte} (ha : a ≠ []) : shown a = a ↔ a.head? ≠ some 32 := by
  cases a with
  | nil => exact absurd rfl ha
  | cons c a =>
    rw [shown, List.head?_cons]
    by_cases hspace : c = 32
    · rw [List.dropWhile_cons_of_pos (by simpa using hspace)]
      refine iff_of_false (fun heq => ?_) (by simpa using hspace)
      have hle := List.length_dropWhile_le (· = (32 : Byte)) a
      have hlen := congrArg List.length heq
      rw [List.length_cons] at hlen
      omega
    · rw [List.dropWhile_cons_of_neg (by simpa using hspace)]
      exact iff_of_true rfl (by simpa using hspace)

theorem filter_shown_eq_iff (as : List CStr) :
    ((as.map fun a => shown a.val).filter (· ≠ [])) = (as.map fun a => a.val) ↔
      ∀ a ∈ as, a.val ≠ [] ∧ a.val.head? ≠ some 32 := by
  induction as with
  | nil => simp
  | cons a as ih =>
    have hle : ((as.map fun a => shown a.val).filter (· ≠ [])).length ≤ as.length := by
      refine (List.length_filter_le _ _).trans ?_
      rw [List.length_map]
    rw [List.map_cons, List.map_cons, List.forall_mem_cons, ← ih]
    by_cases hnil : shown a.val = []
    · rw [List.filter_cons_of_neg (by simpa using hnil)]
      refine iff_of_false (fun heq => ?_) fun h => ?_
      · have hlen := congrArg List.length heq
        rw [List.length_cons, List.length_map] at hlen
        omega
      · rw [(shown_eq_iff h.1.1).mpr h.1.2] at hnil
        exact h.1.1 hnil
    · rw [List.filter_cons_of_pos (by simpa using hnil), List.cons.injEq]
      have hne : a.val ≠ [] := fun h => hnil (by rw [h]; rfl)
      rw [shown_eq_iff hne, and_iff_right hne]

/-- Quoted arguments come back exactly if none is empty and none starts with a space. -/
theorem argArray_quoted_iff (array : List (List Byte)) {as : List CStr}
    (h : ∀ a ∈ as, (34 : Byte) ∉ a.val) :
    argArray array (commandLine as) = .ok (array ++ as.map fun a => a.val) ↔
      ∀ a ∈ as, a.val ≠ [] ∧ a.val.head? ≠ some 32 := by
  rw [argArray_eq, args_commandLine h, ← filter_shown_eq_iff]
  simp only [Except.ok.injEq, List.append_cancel_left_eq]

theorem argArray_quoted_two :
    argArray [chars "suva"] (commandLine [⟨chars "a b", by decide⟩, ⟨chars "c ", by decide⟩]) =
      .ok [chars "suva", chars "a b", chars "c "] :=
  (@argArray_quoted_iff [chars "suva"] [⟨chars "a b", by decide⟩, ⟨chars "c ", by decide⟩]
    (by decide)).mpr (by decide)

/-- An empty argument is lost. -/
theorem argArray_loses_empty :
    ¬ ∀ (array : List (List Byte)) (as : List CStr), (∀ a ∈ as, (34 : Byte) ∉ a.val) →
      argArray array (commandLine as) = .ok (array ++ as.map fun a => a.val) := by
  intro h
  have hrun : argArray [] (commandLine [⟨[], by decide⟩]) = .ok [] := by rfl
  rw [h [] _ (by decide)] at hrun
  exact absurd (Except.ok.inj hrun) (by decide)

end CompatSuva.Sutil
