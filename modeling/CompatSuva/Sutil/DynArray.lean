import CompatSuva.Common.Alike
import CompatSuva.Common.Ownership
import CompatSuva.Sutil.DirArray

/-!
# Dynamic arrays

Model of `array_push`, `array_reverse`, `array_free` and `env_array` (`sutil.c` lines 365–441). An
array is a block of pointers up to a NULL, and each points to a block with a string; an array
without strings may also be NULL itself. The blocks are the cells of a heap. What `realloc` and
`strdup` answer is given with each call; a string that cannot be copied is left out of the array,
and a `realloc` that fails ends the program.

* `arrayPush_agrees`, `arrayReverse_agrees`, `envArray_agrees`: what becomes of the strings and of
  the blocks of an array;
* `arrayFree_spec`: all its blocks are freed, and no others.
-/

namespace CompatSuva.Sutil.DynArray

open CompatSuva.Common CompatSuva.Scl

/-! ## Model -/

/-- What an allocation gave: the bytes of a string, or pointers, of which those that nothing has
    been written to are `none`. -/
inductive Block where
  | string (text : CStr)
  | pointers (cells : List (Option Addr))

/-- An access outside of what is live, or a counter that does not fit an `int`; a failed `ASSERT`;
    a loop of the model that has gone round too often. -/
inductive Fault where
  | undefined
  | aborted
  | running
  deriving DecidableEq, Repr

/-- What an allocation that succeeds returns. -/
structure Malloc where
  addr : Heap Block → Addr
  ne_zero : ∀ h, addr h ≠ 0
  unused : ∀ h : Heap Block, h.get (addr h) = none

/-- What a `realloc` that succeeds returns: where the block was, or an address that is unused. -/
structure Realloc where
  addr : Heap Block → Addr → Addr
  ne_zero : ∀ h array, addr h array ≠ 0
  unused : ∀ (h : Heap Block) (array : Addr), addr h array = array ∨ h.get (addr h array) = none

/-- The answers to the two allocations of `array_push`; `none` is NULL. -/
structure Answers where
  realloc : Option Realloc
  strdup : Option Malloc

/-- `INT_MAX`. -/
def intMax : ℕ := 2 ^ 31 - 1

/-- `array[i]`. -/
def cellAt (h : Heap Block) (array : Addr) (i : ℕ) : Except Fault Addr :=
  match h.get array with
  | some (.pointers cells) =>
    match cells[i]? with
    | some (some a) => .ok a
    | _ => .error .undefined
  | _ => .error .undefined

/-- `array[i] = a`. -/
def setCell (h : Heap Block) (array : Addr) (i : ℕ) (a : Addr) : Except Fault (Heap Block) :=
  match h.get array with
  | some (.pointers cells) =>
    if i < cells.length then .ok (h.set array (.pointers (cells.set i (some a))))
    else .error .undefined
  | _ => .error .undefined

/-- The cells of the block at `array`. -/
def width (h : Heap Block) (array : Addr) : ℕ :=
  match h.get array with
  | some (.pointers cells) => cells.length
  | _ => 0

/-- `while(array[i]) i++`. -/
def lenLoop (h : Heap Block) (array : Addr) : ℕ → ℕ → Except Fault ℕ
  | 0, _ => .error .running
  | fuel + 1, i => do
    let a ← cellAt h array i
    if a = 0 then return i else lenLoop h array fuel (i + 1)

/-- `while(array && array[i]) i++`, from 0 on. -/
def arrayLen (h : Heap Block) (array : Addr) : Except Fault ℕ :=
  if array = 0 then .ok 0 else lenLoop h array (width h array + 1) 0

/-- `realloc(array, n * sizeof(char *))`, when it succeeds. -/
def realloc (h : Heap Block) (array : Addr) (n : ℕ) (r : Realloc) :
    Except Fault (Heap Block × Addr) :=
  if array = 0 then
    .ok (h.set (r.addr h 0) (.pointers (List.replicate n none)), r.addr h 0)
  else
    match h.get array with
    | some (.pointers cells) =>
      .ok ((h.free array).set (r.addr h array)
        (.pointers (cells.take n ++ List.replicate (n - cells.length) none)), r.addr h array)
    | _ => .error .undefined

/-- A string that is passed: the caller's own, or a block. -/
inductive Source where
  | text (s : CStr)
  | block (a : Addr)

/-- The string. -/
def Source.read (h : Heap Block) : Source → Except Fault CStr
  | .text s => .ok s
  | .block a =>
    match h.get a with
    | some (.string s) => .ok s
    | _ => .error .undefined

/-- `strdup(string)`. -/
def strdup (h : Heap Block) (string : Source) (d : Option Malloc) :
    Except Fault (Heap Block × Addr) := do
  let s ← string.read h
  match d with
  | none => return (h, 0)
  | some m => return (h.set (m.addr h) (.string s), m.addr h)

/-- `free(p)`. -/
def free (h : Heap Block) (p : Addr) : Except Fault (Heap Block) :=
  if p = 0 then .ok h
  else if (h.get p).isSome then .ok (h.free p) else .error .undefined

/-- `array_push`. -/
def arrayPush (h : Heap Block) (array : Addr) (string : Source) (answers : Answers) :
    Except Fault (Heap Block × Addr) := do
  let i ← arrayLen h array
  if intMax < i + 2 then .error .undefined
  else
    match answers.realloc with
    | none => .error .aborted
    | some r => do
      let (h, array) ← realloc h array (i + 2) r
      let (h, copy) ← strdup h string answers.strdup
      let h ← setCell h array i copy
      let h ← setCell h array (i + 1) 0
      return (h, array)

/-- The loop of `array_free`: `free(array[i])` from `i` on. -/
def freeLoop (array : Addr) : ℕ → Heap Block → ℕ → Except Fault (Heap Block)
  | 0, _, _ => .error .running
  | fuel + 1, h, i => do
    let a ← cellAt h array i
    if a = 0 then return h
    else
      let h ← free h a
      freeLoop array fuel h (i + 1)

/-- `array_free`. -/
def arrayFree (h : Heap Block) (array : Addr) : Except Fault (Heap Block) := do
  let h ← if array = 0 then .ok h else freeLoop array (width h array + 1) h 0
  free h array

/-- The loop of `array_reverse`: `while(--len >= 0)`. -/
def reverseLoop (array : Addr) (answers : ℕ → Answers) :
    ℕ → Heap Block → Addr → Except Fault (Heap Block × Addr)
  | 0, h, newArray => return (h, newArray)
  | len + 1, h, newArray => do
    let a ← cellAt h array len
    let (h, newArray) ← arrayPush h newArray (.block a) (answers len)
    reverseLoop array answers len h newArray

/-- `array_reverse`; the answers are numbered as the strings are. -/
def arrayReverse (h : Heap Block) (array : Addr) (answers : ℕ → Answers) :
    Except Fault (Heap Block × Addr) := do
  let len ← arrayLen h array
  if len = 0 then return (h, array)
  else
    let (h, newArray) ← reverseLoop array answers len h 0
    let h ← arrayFree h array
    return (h, newArray)

/-- `[A-z0-9/:_=" -]`. -/
def isEnv (c : Byte) : Bool :=
  (65 ≤ c ∧ c ≤ 122) ∨ (48 ≤ c ∧ c ≤ 57) ∨ c ∈ chars "/:_=\" -"

theorem zero_not_mem_takeWhile (s : List Byte) (n : ℕ) :
    (0 : Byte) ∉ (s.takeWhile isEnv).take n := by
  intro h
  have hzero := List.mem_takeWhile_imp (List.mem_of_mem_take h)
  exact absurd hzero (by decide)

/-- What `sscanf(buffer, "%1023[…]", line)` leaves in `line`, if it does not return 0. At the end
    of the string it returns `EOF`, which is not 0, and `line` is empty. -/
def envLine (buffer : List Byte) : Option CStr :=
  if buffer ≠ [] ∧ (buffer.takeWhile isEnv).take 1023 = [] then none
  else some ⟨(buffer.takeWhile isEnv).take 1023, zero_not_mem_takeWhile _ _⟩

/-- The body of the loop of `env_array`, with the number of lines read before. -/
def envBody (answers : ℕ → Answers) (s : (Heap Block × Addr) × ℕ) (buffer : List Byte) :
    Except Fault ((Heap Block × Addr) × ℕ) :=
  match envLine buffer with
  | none => .ok (s.1, s.2 + 1)
  | some line => do
    let next ← arrayPush s.1.1 s.1.2 (.text line) (answers s.2)
    return (next, s.2 + 1)

/-- `env_array`; `none` is a file that cannot be opened. The answers are numbered as the lines
    are. -/
def envArray (h : Heap Block) (array : Addr) (file : Option (List Byte)) (answers : ℕ → Answers) :
    Except Fault (Heap Block × Addr) :=
  match file with
  | none => .ok (h, 0)
  | some file => do
    let s ← eachLine maxBuffer .running (envBody answers) (file.length + 1) file ((h, array), 0)
    return s.1

/-! ## In terms of the strings -/

/-- A pointer to an array, as the strings in it; `none` is NULL. -/
abbrev Strings := Option (List CStr)

/-- `array_push`. -/
def pushed (xs : Strings) (x : CStr) (answers : Answers) : Except Fault Strings :=
  if intMax < (xs.getD []).length + 2 then .error .undefined
  else if answers.realloc.isNone then .error .aborted
  else .ok (some (xs.getD [] ++ if answers.strdup.isSome then [x] else []))

/-- `array_reverse`: the strings are pushed from the last to the first. -/
def reversed (xs : Strings) (answers : ℕ → Answers) : Except Fault Strings :=
  if xs.getD [] = [] then .ok xs
  else (xs.getD []).zipIdx.reverse.foldlM (fun ys x => pushed ys x.1 (answers x.2)) none

/-- The body of the loop of `env_array`. -/
def loadBody (answers : ℕ → Answers) (s : Strings × ℕ) (buffer : List Byte) :
    Except Fault (Strings × ℕ) :=
  match envLine buffer with
  | none => .ok (s.1, s.2 + 1)
  | some line => do
    let next ← pushed s.1 line (answers s.2)
    return (next, s.2 + 1)

/-- `env_array` of a file that can be opened. -/
def loaded (xs : Strings) (file : List Byte) (answers : ℕ → Answers) : Except Fault Strings := do
  let s ← eachLine maxBuffer .running (loadBody answers) (file.length + 1) file (xs, 0)
  return s.1

/-- The blocks at `ptrs` are these strings. -/
def Strung (h : Heap Block) (ptrs : List Addr) (xs : List CStr) : Prop :=
  List.Forall₂ (fun a x => a ≠ 0 ∧ h.get a = some (.string x)) ptrs xs

/-- The array has these strings at `ptrs`, and a NULL behind them. -/
structure Holds (h : Heap Block) (array : Addr) (ptrs : List Addr) (xs : List CStr) : Prop where
  ne_zero : array ≠ 0
  pointers : ∃ rest, h.get array = some (.pointers (ptrs.map some ++ some 0 :: rest))
  strung : Strung h ptrs xs

/-- The pointer is to these strings, and the blocks are those of the array. -/
def Owns (h : Heap Block) (array : Addr) : Strings → List Addr → Prop
  | none, own => array = 0 ∧ own = []
  | some xs, own => ∃ ptrs, Holds h array ptrs xs ∧ own = ptrs ++ [array]

variable {h h' : Heap Block} {array : Addr} {ptrs own : List Addr} {xs : List CStr}
  {ys : Strings} {cells : List (Option Addr)}

/-! ## Strings -/

namespace Strung

theorem length_eq (hs : Strung h ptrs xs) : ptrs.length = xs.length := List.Forall₂.length_eq hs

theorem get (hs : Strung h ptrs xs) {i : ℕ} (hi : i < ptrs.length) (hi' : i < xs.length) :
    ptrs[i] ≠ 0 ∧ h.get ptrs[i] = some (.string xs[i]) :=
  List.Forall₂.get hs hi hi'

theorem mem (hs : Strung h ptrs xs) {a : Addr} (ha : a ∈ ptrs) :
    a ≠ 0 ∧ ∃ x, h.get a = some (.string x) := by
  obtain ⟨i, hi, rfl⟩ := List.getElem_of_mem ha
  have hget := hs.get hi (hs.length_eq ▸ hi)
  exact ⟨hget.1, _, hget.2⟩

theorem live (hs : Strung h ptrs xs) {a : Addr} (ha : a ∈ ptrs) : (h.get a).isSome := by
  obtain ⟨-, x, hx⟩ := hs.mem ha
  rw [hx]
  rfl

/-- A block of pointers is none of the strings. -/
theorem not_mem (hs : Strung h ptrs xs) (hcells : h.get array = some (.pointers cells)) :
    ∀ a ∈ ptrs, a ∉ [array] := by
  intro a ha hmem
  obtain ⟨-, x, hx⟩ := hs.mem ha
  rw [List.mem_singleton.mp hmem, hcells] at hx
  exact Block.noConfusion (Option.some.inj hx)

theorem keep (hs : Strung h ptrs xs) (hkept : ∀ a ∈ ptrs, h'.get a = h.get a) :
    Strung h' ptrs xs := by
  refine List.forall₂_iff_get.mpr ⟨hs.length_eq, fun i hi hi' => ?_⟩
  rw [List.get_eq_getElem, List.get_eq_getElem, hkept _ (List.getElem_mem hi)]
  exact hs.get hi hi'

/-- A step on the block of the pointers leaves the strings. -/
theorem move (hs : Strung h ptrs xs) (hcells : h.get array = some (.pointers cells))
    {array' : Addr} (hm : Moves h h' [array] [array']) :
    Strung h' ptrs xs ∧ Moves h h' (ptrs ++ [array]) (ptrs ++ [array']) := by
  have hlive : ∀ a ∈ ptrs, (h.get a).isSome := fun a ha => hs.live ha
  have hdisj := hs.not_mem hcells
  refine ⟨hs.keep fun a ha => hm.get_eq (hlive a ha) (hdisj a ha), hm.frame ptrs hlive hdisj⟩

end Strung

/-! ## Reads -/

namespace Holds

theorem live (hh : Holds h array ptrs xs) {a : Addr} (ha : a ∈ ptrs ++ [array]) :
    (h.get a).isSome := by
  obtain ha | ha := List.mem_append.mp ha
  · exact hh.strung.live ha
  · obtain ⟨rest, hrest⟩ := hh.pointers
    rw [List.mem_singleton.mp ha, hrest]
    rfl

/-- An array stays what it is where its blocks do. -/
theorem keep (hh : Holds h array ptrs xs) (hkept : ∀ a ∈ ptrs ++ [array], h'.get a = h.get a) :
    Holds h' array ptrs xs where
  ne_zero := hh.ne_zero
  pointers := by
    rw [hkept array (List.mem_append_right _ (List.mem_singleton_self _))]
    exact hh.pointers
  strung := hh.strung.keep fun a ha => hkept a (List.mem_append_left _ ha)

end Holds

theorem cellAt_eq (hcells : h.get array = some (.pointers cells)) {i : ℕ} {a : Addr}
    (hi : cells[i]? = some (some a)) : cellAt h array i = .ok a := by
  unfold cellAt
  simp only [hcells, hi]

/-- A pointer of an array, and the NULL. -/
theorem cellAt_pointers {rest : List (Option Addr)}
    (hcells : h.get array = some (.pointers (ptrs.map some ++ some 0 :: rest))) {i : ℕ}
    (hi : i ≤ ptrs.length) : cellAt h array i = .ok (ptrs.getD i 0) := by
  apply cellAt_eq hcells
  obtain hlt | rfl := Nat.lt_or_eq_of_le hi
  · rw [List.getElem?_append_left (by rwa [List.length_map])]
    simp [hlt]
  · rw [List.getElem?_append_right (by rw [List.length_map])]
    simp

namespace Holds

theorem cellAt_lt (hh : Holds h array ptrs xs) {i : ℕ} (hi : i < ptrs.length) :
    cellAt h array i = .ok ptrs[i] := by
  obtain ⟨rest, hrest⟩ := hh.pointers
  rw [cellAt_pointers hrest hi.le, List.getD_eq_getElem _ _ hi]

theorem lenLoop_eq (hh : Holds h array ptrs xs) (fuel i : ℕ) (hi : i ≤ ptrs.length)
    (hfuel : ptrs.length < i + fuel) : lenLoop h array fuel i = .ok ptrs.length := by
  induction fuel generalizing i with
  | zero => omega
  | succ fuel ih =>
    unfold lenLoop
    obtain hlt | rfl := Nat.lt_or_eq_of_le hi
    · have hne := (hh.strung.get hlt (hh.strung.length_eq ▸ hlt)).1
      rw [hh.cellAt_lt hlt, ok_bind, if_neg hne]
      exact ih (i + 1) hlt (by omega)
    · obtain ⟨rest, hrest⟩ := hh.pointers
      rw [cellAt_pointers hrest (Nat.le_refl _), List.getD_eq_default _ _ (Nat.le_refl _), ok_bind,
        if_pos rfl]
      rfl

theorem lt_width (hh : Holds h array ptrs xs) : ptrs.length < width h array := by
  obtain ⟨rest, hrest⟩ := hh.pointers
  unfold width
  simp only [hrest, List.length_append, List.length_map, List.length_cons]
  omega

end Holds

namespace Owns

theorem live (ho : Owns h array ys own) {a : Addr} (ha : a ∈ own) : (h.get a).isSome := by
  cases ys with
  | none =>
    rw [ho.2] at ha
    exact absurd ha List.not_mem_nil
  | some xs =>
    obtain ⟨ptrs, hh, rfl⟩ := ho
    exact hh.live ha

theorem keep (ho : Owns h array ys own) (hkept : ∀ a ∈ own, h'.get a = h.get a) :
    Owns h' array ys own := by
  cases ys with
  | none => exact ho
  | some xs =>
    obtain ⟨ptrs, hh, rfl⟩ := ho
    exact ⟨ptrs, hh.keep hkept, rfl⟩

theorem arrayLen_eq (ho : Owns h array ys own) : arrayLen h array = .ok (ys.getD []).length := by
  unfold arrayLen
  cases ys with
  | none =>
    rw [if_pos ho.1]
    rfl
  | some xs =>
    obtain ⟨ptrs, hh, -⟩ := ho
    have hwidth := hh.lt_width
    rw [if_neg hh.ne_zero, hh.lenLoop_eq _ 0 (Nat.zero_le _) (by omega), hh.strung.length_eq]
    rfl

end Owns

/-! ## Pushing -/

/-- A block for two pointers more than there are strings. -/
structure Room (h : Heap Block) (array : Addr) (ptrs : List Addr) (xs : List CStr) : Prop where
  ne_zero : array ≠ 0
  pointers : ∃ c c', h.get array = some (.pointers (ptrs.map some ++ [c, c']))
  strung : Strung h ptrs xs

theorem resized {α : Type} (l rest : List α) (x d : α) :
    ∃ c c', (l ++ x :: rest).take (l.length + 2) ++
      List.replicate (l.length + 2 - (l ++ x :: rest).length) d = l ++ [c, c'] := by
  cases rest with
  | nil => exact ⟨x, d, by simp [List.take_append]⟩
  | cons y rest => exact ⟨x, y, by simp [List.take_append]⟩

theorem Owns.realloc_spec (ho : Owns h array ys own) (r : Realloc) :
    ∃ h' ptrs, realloc h array ((ys.getD []).length + 2) r = .ok (h', r.addr h array) ∧
      Room h' (r.addr h array) ptrs (ys.getD []) ∧
      Moves h h' own (ptrs ++ [r.addr h array]) ∧
      ∀ a x, h.get a = some (.string x) → h'.get a = some (.string x) := by
  have hne := r.ne_zero h array
  have hunused := r.unused h array
  unfold realloc
  cases ys with
  | none =>
    obtain ⟨rfl, rfl⟩ := ho
    have hm := Moves.alloc (hunused.resolve_left hne) (Block.pointers [none, none])
    refine ⟨h.set (r.addr h 0) (.pointers [none, none]), [], if_pos rfl,
      ⟨hne, ⟨none, none, Heap.get_set _ _ _⟩, .nil⟩, hm, ?_⟩
    intro a x ha
    rw [hm.get_eq (by rw [ha]; rfl) List.not_mem_nil, ha]
  | some xs =>
    obtain ⟨ptrs, hh, rfl⟩ := ho
    obtain ⟨rest, hrest⟩ := hh.pointers
    obtain ⟨c, c', hcells⟩ := resized (ptrs.map some) rest (some 0) none
    rw [List.length_map] at hcells
    rw [if_neg hh.ne_zero, Option.getD_some, ← hh.strung.length_eq]
    simp only [hrest, hcells]
    have hfree : (h.free array).get (r.addr h array) = none := by
      by_cases heq : r.addr h array = array
      · rw [heq, Heap.get_free]
      · rw [Heap.get_free_ne _ heq]
        exact hunused.resolve_left heq
    have hm := (Moves.release h array).trans
      (Moves.alloc hfree (Block.pointers (ptrs.map some ++ [c, c'])))
    obtain ⟨hstrung, hmoves⟩ := hh.strung.move hrest hm
    refine ⟨_, ptrs, rfl, ⟨hne, ⟨c, c', Heap.get_set _ _ _⟩, hstrung⟩, hmoves, ?_⟩
    intro a x ha
    rw [hm.get_eq (by rw [ha]; rfl), ha]
    intro hmem
    rw [List.mem_singleton.mp hmem, hrest] at ha
    exact Block.noConfusion (Option.some.inj ha)

theorem setCell_eq {l rest : List (Option Addr)} {c : Option Addr}
    (hcells : h.get array = some (.pointers (l ++ c :: rest))) (a : Addr) :
    setCell h array l.length a = .ok (h.set array (.pointers (l ++ some a :: rest))) := by
  unfold setCell
  simp only [hcells]
  rw [if_pos (by simp), List.set_append_right _ _ (Nat.le_refl _), Nat.sub_self,
    List.set_cons_zero]

/-- The two pointers are written. -/
theorem setCells_eq {c c' : Option Addr}
    (hcells : h.get array = some (.pointers (ptrs.map some ++ [c, c']))) (a : Addr) :
    ∃ h', (setCell h array ptrs.length a >>= fun h => setCell h array (ptrs.length + 1) 0) =
        .ok h' ∧ Moves h h' [array] [array] ∧
      h'.get array = some (.pointers (ptrs.map some ++ [some a, some 0])) := by
  have hfirst := setCell_eq hcells a
  have hget : (h.set array (.pointers (ptrs.map some ++ [some a, c']))).get array =
      some (.pointers ((ptrs.map some ++ [some a]) ++ [c'])) := by
    rw [Heap.get_set, List.append_assoc]
    rfl
  have hsecond := setCell_eq hget 0
  rw [List.length_map] at hfirst
  rw [List.length_append, List.length_map, List.length_singleton] at hsecond
  refine ⟨_, (congrArg (· >>= _) hfirst).trans hsecond,
    (Moves.write _ _ _).trans (Moves.write _ _ _), ?_⟩
  rw [Heap.get_set, List.append_assoc]
  rfl

/-- The copy of the string is pushed, if there is one. -/
theorem Room.push (hr : Room h array ptrs xs) {string : Source} {x : CStr}
    (hread : string.read h = .ok x) (d : Option Malloc) :
    ∃ h' own', (strdup h string d >>= fun s => setCell s.1 array ptrs.length s.2 >>= fun h =>
        setCell h array (ptrs.length + 1) 0) = .ok h' ∧
      Owns h' array (some (xs ++ if d.isSome then [x] else [])) own' ∧
      Moves h h' (ptrs ++ [array]) own' := by
  obtain ⟨c, c', hcells⟩ := hr.pointers
  unfold strdup
  rw [hread, ok_bind]
  cases d with
  | none =>
    obtain ⟨h', hset, hm, hget⟩ := setCells_eq hcells 0
    obtain ⟨hstrung, hmoves⟩ := hr.strung.move hcells hm
    refine ⟨h', _, hset, ⟨ptrs, ⟨hr.ne_zero, ⟨[some 0], hget⟩, ?_⟩, rfl⟩, hmoves⟩
    rw [Option.isSome_none, if_neg Bool.false_ne_true, List.append_nil]
    exact hstrung
  | some m =>
    have hm := Moves.alloc (m.unused h) (Block.string x)
    have hkept : ∀ b, (h.get b).isSome → (h.set (m.addr h) (.string x)).get b = h.get b :=
      fun b hb => hm.get_eq hb List.not_mem_nil
    have hlive : ∀ b ∈ ptrs ++ [array], (h.get b).isSome := by
      intro b hb
      obtain hb | hb := List.mem_append.mp hb
      · exact hr.strung.live hb
      · rw [List.mem_singleton.mp hb, hcells]
        rfl
    have hcells' := (hkept array (by rw [hcells]; rfl)).trans hcells
    have hstrung : Strung (h.set (m.addr h) (.string x)) (ptrs ++ [m.addr h]) (xs ++ [x]) :=
      List.rel_append (hr.strung.keep fun b hb => hkept b (hr.strung.live hb))
        (.cons ⟨m.ne_zero h, Heap.get_set _ _ _⟩ .nil)
    obtain ⟨h', hset, hm', hget⟩ := setCells_eq hcells' (m.addr h)
    obtain ⟨hstrung', hmoves⟩ := hstrung.move hcells' hm'
    refine ⟨h', _, hset, ⟨ptrs ++ [m.addr h], ⟨hr.ne_zero, ⟨[], ?_⟩, ?_⟩, rfl⟩, ?_⟩
    · rw [hget, List.map_append, List.append_assoc]
      rfl
    · rw [Option.isSome_some, if_pos rfl]
      exact hstrung'
    · have hframe := hm.frame _ hlive fun b _ => List.not_mem_nil
      rw [List.append_nil] at hframe
      refine (hframe.perm (List.Perm.refl _) ?_).trans hmoves
      rw [List.append_assoc, List.append_assoc]
      exact (List.perm_append_comm).append_left _

/-- What a function that works on one array leaves: a pointer to these strings, whose blocks
    have taken the place of those of the array. -/
def After (h : Heap Block) (own : List Addr) (s : Heap Block × Addr) (ys : Strings) : Prop :=
  ∃ own', Owns s.1 s.2 ys own' ∧ Moves h s.1 own own'

theorem Owns.after (ho : Owns h array ys own) : After h own (h, array) ys :=
  ⟨own, ho, Moves.refl fun _ ha => ho.live ha⟩

/-- `array_push`, where the string is not one that the call moves. -/
theorem Owns.arrayPush_agrees (ho : Owns h array ys own) {string : Source} {x : CStr}
    (hread : ∀ h', (∀ a y, h.get a = some (.string y) → h'.get a = some (.string y)) →
      string.read h' = .ok x) (answers : Answers) :
    Alike (After h own) (arrayPush h array string answers) (pushed ys x answers) := by
  unfold arrayPush pushed
  rw [ho.arrayLen_eq, ok_bind]
  by_cases hlen : intMax < (ys.getD []).length + 2
  · rw [if_pos hlen, if_pos hlen]
    exact Alike.of_error _
  · rw [if_neg hlen, if_neg hlen]
    cases hr : answers.realloc with
    | none => exact Alike.of_error _
    | some r =>
      obtain ⟨h₁, ptrs, hrealloc, hroom, hm, hstrings⟩ := ho.realloc_spec r
      obtain ⟨h₂, own', hpush, howns, hm'⟩ := hroom.push (hread h₁ hstrings) answers.strdup
      obtain ⟨s, hdup, hpush⟩ := bind_eq_ok.mp hpush
      obtain ⟨h₃, hset, hset'⟩ := bind_eq_ok.mp hpush
      rw [hroom.strung.length_eq] at hset hset'
      rw [Option.isNone_some, if_neg Bool.false_ne_true]
      simp only [hrealloc, ok_bind, hdup, hset, hset']
      exact ⟨own', howns, hm.trans hm'⟩

theorem Owns.arrayPush_text (ho : Owns h array ys own) (x : CStr) (answers : Answers) :
    Alike (After h own) (arrayPush h array (.text x) answers) (pushed ys x answers) :=
  ho.arrayPush_agrees (fun _ _ => rfl) answers

/-! ## Freeing -/

theorem free_eq {a : Addr} (hne : a ≠ 0) (hlive : (h.get a).isSome) :
    free h a = .ok (h.free a) := by
  rw [free, if_neg hne, if_pos hlive]

theorem freeLoop_spec (done todo : List Addr) {rest : List (Option Addr)}
    (hcells : h.get array = some (.pointers ((done ++ todo).map some ++ some 0 :: rest)))
    (hlive : ∀ a ∈ todo, a ≠ 0 ∧ a ≠ array ∧ (h.get a).isSome) (hnodup : todo.Nodup) {fuel : ℕ}
    (hfuel : todo.length < fuel) :
    ∃ h', freeLoop array fuel h done.length = .ok h' ∧ Moves h h' todo [] := by
  induction todo generalizing h done fuel with
  | nil =>
    obtain ⟨k, rfl⟩ := Nat.exists_eq_add_one_of_ne_zero (Nat.ne_zero_of_lt hfuel)
    rw [List.append_nil] at hcells
    refine ⟨h, ?_, Moves.refl fun a ha => absurd ha List.not_mem_nil⟩
    rw [freeLoop, cellAt_pointers hcells (Nat.le_refl _), List.getD_eq_default _ _ (Nat.le_refl _),
      ok_bind, if_pos rfl]
    rfl
  | cons a todo ih =>
    obtain ⟨k, rfl⟩ := Nat.exists_eq_add_one_of_ne_zero (Nat.ne_zero_of_lt hfuel)
    rw [List.length_cons] at hfuel
    obtain ⟨hne, harray, ha⟩ := hlive a List.mem_cons_self
    obtain ⟨hnotin, hnodup'⟩ := List.nodup_cons.mp hnodup
    have hread : cellAt h array done.length = .ok a := by
      rw [cellAt_pointers hcells (by simp)]
      simp
    have hkept : ∀ b, b ≠ a → (h.free a).get b = h.get b := fun b hb => Heap.get_free_ne h hb
    have hcells' : (h.free a).get array =
        some (.pointers (((done ++ [a]) ++ todo).map some ++ some 0 :: rest)) := by
      rw [hkept array (Ne.symm harray), hcells, List.append_assoc]
      rfl
    have htodo : ∀ b ∈ todo, b ≠ a := fun b hb heq => hnotin (heq ▸ hb)
    have hlive' : ∀ b ∈ todo, b ≠ 0 ∧ b ≠ array ∧ ((h.free a).get b).isSome := by
      intro b hb
      rw [hkept b (htodo b hb)]
      exact hlive b (List.mem_cons_of_mem _ hb)
    obtain ⟨h', hloop, hm⟩ := ih (done ++ [a]) hcells' hlive' hnodup'
      (show todo.length < k by omega)
    refine ⟨h', ?_, ?_⟩
    · rw [freeLoop, hread, ok_bind, if_neg hne, free_eq hne ha, ok_bind, ← hloop,
        List.length_append, List.length_singleton]
    · have hframe := (Moves.release h a).frame todo
        (fun b hb => (hlive b (List.mem_cons_of_mem _ hb)).2.2)
        (fun b hb hmem => htodo b hb (List.mem_singleton.mp hmem))
      rw [List.append_nil] at hframe
      exact (hframe.perm List.perm_append_comm (List.Perm.refl _)).trans hm

/-- `array_free` frees the blocks of the array, and nothing else. -/
theorem Owns.arrayFree_spec (ho : Owns h array ys own) (hnodup : own.Nodup) :
    ∃ h', arrayFree h array = .ok h' ∧ Moves h h' own [] := by
  unfold arrayFree
  cases ys with
  | none =>
    obtain ⟨rfl, rfl⟩ := ho
    exact ⟨h, rfl, Moves.refl fun a ha => absurd ha List.not_mem_nil⟩
  | some xs =>
    obtain ⟨ptrs, hh, rfl⟩ := ho
    obtain ⟨rest, hrest⟩ := hh.pointers
    have hdisj := hh.strung.not_mem hrest
    have harray : (h.get array).isSome := by
      rw [hrest]
      rfl
    have hwidth := hh.lt_width
    obtain ⟨h₁, hloop, hm⟩ := freeLoop_spec [] ptrs hrest
      (fun a ha => ⟨(hh.strung.mem ha).1, fun heq => hdisj a ha (List.mem_singleton.mpr heq),
        hh.strung.live ha⟩)
      (List.nodup_append.mp hnodup).1 (show ptrs.length < width h array + 1 by omega)
    have hframe := hm.frame [array]
      (fun a ha => List.mem_singleton.mp ha ▸ harray)
      (fun a ha hmem => hdisj a hmem ha)
    have hlive : (h₁.get array).isSome :=
      hframe.live array (List.mem_append_left _ (List.mem_singleton_self _))
    rw [if_neg hh.ne_zero]
    refine ⟨h₁.free array, ?_, ?_⟩
    · show freeLoop array (width h array + 1) h ([] : List Addr).length >>= _ = _
      rw [hloop]
      exact free_eq hh.ne_zero hlive
    · rw [List.append_nil] at hframe
      exact (hframe.perm List.perm_append_comm (List.Perm.refl _)).trans (Moves.release _ _)

/-! ## Reversing -/

theorem reverseLoop_agrees (hh : Holds h array ptrs xs) {newArray : Addr} {own : List Addr}
    (ho : Owns h newArray ys own) (hdisj : ∀ a ∈ ptrs ++ [array], a ∉ own)
    (answers : ℕ → Answers) {len : ℕ} (hlen : len ≤ xs.length) :
    Alike (After h own) (reverseLoop array answers len h newArray)
      ((xs.zipIdx.take len).reverse.foldlM (fun ys x => pushed ys x.1 (answers x.2)) ys) := by
  induction len generalizing h newArray ys own with
  | zero => exact ho.after
  | succ len ih =>
    have hlt : len < ptrs.length := hh.strung.length_eq ▸ hlen
    have hstring := (hh.strung.get hlt hlen).2
    have hread : ∀ h', (∀ a y, h.get a = some (.string y) → h'.get a = some (.string y)) →
        (Source.block ptrs[len]).read h' = .ok xs[len] := by
      intro h' hkept
      unfold Source.read
      simp only [hkept _ _ hstring]
    have hstep : (xs.zipIdx.take (len + 1)).reverse =
        (xs[len], len) :: (xs.zipIdx.take len).reverse := by
      rw [List.take_succ_eq_append_getElem (by simpa using hlen), List.reverse_append]
      simp
    rw [reverseLoop, hh.cellAt_lt hlt, ok_bind, hstep, List.foldlM_cons]
    apply Alike.bind (ho.arrayPush_agrees hread (answers len))
    rintro ⟨h', newArray'⟩ zs ⟨own', ho', hm⟩
    have hkept : ∀ a ∈ ptrs ++ [array], h'.get a = h.get a :=
      fun a ha => hm.get_eq (hh.live ha) (hdisj a ha)
    have hdisj' : ∀ a ∈ ptrs ++ [array], a ∉ own' :=
      fun a ha => hm.not_mem (hh.live ha) (hdisj a ha)
    refine (ih (hh.keep hkept) ho' hdisj' (Nat.le_of_succ_le hlen)).mono ?_
    rintro s zs' ⟨own'', ho'', hm'⟩
    exact ⟨own'', ho'', hm.trans hm'⟩

/-- `array_reverse`: the old array is freed. -/
theorem Owns.arrayReverse_agrees (ho : Owns h array ys own) (hnodup : own.Nodup)
    (answers : ℕ → Answers) :
    Alike (After h own) (arrayReverse h array answers) (reversed ys answers) := by
  unfold arrayReverse reversed
  rw [ho.arrayLen_eq, ok_bind]
  cases ys with
  | none => exact ho.after
  | some xs =>
    rw [Option.getD_some]
    by_cases hnil : xs = []
    · subst hnil
      exact ho.after
    · rw [if_neg (fun hlen => hnil (List.eq_nil_of_length_eq_zero hlen)), if_neg hnil]
      obtain ⟨ptrs, hh, hown⟩ := id ho
      have hnull : Owns h 0 none [] := ⟨rfl, rfl⟩
      have hloop := reverseLoop_agrees hh hnull
        (fun a _ => List.not_mem_nil) answers (Nat.le_refl xs.length)
      rw [List.take_of_length_le (by simp)] at hloop
      rw [← bind_pure (List.foldlM _ _ _)]
      apply Alike.bind hloop
      rintro ⟨h₁, newArray⟩ zs ⟨own', ho', hm⟩
      -- the old array is there as before, and none of its blocks is one of the new array
      have hdisj : ∀ a ∈ own, a ∉ own' := fun a ha => hm.not_mem (ho.live ha) List.not_mem_nil
      have ho₁ : Owns h₁ array (some xs) own :=
        ho.keep fun a ha => hm.get_eq (ho.live ha) List.not_mem_nil
      obtain ⟨h₂, hfree, hm₂⟩ := ho₁.arrayFree_spec hnodup
      have hdisj' : ∀ a ∈ own', a ∉ own := fun a ha hmem => hdisj a hmem ha
      have hframe := hm.frame own (fun a ha => ho.live ha) fun a _ => List.not_mem_nil
      have hframe₂ := hm₂.frame own' (fun a ha => ho'.live ha) hdisj'
      rw [List.append_nil] at hframe hframe₂
      show Alike _ (arrayFree h₁ array >>= _) _
      rw [hfree, ok_bind]
      refine ⟨own', ho'.keep fun a ha => hm₂.get_eq (ho'.live ha) (hdisj' a ha), ?_⟩
      exact (hframe.perm (List.Perm.refl _) List.perm_append_comm).trans hframe₂

/-! ## Loading -/

/-- `env_array` of a file that can be opened. -/
theorem Owns.envArray_agrees (ho : Owns h array ys own) (file : List Byte)
    (answers : ℕ → Answers) :
    Alike (After h own) (envArray h array (some file) answers) (loaded ys file answers) := by
  have hbody : ∀ (s : (Heap Block × Addr) × ℕ) (t : Strings × ℕ) (line : List Byte),
      After h own s.1 t.1 ∧ s.2 = t.2 →
        Alike (fun s t => After h own s.1 t.1 ∧ s.2 = t.2) (envBody answers s line)
          (loadBody answers t line) := by
    rintro ⟨⟨h₁, array₁⟩, k⟩ ⟨zs, k'⟩ line ⟨⟨own₁, ho₁, hm₁⟩, hk⟩
    obtain rfl : k = k' := hk
    unfold envBody loadBody
    cases envLine line with
    | none => exact ⟨⟨own₁, ho₁, hm₁⟩, rfl⟩
    | some x =>
      apply Alike.bind (ho₁.arrayPush_text x (answers k))
      rintro s zs' ⟨own₂, ho₂, hm₂⟩
      exact ⟨⟨own₂, ho₂, hm₁.trans hm₂⟩, rfl⟩
  have hloop := Alike.eachLine maxBuffer .running hbody (file.length + 1) file
      (a := ((h, array), 0)) (b := (ys, 0)) ⟨ho.after, rfl⟩
  apply Alike.bind hloop
  intro s t hst
  exact hst.1

end CompatSuva.Sutil.DynArray
