import CompatSuva.Sutil.DynArray

/-!
# Programs that use dynamic arrays

A program has pointers to arrays in its variables, and works on them with `array_push`,
`array_reverse`, `array_free` and `env_array` alone: what a function returns is assigned to the
variable it was given, and NULL after `array_free`, as in `mem_dump`. Whatever is called in which
order, and whichever allocations fail, no function accesses what is not live, the arrays hold the
strings they should, and each block is part of one array. What is lost are the arrays for which
`env_array` finds no file to open: it returns NULL for them.

* `program_agrees`: any calls, in terms of the strings of the arrays;
* `leaked_iff`: when there is no memory left after all arrays have been freed;
* `loads_iff`: which lines of a file become the strings of an array.
-/

namespace CompatSuva.Sutil.DynArray

open CompatSuva.Common CompatSuva.Scl

/-! ## Programs -/

/-- The heap, and the variables of the program. -/
structure State (n : ℕ) where
  heap : Heap Block
  vars : Fin n → Addr

/-- A call, for the array of a variable. -/
inductive Op (n : ℕ) where
  | push (i : Fin n) (string : CStr) (answers : Answers)
  | reverse (i : Fin n) (answers : ℕ → Answers)
  | free (i : Fin n)
  | env (i : Fin n) (file : Option (List Byte)) (answers : ℕ → Answers)

variable {n : ℕ}

/-- The variable. -/
def Op.var : Op n → Fin n
  | .push i _ _ => i
  | .reverse i _ => i
  | .free i => i
  | .env i _ _ => i

/-- The heap, and what is assigned to the variable. -/
def Op.call (h : Heap Block) (array : Addr) : Op n → Except Fault (Heap Block × Addr)
  | .push _ string answers => arrayPush h array (.text string) answers
  | .reverse _ answers => arrayReverse h array answers
  | .free _ => do
    let h ← arrayFree h array
    return (h, 0)
  | .env _ file answers => envArray h array file answers

def State.step (s : State n) (op : Op n) : Except Fault (State n) := do
  let r ← op.call s.heap (s.vars op.var)
  return ⟨r.1, Function.update s.vars op.var r.2⟩

def State.run (s : State n) (ops : List (Op n)) : Except Fault (State n) := ops.foldlM State.step s

/-- No memory is in use, and the variables are NULL. -/
def State.initial (n : ℕ) : State n := ⟨.empty, fun _ => 0⟩

/-- All arrays are freed. -/
def frees (n : ℕ) : List (Op n) := (List.finRange n).map .free

/-! ## In terms of the strings -/

/-- The arrays of the variables, and the number of blocks that no variable leads to. -/
structure Contents (n : ℕ) where
  arrays : Fin n → Strings
  lost : ℕ

/-- The blocks of an array. -/
def blocks : Strings → ℕ
  | none => 0
  | some xs => xs.length + 1

/-- What becomes of an array, and how many of its blocks are lost. -/
def Op.spec (xs : Strings) : Op n → Except Fault (Strings × ℕ)
  | .push _ string answers => do
    let ys ← pushed xs string answers
    return (ys, 0)
  | .reverse _ answers => do
    let ys ← reversed xs answers
    return (ys, 0)
  | .free _ => .ok (none, 0)
  | .env _ none _ => .ok (none, blocks xs)
  | .env _ (some file) answers => do
    let ys ← loaded xs file answers
    return (ys, 0)

def Contents.step (A : Contents n) (op : Op n) : Except Fault (Contents n) := do
  let r ← op.spec (A.arrays op.var)
  return ⟨Function.update A.arrays op.var r.1, A.lost + r.2⟩

def Contents.run (A : Contents n) (ops : List (Op n)) : Except Fault (Contents n) :=
  ops.foldlM Contents.step A

def Contents.initial (n : ℕ) : Contents n := ⟨fun _ => none, 0⟩

/-- The live blocks are divided among the arrays of the variables, which hold these strings, and
    those that are lost. -/
def Represents (s : State n) (A : Contents n) : Prop :=
  ∃ own : Option (Fin n) → List Addr, Divided s.heap own ∧
    (∀ i, Owns s.heap (s.vars i) (A.arrays i) (own (some i))) ∧ (own none).length = A.lost

theorem represents_initial (n : ℕ) : Represents (.initial n) (.initial n) :=
  ⟨fun _ => [], Divided.empty, fun _ => ⟨rfl, rfl⟩, rfl⟩

theorem Owns.length_eq {h : Heap Block} {array : Addr} {ys : Strings} {own : List Addr}
    (ho : Owns h array ys own) : own.length = blocks ys := by
  cases ys with
  | none => rw [ho.2]; rfl
  | some xs =>
    obtain ⟨ptrs, hh, rfl⟩ := ho
    rw [List.length_append, hh.strung.length_eq]
    rfl

variable {s : State n} {A : Contents n}

/-! ## One call -/

/-- An array takes the place of that of a variable. -/
theorem represents_update {own : Option (Fin n) → List Addr} (hd : Divided s.heap own)
    (howns : ∀ i, Owns s.heap (s.vars i) (A.arrays i) (own (some i)))
    (hlost : (own none).length = A.lost) {i : Fin n} {h : Heap Block} {array : Addr} {ys : Strings}
    (hafter : After s.heap (own (some i)) (h, array) ys) :
    Represents ⟨h, Function.update s.vars i array⟩ ⟨Function.update A.arrays i ys, A.lost + 0⟩ := by
  obtain ⟨own', ho', hm⟩ := hafter
  refine ⟨Function.update own (some i) own', hd.move hm, fun j => ?_, ?_⟩
  · show Owns h (Function.update s.vars i array j) (Function.update A.arrays i ys j) _
    by_cases hj : j = i
    · subst hj
      rw [Function.update_self, Function.update_self, Function.update_self]
      exact ho'
    · have hne : some j ≠ some i := fun heq => hj (Option.some.inj heq)
      rw [Function.update_of_ne hj, Function.update_of_ne hj, Function.update_of_ne hne]
      exact (howns j).keep fun a ha => hd.get_eq hm hne ha
  · rw [Function.update_of_ne (Option.some_ne_none i).symm]
    exact hlost

/-- The array of a variable is lost. -/
theorem represents_lose {own : Option (Fin n) → List Addr} (hd : Divided s.heap own)
    (howns : ∀ i, Owns s.heap (s.vars i) (A.arrays i) (own (some i)))
    (hlost : (own none).length = A.lost) (i : Fin n) :
    Represents ⟨s.heap, Function.update s.vars i 0⟩
      ⟨Function.update A.arrays i none, A.lost + blocks (A.arrays i)⟩ := by
  refine ⟨_, hd.hand (Option.some_ne_none i), fun j => ?_, ?_⟩
  · show Owns s.heap (Function.update s.vars i 0 j) (Function.update A.arrays i none j) _
    rw [Function.update_of_ne (Option.some_ne_none j)]
    by_cases hj : j = i
    · subst hj
      rw [Function.update_self, Function.update_self, Function.update_self]
      exact ⟨rfl, rfl⟩
    · have hne : some j ≠ some i := fun heq => hj (Option.some.inj heq)
      rw [Function.update_of_ne hj, Function.update_of_ne hj, Function.update_of_ne hne]
      exact howns j
  · rw [Function.update_self, List.length_append, (howns i).length_eq, hlost]

theorem step_agrees (hrep : Represents s A) (op : Op n) :
    Alike Represents (s.step op) (A.step op) := by
  obtain ⟨own, hd, howns, hlost⟩ := hrep
  have hvar : ∀ (i : Fin n) (m : Except Fault (Heap Block × Addr)) (m' : Except Fault Strings),
      Alike (After s.heap (own (some i))) m m' →
        Alike Represents
          (m >>= fun r => Except.ok (⟨r.1, Function.update s.vars i r.2⟩ : State n))
          ((m' >>= fun ys => Except.ok (ys, 0)) >>= fun r =>
            Except.ok (⟨Function.update A.arrays i r.1, A.lost + r.2⟩ : Contents n)) := by
    intro i m m' hm
    rw [bind_assoc]
    apply Alike.bind hm
    intro r ys hafter
    exact represents_update hd howns hlost hafter
  cases op with
  | push i string answers =>
    exact hvar i _ _ ((howns i).arrayPush_text string answers)
  | reverse i answers =>
    exact hvar i _ _ ((howns i).arrayReverse_agrees (hd.nodup _) answers)
  | free i =>
    obtain ⟨h', hfree, hm⟩ := (howns i).arrayFree_spec (hd.nodup _)
    have hafter : After s.heap (own (some i)) (h', 0) none := ⟨[], ⟨rfl, rfl⟩, hm⟩
    have hstep : s.step (.free i) = .ok ⟨h', Function.update s.vars i 0⟩ := by
      show (arrayFree s.heap (s.vars i) >>= _) >>= _ = _
      rw [hfree]
      rfl
    rw [hstep]
    exact represents_update hd howns hlost hafter
  | env i file answers =>
    cases file with
    | none => exact represents_lose hd howns hlost i
    | some file => exact hvar i _ _ ((howns i).envArray_agrees file answers)

/-! ## Runs -/

theorem run_agrees (hrep : Represents s A) (ops : List (Op n)) :
    Alike Represents (s.run ops) (A.run ops) :=
  Alike.foldlM (fun _ _ op h => step_agrees h op) ops hrep

/-- The live blocks, counted. -/
theorem Represents.size_eq (hrep : Represents s A) :
    s.heap.size = A.lost + ∑ i, blocks (A.arrays i) := by
  obtain ⟨own, hd, howns, hlost⟩ := hrep
  rw [hd.size_eq, Fintype.sum_option, hlost]
  congr 1
  exact Finset.sum_congr rfl fun i _ => (howns i).length_eq

/-- Any calls, whatever the allocations answer: the program ends when a `realloc` fails, and has
    undefined behaviour only when an array gets longer than an `int` can count. Otherwise the
    arrays hold the strings that they should, and no block is in two of them. -/
theorem program_agrees (ops : List (Op n)) :
    Alike (fun s A => Represents s A ∧ s.heap.size = A.lost + ∑ i, blocks (A.arrays i))
      ((State.initial n).run ops) ((Contents.initial n).run ops) :=
  (run_agrees (represents_initial n) ops).mono fun _ _ hrep => ⟨hrep, hrep.size_eq⟩

/-! ## An allocator -/

/-- The address above all that are in use. -/
def next (h : Heap Block) : Addr := h.cells.keys.sum + 1

theorem get_next (h : Heap Block) : h.get (next h) = none := by
  by_contra hne
  have hkeys : next h ∈ h.cells.keys :=
    AList.mem_keys.mp (AList.lookup_isSome.mp (Option.isSome_iff_ne_none.mpr hne))
  exact absurd (List.le_sum_of_mem hkeys) (Nat.not_succ_le_self _)

def Malloc.atNext : Malloc := ⟨next, fun _ => Nat.succ_ne_zero _, get_next⟩

/-- The block is always moved. -/
def Realloc.toNext : Realloc :=
  ⟨fun h _ => next h, fun _ _ => Nat.succ_ne_zero _, fun h _ => Or.inr (get_next h)⟩

/-- Every allocation succeeds. -/
def succeeding : Answers := ⟨some .toNext, some .atNext⟩

/-! ## Leaks -/

theorem Represents.eq_zero_iff (hrep : Represents s A) (i : Fin n) :
    s.vars i = 0 ↔ A.arrays i = none := by
  obtain ⟨own, -, howns, -⟩ := hrep
  have ho := howns i
  cases harray : A.arrays i with
  | none =>
    rw [harray] at ho
    exact iff_of_true ho.1 rfl
  | some xs =>
    rw [harray] at ho
    obtain ⟨ptrs, hh, -⟩ := ho
    exact iff_of_false hh.ne_zero (Option.some_ne_none xs)

theorem blocks_eq_zero {xs : Strings} : blocks xs = 0 ↔ xs = none := by
  cases xs with
  | none => exact iff_of_true rfl rfl
  | some xs => exact iff_of_false (Nat.succ_ne_zero _) (Option.some_ne_none xs)

theorem run_frees (A : Contents n) (is : List (Fin n)) :
    A.run (is.map .free) = .ok ⟨fun i => if i ∈ is then none else A.arrays i, A.lost⟩ := by
  induction is generalizing A with
  | nil => rfl
  | cons i is ih =>
    rw [List.map_cons]
    refine (ih ⟨Function.update A.arrays i none, A.lost + 0⟩).trans (congrArg Except.ok ?_)
    congr 1
    funext j
    by_cases hj : j = i
    · subst hj
      simp
    · simp [hj]

/-- What a call loses. -/
theorem step_lost {A B : Contents n} {op : Op n} (h : A.step op = .ok B) :
    B.lost = 0 ↔ A.lost = 0 ∧ ∀ i answers, op = .env i none answers → A.arrays i = none := by
  obtain ⟨r, hspec, hB⟩ := bind_eq_ok.mp h
  obtain rfl := Except.ok.inj hB
  have hkept : ∀ {m : Except Fault Strings}, (m >>= fun ys => Except.ok (ys, 0)) = .ok r →
      r.2 = 0 := by
    intro m hm
    obtain ⟨ys, -, hr⟩ := bind_eq_ok.mp hm
    rw [← Except.ok.inj hr]
  show A.lost + r.2 = 0 ↔ _
  cases op with
  | push i string answers => simp [hkept hspec]
  | reverse i answers => simp [hkept hspec]
  | free i => simp [← Except.ok.inj hspec]
  | env i file answers =>
    cases file with
    | some file => simp [hkept hspec]
    | none =>
      rw [← Except.ok.inj hspec, Nat.add_eq_zero_iff, blocks_eq_zero]
      refine and_congr_right fun _ => ⟨fun hnone j answers' heq => ?_, fun hall => ?_⟩
      swap
      · exact hall i answers rfl
      obtain ⟨rfl, -, -⟩ := Op.env.inj heq
      exact hnone

theorem run_lost {A B : Contents n} {ops : List (Op n)} (h : A.run ops = .ok B) :
    B.lost = 0 ↔ A.lost = 0 ∧
      ∀ before i answers after, ops = before ++ .env i none answers :: after → ∀ C,
        A.run before = .ok C → C.arrays i = none := by
  induction ops generalizing A with
  | nil =>
    obtain rfl := Except.ok.inj h
    simp
  | cons op ops ih =>
    rw [Contents.run, List.foldlM_cons] at h
    obtain ⟨A₁, hstep, hrun⟩ := bind_eq_ok.mp h
    have hcons : ∀ before, A.run (op :: before) = A₁.run before := by
      intro before
      rw [Contents.run, List.foldlM_cons, hstep]
      rfl
    rw [ih hrun, step_lost hstep, and_assoc]
    refine and_congr_right fun _ => ⟨fun ⟨hfirst, hrest⟩ => ?_, fun hall => ⟨?_, ?_⟩⟩
    · intro before i answers after heq C hC
      cases before with
      | nil =>
        obtain rfl := Except.ok.inj hC
        exact hfirst i answers (List.cons.inj heq).1
      | cons op' before =>
        obtain ⟨rfl, htail⟩ := List.cons.inj heq
        exact hrest before i answers after htail C ((hcons before).symm.trans hC)
    · intro i answers heq
      exact hall [] i answers ops (congrArg (· :: ops) heq) A rfl
    · intro before i answers after heq C hC
      exact hall (op :: before) i answers after (congrArg (op :: ·) heq) C ((hcons before).trans hC)

/-- Nothing is left when all arrays have been freed exactly if `env_array` was called with NULL
    whenever it found no file. -/
theorem leaked_iff {ops : List (Op n)} (h : (State.initial n).run ops = .ok s) :
    ∃ s', s.run (frees n) = .ok s' ∧
      (s'.heap.size = 0 ↔ ∀ before i answers after, ops = before ++ .env i none answers :: after →
        ∀ t, (State.initial n).run before = .ok t → t.vars i = 0) := by
  obtain ⟨A, hA, hrep⟩ := (run_agrees (represents_initial n) ops).ok_left h
  have hfrees := run_frees A (List.finRange n)
  obtain ⟨s', hs', hrep'⟩ := (run_agrees hrep (frees n)).ok_right hfrees
  refine ⟨s', hs', ?_⟩
  have hsize : s'.heap.size = A.lost := by
    rw [hrep'.size_eq]
    simp [blocks]
  rw [hsize, run_lost hA]
  constructor
  · rintro ⟨-, hall⟩ before i answers after heq t ht
    obtain ⟨C, hC, hrepC⟩ := (run_agrees (represents_initial n) before).ok_left ht
    exact (hrepC.eq_zero_iff i).mpr (hall before i answers after heq C hC)
  · intro hall
    refine ⟨rfl, fun before i answers after heq C hC => ?_⟩
    obtain ⟨t, ht, hrepC⟩ := (run_agrees (represents_initial n) before).ok_right hC
    exact (hrepC.eq_zero_iff i).mp (hall before i answers after heq t ht)

/-- `env_array` finds no file: before the first string it is given NULL, and nothing is lost;
    behind it the array is. -/
theorem leaked_env :
    (∃ s s', (State.initial 1).run [.env 0 none fun _ => succeeding,
        .push 0 ⟨chars "suva", by decide⟩ succeeding] = .ok s ∧
      s.run (frees 1) = .ok s' ∧ s'.heap.size = 0) ∧
    ∃ s s', (State.initial 1).run [.push 0 ⟨chars "suva", by decide⟩ succeeding,
        .env 0 none fun _ => succeeding] = .ok s ∧
      s.run (frees 1) = .ok s' ∧ s'.heap.size ≠ 0 := by
  constructor
  · obtain ⟨s, hs, -⟩ := (run_agrees (represents_initial 1) [.env 0 none fun _ => succeeding,
      .push 0 ⟨chars "suva", by decide⟩ succeeding]).ok_right rfl
    obtain ⟨s', hs', hiff⟩ := leaked_iff hs
    refine ⟨s, s', hs, hs', hiff.mpr ?_⟩
    intro before i answers after heq t ht
    cases before with
    | nil =>
      rw [← Except.ok.inj ht]
      rfl
    | cons op before =>
      have hmem : Op.env i none answers ∈ [Op.push 0 ⟨chars "suva", by decide⟩ succeeding] := by
        rw [(List.cons.inj heq).2]
        exact List.mem_append_right _ List.mem_cons_self
      simp at hmem
  · obtain ⟨s, hs, -⟩ := (run_agrees (represents_initial 1) [.push 0 ⟨chars "suva", by decide⟩
      succeeding, .env 0 none fun _ => succeeding]).ok_right rfl
    obtain ⟨s', hs', hiff⟩ := leaked_iff hs
    refine ⟨s, s', hs, hs', fun hzero => ?_⟩
    obtain ⟨t, ht, hrep⟩ := (run_agrees (represents_initial 1)
      [.push 0 ⟨chars "suva", by decide⟩ succeeding]).ok_right rfl
    have hnone := (hrep.eq_zero_iff 0).mp (hiff.mp hzero _ 0 _ [] rfl t ht)
    exact Option.some_ne_none _ hnone

/-! ## Files of lines -/

/-- The strings in a file. -/
def words (file : List Byte) : List CStr :=
  (pieces maxBuffer (file.length + 1) file).filterMap envLine

/-- No allocation fails. -/
def Granted (answers : ℕ → Answers) : Prop :=
  ∀ k, (answers k).realloc.isSome = true ∧ (answers k).strdup.isSome = true

theorem pushed_granted {answers : ℕ → Answers} (hgranted : Granted answers) (k : ℕ) (ys : Strings)
    (hlen : (ys.getD []).length + 2 ≤ intMax) (x : CStr) :
    pushed ys x (answers k) = .ok (some (ys.getD [] ++ [x])) := by
  obtain ⟨hrealloc, hstrdup⟩ := hgranted k
  rw [pushed, if_neg (by omega), if_neg (by rw [Option.isNone_eq_false_iff.mpr hrealloc]; decide),
    if_pos hstrdup]

theorem load_lines {answers : ℕ → Answers} (hgranted : Granted answers) (ls : List (List Byte))
    (k : ℕ) (ys : Strings) (hlen : (ys.getD []).length + ls.length < intMax) :
    ∃ zs k', ls.foldlM (loadBody answers) (ys, k) = .ok (zs, k') ∧
      zs.getD [] = ys.getD [] ++ ls.filterMap envLine := by
  induction ls generalizing k ys with
  | nil => exact ⟨ys, k, rfl, (List.append_nil _).symm⟩
  | cons l ls ih =>
    rw [List.length_cons] at hlen
    rw [List.foldlM_cons, loadBody]
    cases hl : envLine l with
    | none =>
      rw [List.filterMap_cons_none hl]
      exact ih (k + 1) ys (by omega)
    | some x =>
      have hpush := pushed_granted hgranted k ys (by omega) x
      obtain ⟨zs, k', hrun, hzs⟩ := ih (k + 1) (some (ys.getD [] ++ [x]))
        (by rw [Option.getD_some, List.length_append, List.length_singleton]; omega)
      refine ⟨zs, k', ?_, ?_⟩
      · simp only [hpush, ok_bind]
        exact hrun
      · rw [hzs, List.filterMap_cons_some hl, Option.getD_some, List.append_assoc]
        rfl

theorem loaded_eq {answers : ℕ → Answers} (hgranted : Granted answers) {ys : Strings}
    {file : List Byte} (hlen : (ys.getD []).length + file.length < intMax) :
    ∃ zs, loaded ys file answers = .ok zs ∧ zs.getD [] = ys.getD [] ++ words file := by
  obtain ⟨ps, hps⟩ := pieces_exist (show 2 ≤ maxBuffer by decide) file
  have hcount := hps.length_le (by decide)
  have hpieces := pieces_eq hps (show ps.length < file.length + 1 by omega)
  obtain ⟨zs, k', hrun, hzs⟩ := load_lines hgranted (ps.map cstr) 0 ys
    (by rw [List.length_map]; omega)
  refine ⟨zs, ?_, ?_⟩
  · rw [loaded, eachLine_eq (by decide) _ _ _ (Nat.lt_succ_self _), hpieces, hrun]
    rfl
  · rw [hzs, words, hpieces]

/-- A line that becomes a string as it is. -/
def Plain (l : CStr) : Prop := l.val ≠ [] ∧ l.val.length ≤ 1023 ∧ ∀ c ∈ l.val, isEnv c = true

theorem envLine_plain {buffer : List Byte} (hne : buffer ≠ []) {x : CStr}
    (h : envLine buffer = some x) : Plain x := by
  rw [envLine] at h
  split_ifs at h with hnone
  obtain rfl := Option.some.inj h
  refine ⟨fun hnil => hnone ⟨hne, hnil⟩, List.length_take_le _ _, fun c hc => ?_⟩
  exact List.mem_takeWhile_imp (List.mem_of_mem_take hc)

theorem words_plain {file : List Byte} (hnul : (0 : Byte) ∉ file) : ∀ x ∈ words file, Plain x := by
  intro x hx
  obtain ⟨ps, hps⟩ := pieces_exist (show 2 ≤ maxBuffer by decide) file
  have hcount := hps.length_le (by decide)
  rw [words, pieces_eq hps (show ps.length < file.length + 1 by omega)] at hx
  obtain ⟨l, hl, hx⟩ := List.mem_filterMap.mp hx
  obtain ⟨p, hp, rfl⟩ := List.mem_map.mp hl
  have hp0 : (0 : Byte) ∉ p := fun hmem =>
    hnul (hps.flatten ▸ List.mem_flatten.mpr ⟨p, hp, hmem⟩)
  rw [cstr_noNul hp0] at hx
  exact envLine_plain (hps.ne_nil (by decide) p hp) hx

/-- How a plain line is read: where it fills the buffer, its newline comes with the next call. -/
def readings (l : CStr) : List (List Byte) :=
  if l.val.length < 1023 then [l.val ++ [10]] else [l.val, [10]]

theorem takeLine_full {n : ℕ} {line : List Byte} (hline : 10 ∉ line) (hlen : line.length = n)
    (rest : List Byte) : takeLine n (line ++ rest) = line := by
  induction line generalizing n with
  | nil =>
    obtain rfl : n = 0 := hlen.symm
    rfl
  | cons b line ih =>
    obtain ⟨k, rfl⟩ : ∃ k, n = k + 1 := ⟨line.length, by rw [← hlen, List.length_cons]⟩
    have hb : b ≠ 10 := fun h => hline (h ▸ List.mem_cons_self)
    have htail : 10 ∉ line := fun h => hline (List.mem_cons_of_mem _ h)
    rw [List.length_cons] at hlen
    rw [List.cons_append, takeLine, if_neg hb, ih htail (by omega)]

theorem pieces_readings {lines : List CStr} (hlines : ∀ l ∈ lines, (10 : Byte) ∉ l.val)
    (hplain : ∀ l ∈ lines, Plain l) :
    Pieces maxBuffer (lines.flatMap readings) (fileOf (lines.map (·.val)) []) := by
  induction lines with
  | nil => rfl
  | cons l lines ih =>
    have hline := hlines l List.mem_cons_self
    obtain ⟨hne, hlen, -⟩ := hplain l List.mem_cons_self
    have hrest := ih (fun m hm => hlines m (List.mem_cons_of_mem _ hm))
      fun m hm => hplain m (List.mem_cons_of_mem _ hm)
    have hfile : fileOf ((l :: lines).map (·.val)) [] =
        l.val ++ 10 :: fileOf (lines.map (·.val)) [] := by
      simp [fileOf]
    have hfirst : fgets maxBuffer (l.val ++ 10 :: fileOf (lines.map (·.val)) []) =
        some (takeLine 1023 (l.val ++ 10 :: fileOf (lines.map (·.val)) [])) :=
      if_neg (by simp)
    rw [hfile, List.flatMap_cons, readings]
    split_ifs with hshort
    · rw [takeLine_line hline hshort] at hfirst
      rw [List.singleton_append]
      refine ⟨hfirst, ?_⟩
      have hdrop : (l.val ++ 10 :: fileOf (lines.map (·.val)) []).drop (l.val ++ [10]).length =
          fileOf (lines.map (·.val)) [] :=
        (congrArg (List.drop _) (List.append_cons _ _ _)).trans List.drop_left
      rw [hdrop]
      exact hrest
    · have hfull : l.val.length = 1023 := Nat.le_antisymm hlen (Nat.le_of_not_lt hshort)
      rw [takeLine_full hline hfull] at hfirst
      refine ⟨hfirst, ?_⟩
      rw [List.drop_left]
      exact ⟨rfl, hrest⟩

theorem envLine_readings {l : CStr} (hplain : Plain l) :
    ((readings l).map cstr).filterMap envLine = [l] := by
  obtain ⟨hne, hlen, henv⟩ := hplain
  have hword : ∀ rest, (rest = [] ∨ rest = [10]) →
      ((l.val ++ rest).takeWhile isEnv).take 1023 = l.val := by
    intro rest hrest
    rw [List.takeWhile_append_of_pos henv]
    rcases hrest with rfl | rfl
    · rw [List.takeWhile_nil, List.append_nil, List.take_of_length_le hlen]
    · rw [List.takeWhile_cons_of_neg (by decide), List.append_nil, List.take_of_length_le hlen]
  have hread : ∀ rest, (rest = [] ∨ rest = [10]) → envLine (cstr (l.val ++ rest)) = some l := by
    intro rest hrest
    have hnul : (0 : Byte) ∉ l.val ++ rest := by
      rw [List.mem_append, not_or]
      refine ⟨l.property, ?_⟩
      rcases hrest with rfl | rfl
      · exact List.not_mem_nil
      · decide
    rw [cstr_noNul hnul, envLine, if_neg (fun h => hne (hword rest hrest ▸ h.2))]
    exact congrArg some (Subtype.ext (hword rest hrest))
  rw [readings]
  split_ifs with hshort
  · rw [List.map_singleton, List.filterMap_cons_some (hread [10] (Or.inr rfl))]
    rfl
  · have hfull := hread [] (Or.inl rfl)
    rw [List.append_nil] at hfull
    rw [List.map_cons, List.filterMap_cons_some hfull]
    rfl

theorem words_fileOf_iff {lines : List CStr} (hlines : ∀ l ∈ lines, (10 : Byte) ∉ l.val) :
    words (fileOf (lines.map (·.val)) []) = lines ↔ ∀ l ∈ lines, Plain l := by
  constructor
  · intro h l hl
    have hnul : (0 : Byte) ∉ fileOf (lines.map (·.val)) [] := by
      rw [fileOf, List.append_nil]
      intro hmem
      obtain ⟨w, hw, hmem⟩ := List.mem_flatMap.mp hmem
      obtain ⟨m, -, rfl⟩ := List.mem_map.mp hw
      obtain hmem | hmem := List.mem_append.mp hmem
      · exact m.property hmem
      · exact absurd (List.mem_singleton.mp hmem) (by decide)
    exact words_plain hnul l (h.symm ▸ hl)
  · intro hplain
    have hps := pieces_readings hlines hplain
    have hcount := hps.length_le (by decide)
    rw [words, pieces_eq hps (by omega), List.map_flatMap, List.filterMap_flatMap]
    calc lines.flatMap (fun l => ((readings l).map cstr).filterMap envLine)
        = lines.flatMap fun l => [l] :=
          List.flatMap_congr fun l hl => envLine_readings (hplain l hl)
      _ = lines := List.flatMap_singleton' lines

/-- When no allocation fails, the lines of a file become the strings of the array exactly if none
    of them is empty, has a character that is not accepted, or fills more than the buffer. -/
theorem loads_iff {h : Heap Block} {array : Addr} {ys : Strings} {own : List Addr}
    (ho : Owns h array ys own) {lines : List CStr} (hlines : ∀ l ∈ lines, (10 : Byte) ∉ l.val)
    {answers : ℕ → Answers} (hgranted : Granted answers)
    (hlen : (ys.getD []).length + (fileOf (lines.map (·.val)) []).length < intMax) :
    ∃ s zs, envArray h array (some (fileOf (lines.map (·.val)) [])) answers = .ok s ∧
      After h own s zs ∧ (zs.getD [] = ys.getD [] ++ lines ↔ ∀ l ∈ lines, Plain l) := by
  obtain ⟨zs, hload, hzs⟩ := loaded_eq hgranted hlen
  obtain ⟨s, hs, hafter⟩ := (ho.envArray_agrees _ answers).ok_right hload
  refine ⟨s, zs, hs, hafter, ?_⟩
  rw [hzs, List.append_cancel_left_eq, words_fileOf_iff hlines]

/-- Two lines are loaded behind a string that is there already. -/
theorem loads_two : ∃ t, (State.initial 1).run [.push 0 ⟨chars "A=b", by decide⟩ succeeding] =
    .ok t ∧
    ∃ s own zs, envArray t.heap (t.vars 0) (some (chars "PATH=/bin:/usr/bin\nC=\"d e\"\n"))
        (fun _ => succeeding) = .ok s ∧ After t.heap own s zs ∧
      zs.getD [] = [⟨chars "A=b", by decide⟩, ⟨chars "PATH=/bin:/usr/bin", by decide⟩,
        ⟨chars "C=\"d e\"", by decide⟩] := by
  obtain ⟨t, ht, own, -, howns, -⟩ := (run_agrees (represents_initial 1)
    [.push 0 ⟨chars "A=b", by decide⟩ succeeding]).ok_right rfl
  have ho : Owns t.heap (t.vars 0) (some [⟨chars "A=b", by decide⟩]) (own (some 0)) := howns 0
  have hgranted : Granted fun _ => succeeding := fun _ => ⟨rfl, rfl⟩
  have hlines : ∀ l ∈ [chars "PATH=/bin:/usr/bin", chars "C=\"d e\""],
      (10 : Byte) ∉ l ∧ l ≠ [] ∧ l.length ≤ 1023 ∧ l.all isEnv = true := by decide
  have hlen : (fileOf [chars "PATH=/bin:/usr/bin", chars "C=\"d e\""] []).length = 27 := by decide
  have hnoLine : ∀ l ∈ ([⟨chars "PATH=/bin:/usr/bin", by decide⟩,
      ⟨chars "C=\"d e\"", by decide⟩] : List CStr), (10 : Byte) ∉ l.val := fun l hl =>
    (hlines l.val (List.mem_map_of_mem hl)).1
  obtain ⟨s, zs, hs, hafter, hiff⟩ := loads_iff ho hnoLine hgranted (by
      show 1 + (fileOf [chars "PATH=/bin:/usr/bin", chars "C=\"d e\""] []).length < intMax
      rw [hlen]
      norm_num [intMax])
  refine ⟨t, ht, s, own (some 0), zs, hs, hafter, hiff.mpr fun l hl => ?_⟩
  obtain ⟨-, hne, hshort, hall⟩ := hlines l.val (List.mem_map_of_mem hl)
  exact ⟨hne, hshort, List.all_eq_true.mp hall⟩

end CompatSuva.Sutil.DynArray
