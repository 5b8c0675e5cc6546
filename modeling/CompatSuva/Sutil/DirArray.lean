import CompatSuva.Sutil.ArgArray

/-!
# Splitting a dotted name

Model of `dir_array` (`sutil.c` lines 321–363), which splits a name at its dots and puts a slash in
front of each component. They are put together in a buffer with `strncat`, whose limit is computed
from the length of the component, as a `size_t`: what is left of the buffer for the shorter ones,
less than the component from the middle of the buffer on, and no limit at all for those that do not
fit.

* `dirLoop_eq`: the loop, in terms of the string;
* `dirs_eq`: the components, those of the string without leading spaces;
* `dirArray_iff`: when all is copied, and when the buffer is not overrun.
-/

namespace CompatSuva.Sutil

open CompatSuva.Common CompatSuva.Scl

/-! ## Model -/

/-- `MAX_BUFFER`. -/
def maxBuffer : ℕ := 1024

/-- `strncat(dst, src, n)`, into a buffer of `MAX_BUFFER` bytes. -/
def strncat (dst src : List Byte) (n : ℕ) : Except Fault (List Byte) :=
  if dst.length + (src.take n).length < maxBuffer then .ok (dst ++ src.take n) else .error .overflow

/-- `MAX_BUFFER - strlen(dir_start) - 2`, a `size_t`. -/
def limit (len : ℕ) : ℕ := (((maxBuffer : ℤ) - len - 2) % 2 ^ 64).toNat

/-- `buffer`, which holds `"/"`, with a component. -/
def component (dir : List Byte) : Except Fault (List Byte) :=
  strncat (chars "/") dir (limit dir.length)

/-- The variables of `dir_array`; `tmp` is what `dir_tmp` points to, the cursors are indices. -/
structure DirState where
  tmp : List Byte
  dirStart : ℕ
  dirEnd : ℕ
  array : List (List Byte)

/-- The loop (lines 328–358). -/
def dirLoop : ℕ → DirState → Except Fault (List (List Byte))
  | 0, _ => .error .running
  | fuel + 1, s => do
    let c ← byteAt .outside s.tmp s.dirStart
    if c = 0 then return s.array
    else if c = 32 then
      dirLoop fuel { s with dirStart := s.dirStart + 1, dirEnd := s.dirStart + 1 }
    else
      let e ← byteAt .outside s.tmp s.dirEnd
      if e = 46 ∨ e = 0 then
        if e = 0 then
          let dir ← stringAt .outside s.tmp s.dirStart
          let buffer ← component dir
          return arrayPush s.array buffer
        else
          let tmp := s.tmp.set s.dirEnd 0
          let dir ← stringAt .outside tmp s.dirStart
          let buffer ← component dir
          dirLoop fuel ⟨tmp, s.dirEnd + 1, s.dirEnd + 1, arrayPush s.array buffer⟩
      else dirLoop fuel { s with dirEnd := s.dirEnd + 1 }

/-- `dir_array`. -/
def dirArray (array : List (List Byte)) (dir : CStr) : Except Fault (List (List Byte)) :=
  dirLoop (dir.val.length + 1) ⟨dir.val ++ [0], 0, 0, array⟩

/-! ## In terms of the string -/

/-- The components of a string, of the first of which `w` has been passed. -/
def dirs : List Byte → List Byte → List (List Byte)
  | w, [] => if w = [] then [] else [w]
  | w, c :: rest =>
    if w = [] ∧ c = 32 then dirs [] rest
    else if c = 46 then w :: dirs [] rest
    else dirs (w ++ [c]) rest

/-- Push the components. -/
def pushAll (array : List (List Byte)) (ws : List (List Byte)) : Except Fault (List (List Byte)) :=
  ws.foldlM (fun array w => do
    let buffer ← component w
    return arrayPush array buffer) array

/-- What `dir_end` alone has passed does not start with a byte that is skipped. -/
def Begun (w : List Byte) : Prop := (0 : Byte) ∉ w ∧ w.head? ≠ some 32

/-- The variables when `dir_end` has passed `before` and `w`. -/
def dirCursors (before w rest : List Byte) (array : List (List Byte)) : DirState :=
  ⟨before ++ (w ++ (rest ++ [0])), before.length, before.length + w.length, array⟩

theorem byteAt_start (before : List Byte) {w : List Byte} (hw : w ≠ []) (rest : List Byte) :
    byteAt Fault.outside (before ++ (w ++ rest)) before.length = .ok (w.head hw) := by
  obtain ⟨d, w, rfl⟩ := List.exists_cons_of_ne_nil hw
  exact byteAt_append _ _ _ _ rfl

theorem byteAt_stop (before w : List Byte) (c : Byte) (rest : List Byte) :
    byteAt Fault.outside (before ++ (w ++ c :: rest)) (before.length + w.length) = .ok c := by
  rw [← List.append_assoc]
  exact byteAt_append _ _ _ _ List.length_append.symm

/-- One byte on. -/
theorem dirLoop_cons (fuel : ℕ) (before : List Byte) {w : List Byte} (hw : Begun w) {c : Byte}
    (hc : c ≠ 0) (rest : List Byte) (array : List (List Byte)) :
    dirLoop (fuel + 1) (dirCursors before w (c :: rest) array) =
      if w = [] ∧ c = 32 then dirLoop fuel (dirCursors (before ++ [c]) [] rest array)
      else if c = 46 then do
        let buffer ← component w
        dirLoop fuel (dirCursors (before ++ w ++ [0]) [] rest (arrayPush array buffer))
      else dirLoop fuel (dirCursors before (w ++ [c]) rest array) := by
  have hstop := byteAt_stop before w c (rest ++ [0])
  show dirLoop (fuel + 1) ⟨before ++ (w ++ c :: (rest ++ [0])), before.length,
    before.length + w.length, array⟩ = _
  by_cases hspace : w = [] ∧ c = 32
  · obtain ⟨rfl, rfl⟩ := hspace
    have hstart : byteAt Fault.outside (before ++ ([] ++ 32 :: (rest ++ [0]))) before.length =
        .ok 32 := byteAt_append _ _ _ _ rfl
    rw [dirLoop, hstart, ok_bind, if_neg hc, if_pos rfl, if_pos ⟨rfl, rfl⟩]
    simp [dirCursors]
  · have hstart : ∃ d, byteAt Fault.outside (before ++ (w ++ c :: (rest ++ [0]))) before.length =
        .ok d ∧ d ≠ 0 ∧ d ≠ 32 := by
      by_cases hnil : w = []
      · subst hnil
        exact ⟨c, byteAt_append _ _ _ _ rfl, hc, fun h => hspace ⟨rfl, h⟩⟩
      · refine ⟨_, byteAt_start before hnil _, fun h => hw.1 (h ▸ List.head_mem hnil), fun h => ?_⟩
        exact hw.2 (h ▸ List.head?_eq_some_head hnil)
    obtain ⟨d, hstart, hd0, hd32⟩ := hstart
    rw [dirLoop, hstart, ok_bind, if_neg hd0, if_neg hd32, hstop, ok_bind, if_neg hspace]
    simp only [hc, or_false]
    by_cases hdot : c = 46
    · have hset : (before ++ (w ++ c :: (rest ++ [0]))).set (before.length + w.length) 0 =
          before ++ (w ++ 0 :: (rest ++ [0])) := by
        rw [← List.append_assoc, set_append _ _ _ _ List.length_append.symm, List.append_assoc]
      have hstring := stringAt_append Fault.outside before hw.1 (rest ++ [0])
      rw [if_pos hdot, if_pos hdot, if_neg not_false, hset, hstring, ok_bind]
      simp [dirCursors, Nat.add_assoc]
    · rw [if_neg hdot, if_neg hdot]
      simp [dirCursors, Nat.add_assoc]

/-- At the end of the string. -/
theorem dirLoop_nil (fuel : ℕ) (before : List Byte) {w : List Byte} (hw : Begun w)
    (array : List (List Byte)) :
    dirLoop (fuel + 1) (dirCursors before w [] array) = pushAll array (dirs w []) := by
  have hstop := byteAt_stop before w 0 []
  show dirLoop (fuel + 1) ⟨before ++ (w ++ [0]), before.length, before.length + w.length, array⟩ = _
  rw [dirs]
  by_cases hnil : w = []
  · subst hnil
    have hstart : byteAt Fault.outside (before ++ ([] ++ [0])) before.length = .ok 0 :=
      byteAt_append _ _ _ _ rfl
    rw [dirLoop, hstart, ok_bind, if_pos rfl, if_pos rfl]
    rfl
  · have hd0 : w.head hnil ≠ 0 := fun h => hw.1 (h ▸ List.head_mem hnil)
    have hd32 : w.head hnil ≠ 32 := fun h => hw.2 (h ▸ List.head?_eq_some_head hnil)
    rw [dirLoop, byteAt_start before hnil, ok_bind, if_neg hd0, if_neg hd32, hstop, ok_bind,
      if_pos (Or.inr rfl), if_pos rfl, stringAt_append _ _ hw.1, ok_bind, if_neg hnil, pushAll,
      List.foldlM_cons]
    exact (bind_pure _).symm

/-- The loop pushes the components of what is behind the cursors. -/
theorem dirLoop_eq (fuel : ℕ) (before : List Byte) {w : List Byte} (hw : Begun w)
    {rest : List Byte} (hrest : (0 : Byte) ∉ rest) (array : List (List Byte))
    (hfuel : rest.length < fuel) :
    dirLoop fuel (dirCursors before w rest array) = pushAll array (dirs w rest) := by
  induction rest generalizing fuel before w array with
  | nil =>
    obtain ⟨k, rfl⟩ := Nat.exists_eq_add_one_of_ne_zero (Nat.ne_zero_of_lt hfuel)
    exact dirLoop_nil k before hw array
  | cons c rest ih =>
    rw [List.length_cons] at hfuel
    obtain ⟨k, rfl⟩ := Nat.exists_eq_add_one_of_ne_zero (Nat.ne_zero_of_lt hfuel)
    have hc : c ≠ 0 := fun h => hrest (h ▸ List.mem_cons_self)
    have hrest' : (0 : Byte) ∉ rest := fun h => hrest (List.mem_cons_of_mem _ h)
    have hempty : Begun [] := ⟨List.not_mem_nil, by simp⟩
    rw [dirLoop_cons k before hw hc, dirs]
    by_cases hspace : w = [] ∧ c = 32
    · rw [if_pos hspace, if_pos hspace]
      exact ih k _ hempty hrest' array (by omega)
    · rw [if_neg hspace, if_neg hspace]
      by_cases hdot : c = 46
      · rw [if_pos hdot, if_pos hdot]
        show _ = (component w >>= fun buffer => pure (arrayPush array buffer)) >>= fun array =>
          pushAll array (dirs [] rest)
        rw [bind_assoc]
        refine congrArg _ (funext fun buffer => ?_)
        exact ih k _ hempty hrest' _ (by omega)
      · rw [if_neg hdot, if_neg hdot]
        refine ih k _ ⟨by simp [hw.1, Ne.symm hc], fun h => ?_⟩ hrest' array (by omega)
        by_cases hnil : w = []
        · subst hnil
          exact hspace ⟨rfl, by simpa using h⟩
        · rw [List.head?_append_of_ne_nil _ hnil] at h
          exact hw.2 h

theorem dirArray_eq (array : List (List Byte)) (dir : CStr) :
    dirArray array dir = pushAll array (dirs [] dir.val) :=
  dirLoop_eq _ [] ⟨List.not_mem_nil, by simp⟩ dir.property array (Nat.lt_succ_self _)

/-! ## Components -/

/-- Leading spaces are skipped. -/
def skipSpaces (w : List Byte) : List Byte := w.dropWhile (· = 32)

/-- Nothing is pushed for an empty last component. -/
def dropLastNil (ws : List (List Byte)) : List (List Byte) :=
  if ws.getLast? = some [] then ws.dropLast else ws

theorem dropLastNil_cons (w : List Byte) {ws : List (List Byte)} (h : ws ≠ []) :
    dropLastNil (w :: ws) = w :: dropLastNil ws := by
  rw [dropLastNil, dropLastNil, List.getLast?_cons_of_ne_nil h, List.dropLast_cons_of_ne_nil h]
  split <;> rfl

theorem splitOn_cons (c : Byte) (s : List Byte) :
    ∃ first rest, s.splitOn 46 = first :: rest ∧
      (c :: s).splitOn 46 = if c = 46 then [] :: first :: rest else (c :: first) :: rest := by
  obtain ⟨first, rest, hsplit⟩ := List.exists_cons_of_ne_nil (List.splitOn_ne_nil 46 s)
  refine ⟨first, rest, hsplit, ?_⟩
  rw [List.splitOn] at hsplit ⊢
  rw [List.splitOnP_cons_eq_if_modifyHead, hsplit]
  by_cases hc : c = 46 <;> simp [hc]

/-- The components are what is between the dots, without leading spaces. -/
theorem dirs_eq_of_split (w s : List Byte) {first : List Byte} {rest : List (List Byte)}
    (h : s.splitOn 46 = first :: rest) :
    dirs w s = dropLastNil
      ((if w = [] then skipSpaces first else w ++ first) :: rest.map skipSpaces) := by
  induction s generalizing w first rest with
  | nil =>
    obtain ⟨rfl, rfl⟩ := List.cons.inj h
    rw [dirs, List.map_nil]
    by_cases hw : w = [] <;> simp [hw, dropLastNil, skipSpaces]
  | cons c s ih =>
    obtain ⟨first', rest', hsplit, hcons⟩ := splitOn_cons c s
    rw [hcons] at h
    rw [dirs]
    by_cases hdot : c = 46
    · rw [if_pos hdot] at h
      obtain ⟨rfl, rfl⟩ := List.cons.inj h
      have hspace : ¬ (w = [] ∧ c = 32) := fun hs => by
        rw [hs.2] at hdot
        exact absurd hdot (by decide)
      rw [if_neg hspace, if_pos hdot, ih [] hsplit, if_pos rfl, List.map_cons,
        dropLastNil_cons _ (List.cons_ne_nil _ _)]
      by_cases hw : w = [] <;> simp [hw, skipSpaces]
    · rw [if_neg hdot] at h
      obtain ⟨rfl, rfl⟩ := List.cons.inj h
      by_cases hspace : w = [] ∧ c = 32
      · obtain ⟨rfl, rfl⟩ := hspace
        rw [if_pos ⟨rfl, rfl⟩, ih [] hsplit, if_pos rfl, if_pos rfl]
        rfl
      · rw [if_neg hspace, if_neg hdot, ih (w ++ [c]) hsplit, if_neg (by simp)]
        by_cases hw : w = []
        · subst hw
          have hc : c ≠ 32 := fun h => hspace ⟨rfl, h⟩
          rw [if_pos rfl, skipSpaces, List.dropWhile_cons_of_neg (by simpa using hc)]
          rfl
        · rw [if_neg hw, List.append_assoc, List.singleton_append]

theorem dirs_eq (s : List Byte) : dirs [] s = dropLastNil ((s.splitOn 46).map skipSpaces) := by
  obtain ⟨first, rest, hsplit⟩ := List.exists_cons_of_ne_nil (List.splitOn_ne_nil 46 s)
  rw [dirs_eq_of_split [] s hsplit, if_pos rfl, hsplit, List.map_cons]

/-- Lengths are not bounded by an empty component. -/
theorem forall_mem_dropLastNil {ws : List (List Byte)} {n : ℕ} :
    (∀ w ∈ dropLastNil ws, w.length ≤ n) ↔ ∀ w ∈ ws, w.length ≤ n := by
  rw [dropLastNil]
  split
  next hlast =>
    refine ⟨fun h w hw => ?_, fun h w hw => h w (List.mem_of_mem_dropLast hw)⟩
    rw [← List.dropLast_append_getLast? _ hlast, List.mem_append, List.mem_singleton] at hw
    obtain hw | rfl := hw
    · exact h w hw
    · exact Nat.zero_le _
  next => rfl

/-! ## Lengths -/

theorem limit_eq {len : ℕ} (h : len + 2 ≤ maxBuffer) : limit len = maxBuffer - 2 - len := by
  have hsize : maxBuffer = 1024 := rfl
  rw [limit, Int.emod_eq_of_lt (by omega) (by omega)]
  omega

/-- There is no limit for a component that does not fit. -/
theorem le_limit {len : ℕ} (h : maxBuffer < len + 2) (hlen : len < 2 ^ 64) :
    maxBuffer - 1 ≤ limit len := by
  have hsize : maxBuffer = 1024 := rfl
  rw [limit, ← Int.add_emod_right, Int.emod_eq_of_lt (by omega) (by omega)]
  omega

/-- What is left of a component. -/
def cut (w : List Byte) : List Byte := w.take (limit w.length)

theorem cut_eq_iff {w : List Byte} (h : w.length + 2 ≤ maxBuffer) :
    cut w = w ↔ w.length ≤ 511 := by
  have hsize : maxBuffer = 1024 := rfl
  rw [cut, List.take_eq_self_iff, limit_eq h]
  omega

theorem component_ok {w : List Byte} (h : w.length + 2 ≤ maxBuffer) :
    component w = .ok (47 :: cut w) := by
  have hlen : (chars "/").length + (w.take (limit w.length)).length < maxBuffer := by
    have hone : (chars "/").length = 1 := by decide
    have hle := List.length_take_le' (limit w.length) w
    omega
  rw [component, strncat, if_pos hlen]
  rfl

theorem component_overflow {w : List Byte} (h : maxBuffer < w.length + 2)
    (hlen : w.length < 2 ^ 64) : component w = .error .overflow := by
  have hlimit := le_limit h hlen
  have hlong : ¬ (chars "/").length + (w.take (limit w.length)).length < maxBuffer := by
    have hone : (chars "/").length = 1 := by decide
    rw [List.length_take]
    omega
  rw [component, strncat, if_neg hlong]

theorem pushAll_ok {ws : List (List Byte)} (h : ∀ w ∈ ws, w.length + 2 ≤ maxBuffer)
    (array : List (List Byte)) :
    pushAll array ws = .ok (array ++ ws.map fun w => 47 :: cut w) := by
  induction ws generalizing array with
  | nil =>
    rw [List.map_nil, List.append_nil]
    rfl
  | cons w ws ih =>
    obtain ⟨hw, hws⟩ := List.forall_mem_cons.mp h
    rw [pushAll, List.foldlM_cons, component_ok hw]
    refine (ih hws (array ++ [47 :: cut w])).trans ?_
    rw [List.map_cons, List.append_assoc, List.singleton_append]

theorem pushAll_overflow {ws : List (List Byte)} (hsize : ∀ w ∈ ws, w.length < 2 ^ 64)
    (h : ¬ ∀ w ∈ ws, w.length + 2 ≤ maxBuffer) (array : List (List Byte)) :
    pushAll array ws = .error .overflow := by
  induction ws generalizing array with
  | nil => exact absurd (fun _ hw => absurd hw List.not_mem_nil) h
  | cons w ws ih =>
    obtain ⟨hw, hws⟩ := List.forall_mem_cons.mp hsize
    rw [pushAll, List.foldlM_cons]
    by_cases hfits : w.length + 2 ≤ maxBuffer
    · rw [component_ok hfits]
      exact ih hws (fun hall => h (List.forall_mem_cons.mpr ⟨hfits, hall⟩)) _
    · rw [component_overflow (by omega) hw]
      rfl

/-! ## Names -/

/-- Components with dots between them. -/
def dotted (cs : List CStr) : CStr :=
  ⟨[46].intercalate (cs.map fun c => c.val), by
    intro h
    obtain h | ⟨field, hfield, hmem⟩ := mem_intercalate h
    · exact absurd h (by decide)
    · obtain ⟨c, -, rfl⟩ := List.mem_map.mp hfield
      exact c.property hmem⟩

/-- What the components of a name should be pushed as. -/
def slashed (cs : List CStr) : List (List Byte) :=
  (dropLastNil (cs.map fun c => c.val)).map (47 :: ·)

theorem dirs_dotted {cs : List CStr} (h : ∀ c ∈ cs, (32 : Byte) ∉ c.val ∧ (46 : Byte) ∉ c.val) :
    dirs [] (dotted cs).val = dropLastNil (cs.map fun c => c.val) := by
  show dirs [] ([46].intercalate (cs.map fun c => c.val)) = _
  cases cs with
  | nil => rfl
  | cons c cs =>
    have hdots : ∀ w ∈ (c :: cs).map fun c => c.val, (46 : Byte) ∉ w := by
      intro w hw
      obtain ⟨d, hd, rfl⟩ := List.mem_map.mp hw
      exact (h d hd).2
    have hspaces : ((c :: cs).map fun c => c.val).map skipSpaces =
        (c :: cs).map fun c => c.val := by
      refine (List.map_congr_left fun w hw => ?_).trans (List.map_id _)
      obtain ⟨d, hd, rfl⟩ := List.mem_map.mp hw
      rw [skipSpaces, id_eq, List.dropWhile_eq_self_iff]
      intro hpos hhead
      have hmem := List.getElem_mem hpos
      rw [of_decide_eq_true hhead] at hmem
      exact (h d hd).1 hmem
    rw [dirs_eq, List.splitOn_intercalate 46 hdots (by simp), hspaces]

theorem length_dirs_le (w s : List Byte) : ∀ v ∈ dirs w s, v.length ≤ w.length + s.length := by
  induction s generalizing w with
  | nil =>
    intro v hv
    rw [dirs] at hv
    split at hv
    · exact absurd hv List.not_mem_nil
    · rw [List.mem_singleton.mp hv]
      exact Nat.le_add_right _ _
  | cons c s ih =>
    intro v hv
    rw [dirs] at hv
    rw [List.length_cons]
    split at hv
    · have := ih [] v hv
      rw [List.length_nil] at this
      omega
    · split at hv
      · obtain rfl | hv := List.mem_cons.mp hv
        · omega
        · have := ih [] v hv
          rw [List.length_nil] at this
          omega
      · have := ih (w ++ [c]) v hv
        rw [List.length_append, List.length_singleton] at this
        omega

/-- Components that fit the buffer are pushed in full exactly if they fit half of it. -/
theorem dirArray_dotted_iff (array : List (List Byte)) {cs : List CStr}
    (h : ∀ c ∈ cs, ((32 : Byte) ∉ c.val ∧ (46 : Byte) ∉ c.val) ∧ c.val.length ≤ maxBuffer - 2) :
    dirArray array (dotted cs) = .ok (array ++ slashed cs) ↔ ∀ c ∈ cs, c.val.length ≤ 511 := by
  have hmem : ∀ n, (∀ w ∈ dropLastNil (cs.map fun c => c.val), w.length ≤ n) ↔
      ∀ c ∈ cs, c.val.length ≤ n := fun n => by
    rw [forall_mem_dropLastNil, List.forall_mem_map]
  have hfits : ∀ w ∈ dropLastNil (cs.map fun c => c.val), w.length + 2 ≤ maxBuffer := by
    intro w hw
    have := (hmem (maxBuffer - 2)).mpr (fun c hc => (h c hc).2) w hw
    have hsize : maxBuffer = 1024 := rfl
    omega
  rw [dirArray_eq, dirs_dotted fun c hc => (h c hc).1, pushAll_ok hfits, slashed, ← hmem 511]
  simp only [Except.ok.injEq, List.append_cancel_left_eq, List.map_inj_left, List.cons.injEq,
    true_and]
  exact forall₂_congr fun w hw => cut_eq_iff (hfits w hw)

/-- The buffer is not overrun exactly if the components fit it without their leading spaces. -/
theorem dirArray_returns_iff (array : List (List Byte)) {dir : CStr}
    (hdir : dir.val.length < 2 ^ 64) :
    (∃ array', dirArray array dir = .ok array') ↔
      ∀ c ∈ dir.val.splitOn 46, (skipSpaces c).length ≤ maxBuffer - 2 := by
  have hsize : maxBuffer = 1024 := rfl
  have hiff : (∀ w ∈ dirs [] dir.val, w.length + 2 ≤ maxBuffer) ↔
      ∀ c ∈ dir.val.splitOn 46, (skipSpaces c).length ≤ maxBuffer - 2 := by
    rw [← List.forall_mem_map (P := fun w : List Byte => w.length ≤ maxBuffer - 2),
      ← forall_mem_dropLastNil, ← dirs_eq]
    exact forall₂_congr fun w _ => by omega
  rw [← hiff, dirArray_eq]
  by_cases hall : ∀ w ∈ dirs [] dir.val, w.length + 2 ≤ maxBuffer
  · exact iff_of_true ⟨_, pushAll_ok hall array⟩ hall
  · refine iff_of_false ?_ hall
    have hlen : ∀ w ∈ dirs [] dir.val, w.length < 2 ^ 64 := fun w hw => by
      have := length_dirs_le [] dir.val w hw
      rw [List.length_nil] at this
      omega
    rw [pushAll_overflow hlen hall]
    rintro ⟨array', h⟩
    cases h

/-- When all of a name is pushed, and when the buffer is not overrun. -/
theorem dirArray_iff (array : List (List Byte)) {cs : List CStr} {dir : CStr}
    (h : ∀ c ∈ cs, ((32 : Byte) ∉ c.val ∧ (46 : Byte) ∉ c.val) ∧ c.val.length ≤ maxBuffer - 2)
    (hdir : dir.val.length < 2 ^ 64) :
    (dirArray array (dotted cs) = .ok (array ++ slashed cs) ↔ ∀ c ∈ cs, c.val.length ≤ 511) ∧
      ((∃ array', dirArray array dir = .ok array') ↔
        ∀ c ∈ dir.val.splitOn 46, (skipSpaces c).length ≤ maxBuffer - 2) :=
  ⟨dirArray_dotted_iff array h, dirArray_returns_iff array hdir⟩

theorem dirArray_two :
    dirArray [] (dotted [⟨chars "lib", by decide⟩, ⟨[], by decide⟩, ⟨chars "suva", by decide⟩]) =
        .ok [chars "/lib", chars "/", chars "/suva"] ∧
      ∃ array', dirArray [] ⟨chars " lib. suva", by decide⟩ = .ok array' := by
  have h := @dirArray_iff [] [⟨chars "lib", by decide⟩, ⟨[], by decide⟩, ⟨chars "suva", by decide⟩]
    ⟨chars " lib. suva", by decide⟩ (by decide) (by decide)
  exact ⟨h.1.mpr (by decide), h.2.mpr (by decide)⟩

/-- A component of 1023 bytes. -/
def longName : CStr :=
  ⟨List.replicate 1023 97, fun h => absurd (List.mem_replicate.mp h).2 (by decide)⟩

theorem dirArray_overruns :
    ¬ ((∀ (array : List (List Byte)) (cs : List CStr),
        (∀ c ∈ cs, ((32 : Byte) ∉ c.val ∧ (46 : Byte) ∉ c.val) ∧ c.val.length ≤ maxBuffer - 2) →
          dirArray array (dotted cs) = .ok (array ++ slashed cs)) ∧
      ∀ (array : List (List Byte)) (dir : CStr), dir.val.length < 2 ^ 64 →
        ∃ array', dirArray array dir = .ok array') := by
  rintro ⟨-, hbounds⟩
  have hlen : longName.val.length = 1023 := List.length_replicate
  have hwide := (@dirArray_returns_iff [] longName (by omega)).mp
    (hbounds [] longName (by omega))
  have hsplit : longName.val.splitOn 46 = [longName.val] :=
    List.splitOn_eq_singleton fun h => absurd (List.mem_replicate.mp h).2 (by decide)
  have hskip : skipSpaces longName.val = longName.val := by
    show (List.replicate (1022 + 1) (97 : Byte)).dropWhile (· = 32) = _
    rw [List.replicate_succ, List.dropWhile_cons_of_neg (by decide)]
    rfl
  have := hwide longName.val (by rw [hsplit]; exact List.mem_singleton_self _)
  rw [hskip, hlen] at this
  exact absurd this (by decide)

end CompatSuva.Sutil
