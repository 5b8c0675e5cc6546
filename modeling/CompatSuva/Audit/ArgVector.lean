import Mathlib.Data.List.Basic
import Mathlib.Tactic.Common

/-!
# The argument arrays of `safe_exec`

`safe_exec` and `safe_exec_pipe` collect the arguments of a program from their own, up to ten of
them (`SecurityAudit.c` lines 286–297 and 330–342, `dotfiles.c` and `xuids.c` lines 81–93). The
loop is the same everywhere. It writes the NULL that ends the arguments if it comes to it within the
first ten; another one is written behind the loop, at the last index of the array.

* `collect_toList`: the array, entry by entry;
* `collect_terminated_iff`: when the arguments are followed by NULL, for an array of any size;
* `Terminated.started`, `utility_started`: what the program is started with;
* `argVectors_terminated_iff`: the four functions.
-/

namespace CompatSuva.Audit

/-! ## Model -/

/-- An entry of the array: not written yet, NULL or a string. -/
inductive Slot (α : Type) where
  | uninit
  | null
  | arg (a : α)
  deriving DecidableEq, Repr

variable {α : Type} {size : ℕ}

/-- A pointer as `va_arg` gives it. -/
def Slot.ofPtr : Option α → Slot α
  | none => .null
  | some a => .arg a

/-- `while(num_args < 10 && (args[num_args] = va_arg(ap, char *))) num_args++;`, with `va` the
    arguments that are left. There is no result if `va_arg` is called with none left. -/
def collectLoop (hsize : 10 ≤ size) :
    List (Option α) → ℕ → Vector (Slot α) size → Option (Vector (Slot α) size)
  | [], numArgs, args => if numArgs < 10 then none else some args
  | ptr :: va, numArgs, args =>
    if h : numArgs < 10 then
      let args := args.set numArgs (Slot.ofPtr ptr) (by omega)
      if ptr.isSome then collectLoop hsize va (numArgs + 1) args else some args
    else some args

/-- The loop on a new array, and the NULL behind it. -/
def collect (hsize : 10 ≤ size) (last : Fin size) (va : List (Option α)) :
    Option (Vector (Slot α) size) :=
  (collectLoop hsize va 0 (Vector.replicate size .uninit)).map fun args =>
    args.set last .null

/-- `safe_exec` of `SecurityAudit.c`: `char *a[11]`, `a[10] = 0`. -/
def safeExecArgs (va : List (Option α)) : Option (Vector (Slot α) 11) :=
  collect (by decide) 10 va

/-- `safe_exec_pipe` of `SecurityAudit.c`: `char *args[11]`, `args[10] = 0`. -/
def safeExecPipeArgs (va : List (Option α)) : Option (Vector (Slot α) 11) :=
  collect (by decide) 10 va

/-- `safe_exec_pipe` of `dotfiles.c`: `char *args[12]`, `args[11] = 0`. -/
def dotfilesPipeArgs (va : List (Option α)) : Option (Vector (Slot α) 12) :=
  collect (by decide) 11 va

/-- `safe_exec_pipe` of `xuids.c`: `char *args[12]`, `args[11] = 0`. -/
def xuidsPipeArgs (va : List (Option α)) : Option (Vector (Slot α) 12) :=
  collect (by decide) 11 va

/-- The arguments behind `path`: the callers end them with `0`. -/
def vaList (args : List α) : List (Option α) := args.map some ++ [none]

/-- The first ten of `args`, and NULL right behind them. -/
def Terminated (args : List α) (run : Option (Vector (Slot α) size)) : Prop :=
  ∃ array, run = some array ∧
    array.toList.take (min args.length 10 + 1) = (args.take 10).map .arg ++ [.null]

/-- What `execv` starts the program with: the pointers up to the first NULL. `junk i` is what stands
    in entry `i` if it has not been written. -/
def execvArgs (junk : ℕ → Option α) : ℕ → List (Slot α) → List α
  | _, [] => []
  | _, .null :: _ => []
  | i, .arg a :: slots => a :: execvArgs junk (i + 1) slots
  | i, .uninit :: slots =>
    match junk i with
    | none => []
    | some a => a :: execvArgs junk (i + 1) slots

/-! ## The array -/

/-- What the loop writes: the arguments and their NULL, ten entries at most. -/
def written (args : List α) (room : ℕ) : List (Slot α) :=
  (args.map Slot.arg ++ [Slot.null]).take room

theorem written_zero (args : List α) : written args 0 = [] := List.take_zero

theorem written_nil (room : ℕ) : written ([] : List α) (room + 1) = [.null] := by
  show Slot.null :: [].take room = _
  rw [List.take_nil]

theorem written_cons (a : α) (args : List α) (room : ℕ) :
    written (a :: args) (room + 1) = .arg a :: written args room := rfl

/-- The next entry is written. -/
theorem toList_set_next {done rest : List (Slot α)} {v : Vector (Slot α) size}
    (hv : v.toList = done ++ rest) {i : ℕ} (hi : done.length = i) (h : i < size) (x : Slot α) :
    (v.set i x h).toList = (done ++ [x]) ++ rest.drop 1 := by
  have hlen : done.length + rest.length = size := by
    rw [← List.length_append, ← hv, Vector.length_toList]
  obtain ⟨slot, rest, rfl⟩ := List.exists_cons_of_length_pos (show 0 < rest.length by omega)
  subst hi
  rw [Vector.toList_set, hv, List.set_append_right _ _ (Nat.le_refl _), Nat.sub_self,
    List.set_cons_zero, List.append_assoc, List.singleton_append, List.drop_one, List.tail_cons]

theorem collectLoop_full (hsize : 10 ≤ size) (va : List (Option α)) {n : ℕ} (hn : 10 ≤ n)
    (v : Vector (Slot α) size) : collectLoop hsize va n v = some v := by
  cases va with
  | nil => rw [collectLoop, if_neg (by omega)]
  | cons ptr va => rw [collectLoop, dif_neg (by omega)]

/-- By induction on the entries that are left of the ten: `done` has been written. -/
theorem collectLoop_toList (hsize : 10 ≤ size) {room n : ℕ} (hroom : room + n = 10) (args : List α)
    {done rest : List (Slot α)} {v : Vector (Slot α) size} (hv : v.toList = done ++ rest)
    (hn : done.length = n) :
    ∃ w, collectLoop hsize (vaList args) n v = some w ∧
      w.toList = done ++ written args room ++ rest.drop (written args room).length := by
  induction room generalizing n args done rest v with
  | zero =>
    refine ⟨v, collectLoop_full hsize _ (by omega) v, ?_⟩
    rw [hv, written_zero, List.append_nil, List.length_nil, List.drop_zero]
  | succ room ih =>
    have hlt : n < 10 := by omega
    cases args with
    | nil =>
      refine ⟨v.set n .null (by omega), ?_, ?_⟩
      · show collectLoop hsize [none] n v = _
        rw [collectLoop, dif_pos hlt]
        rfl
      · rw [toList_set_next hv hn, written_nil]
        rfl
    | cons a args =>
      have hdone : (done ++ [Slot.arg a]).length = n + 1 := by
        rw [List.length_append, hn, List.length_singleton]
      obtain ⟨w, hrun, hw⟩ := ih (by omega) args (toList_set_next hv hn (by omega) (.arg a)) hdone
      refine ⟨w, ?_, ?_⟩
      · show collectLoop hsize (some a :: vaList args) n v = _
        rw [collectLoop, dif_pos hlt]
        exact hrun
      · rw [hw, written_cons, List.length_cons, List.drop_drop, Nat.add_comm 1]
        rw [List.append_assoc done, List.singleton_append]

theorem length_written_le (args : List α) (room : ℕ) : (written args room).length ≤ room :=
  List.length_take_le _ _

/-- The whole array: what the loop has written, entries that nobody has, and the last NULL. -/
theorem collect_toList (hsize : 10 ≤ size) {last : Fin size} (hlast : 10 ≤ last.val)
    (args : List α) :
    ∃ w, collect hsize last (vaList args) = some w ∧
      w.toList = written args 10 ++
        (List.replicate (size - (written args 10).length) .uninit).set
          (last - (written args 10).length) .null := by
  have hnew : (Vector.replicate size (Slot.uninit : Slot α)).toList =
      [] ++ List.replicate size .uninit := Vector.toList_replicate
  obtain ⟨w, hrun, hw⟩ := collectLoop_toList hsize (show 10 + 0 = 10 from rfl) args hnew rfl
  refine ⟨w.set last .null, ?_, ?_⟩
  · rw [collect, hrun]
    rfl
  · have hle := length_written_le args 10
    rw [Vector.toList_set, hw, List.nil_append, List.drop_replicate,
      List.set_append_right _ _ (by omega)]

/-- Fewer than ten arguments and their NULL, or the first ten. -/
theorem written_ten (args : List α) :
    (args.length < 10 ∧ written args 10 = (args.take 10).map .arg ++ [.null]) ∨
      (10 ≤ args.length ∧ written args 10 = (args.take 10).map .arg) := by
  by_cases hfew : args.length < 10
  · refine Or.inl ⟨hfew, ?_⟩
    have hlen : (args.map Slot.arg ++ [Slot.null]).length ≤ 10 := by
      rw [List.length_append, List.length_map, List.length_singleton]
      omega
    rw [written, List.take_of_length_le hlen, List.take_of_length_le (by omega)]
  · refine Or.inr ⟨by omega, ?_⟩
    rw [written, List.take_append_of_le_length (by rw [List.length_map]; omega), List.map_take]

theorem take_one_set {room j : ℕ} (hj : j < room) :
    ((List.replicate room (Slot.uninit : Slot α)).set j .null).take 1 = [.null] ↔ j = 0 := by
  obtain ⟨k, rfl⟩ := Nat.exists_eq_add_one_of_ne_zero (Nat.ne_zero_of_lt hj)
  rw [List.replicate_succ]
  cases j with
  | zero => exact iff_of_true rfl rfl
  | succ j =>
    rw [List.set_cons_succ, List.take_succ_cons, List.take_zero]
    exact iff_of_false (by simp) (by omega)

theorem terminated_some {args : List α} {w : Vector (Slot α) size} :
    Terminated args (some w) ↔
      w.toList.take (min args.length 10 + 1) = (args.take 10).map .arg ++ [.null] := by
  constructor
  · rintro ⟨array, harray, h⟩
    obtain rfl := Option.some.inj harray
    exact h
  · intro h
    exact ⟨w, rfl, h⟩

/-- The arguments are followed by NULL if there are fewer than ten, or if the last NULL stands in
    entry 10. -/
theorem collect_terminated_iff (hsize : 10 ≤ size) {last : Fin size} (hlast : 10 ≤ last.val)
    (args : List α) :
    Terminated args (collect hsize last (vaList args)) ↔ args.length < 10 ∨ last.val = 10 := by
  obtain ⟨w, hrun, hw⟩ := collect_toList hsize hlast args
  have hlen : min args.length 10 = ((args.take 10).map Slot.arg).length := by
    rw [List.length_map, List.length_take, Nat.min_comm]
  rw [hrun, terminated_some, hw, hlen]
  rcases written_ten args with ⟨hfew, hwritten⟩ | ⟨hmany, hwritten⟩
  · rw [hwritten]
    refine iff_of_true (List.take_left' ?_) (Or.inl hfew)
    rw [List.length_append, List.length_singleton]
  · have hten : ((args.take 10).map Slot.arg).length = 10 := by
      rw [← hlen, Nat.min_eq_right hmany]
    rw [hwritten, List.take_length_add_append, List.append_cancel_left_eq, hten,
      take_one_set (by omega)]
    omega

/-! ## What is started -/

theorem execvArgs_arg (junk : ℕ → Option α) (i : ℕ) (args : List α) (slots : List (Slot α)) :
    execvArgs junk i (args.map .arg ++ slots) = args ++ execvArgs junk (i + args.length) slots := by
  induction args generalizing i with
  | nil => rfl
  | cons a args ih =>
    have hnext : i + (a :: args).length = i + 1 + args.length := by
      rw [List.length_cons]
      omega
    rw [hnext, List.cons_append, ← ih (i + 1)]
    rfl

/-- The entries behind the NULL are not looked at: the program gets the first ten arguments. -/
theorem Terminated.started {args : List α} {run : Option (Vector (Slot α) size)}
    (h : Terminated args run) (junk : ℕ → Option α) :
    run.map (fun w => execvArgs junk 0 w.toList) = some (args.take 10) := by
  obtain ⟨w, rfl, hw⟩ := h
  have hsplit := List.take_append_drop (min args.length 10 + 1) w.toList
  rw [hw, List.append_assoc] at hsplit
  rw [Option.map_some, ← hsplit, execvArgs_arg]
  show some (args.take 10 ++ []) = _
  rw [List.append_nil]

/-- With ten arguments or more, the program of a utility gets what stands in entry 10 as well. -/
theorem utility_started {args : List α} (h : 10 ≤ args.length) (junk : ℕ → Option α) :
    (dotfilesPipeArgs (vaList args)).map (fun w => execvArgs junk 0 w.toList) =
        some (args.take 10 ++ (junk 10).toList) ∧
      xuidsPipeArgs (vaList args) = dotfilesPipeArgs (vaList args) := by
  refine ⟨?_, rfl⟩
  obtain ⟨w, hrun, hw⟩ := collect_toList (by decide : 10 ≤ 12) (by decide : 10 ≤ (11 : Fin 12).val)
    args
  rw [dotfilesPipeArgs, hrun]
  obtain ⟨hfew, -⟩ | ⟨-, hwritten⟩ := written_ten args
  · omega
  · have hten : (args.take 10).length = 10 := by
      rw [List.length_take, Nat.min_eq_left h]
    have hlen : (written args 10).length = 10 := by
      rw [hwritten, List.length_map, hten]
    rw [hlen, hwritten] at hw
    rw [Option.map_some, hw, execvArgs_arg, hten]
    show some (args.take 10 ++ execvArgs junk 10 [.uninit, .null]) = _
    unfold execvArgs
    cases junk 10 with
    | none => rfl
    | some a => rfl

/-! ## The four functions -/

/-- `SecurityAudit.c` ends the array behind the ten arguments it takes, the utilities one entry
    later. -/
theorem argVectors_terminated_iff (args : List α) :
    Terminated args (safeExecArgs (vaList args)) ∧
      Terminated args (safeExecPipeArgs (vaList args)) ∧
      (Terminated args (dotfilesPipeArgs (vaList args)) ↔ args.length < 10) ∧
      (Terminated args (xuidsPipeArgs (vaList args)) ↔ args.length < 10) := by
  have haudit : Terminated args (safeExecArgs (vaList args)) :=
    (collect_terminated_iff _ (by decide) args).mpr (Or.inr rfl)
  have hutility : Terminated args (dotfilesPipeArgs (vaList args)) ↔ args.length < 10 := by
    unfold dotfilesPipeArgs
    rw [collect_terminated_iff _ (by decide) args]
    exact or_iff_left (by decide)
  exact ⟨haudit, haudit, hutility, hutility⟩

/-- Ten arguments for `find`. -/
def tenArgs : List ℕ := List.range 10

theorem dotfilesPipe_unterminated : ¬ ∀ args : List ℕ,
    Terminated args (safeExecArgs (vaList args)) ∧
      Terminated args (safeExecPipeArgs (vaList args)) ∧
      Terminated args (dotfilesPipeArgs (vaList args)) ∧
      Terminated args (xuidsPipeArgs (vaList args)) := by
  intro hall
  obtain ⟨-, -, hten, -⟩ := hall tenArgs
  have hfew := (collect_terminated_iff _ (by decide) tenArgs).mp hten
  revert hfew
  decide

end CompatSuva.Audit
