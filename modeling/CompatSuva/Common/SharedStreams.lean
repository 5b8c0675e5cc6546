import CompatSuva.Common.Inodes

/-!
# Streams that a child inherits

A process and the child it has forked share the open files behind its streams, and so their
offsets; the buffers of the streams are copied. A child that calls `exit` writes what its
copies still hold, and sets the offset of a file back by what was read ahead. The parent
does not come to know of this: its own buffers are as they were.

* `SharedStreams.exit_eq_iff`: nothing changes just when every stream is settled;
* `SharedStreams.exit_exit_eq_iff`: two such children do not make up for each other.
-/

namespace CompatSuva.Common

/-- What the buffer of a stream holds: bytes read ahead, or bytes still to be written. -/
inductive Buffered where
  | ahead (n : ℕ)
  | pending (bytes : List Byte)
  deriving DecidableEq, Repr

/-- A stream on a file; `append` says whether it always writes at the end. -/
structure SharedStream where
  inode : ℕ
  offset : ℕ
  append : Bool
  buffered : Buffered
  deriving DecidableEq, Repr

namespace SharedStream

/-- Where the next `write` goes. -/
def position (st : SharedStream) (data : ℕ → List Byte) : ℕ :=
  if st.append then (data st.inode).length else st.offset

/-- The child leaves this stream at `exit`. `taken` bytes of the buffer are written before
    `write` fails, all of them if it does not; `lseek` fails before the start of the file. -/
def exit (st : SharedStream) (taken : ℕ) (data : ℕ → List Byte) : SharedStream × (ℕ → List Byte) :=
  match st.buffered with
  | .ahead n => ({ st with offset := if n ≤ st.offset then st.offset - n else st.offset }, data)
  | .pending bytes =>
    if bytes.take taken = [] then (st, data)
    else
      ({ st with offset := st.position data + (bytes.take taken).length },
        Function.update data st.inode
          (writeAt (data st.inode) (st.position data) (bytes.take taken)))

/-- At `exit` there is nothing to do: nothing was read ahead, or it cannot be taken back, and
    nothing is written. -/
def Settled (st : SharedStream) (taken : ℕ) : Prop :=
  match st.buffered with
  | .ahead n => n = 0 ∨ st.offset < n
  | .pending bytes => bytes.take taken = []

/-- What grows at every `exit` that has something to do. -/
def drift (data : ℕ → List Byte) (st : SharedStream) : ℤ :=
  match st.buffered with
  | .ahead _ => -st.offset
  | .pending _ => st.position data

variable {st : SharedStream} {taken : ℕ} {data data' : ℕ → List Byte}

theorem exit_settled (h : st.Settled taken) (data : ℕ → List Byte) :
    st.exit taken data = (st, data) := by
  unfold Settled at h
  unfold exit
  cases hb : st.buffered with
  | ahead n =>
    simp only [hb] at h ⊢
    have hoffset : (if n ≤ st.offset then st.offset - n else st.offset) = st.offset := by
      split_ifs <;> omega
    rw [hoffset, ← hb]
  | pending bytes =>
    simp only [hb] at h ⊢
    rw [if_pos h]

theorem length_le_writeAt (bs : List Byte) (pos : ℕ) (bytes : List Byte) :
    bs.length ≤ (writeAt bs pos bytes).length := by
  unfold writeAt
  split_ifs
  · exact le_rfl
  · simp only [List.length_append, List.length_take, List.length_replicate, List.length_drop]
    omega

theorem writeAt_end (bs bytes : List Byte) : writeAt bs bs.length bytes = bs ++ bytes := by
  unfold writeAt
  split_ifs with h
  · rw [h, List.append_nil]
  · simp

/-- No file gets shorter. -/
theorem exit_grows (st : SharedStream) (taken : ℕ) (data : ℕ → List Byte) (i : ℕ) :
    (data i).length ≤ ((st.exit taken data).2 i).length := by
  unfold exit
  cases st.buffered with
  | ahead n => exact le_rfl
  | pending bytes =>
    simp only
    split_ifs
    · exact le_rfl
    · simp only
      obtain rfl | hne := eq_or_ne i st.inode
      · rw [Function.update_self]
        exact length_le_writeAt _ _ _
      · rw [Function.update_of_ne hne]

theorem drift_mono (h : ∀ i, (data i).length ≤ (data' i).length) (st : SharedStream) :
    st.drift data ≤ st.drift data' := by
  unfold drift position
  cases st.buffered with
  | ahead n => exact le_rfl
  | pending bytes =>
    simp only
    split_ifs
    · exact_mod_cast h st.inode
    · exact le_rfl

/-- A stream that is not settled drifts. -/
theorem drift_exit (h : ¬ st.Settled taken) (data : ℕ → List Byte) :
    st.drift data < (st.exit taken data).1.drift (st.exit taken data).2 := by
  unfold Settled at h
  unfold exit drift
  cases hb : st.buffered with
  | ahead n =>
    simp only [hb] at h ⊢
    rw [if_pos (by omega)]
    omega
  | pending bytes =>
    simp only [hb] at h ⊢
    have hlength := List.length_pos_iff.mpr h
    rw [if_neg h]
    unfold position
    simp only
    cases st.append with
    | true =>
      simp only [if_true, Function.update_self, writeAt_end, List.length_append]
      omega
    | false =>
      simp only [Bool.false_eq_true, if_false]
      omega

theorem drift_exit_le (st : SharedStream) (taken : ℕ) (data : ℕ → List Byte) :
    st.drift data ≤ (st.exit taken data).1.drift (st.exit taken data).2 := by
  by_cases h : st.Settled taken
  · rw [exit_settled h]
  · exact (drift_exit h data).le

end SharedStream

/-- The content of the inodes, and the streams that are open, in the order in which `exit`
    comes to them. -/
structure SharedStreams where
  data : ℕ → List Byte
  opened : List SharedStream

namespace SharedStreams

/-- The streams are left one after the other; `taken` goes by their places. -/
def exits : List SharedStream → (ℕ → ℕ) → (ℕ → List Byte) → List SharedStream × (ℕ → List Byte)
  | [], _, data => ([], data)
  | st :: sts, taken, data =>
    let left := st.exit (taken 0) data
    let rest := exits sts (fun i => taken (i + 1)) left.2
    (left.1 :: rest.1, rest.2)

/-- A child that has inherited the streams calls `exit`. -/
def exit (s : SharedStreams) (taken : ℕ → ℕ) : SharedStreams :=
  ⟨(exits s.opened taken s.data).2, (exits s.opened taken s.data).1⟩

/-- Every stream is settled. -/
def Settled (s : SharedStreams) (taken : ℕ → ℕ) : Prop :=
  ∀ i (st : SharedStream), s.opened[i]? = some st → st.Settled (taken i)

variable {sts : List SharedStream} {taken taken' : ℕ → ℕ} {s : SharedStreams}

theorem exits_settled (h : ∀ i (st : SharedStream), sts[i]? = some st → st.Settled (taken i))
    (data : ℕ → List Byte) : exits sts taken data = (sts, data) := by
  induction sts generalizing taken data with
  | nil => rfl
  | cons st sts ih =>
    have hhead : st.exit (taken 0) data = (st, data) := SharedStream.exit_settled (h 0 st rfl) data
    rw [exits, hhead, ih (fun i => h (i + 1))]

theorem exits_grows (sts : List SharedStream) (taken : ℕ → ℕ) (data : ℕ → List Byte) (i : ℕ) :
    (data i).length ≤ ((exits sts taken data).2 i).length := by
  induction sts generalizing taken data with
  | nil => exact le_rfl
  | cons st sts ih => exact (SharedStream.exit_grows st (taken 0) data i).trans (ih _ _)

/-- Every stream drifts on, and further if it is not settled. -/
theorem exits_drift {i : ℕ} {st : SharedStream} (h : sts[i]? = some st) (taken : ℕ → ℕ)
    (data : ℕ → List Byte) :
    ∃ st', (exits sts taken data).1[i]? = some st' ∧
      st.drift data ≤ st'.drift (exits sts taken data).2 ∧
      (¬ st.Settled (taken i) → st.drift data < st'.drift (exits sts taken data).2) := by
  induction sts generalizing i taken data with
  | nil => simp at h
  | cons first sts ih =>
    cases i with
    | zero =>
      obtain rfl : first = st := by simpa using h
      -- the streams behind it do not shorten its file
      have hrest := (first.exit (taken 0) data).1.drift_mono
        (exits_grows sts (fun i => taken (i + 1)) (first.exit (taken 0) data).2)
      exact ⟨_, rfl, (first.drift_exit_le _ _).trans hrest, fun hn =>
        (SharedStream.drift_exit hn data).trans_le hrest⟩
    | succ i =>
      have hhead := st.drift_mono (first.exit_grows (taken 0) data)
      obtain ⟨st', hst', hle, hlt⟩ := ih (i := i) (by simpa using h) (fun i => taken (i + 1))
        (first.exit (taken 0) data).2
      exact ⟨st', hst', hhead.trans hle, fun hn => hhead.trans_lt (hlt hn)⟩

theorem exit_settled (h : s.Settled taken) : s.exit taken = s := by
  rw [exit, exits_settled h]

theorem exit_drift {i : ℕ} {st : SharedStream} (h : s.opened[i]? = some st) (taken : ℕ → ℕ) :
    ∃ st', (s.exit taken).opened[i]? = some st' ∧
      st.drift s.data ≤ st'.drift (s.exit taken).data ∧
      (¬ st.Settled (taken i) → st.drift s.data < st'.drift (s.exit taken).data) :=
  exits_drift h taken s.data

/-- A child changes nothing just when every stream is settled. -/
theorem exit_eq_iff (s : SharedStreams) (taken : ℕ → ℕ) : s.exit taken = s ↔ s.Settled taken := by
  refine ⟨fun heq i st hst => ?_, exit_settled⟩
  by_contra hn
  obtain ⟨st', hst', -, hlt⟩ := exit_drift hst taken
  rw [heq] at hst' hlt
  obtain rfl := Option.some.inj (hst.symm.trans hst')
  exact (hlt hn).false

/-- One child behind another changes nothing just when neither does. -/
theorem exit_exit_eq_iff (s : SharedStreams) (taken taken' : ℕ → ℕ) :
    (s.exit taken).exit taken' = s ↔ s.Settled taken ∧ s.Settled taken' := by
  constructor
  · intro heq
    have hfirst : s.Settled taken := by
      intro i st hst
      by_contra hn
      obtain ⟨st₁, hst₁, -, hlt⟩ := exit_drift hst taken
      obtain ⟨st₂, hst₂, hle, -⟩ := exit_drift hst₁ taken'
      rw [heq] at hst₂ hle
      obtain rfl := Option.some.inj (hst.symm.trans hst₂)
      exact ((hlt hn).trans_le hle).false
    rw [exit_settled hfirst] at heq
    exact ⟨hfirst, (exit_eq_iff s taken').mp heq⟩
  · rintro ⟨hfirst, hsecond⟩
    rw [exit_settled hfirst, exit_settled hsecond]

/-- A file whose ten bytes wait in the buffer, when a child has written its copy of them: the
    parent's own will come behind. -/
example :
    let s : SharedStreams := ⟨fun _ => [], [⟨1, 0, false, .pending (List.replicate 10 120)⟩]⟩
    (s.exit fun _ => 10).data 1 = List.replicate 10 120 ∧
      ((s.exit fun _ => 10).opened.map SharedStream.offset) = [10] := by
  decide

end SharedStreams

end CompatSuva.Common
