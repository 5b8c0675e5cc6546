import CompatSuva.Common.Arrivals

/-!
# `scl_read` and `scl_write`

Models of the two transfer loops of `scl_reader.c` (lines 26–72) and
`scl_writer.c` (lines 21–67). Both retry a non-blocking `read()`/`write()` until
the whole length has been moved, and give up on an error, on a zero count, or
when the clock shows `SCL_TIMEOUT` seconds without progress.

On an error other than `EAGAIN` both first print `strerror(errno)`. `scl_reader.c`
does not include `<string.h>`, so that `strerror` is taken to return an `int`: where a
pointer has 8 bytes `fprintf` gets half of the address, and the process dies there.
`scl_writer.c` includes it, and returns -1.

* `sclRead_of_arrives`: when the bytes arrive in time, `scl_read` returns `len`
  with exactly the next `len` bytes of the stream in the buffer;
* `arrives_of_length_got`: it takes all its bytes off the stream only then;
* `sclWrite_of_ok`: when no write fails, `scl_write` puts exactly the buffer on
  the stream, however short the individual writes are.
-/

namespace CompatSuva.Scl

open CompatSuva.Common

/-- `#define SCL_TIMEOUT 30` (`suva_api.h` line 34). -/
def sclTimeout : ℤ := 30

/-! ## `scl_read` -/

/-- What a call of `scl_read` leaves behind: its return value, the bytes put
    into `p_data`, and the events not consumed. -/
structure ReadOut where
  ret : ℤ
  got : List Byte
  rest : List ReadEvent
  deriving DecidableEq, Repr

/-- The `while` loop of `scl_read` (lines 33–62) with `length` bytes missing and
    `got` already in the buffer. A `read()` of 0 bytes returns 0 at once; at the
    end of the events the peer has hung up and `read()` returns 0. `none` is the
    end of the process, in the `fprintf` of lines 46–47.

    On a time-out the loop ends with `bytes == (size_t)-1`. The test
    `(unsigned int)bytes != len` of line 64 then only fails for
    `len == UINT_MAX`, whose `(int)len` is the same `-1`. -/
def sclReadLoop (len : ℕ) (length : ℕ) (got : List Byte) : List ReadEvent → Option ReadOut
  | [] => if length = 0 then some ⟨wrap32 len, got, []⟩ else some ⟨0, got, []⟩
  | .data b bs :: evs =>
    if length = 0 then some ⟨wrap32 len, got, .data b bs :: evs⟩
    else if length ≤ bs.length + 1 then
      some ⟨wrap32 len, got ++ (b :: bs).take length, pushBack ((b :: bs).drop length) evs⟩
    else sclReadLoop len (length - (bs.length + 1)) (got ++ b :: bs) evs
  | .again elapsed :: evs =>
    if length = 0 then some ⟨wrap32 len, got, .again elapsed :: evs⟩
    else if elapsed < sclTimeout then sclReadLoop len length got evs
    else some ⟨-1, got, evs⟩
  | .error :: evs => if length = 0 then some ⟨wrap32 len, got, .error :: evs⟩ else none

/-- `int scl_read(int sd, void *p_data, unsigned int len)`. -/
def sclRead (len : ℕ) (evs : List ReadEvent) : Option ReadOut := sclReadLoop len len [] evs

theorem sclReadLoop_of_arrives (len : ℕ) {length : ℕ} {got : List Byte} {evs : List ReadEvent}
    (h : Arrives sclTimeout length evs) :
    sclReadLoop len length got evs =
      some ⟨wrap32 len, got ++ (stream evs).take length, dropBytes length evs⟩ := by
  induction evs generalizing length got with
  | nil =>
    simp only [Arrives] at h
    subst h
    simp [sclReadLoop, dropBytes]
  | cons e evs ih =>
    cases length with
    | zero => cases e <;> simp [sclReadLoop, dropBytes]
    | succ n =>
      cases e with
      | data b bs =>
        rw [sclReadLoop, if_neg (by omega)]
        simp only [dropBytes, stream_cons, ReadEvent.bytes]
        split_ifs with hle
        · rw [List.take_append_of_le_length (by simpa using hle)]
        · have hall : (b :: bs).take (n + 1) = b :: bs := List.take_of_length_le (by simp; omega)
          rw [ih h, List.take_append, hall, List.append_assoc, List.length_cons]
      | again elapsed =>
        rcases h with h | ⟨hlt, h⟩
        · omega
        · rw [sclReadLoop, if_neg (by omega), if_pos hlt, ih h]
          rfl
      | error => simp [Arrives] at h

/-- When the bytes arrive in time, `scl_read` delivers exactly the next `len`
    bytes of the stream, however they are fragmented. -/
theorem sclRead_of_arrives {len : ℕ} {evs : List ReadEvent} (h : Arrives sclTimeout len evs) :
    sclRead len evs = some ⟨wrap32 len, (stream evs).take len, dropBytes len evs⟩ := by
  rw [sclRead, sclReadLoop_of_arrives len h, List.nil_append]

theorem sclReadLoop_stream {len length : ℕ} {got : List Byte} {evs : List ReadEvent} {r : ReadOut}
    (h : sclReadLoop len length got evs = some r) :
    r.got ++ stream r.rest = got ++ stream evs := by
  induction evs generalizing length got with
  | nil =>
    unfold sclReadLoop at h
    split_ifs at h <;> simp [← Option.some.inj h]
  | cons e evs ih =>
    cases e with
    | data b bs =>
      unfold sclReadLoop at h
      split_ifs at h with h0 hle
      · simp [← Option.some.inj h]
      · simp only [← Option.some.inj h, stream_pushBack, stream_cons, ReadEvent.bytes,
          List.append_assoc]
        rw [← List.append_assoc ((b :: bs).take length), List.take_append_drop]
      · rw [ih h]
        simp [ReadEvent.bytes]
    | again elapsed =>
      unfold sclReadLoop at h
      split_ifs at h with h0 hlt
      · simp [← Option.some.inj h]
      · rw [ih h]
        simp [ReadEvent.bytes]
      · simp [← Option.some.inj h, ReadEvent.bytes]
    | error =>
      unfold sclReadLoop at h
      split_ifs at h
      simp [← Option.some.inj h]

/-- If the bytes do not arrive and `scl_read` returns, it has failed short of them. -/
theorem sclReadLoop_of_not_arrives {len length : ℕ} {got : List Byte} {evs : List ReadEvent}
    {r : ReadOut} (h : ¬ Arrives sclTimeout length evs)
    (hr : sclReadLoop len length got evs = some r) :
    (r.ret = 0 ∨ r.ret = -1) ∧ r.got.length < got.length + length := by
  have h0 : length ≠ 0 := by
    rintro rfl
    exact h (arrives_zero evs)
  induction evs generalizing length got with
  | nil =>
    rw [sclReadLoop, if_neg h0] at hr
    simp only [← Option.some.inj hr, true_or, true_and]
    omega
  | cons e evs ih =>
    cases e with
    | data b bs =>
      have harr : ¬ Arrives sclTimeout (length - (bs.length + 1)) evs := h
      have hlt : ¬ length ≤ bs.length + 1 := by
        intro hle
        rw [Nat.sub_eq_zero_of_le hle] at harr
        exact harr (arrives_zero evs)
      rw [sclReadLoop, if_neg h0, if_neg hlt] at hr
      obtain ⟨hret, hlen⟩ := ih harr hr (by omega)
      refine ⟨hret, lt_of_lt_of_le hlen ?_⟩
      simp
      omega
    | again elapsed =>
      rw [sclReadLoop, if_neg h0] at hr
      split_ifs at hr with hlt
      · exact ih (fun harr => h (Or.inr ⟨hlt, harr⟩)) hr h0
      · simp only [← Option.some.inj hr, or_true, true_and]
        omega
    | error =>
      rw [sclReadLoop, if_neg h0] at hr
      simp at hr

/-- What `scl_read` has put in the buffer has come off the stream. -/
theorem sclRead_stream {len : ℕ} {evs : List ReadEvent} {r : ReadOut}
    (h : sclRead len evs = some r) : r.got ++ stream r.rest = stream evs := by
  simpa using sclReadLoop_stream h

/-- The outcome of one `write()`. -/
inductive WriteEvent where
  /-- `k + 1` bytes are taken, or all that are offered if they are fewer. -/
  | accept (k : ℕ)
  /-- `EAGAIN`; `elapsed` is `time(NULL) - start_time` as then computed. -/
  | again (elapsed : ℤ)
  /-- Any other error. -/
  | error
  /-- `write()` returns 0. -/
  | hangUp
  deriving DecidableEq, Repr

/-- The write makes progress, or waits within the time limit. -/
def WriteEvent.Ok : WriteEvent → Prop
  | .accept _ => True
  | .again elapsed => elapsed < sclTimeout
  | .error => False
  | .hangUp => False

instance (e : WriteEvent) : Decidable e.Ok := by
  cases e <;> simp only [WriteEvent.Ok] <;> infer_instance

/-- What a call of `scl_write` leaves behind: its return value, the bytes put on
    the stream, and the events not consumed. -/
structure WriteOut where
  ret : ℤ
  put : List Byte
  rest : List WriteEvent
  deriving DecidableEq, Repr

/-- The `while` loop of `scl_write` (lines 28–57) with the bytes `chunk` still to
    be written and `put` already on the stream. Past the end of the events every
    `write()` takes all it is offered. -/
def sclWriteLoop (len : ℕ) (chunk put : List Byte) : List WriteEvent → WriteOut
  | [] => ⟨wrap32 len, put ++ chunk, []⟩
  | .accept k :: evs =>
    if chunk.length = 0 then ⟨wrap32 len, put, .accept k :: evs⟩
    else if chunk.length ≤ k + 1 then ⟨wrap32 len, put ++ chunk, evs⟩
    else sclWriteLoop len (chunk.drop (k + 1)) (put ++ chunk.take (k + 1)) evs
  | .again elapsed :: evs =>
    if chunk.length = 0 then ⟨wrap32 len, put, .again elapsed :: evs⟩
    else if elapsed < sclTimeout then sclWriteLoop len chunk put evs
    else ⟨-1, put, evs⟩
  | .error :: evs =>
    if chunk.length = 0 then ⟨wrap32 len, put, .error :: evs⟩ else ⟨-1, put, evs⟩
  | .hangUp :: evs =>
    if chunk.length = 0 then ⟨wrap32 len, put, .hangUp :: evs⟩ else ⟨0, put, evs⟩

/-- `int scl_write(int sd, void *p_data, unsigned int len)`, `data` being the
    `len` bytes at `p_data`. -/
def sclWrite (data : List Byte) (evs : List WriteEvent) : WriteOut :=
  sclWriteLoop data.length data [] evs

theorem sclWriteLoop_of_ok (len : ℕ) {chunk put : List Byte} {evs : List WriteEvent}
    (h : ∀ e ∈ evs, e.Ok) :
    (sclWriteLoop len chunk put evs).ret = wrap32 len ∧
      (sclWriteLoop len chunk put evs).put = put ++ chunk ∧
      ∀ e ∈ (sclWriteLoop len chunk put evs).rest, e.Ok := by
  induction evs generalizing chunk put with
  | nil => simp [sclWriteLoop]
  | cons e evs ih =>
    have hrest : ∀ e ∈ evs, e.Ok := fun e he => h e (by simp [he])
    have he := h e (by simp)
    by_cases hc : chunk.length = 0
    · have hnil : chunk = [] := List.eq_nil_of_length_eq_zero hc
      subst hnil
      cases e with
      | error => exact he.elim
      | hangUp => exact he.elim
      | accept k => simpa [sclWriteLoop] using h
      | again elapsed => simpa [sclWriteLoop] using h
    · cases e with
      | accept k =>
        rw [sclWriteLoop, if_neg hc]
        split_ifs with hle
        · exact ⟨rfl, rfl, hrest⟩
        · have := @ih (chunk.drop (k + 1)) (put ++ chunk.take (k + 1)) hrest
          rwa [List.append_assoc, List.take_append_drop] at this
      | again elapsed =>
        have hlt : elapsed < sclTimeout := he
        rw [sclWriteLoop, if_neg hc, if_pos hlt]
        exact ih hrest
      | error => exact he.elim
      | hangUp => exact he.elim

/-- When no write fails, `scl_write` puts the whole buffer on the stream. -/
theorem sclWrite_of_ok (data : List Byte) {evs : List WriteEvent} (h : ∀ e ∈ evs, e.Ok) :
    (sclWrite data evs).ret = wrap32 data.length ∧ (sclWrite data evs).put = data ∧
      ∀ e ∈ (sclWrite data evs).rest, e.Ok := by
  simpa [sclWrite] using @sclWriteLoop_of_ok data.length data [] evs h

end CompatSuva.Scl
