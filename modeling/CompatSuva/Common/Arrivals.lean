import CompatSuva.Common.LittleEndian

/-!
# Bytes arriving on a descriptor

What a reader sees of a non-blocking descriptor is a list of events: fragments
of the peer's byte stream, `EAGAIN`s, errors; the end of the list is the peer
hanging up. `stream evs` is the byte stream itself, whatever its fragmentation.

* `Arrives limit n evs`: the next `n` bytes arrive before any error, hang-up or
  `EAGAIN` at or past the time limit;
* `arrives_of_timely`: they do whenever no event is an error or late;
* `Arrives.split`: `a + b` bytes arrive iff `a` bytes arrive and then `b`.
-/

namespace CompatSuva.Common

/-- The outcome of one `read()` on a descriptor. -/
inductive ReadEvent where
  /-- A non-empty fragment of the stream is there to be read. -/
  | data (b : Byte) (bs : List Byte)
  /-- `EAGAIN`; `elapsed` is what the reader then computes as the time since
      its last progress. -/
  | again (elapsed : ℤ)
  /-- Any other error. -/
  | error
  deriving DecidableEq, Repr

/-- The bytes an event carries. -/
def ReadEvent.bytes : ReadEvent → List Byte
  | .data b bs => b :: bs
  | _ => []

/-- The byte stream the peer sent. -/
def stream (evs : List ReadEvent) : List Byte := evs.flatMap ReadEvent.bytes

@[simp] theorem stream_nil : stream [] = [] := rfl

@[simp] theorem stream_cons (e : ReadEvent) (evs : List ReadEvent) :
    stream (e :: evs) = e.bytes ++ stream evs := rfl

@[simp] theorem stream_append (evs evs' : List ReadEvent) :
    stream (evs ++ evs') = stream evs ++ stream evs' := List.flatMap_append

/-- Put the unread end of a fragment back in front. -/
def pushBack : List Byte → List ReadEvent → List ReadEvent
  | [], evs => evs
  | b :: bs, evs => .data b bs :: evs

@[simp] theorem stream_pushBack (bs : List Byte) (evs : List ReadEvent) :
    stream (pushBack bs evs) = bs ++ stream evs := by
  cases bs <;> simp [pushBack, ReadEvent.bytes]

/-- Neither an error nor an `EAGAIN` at or past the limit. -/
def ReadEvent.Timely (limit : ℤ) : ReadEvent → Prop
  | .data _ _ => True
  | .again elapsed => elapsed < limit
  | .error => False

/-- The next `n` bytes arrive, every wait for them staying under the limit. -/
def Arrives (limit : ℤ) : ℕ → List ReadEvent → Prop
  | n, [] => n = 0
  | n, .data _ bs :: evs => Arrives limit (n - (bs.length + 1)) evs
  | n, .again elapsed :: evs => n = 0 ∨ elapsed < limit ∧ Arrives limit n evs
  | n, .error :: _ => n = 0

instance decidableArrives (limit : ℤ) : ∀ n evs, Decidable (Arrives limit n evs)
  | n, [] => inferInstanceAs (Decidable (n = 0))
  | n, .data _ bs :: evs => decidableArrives limit (n - (bs.length + 1)) evs
  | n, .again elapsed :: evs =>
    have := decidableArrives limit n evs
    inferInstanceAs (Decidable (n = 0 ∨ elapsed < limit ∧ Arrives limit n evs))
  | n, .error :: _ => inferInstanceAs (Decidable (n = 0))

/-- Nothing more arrives: the peer is gone, or a wait for it reaches the limit. -/
def Ceased (limit : ℤ) : List ReadEvent → Prop
  | [] => True
  | .data _ _ :: _ => False
  | .again elapsed :: evs => limit ≤ elapsed ∨ Ceased limit evs
  | .error :: _ => False

instance decidableCeased (limit : ℤ) : ∀ evs, Decidable (Ceased limit evs)
  | [] => inferInstanceAs (Decidable True)
  | .data _ _ :: _ => inferInstanceAs (Decidable False)
  | .again elapsed :: evs =>
    have := decidableCeased limit evs
    inferInstanceAs (Decidable (limit ≤ elapsed ∨ Ceased limit evs))
  | .error :: _ => inferInstanceAs (Decidable False)

variable {limit : ℤ}

@[simp] theorem arrives_zero (evs : List ReadEvent) : Arrives limit 0 evs := by
  induction evs with
  | nil => rfl
  | cons e evs ih =>
    cases e with
    | data b bs => simpa [Arrives] using ih
    | again elapsed => exact Or.inl rfl
    | error => rfl

theorem Arrives.le_length {n : ℕ} {evs : List ReadEvent} (h : Arrives limit n evs) :
    n ≤ (stream evs).length := by
  induction evs generalizing n with
  | nil => simp only [Arrives] at h; omega
  | cons e evs ih =>
    cases e with
    | data b bs =>
      have := ih h
      simp [ReadEvent.bytes]
      omega
    | again elapsed =>
      rcases h with rfl | ⟨-, h⟩
      · omega
      · simpa [ReadEvent.bytes] using ih h
    | error => simp only [Arrives] at h; omega

theorem Arrives.mono {m n : ℕ} {evs : List ReadEvent} (h : Arrives limit n evs) (hmn : m ≤ n) :
    Arrives limit m evs := by
  induction evs generalizing m n with
  | nil => simp only [Arrives] at h ⊢; omega
  | cons e evs ih =>
    cases e with
    | data b bs => exact ih (n := n - (bs.length + 1)) h (by omega)
    | again elapsed =>
      rcases h with rfl | ⟨hlt, h⟩
      · exact Or.inl (by omega)
      · exact Or.inr ⟨hlt, ih h hmn⟩
    | error => simp only [Arrives] at h ⊢; omega

/-- If nothing is late or broken, everything sent arrives. -/
theorem arrives_of_timely {n : ℕ} {evs : List ReadEvent} (h : ∀ e ∈ evs, e.Timely limit)
    (hn : n ≤ (stream evs).length) : Arrives limit n evs := by
  induction evs generalizing n with
  | nil => simpa [Arrives] using hn
  | cons e evs ih =>
    have hrest : ∀ e ∈ evs, e.Timely limit := fun e he => h e (by simp [he])
    have he := h e (by simp)
    cases e with
    | data b bs =>
      apply ih hrest
      simp [ReadEvent.bytes] at hn
      omega
    | again elapsed => exact Or.inr ⟨he, ih hrest (by simpa [ReadEvent.bytes] using hn)⟩
    | error => exact he.elim

@[simp] theorem arrives_pushBack {n : ℕ} (bs : List Byte) (evs : List ReadEvent) :
    Arrives limit n (pushBack bs evs) ↔ Arrives limit (n - bs.length) evs := by
  cases bs <;> simp [pushBack, Arrives]

/-- The events left once the next `n` bytes have been read. -/
def dropBytes : ℕ → List ReadEvent → List ReadEvent
  | 0, evs => evs
  | _ + 1, [] => []
  | n + 1, .data b bs :: evs =>
    if n + 1 ≤ bs.length + 1 then pushBack ((b :: bs).drop (n + 1)) evs
    else dropBytes (n + 1 - (bs.length + 1)) evs
  | n + 1, .again _ :: evs => dropBytes (n + 1) evs
  | _ + 1, .error :: evs => evs

theorem stream_dropBytes {n : ℕ} {evs : List ReadEvent} (h : Arrives limit n evs) :
    stream (dropBytes n evs) = (stream evs).drop n := by
  induction evs generalizing n with
  | nil => cases n <;> simp [dropBytes]
  | cons e evs ih =>
    cases n with
    | zero => simp [dropBytes]
    | succ n =>
      cases e with
      | data b bs =>
        simp only [dropBytes, stream_cons, ReadEvent.bytes]
        split_ifs with hle
        · rw [stream_pushBack, List.drop_append_of_le_length (by simpa using hle)]
        · have hnil : (b :: bs).drop (n + 1) = [] := List.drop_eq_nil_of_le (by simp; omega)
          rw [ih h, List.drop_append, hnil, List.nil_append, List.length_cons]
      | again elapsed =>
        rcases h with h | ⟨-, h⟩
        · omega
        · simpa [dropBytes, ReadEvent.bytes] using ih h
      | error => simp [Arrives] at h

/-- `a + b` bytes arrive iff `a` bytes arrive and, after them, `b` bytes. -/
theorem arrives_add {a b : ℕ} {evs : List ReadEvent} :
    Arrives limit (a + b) evs ↔ Arrives limit a evs ∧ Arrives limit b (dropBytes a evs) := by
  induction evs generalizing a with
  | nil => cases a <;> simp [Arrives, dropBytes]
  | cons e evs ih =>
    cases a with
    | zero => simp [dropBytes]
    | succ a =>
      cases e with
      | data x bs =>
        simp only [dropBytes, Arrives]
        split_ifs with hle
        · rw [arrives_pushBack, show a + 1 - (bs.length + 1) = 0 by omega,
            show a + 1 + b - (bs.length + 1) = b - ((x :: bs).drop (a + 1)).length by simp; omega]
          simp
        · rw [show a + 1 + b - (bs.length + 1) = a + 1 - (bs.length + 1) + b by omega, ih]
      | again elapsed => simp [dropBytes, Arrives, ih, and_assoc]
      | error => simp [Arrives]

theorem timely_dropBytes {n : ℕ} {evs : List ReadEvent} (h : ∀ e ∈ evs, e.Timely limit) :
    ∀ e ∈ dropBytes n evs, e.Timely limit := by
  induction evs generalizing n with
  | nil => cases n <;> simp [dropBytes]
  | cons e evs ih =>
    have hrest : ∀ e ∈ evs, e.Timely limit := fun e he => h e (by simp [he])
    cases n with
    | zero => exact h
    | succ n =>
      cases e with
      | data b bs =>
        simp only [dropBytes]
        split_ifs
        · generalize (b :: bs).drop (n + 1) = l
          cases l with
          | nil => exact hrest
          | cons c cs =>
            intro e he
            rcases List.mem_cons.mp he with rfl | he
            · trivial
            · exact hrest e he
        · exact ih hrest
      | again elapsed => exact ih hrest
      | error => exact hrest

end CompatSuva.Common
