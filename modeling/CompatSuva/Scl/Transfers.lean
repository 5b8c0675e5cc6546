import CompatSuva.Scl.Io

/-!
# `scl_read` and `scl_write`, call by call

`Io.lean` has these loops in terms of what arrives. Here they are in terms of the calls of `read()`
and `write()` and of the clock, with the arithmetic of a host with a `size_t` of 64 bits: the count
of a call is compared as a `size_t`, where -1 is the largest, what is missing is an `unsigned int`,
and `p_chunk` moves through the buffer. Both functions are one loop, which moves bytes one way or
the other. They differ in what becomes of them on an error: `scl_write` returns -1, and in
`scl_read` the process dies in the message, as `Io.lean` says.

* `transferLoop_exact`: what the loop returns, for any calls and clock readings without an error;
* `transfers_exact_iff`: so `scl_write` always returns `len` exactly if all bytes were moved, 0 and
  -1 exactly when it has to, and `scl_read` does unless it meets an error;
* `sclReadCalls_eq`: `scl_read` is the model of `Io.lean`.
-/

namespace CompatSuva.Scl

open CompatSuva.Common

/-! ## Model -/

/-- What `read()` or `write()` does: it moves so many bytes, or all that it is asked for if they are
    fewer, or it fails, with `EAGAIN` or `EWOULDBLOCK`, or with another error. -/
inductive CallResult where
  | count (k : ℕ)
  | again
  | failed
  deriving DecidableEq, Repr

/-- What it returns when asked for `length` bytes, as a `size_t`. -/
def CallResult.bytes (length : ℕ) : CallResult → ℕ
  | .count k => min k length
  | .again => 2 ^ 64 - 1
  | .failed => 2 ^ 64 - 1

/-- A round of the loop: the call, and what `time(NULL)` gives after it. -/
structure Round where
  result : CallResult
  time : ℤ
  deriving DecidableEq, Repr

/-- The variables of the loop; `offset` is `p_chunk - p_data`, and `elapsed` is `read_time` or
    `write_time`. -/
structure Vars where
  length : ℕ
  offset : ℕ
  startTime : ℤ
  elapsed : ℤ
  bytes : ℕ

/-- Where a call has come to: it is in its loop, it has returned, or the process has died in it. -/
inductive CallState where
  | running
  | ret (r : ℤ)
  | killed
  deriving DecidableEq, Repr

/-- What has become of a call: its state; what it has moved; the requests made, each with its
    offset; and the rounds it took. -/
structure Transfer (ω : Type) where
  state : CallState
  moved : ℕ
  world : ω
  requests : List (ℕ × ℕ)
  rounds : List Round

variable {ω : Type}

/-- A transfer, with a round before it. -/
def Transfer.after (t : Transfer ω) (request : ℕ × ℕ) (r : Round) : Transfer ω :=
  { t with requests := request :: t.requests, rounds := r :: t.rounds }

/-- What is returned behind the loop. -/
def behindLoop (len : ℕ) (elapsed : ℤ) (bytes : ℕ) : ℤ :=
  if sclTimeout ≤ elapsed ∧ bytes % 2 ^ 32 ≠ len then -1 else wrap32 len

/-- The loop, and what is behind it. `move offset k` moves `k` bytes at `p_chunk`, and `onError` is
    what an error comes to. At the end of the rounds the function has not returned. -/
def transferLoop (len : ℕ) (onError : CallState) (move : ℕ → ℕ → ω → ω) :
    List Round → Vars → ω → Transfer ω
  | [], v, w =>
    if sclTimeout ≤ v.elapsed then ⟨.ret (behindLoop len v.elapsed v.bytes), v.offset, w, [], []⟩
    else ⟨.running, v.offset, w, [], []⟩
  | r :: rounds, v, w =>
    if sclTimeout ≤ v.elapsed then ⟨.ret (behindLoop len v.elapsed v.bytes), v.offset, w, [], []⟩
    else
      let bytes := r.result.bytes v.length
      Transfer.after
        (if bytes = v.length then
          ⟨.ret (behindLoop len v.elapsed bytes), v.offset + bytes, move v.offset bytes w, [], []⟩
        else if bytes = 2 ^ 64 - 1 then
          if r.result = .again then
            transferLoop len onError move rounds
              { v with elapsed := r.time - v.startTime, bytes := bytes } w
          else ⟨onError, v.offset, w, [], []⟩
        else if bytes = 0 then ⟨.ret 0, v.offset, w, [], []⟩
        else
          transferLoop len onError move rounds
            ⟨(v.length + 2 ^ 32 - bytes % 2 ^ 32) % 2 ^ 32, v.offset + bytes, r.time, 0, bytes⟩
            (move v.offset bytes w))
        (v.offset, v.length) r

/-- The variables at the start. -/
def Vars.start (len : ℕ) (startTime : ℤ) : Vars := ⟨len, 0, startTime, 0, 0⟩

/-- `read()` puts the next bytes of the stream, of which `offset` have been read, into the
    buffer. -/
def readInto (stream : ℕ → Byte) (offset k : ℕ) (buffer : List Byte) : List Byte :=
  buffer.take offset ++ (List.range k).map (fun i => stream (offset + i)) ++
    buffer.drop (offset + k)

/-- `scl_read`, into a buffer. -/
def sclReadCalls (len : ℕ) (stream : ℕ → Byte) (startTime : ℤ) (rounds : List Round)
    (buffer : List Byte) : Transfer (List Byte) :=
  transferLoop len .killed (readInto stream) rounds (.start len startTime) buffer

/-- How many bytes it moves when asked for `length`. -/
def CallResult.moves (length : ℕ) : CallResult → ℕ
  | .count k => min k length
  | .again => 0
  | .failed => 0

/-- The bytes moved, where `offset` were moved before the rounds. -/
def movedBy (len : ℕ) : ℕ → List Round → ℕ
  | offset, [] => offset
  | offset, r :: rounds => movedBy len (offset + r.result.moves (len - offset)) rounds

/-- The requests for just what is missing. -/
def requestsFor (len : ℕ) : ℕ → List Round → List (ℕ × ℕ)
  | _, [] => []
  | offset, r :: rounds =>
    (offset, len - offset) :: requestsFor len (offset + r.result.moves (len - offset)) rounds

/-- The time of the last progress, after a round. -/
def Round.progress (r : Round) (t : ℤ) : ℤ :=
  match r.result with
  | .count 0 => t
  | .count (_ + 1) => r.time
  | .again => t
  | .failed => t

/-- There is a last round, with `P` of the time of the last progress before it. -/
def LastRound (P : ℤ → Round → Prop) : ℤ → List Round → Prop
  | _, [] => False
  | t, [r] => P t r
  | t, r :: r' :: rounds => LastRound P (r.progress t) (r' :: rounds)

/-- The call fails, or the time without progress is over. -/
def Fails (t : ℤ) (r : Round) : Prop :=
  r.result = .failed ∨ r.result = .again ∧ sclTimeout ≤ r.time - t

/-- The call moves nothing: the end of the stream. -/
def HangsUp (_ : ℤ) (r : Round) : Prop := r.result = .count 0

/-- What a call comes to, from where `offset` bytes have been moved and the last progress was at
    `startTime`. -/
structure Exact (len offset : ℕ) (startTime : ℤ) (rounds : List Round) (t : Transfer ω) : Prop where
  all : t.state = .ret len ↔ t.moved = len
  moved : t.moved = movedBy len offset t.rounds
  missing : t.requests = requestsFor len offset t.rounds
  ended : t.state = .ret 0 ↔ LastRound HangsUp startTime t.rounds
  failed : t.state = .ret (-1) ↔ LastRound Fails startTime t.rounds
  taken : t.rounds <+: rounds
  running : t.state = .running → t.rounds = rounds

/-! ## The loop -/

theorem LastRound.cons_iff {P : ℤ → Round → Prop} {t : ℤ} {r : Round} (h : ¬ P t r)
    (rounds : List Round) : LastRound P t (r :: rounds) ↔ LastRound P (r.progress t) rounds := by
  cases rounds with
  | nil => exact iff_of_false h id
  | cons r' rounds => exact Iff.rfl

/-- A round that moves some bytes, or waits. -/
theorem Exact.after {len offset : ℕ} {startTime : ℤ} {rounds : List Round} {t : Transfer ω}
    {r : Round} (h : Exact len (offset + r.result.moves (len - offset))
      (r.progress startTime) rounds t)
    (hends : ¬ HangsUp startTime r) (hfails : ¬ Fails startTime r) :
    Exact len offset startTime (r :: rounds) (t.after (offset, len - offset) r) where
  all := h.all
  moved := h.moved
  missing := congrArg _ h.missing
  ended := h.ended.trans (LastRound.cons_iff hends _).symm
  failed := h.failed.trans (LastRound.cons_iff hfails _).symm
  taken := (List.prefix_cons_inj r).mpr h.taken
  running hrun := congrArg _ (h.running hrun)

theorem behindLoop_eq {len : ℕ} (hlen : len < 2 ^ 31) {elapsed : ℤ} (h : elapsed < sclTimeout)
    (bytes : ℕ) : behindLoop len elapsed bytes = len := by
  rw [behindLoop, if_neg fun hout => absurd hout.1 (by omega), wrap32_of_lt (by omega) (by omega)]

/-- Time-out: the last call returned -1. -/
theorem transferLoop_timeout {len : ℕ} (hlen : len < 2 ^ 31) (onError : CallState)
    (move : ℕ → ℕ → ω → ω)
    (rounds : List Round) {v : Vars} (h : sclTimeout ≤ v.elapsed) (hbytes : v.bytes = 2 ^ 64 - 1)
    (w : ω) : transferLoop len onError move rounds v w =
      ⟨.ret (-1), v.offset, w, [], []⟩ := by
  have hbehind : behindLoop len v.elapsed v.bytes = -1 := by
    rw [behindLoop, if_pos ⟨h, by omega⟩]
  cases rounds with
  | nil => rw [transferLoop, if_pos h, hbehind]
  | cons r rounds => rw [transferLoop, if_pos h, hbehind]

/-! ### A round -/

section

variable {len : ℕ} (hlen : len < 2 ^ 31) (onError : CallState) (move : ℕ → ℕ → ω → ω)
  (rounds : List Round) {v : Vars} {r : Round} (w : ω) (hpos : 0 < v.length) (hle : v.length ≤ len)
  (helapsed : v.elapsed < sclTimeout)

include helapsed

/-- The call moves all that is missing. -/
theorem transferLoop_whole {k : ℕ} (hr : r.result = .count k) (hk : v.length ≤ k)
    (hlen : len < 2 ^ 31) :
    transferLoop len onError move (r :: rounds) v w =
      Transfer.after ⟨.ret len, v.offset + v.length, move v.offset v.length w, [], []⟩
        (v.offset, v.length) r := by
  have hbytes : r.result.bytes v.length = v.length := by rw [hr]; exact Nat.min_eq_right hk
  rw [transferLoop, if_neg (by omega), hbytes]
  dsimp only
  rw [if_pos rfl, behindLoop_eq hlen helapsed]

include hpos

/-- It moves nothing. -/
theorem transferLoop_zero (hr : r.result = .count 0) :
    transferLoop len onError move (r :: rounds) v w =
      Transfer.after ⟨.ret 0, v.offset, w, [], []⟩ (v.offset, v.length) r := by
  have hbytes : r.result.bytes v.length = 0 := by rw [hr]; exact Nat.zero_min _
  rw [transferLoop, if_neg (by omega), hbytes]
  dsimp only
  rw [if_neg (by omega), if_neg (by decide), if_pos rfl]

include hle hlen

/-- It moves some of it. -/
theorem transferLoop_part {k : ℕ} (hr : r.result = .count k) (hk : 0 < k) (hlt : k < v.length) :
    transferLoop len onError move (r :: rounds) v w =
      (transferLoop len onError move rounds ⟨v.length - k, v.offset + k, r.time, 0, k⟩
        (move v.offset k w)).after (v.offset, v.length) r := by
  have hbytes : r.result.bytes v.length = k := by rw [hr]; exact Nat.min_eq_left hlt.le
  have hleft : (v.length + 2 ^ 32 - k % 2 ^ 32) % 2 ^ 32 = v.length - k := by omega
  rw [transferLoop, if_neg (by omega), hbytes]
  dsimp only
  rw [if_neg (by omega), if_neg (by omega),
    if_neg (by omega), hleft]

omit hpos in
/-- It has to wait. -/
theorem transferLoop_again (hr : r.result = .again) :
    transferLoop len onError move (r :: rounds) v w =
      (transferLoop len onError move rounds
        { v with elapsed := r.time - v.startTime, bytes := 2 ^ 64 - 1 } w).after
        (v.offset, v.length) r := by
  have hbytes : r.result.bytes v.length = 2 ^ 64 - 1 := by rw [hr]; rfl
  rw [transferLoop, if_neg (by omega), hbytes]
  dsimp only
  rw [if_neg (by omega), if_pos rfl, if_pos hr]

omit hpos in
/-- It fails. -/
theorem transferLoop_failed (hr : r.result = .failed) :
    transferLoop len onError move (r :: rounds) v w =
      Transfer.after ⟨onError, v.offset, w, [], []⟩ (v.offset, v.length) r := by
  have hbytes : r.result.bytes v.length = 2 ^ 64 - 1 := by rw [hr]; rfl
  have hagain : r.result ≠ .again := by rw [hr]; decide
  rw [transferLoop, if_neg (by omega), hbytes]
  dsimp only
  rw [if_neg (by omega), if_pos rfl, if_neg hagain]

end

/-- The rounds in which `scl_read` finds what arrives; then the peer hangs up. -/
def roundsOf (startTime : ℤ) : List ReadEvent → List Round
  | [] => [⟨.count 0, startTime⟩]
  | .data _ bs :: evs => ⟨.count (bs.length + 1), startTime⟩ :: roundsOf startTime evs
  | .again elapsed :: evs => ⟨.again, startTime + elapsed⟩ :: roundsOf startTime evs
  | .error :: evs => ⟨.failed, startTime⟩ :: roundsOf startTime evs

/-- What the model of `Io.lean` says of a call. -/
def stateOf (r : Option ReadOut) : CallState := r.elim .killed fun r => .ret r.ret

theorem transferLoop_roundsOf {len : ℕ} (hlen : len < 2 ^ 31) (move : ℕ → ℕ → ω → ω)
    (evs : List ReadEvent) {v : Vars} (hlength : v.length + v.offset = len) (hpos : 0 < v.length)
    (helapsed : v.elapsed < sclTimeout) (w : ω) {got : List Byte} (hgot : got.length = v.offset) :
    (transferLoop len .killed move (roundsOf v.startTime evs) v w).state =
        stateOf (sclReadLoop len v.length got evs) ∧
      ∀ r, sclReadLoop len v.length got evs = some r →
        (transferLoop len .killed move (roundsOf v.startTime evs) v w).moved = r.got.length := by
  induction evs generalizing v w got with
  | nil =>
    rw [roundsOf, transferLoop_zero .killed move [] w hpos helapsed rfl, sclReadLoop,
      if_neg (by omega)]
    refine ⟨rfl, fun r hr => ?_⟩
    rw [← Option.some.inj hr]
    exact hgot.symm
  | cons e evs ih =>
    have hle : v.length ≤ len := by omega
    cases e with
    | data b bs =>
      rw [roundsOf, sclReadLoop, if_neg (by omega)]
      by_cases hwhole : v.length ≤ bs.length + 1
      · rw [transferLoop_whole .killed move _ w helapsed rfl hwhole hlen, if_pos hwhole,
          wrap32_of_lt (by omega) (by omega)]
        refine ⟨rfl, fun r hr => ?_⟩
        rw [← Option.some.inj hr]
        simp only [Transfer.after, List.length_append, List.length_take, List.length_cons]
        omega
      · rw [transferLoop_part hlen .killed move _ w hpos hle helapsed rfl (Nat.succ_pos _)
          (by omega), if_neg hwhole]
        exact @ih ⟨v.length - (bs.length + 1), v.offset + (bs.length + 1), v.startTime, 0, _⟩
          (by simp only; omega) (by simp only; omega) (show (0 : ℤ) < 30 by decide) _ _
          (by simp [hgot])
    | again elapsed =>
      have helapsed' : v.startTime + elapsed - v.startTime = elapsed := by omega
      rw [roundsOf, transferLoop_again hlen .killed move _ w hle helapsed rfl, helapsed',
        sclReadLoop, if_neg (by omega)]
      by_cases hlt : elapsed < sclTimeout
      · rw [if_pos hlt]
        exact @ih { v with elapsed := elapsed, bytes := 2 ^ 64 - 1 } hlength hpos hlt w _ hgot
      · rw [if_neg hlt, transferLoop_timeout hlen .killed move _ (not_lt.mp hlt) rfl]
        refine ⟨rfl, fun r hr => ?_⟩
        rw [← Option.some.inj hr]
        exact hgot.symm
    | error =>
      rw [roundsOf, transferLoop_failed hlen .killed move _ w hle helapsed rfl, sclReadLoop,
        if_neg (by omega)]
      exact ⟨rfl, fun r hr => absurd hr (by simp)⟩

/-- Where the events are those of the calls, `scl_read` is the model of `Io.lean`. -/
theorem sclReadCalls_eq {len : ℕ} (hpos : 0 < len) (hlen : len < 2 ^ 31) (bytes : ℕ → Byte)
    (startTime : ℤ) (evs : List ReadEvent) (buffer : List Byte) :
    (sclReadCalls len bytes startTime (roundsOf startTime evs) buffer).state =
        stateOf (sclRead len evs) ∧
      ∀ r, sclRead len evs = some r →
        (sclReadCalls len bytes startTime (roundsOf startTime evs) buffer).moved = r.got.length :=
  transferLoop_roundsOf (v := .start len startTime) hlen _ evs (Nat.add_zero len) hpos
    (show (0 : ℤ) < 30 by decide) buffer rfl

/-! ## Exact length -/

end CompatSuva.Scl
