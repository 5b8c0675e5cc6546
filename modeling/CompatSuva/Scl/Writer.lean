import CompatSuva.Common.Chain
import CompatSuva.Scl.ByteOrder
import CompatSuva.Scl.Io

/-!
# Queueing and writing packets

Model of `scl_writer.c`: the queue of `struct scl_ele` behind a connection, the
static `cur_ele` that all connections share, and the functions `scl_queue_value`,
`scl_alloc_ele`, `scl_write_value` and `scl_write_out`. `int` arithmetic wraps.
`sclWriteValueOn` is the code of either build, and `sclWriteValue` that of the plain
one, on a little-endian machine.

The length of a packet is computed when a value is queued (`queuedLen`), its
bytes when it is written (`sclWriteValue`):

* `queuedLen_eq`, `flatten_sclWriteValue`: both agree with `Value.enc`.
-/

namespace CompatSuva.Scl

open CompatSuva.Common

/-! ## Data -/

/-- `struct scl_ele` (`suva_api.h` lines 37–44) without its link. -/
structure SclEle where
  object : Obj
  type : SclType
  arrayLen : ℤ

/-- A new element: `MEM_ZEROFILL` clears it. -/
def SclEle.zero : SclEle := ⟨.null, .int, 0⟩

/-- The writing side of `struct suva_conn`, with what has been written to `out`
    so far and what the coming `write()` calls on it will do. -/
structure OutConn where
  outPacketLen : BitVec 32
  outPacketOpcode : BitVec 32
  outEleQueue : Addr
  outCurEle : Addr
  out : List Byte
  sched : List WriteEvent

/-- The writing side of a program: the elements in memory, the static `cur_ele`
    (`scl_writer.c` line 17), and a connection for each index. -/
structure Writer (ι : Type) where
  heap : Heap (Node SclEle)
  curEle : Addr
  conns : ι → OutConn

/-- The first `k` bytes of an object. -/
def Obj.bytes (o : Obj) (k : ℕ) : List Byte :=
  match o with
  | .mem bs => bs.take k
  | _ => []

/-- `strlen((char *)val)`. -/
def Obj.strlen (o : Obj) : ℕ :=
  match o with
  | .mem bs => Scl.strlen bs
  | _ => 0

/-- `(char *)val`, if it is not NULL. -/
def Obj.string (o : Obj) : Option (List Byte) :=
  match o with
  | .mem bs => some bs
  | _ => none

/-- The strings `((char **)val)[0 .. n - 1]`. -/
def Obj.strings (o : Obj) (n : ℤ) : List (Option (List Byte)) :=
  match o with
  | .ptrs ss => ss.take n.toNat
  | _ => []

/-- The `int` `x` passed for an `unsigned int`. -/
def toUnsigned (x : ℤ) : ℕ := (BitVec.ofInt 32 x).toNat

/-! ## Queueing -/

/-- What `scl_queue_value` adds to `out_packet_len` (lines 123–191). -/
def queuedLen (val : Obj) (type : SclType) (arrayLen : ℤ) : ℤ :=
  (if type.isComplex ∨ type = .string then (sclLenLen : ℤ) else 0) +
    match type with
    | .int | .long | .float | .doub | .bool => type.elemLen
    | .intA | .longA | .floatA | .doubA | .boolA | .data => type.elemLen * arrayLen
    | .string => 1 + if val = .null then 0 else (val.strlen : ℤ)
    | .stringA =>
      1 + if val = .null then 0
        else sclLenLen * arrayLen + ((val.strings arrayLen).map fun s => s.elim 0 strlen).sum

variable {ι : Type} [DecidableEq ι]

/-- `scl_alloc_ele` (lines 386–392); `core` is the result of `mem_alloc`. -/
def sclAllocEle (w : Writer ι) (c : ι) (core : Addr) : Option (Writer ι) := do
  let heap := if core = 0 then w.heap else w.heap.set core ⟨SclEle.zero, 0⟩
  let cur ← heap.get w.curEle
  some { w with
    heap := heap.set w.curEle ⟨cur.data, core⟩
    conns := Function.update w.conns c { w.conns c with outCurEle := core } }

/-- `scl_queue_value` (lines 110–196). -/
def sclQueueValue (w : Writer ι) (c : ι) (val : Obj) (type : SclType) (arrayLen : ℤ)
    (core : Addr) : Option (Writer ι) := do
  let conn := w.conns c
  let cur ← w.heap.get conn.outCurEle
  sclAllocEle
    { heap := w.heap.set conn.outCurEle ⟨⟨val, type, arrayLen⟩, cur.next⟩
      curEle := conn.outCurEle
      conns := Function.update w.conns c { conn with
        outPacketLen := conn.outPacketLen + BitVec.ofInt 32 (queuedLen val type arrayLen) } }
    c core

/-! ## Writing -/

/-- `scl_fwrite(conn->out, …)`; no caller looks at its result. -/
def OutConn.fwrite (conn : OutConn) (data : List Byte) : OutConn :=
  let r := sclWrite data conn.sched
  { conn with out := conn.out ++ r.put, sched := r.rest }

section Builds

variable (b : Build)

/-- A change of memory, on the bytes of an object. -/
def Obj.change (f : Memory → Memory) : Obj → Obj
  | .mem bs => .mem (load (f (store (fun _ => 0) 0 bs)) 0 bs.length)
  | o => o

/-- `swap(val, len)`. -/
def Obj.swap (len : ℕ) (o : Obj) : Obj := o.change fun m => b.swap m 0 len

/-- `for(i = 0; i < n; i++, p_ptr += len) swap(p_ptr, len);`, from `p_ptr = val`. -/
def Obj.swapAll (len : ℕ) (n : ℤ) (o : Obj) : Obj :=
  o.change fun m => (List.range n.toNat).foldl (fun m i => b.swap m (len * i : ℕ) len) m

/-- The writes of one string (lines 340–353 and 363–376). -/
def stringWritesOn (s : Option (List Byte)) : List (List Byte) :=
  match s with
  | none => [b.image (0 : BitVec 32)]
  | some m => [b.swapImage (b.image (BitVec.ofNat 32 (strlen m))), m.take (toUnsigned (strlen m))]

/-- `scl_write_value` (lines 200–384): the buffers it writes, in turn, and the object
    at `val` afterwards. -/
def sclWriteValueOn (val : Obj) (type : SclType) (arrayLen : ℤ) : List (List Byte) × Obj :=
  let count :=
    if type.isComplex then [b.swapImage (b.image (BitVec.ofInt 32 arrayLen))] else []
  if type.isComplex ∧ arrayLen = 0 then (count ++ if type = .stringA then [[0]] else [], val)
  else
    match type with
    | .int | .long | .float | .doub | .bool =>
      let val := val.swap b type.elemLen
      (count ++ [val.bytes type.elemLen], val.swap b type.elemLen)
    | .intA | .longA | .floatA | .doubA =>
      let val := val.swapAll b type.elemLen arrayLen
      (count ++ [val.bytes (toUnsigned (type.elemLen * arrayLen))],
        val.swapAll b type.elemLen arrayLen)
    | .boolA | .data => (count ++ [val.bytes (toUnsigned (type.elemLen * arrayLen))], val)
    | .string => (count ++ (stringWritesOn b val.string ++ [[0]]), val)
    | .stringA => (count ++ ((val.strings arrayLen).flatMap (stringWritesOn b) ++ [[0]]), val)

end Builds

/-- The writes of one string in the plain build. -/
def stringWrites (s : Option (List Byte)) : List (List Byte) := stringWritesOn .plain s

/-- The writes of a value in the plain build, which swaps nothing. -/
def sclWriteValue (val : Obj) (type : SclType) (arrayLen : ℤ) : List (List Byte) :=
  (sclWriteValueOn .plain val type arrayLen).1

@[simp] theorem stringWrites_none : stringWrites none = [lenBytes 0] := rfl

@[simp] theorem stringWrites_some (m : List Byte) :
    stringWrites (some m) = [lenBytes (strlen m), m.take (toUnsigned (strlen m))] := by
  rw [stringWrites, stringWritesOn, Build.swapImage_image, lenBytes]

theorem Obj.change_id (o : Obj) : o.change (fun m => m) = o := by
  cases o with
  | null => rfl
  | mem bs => simp only [Obj.change, (holds_store (fun _ => 0) 0 bs).load rfl]
  | ptrs ss => rfl

@[simp] theorem Obj.swap_plain (len : ℕ) (o : Obj) : o.swap .plain len = o := o.change_id

@[simp] theorem Obj.swapAll_plain (len : ℕ) (n : ℤ) (o : Obj) : o.swapAll .plain len n = o := by
  simp only [Obj.swapAll, Build.swap, List.foldl_fixed, Obj.change_id]

/-- The plain build writes the object as it is, and leaves it so. -/
theorem sclWriteValueOn_plain (o : Obj) (type : SclType) (n : ℤ) :
    sclWriteValueOn .plain o type n = (sclWriteValue o type n, o) := by
  have hval : (sclWriteValueOn .plain o type n).2 = o := by
    by_cases hn : n = 0 <;> cases type <;> simp [sclWriteValueOn, SclType.isComplex, hn]
  exact Prod.ext rfl hval

theorem sclWriteValue_elems {type : SclType} (h : type.IsFlat) (o : Obj) (n : ℤ) :
    sclWriteValue o type n =
      if type.isComplex then bytesOf (BitVec.ofInt 32 n) ::
        if n = 0 then [] else [o.bytes (toUnsigned (type.elemLen * n))]
      else [o.bytes type.elemLen] := by
  obtain ⟨hs, hA⟩ := h
  by_cases hn : n = 0 <;> cases type <;>
    simp_all [sclWriteValue, sclWriteValueOn, Build.image, SclType.isComplex, SclType.elemLen]

theorem sclWriteValue_string (o : Obj) (n : ℤ) :
    sclWriteValue o .string n = stringWrites o.string ++ [[0]] := rfl

theorem sclWriteValue_stringA (o : Obj) (n : ℤ) :
    sclWriteValue o .stringA n = bytesOf (BitVec.ofInt 32 n) ::
      if n = 0 then [[0]] else (o.strings n).flatMap stringWrites ++ [[0]] := by
  have hstrings : stringWritesOn .plain = stringWrites := rfl
  by_cases hn : n = 0 <;>
    simp [sclWriteValue, sclWriteValueOn, Build.image, SclType.isComplex, hstrings, hn]

/-- The loop of `scl_write_out` (lines 91–100), with the elements, the
    connection and `cur_ele`. -/
def writeOutLoop : ℕ → Heap (Node SclEle) → OutConn → Addr →
    Option (Heap (Node SclEle) × OutConn × Addr)
  | 0, _, _, _ => none
  | fuel + 1, heap, conn, cur =>
    match heap.get cur with
    | none => none
    | some ele =>
      if ele.next = 0 then some (heap, conn, cur)
      else writeOutLoop fuel (heap.free cur)
        ((sclWriteValue ele.data.object ele.data.type ele.data.arrayLen).foldl OutConn.fwrite conn)
        ele.next

/-- The four header words `scl_write_out` writes first (lines 83–86). -/
def OutConn.header (conn : OutConn) : List (List Byte) :=
  [bytesOf conn.outPacketOpcode, lenBytes 0, lenBytes 0, bytesOf conn.outPacketLen]

/-- `scl_write_out` (lines 70–106). -/
def sclWriteOut (w : Writer ι) (c : ι) : Option (Writer ι) := do
  let conn := (w.conns c).header.foldl OutConn.fwrite (w.conns c)
  let (heap, conn, cur) ← writeOutLoop (w.heap.size + 1) w.heap conn conn.outEleQueue
  some
    { heap := heap
      curEle := cur
      conns := Function.update w.conns c { conn with outEleQueue := cur, outPacketLen := 0 } }

/-- The writing side of a connection after `open_suva_conn` (`suva_conn.c` lines
    101–106) or `suva_init_receiver`: one element, nothing queued. -/
def OutConn.opened (core : Addr) (opcode : BitVec 32) (sched : List WriteEvent) : OutConn :=
  ⟨0, opcode, core, core, [], sched⟩

/-! ## Lengths and bytes agree with the encoding -/

theorem toUnsigned_of_lt {n : ℕ} (hn : n < 2 ^ 32) : toUnsigned n = n := by
  rw [toUnsigned, BitVec.ofInt_natCast, BitVec.toNat_ofNat, Nat.mod_eq_of_lt hn]

theorem bytesOf_ofInt (n : ℕ) : bytesOf (BitVec.ofInt 32 n) = lenBytes n := by
  rw [lenBytes, BitVec.ofInt_natCast]

/-- The C object `p` represents the string `s`. -/
def StrRep (p : Option (List Byte)) (s : Option CStr) : Prop :=
  match s with
  | none => p = none
  | some s => ∃ junk, p = some (s.image ++ junk)

theorem StrRep.strlen {p : Option (List Byte)} {s : Option CStr} (h : StrRep p s) :
    p.elim 0 strlen = (strBytes s).length := by
  cases s with
  | none =>
    have hp : p = none := h
    simp [hp]
  | some s =>
    obtain ⟨junk, rfl⟩ := h
    simp

theorem StrRep.writes {p : Option (List Byte)} {s : Option CStr} (h : StrRep p s)
    (hlen : (strBytes s).length < 2 ^ 32) :
    (stringWrites p).flatten = lenBytes (strBytes s).length ++ strBytes s := by
  cases s with
  | none =>
    have hp : p = none := h
    simp [hp]
  | some s =>
    obtain ⟨junk, rfl⟩ := h
    have hs : s.val.length < 2 ^ 32 := hlen
    simp [toUnsigned_of_lt hs]

/-- `Value.Rep` for an `SCL_STRING_A`. -/
theorem rep_stringA {ss : List (Option CStr)} {o : Obj} {n : ℤ} (h : (Value.stringA ss).Rep o n) :
    n = ss.length ∧ ((ss = [] ∧ o = .null) ∨ ∃ ps, o = .ptrs ps ∧ List.Forall₂ StrRep ps ss) := by
  refine ⟨h.1, h.2.imp_right ?_⟩
  rintro ⟨ps, rfl, hps⟩
  exact ⟨ps, rfl, hps.imp fun _ s hs => by cases s <;> exact hs⟩

/-- The two shapes an argument of a type made of elements can have. -/
theorem Obj.bytes_elems {o : Obj} {es : List Byte}
    (h : (es = [] ∧ o = .null) ∨ ∃ junk, o = .mem (es ++ junk)) : o.bytes es.length = es := by
  rcases h with ⟨rfl, rfl⟩ | ⟨junk, rfl⟩
  · rfl
  · simp [Obj.bytes]

theorem queuedLen_flat {type : SclType} (h : type.IsFlat) (o : Obj) (n : ℤ) :
    queuedLen o type n =
      if type.isComplex then sclLenLen + type.elemLen * n else (type.elemLen : ℤ) := by
  obtain ⟨hs, hA⟩ := h
  cases type <;> simp_all [queuedLen, SclType.isComplex, SclType.elemLen]

theorem sclWriteValue_flat {type : SclType} (h : type.IsFlat) (o : Obj) (n : ℤ) :
    (sclWriteValue o type n).flatten =
      if type.isComplex then bytesOf (BitVec.ofInt 32 n) ++
        if n = 0 then [] else o.bytes (toUnsigned (type.elemLen * n))
      else o.bytes type.elemLen := by
  rw [sclWriteValue_elems h]
  split_ifs <;> simp

/-- The length added for a value is the length of its encoding. -/
theorem queuedLen_eq {v : Value} {o : Obj} {n : ℤ} (h : v.Rep o n) :
    queuedLen o v.type n = v.enc.length := by
  rcases v.cases_type with ⟨s, rfl⟩ | ⟨ss, rfl⟩ | hv
  · cases s with
    | none =>
      have ho : o = .null := h
      simp [queuedLen, Value.type, SclType.isComplex, ho, Value.enc, sclLenLen]
    | some s =>
      obtain ⟨junk, rfl⟩ := h
      simp [queuedLen, Value.type, SclType.isComplex, Value.enc, sclLenLen, Obj.strlen]
      omega
  · obtain ⟨rfl, ⟨rfl, rfl⟩ | ⟨ps, rfl, hps⟩⟩ := rep_stringA h
    · simp [queuedLen, Value.type, SclType.isComplex, Value.enc, sclLenLen]
    · have hsum : (ps.map fun s => s.elim 0 strlen).sum + 4 * ss.length =
          (ss.flatMap fun s => lenBytes (strBytes s).length ++ strBytes s).length := by
        clear h
        induction hps with
        | nil => rfl
        | @cons p s ps ss hp _ ih =>
          simp only [List.map_cons, List.sum_cons, List.flatMap_cons, List.length_append,
            List.length_cons, length_lenBytes, hp.strlen, ← ih]
          ring
      have htake : ps.take ss.length = ps := by rw [← hps.length_eq, List.take_length]
      simp only [queuedLen, Value.type, SclType.isComplex, Value.enc, sclLenLen, Obj.strings,
        Int.toNat_natCast, htake, List.length_append, length_lenBytes, ← hsum]
      simp
      omega
  · obtain ⟨hn, -⟩ := Value.rep_flat hv h
    rw [queuedLen_flat hv, Value.enc_flat hv, List.length_append, Value.length_elems hv]
    cases hc : v.type.isComplex with
    | true => simp [hn hc, sclLenLen]
    | false => simp [Value.count_scalar hc]

/-- The bytes written for a value are its encoding. -/
theorem flatten_sclWriteValue {v : Value} {o : Obj} {n : ℤ} (h : v.Rep o n)
    (hlen : v.enc.length < 2 ^ 32) : (sclWriteValue o v.type n).flatten = v.enc := by
  rcases v.cases_type with ⟨s, rfl⟩ | ⟨ss, rfl⟩ | hv
  · have hrep : StrRep o.string s := by
      cases s with
      | none =>
        have ho : o = .null := h
        rw [ho]
        rfl
      | some s =>
        obtain ⟨junk, rfl⟩ := h
        exact ⟨junk, rfl⟩
    have hw := hrep.writes (by simp [Value.enc] at hlen; omega)
    simp [sclWriteValue_string, Value.type, Value.enc, hw]
  · obtain ⟨rfl, ⟨rfl, rfl⟩ | ⟨ps, rfl, hps⟩⟩ := rep_stringA h
    · simp [sclWriteValue_stringA, Value.type, Value.enc, lenBytes]
    · have hwrites : (ps.flatMap stringWrites).flatten =
          ss.flatMap fun s => lenBytes (strBytes s).length ++ strBytes s := by
        have hlen' : (ss.flatMap fun s => lenBytes (strBytes s).length ++ strBytes s).length <
            2 ^ 32 := by
          simp only [Value.enc, List.length_append] at hlen
          omega
        clear h hlen
        induction hps with
        | nil => rfl
        | @cons p s ps ss hp _ ih =>
          simp only [List.flatMap_cons, List.length_append] at hlen'
          rw [List.flatMap_cons, List.flatten_append, hp.writes (by omega), ih (by omega),
            List.flatMap_cons]
      have htake : ps.take ss.length = ps := by rw [← hps.length_eq, List.take_length]
      simp only [sclWriteValue_stringA, Value.type, Value.enc, Obj.strings, Int.toNat_natCast,
        htake, bytesOf_ofInt]
      by_cases h0 : (ss.length : ℤ) = 0
      · have hnil : ss = [] := List.eq_nil_of_length_eq_zero (by omega)
        simp [hnil]
      · simp only [if_neg h0, List.flatten_cons, List.flatten_append, hwrites]
        simp
  · obtain ⟨hn, hshape⟩ := Value.rep_flat hv h
    have helems := Value.length_elems hv
    have hbytes := Obj.bytes_elems hshape
    rw [Value.enc_flat hv, List.length_append] at hlen
    rw [sclWriteValue_flat hv, Value.enc_flat hv]
    cases hc : v.type.isComplex with
    | false =>
      rw [Value.count_scalar hc, mul_one] at helems
      rw [if_neg (by simp), if_neg (by simp), List.nil_append, ← helems, hbytes]
    | true =>
      obtain rfl := hn hc
      have hcast : ((v.type.elemLen : ℤ) * (v.count : ℤ)) = (v.elems.length : ℕ) := by
        rw [helems]
        push_cast
        rfl
      rw [if_pos rfl, if_pos rfl, bytesOf_ofInt, hcast, toUnsigned_of_lt (by omega), hbytes]
      split_ifs with h0
      · have : v.elems.length = 0 := by rw [helems, Int.natCast_eq_zero.mp h0, Nat.mul_zero]
        rw [List.eq_nil_of_length_eq_zero this]
      · rfl

end CompatSuva.Scl
