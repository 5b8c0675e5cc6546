import CompatSuva.Scl.Outbox

/-!
# The writer in both builds

`scl_writer.c` with its `#ifdef SCO_BIG_ENDIAN` blocks: the words of the header, the
counts and lengths, and the numbers of the caller are swapped in place before they
are written. The counts, lengths and numbers are swapped back, `out_packet_opcode`
is not.

* `sclWriteOutOn_plain`: without `SCO_BIG_ENDIAN` this is `sclWriteOut`;
* `sclWriteValueOn_eq`: the buffers written for a value are those that a little-endian
  host writes, and the object of the caller is as it was;
* `writeOutOn_packet`: the packet that `scl_write_out` sends.
-/

namespace CompatSuva.Scl

open CompatSuva.Common

variable (b : Build)

/-! ## Writing -/

/-- `swap` on a word of a struct: the word that the host then reads there. -/
def Build.swapField {w : ℕ} (v : BitVec w) : BitVec w := b.word w (b.swapImage (b.image v))

/-- The loop of `scl_write_out` (lines 91–100); the last argument collects the objects
    as they are after they have been written. -/
def writeOutLoopOn : ℕ → Heap (Node SclEle) → OutConn → Addr → List Obj →
    Option (Heap (Node SclEle) × OutConn × Addr × List Obj)
  | 0, _, _, _, _ => none
  | fuel + 1, heap, conn, cur, objs =>
    match heap.get cur with
    | none => none
    | some ele =>
      if ele.next = 0 then some (heap, conn, cur, objs)
      else
        let (bufs, obj) := sclWriteValueOn b ele.data.object ele.data.type ele.data.arrayLen
        writeOutLoopOn fuel (heap.free cur) (bufs.foldl OutConn.fwrite conn) ele.next
          (objs ++ [obj])

variable {ι : Type} [DecidableEq ι]

/-- `scl_write_out` (lines 70–106), with the objects of the values it has sent. -/
def sclWriteOutOn (w : Writer ι) (c : ι) : Option (Writer ι × List Obj) := do
  let conn := { w.conns c with
    outPacketOpcode := b.swapField (w.conns c).outPacketOpcode
    outPacketLen := b.swapField (w.conns c).outPacketLen }
  let zero : BitVec 32 := b.swapField 0
  let header := [b.image conn.outPacketOpcode, b.image zero, b.image zero,
    b.image conn.outPacketLen]
  let conn := header.foldl OutConn.fwrite conn
  let (heap, conn, cur, objs) ←
    writeOutLoopOn b (w.heap.size + 1) w.heap conn conn.outEleQueue []
  some
    ({ heap := heap
       curEle := cur
       conns := Function.update w.conns c { conn with outEleQueue := cur, outPacketLen := 0 } },
      objs)

/-! ## What swapping does -/

theorem image_swapField {w : ℕ} (hw : 8 ∣ w) (v : BitVec w) :
    b.image (b.swapField v) = bytesOf v := by
  have hword : b.swapField v = wordOf w (b.order (bytesOf v)) := by
    rw [Build.swapField, b.swapImage_image, Build.word]
  rw [Build.image, hword, bytesOf_wordOf hw (by simp), Build.order_order]

theorem swapField_plain {w : ℕ} (hw : 8 ∣ w) (v : BitVec w) : Build.plain.swapField v = v := by
  rw [Build.swapField, Build.swapImage_image, Build.word, Build.order_plain, wordOf_bytesOf hw]

theorem swapField_bigEndian {w : ℕ} (v : BitVec w) : Build.bigEndian.swapField v = swapWord v := by
  rw [Build.swapField, Build.swapImage_image, Build.word, Build.order_bigEndian, swapWord]

/-- Swapping the elements of an array one after the other. -/
theorem foldl_swap {k : ℕ} (es : List (List Byte)) (hes : ∀ e ∈ es, e.length = k) {m : Memory}
    (h : Holds m 0 es.flatten) :
    Holds ((List.range es.length).foldl (fun m i => b.swap m (k * i : ℕ) k) m) 0
        (es.map b.order).flatten ∧
      ∀ x : ℤ, (k * es.length : ℕ) ≤ x →
        (List.range es.length).foldl (fun m i => b.swap m (k * i : ℕ) k) m x = m x := by
  induction es using List.reverseRecOn with
  | nil => exact ⟨Holds.nil _ _, fun x _ => rfl⟩
  | append_singleton es e ih =>
    have he : e.length = k := hes e (by simp)
    have hflat : ∀ l : List (List Byte), (∀ e ∈ l, e.length = k) →
        l.flatten.length = k * l.length := by
      intro l hl
      induction l with
      | nil => simp
      | cons a l ihl =>
        rw [List.flatten_cons, List.length_append, hl a (by simp),
          ihl fun e he => hl e (by simp [he]), List.length_cons]
        ring
    have hes' : ∀ e ∈ es, e.length = k := fun e he => hes e (by simp [he])
    rw [List.flatten_append, holds_append] at h
    obtain ⟨hfirst, hlast⟩ := h
    obtain ⟨hswapped, hkept⟩ := ih hes' hfirst
    rw [List.length_append, List.length_singleton, List.range_succ, List.foldl_append,
      List.foldl_cons, List.foldl_nil]
    generalize (List.range es.length).foldl (fun m i => b.swap m (k * i : ℕ) k) m = m₁ at *
    rw [hflat es hes', zero_add] at hlast
    have hlen : ((es.map b.order).flatten.length : ℤ) = (k * es.length : ℕ) := by
      rw [hflat _ (by simpa using hes'), List.length_map]
    have hone : Holds m₁ (k * es.length : ℕ) e := by
      intro i hi
      rw [hkept _ (by omega)]
      simpa using hlast i (by simpa using hi)
    constructor
    · rw [List.map_append, List.flatten_append, holds_append, hlen, zero_add]
      constructor
      · have hagree : Agree m₁ (b.swap m₁ (k * es.length : ℕ) k) 0 (k * es.length : ℕ) :=
          fun x _ hx => (b.swap_of_outside m₁ (Or.inl hx)).symm
        exact hswapped.congr hagree (le_refl _) (by omega)
      · have hload := b.load_swap m₁ (k * es.length : ℕ) k
        rw [hone.load he.symm] at hload
        have hholds := holds_load (b.swap m₁ (k * es.length : ℕ) k) (k * es.length : ℕ) k
        rw [hload] at hholds
        simpa using hholds
    · intro x hx
      have hmul : k * (es.length + 1) = k * es.length + k := by ring
      rw [hmul] at hx
      push_cast at hx
      rw [b.swap_of_outside m₁ (Or.inr (by push_cast; exact hx)), hkept x (by push_cast; omega)]

/-- The object after its elements have been swapped. -/
theorem swapAll_mem {k : ℕ} {es : List (List Byte)} (hes : ∀ e ∈ es, e.length = k)
    (junk : List Byte) :
    (Obj.mem (es.flatten ++ junk)).swapAll b k es.length =
      .mem ((es.map b.order).flatten ++ junk) := by
  have hstore := holds_store (fun _ => 0) 0 (es.flatten ++ junk)
  obtain ⟨hfirst, hrest⟩ := holds_append.mp hstore
  obtain ⟨hswapped, hkept⟩ := foldl_swap b es hes hfirst
  have hlen : (es.map b.order).flatten.length = es.flatten.length := by
    simp [List.length_flatten, Function.comp_def]
  have hflat : es.flatten.length = k * es.length := by
    rw [List.length_flatten, List.map_congr_left hes]
    simp [mul_comm]
  simp only [Obj.swapAll, Obj.change, Int.toNat_natCast, Obj.mem.injEq]
  apply Holds.load _ (by simp [hlen])
  rw [holds_append, hlen]
  refine ⟨hswapped, fun i hi => ?_⟩
  rw [hkept _ (by rw [hflat]; omega)]
  exact hrest i hi

theorem swap_eq_swapAll (k : ℕ) (o : Obj) : o.swap b k = o.swapAll b k 1 := by
  simp [Obj.swap, Obj.swapAll]

/-! ## One value -/

theorem elements_host (v : Value) : (b.host v).elements = v.elements.map b.order := by
  cases b with
  | plain => exact (List.map_id v.elements).symm
  | bigEndian => exact v.elements_swap

@[simp] theorem type_host (v : Value) : (b.host v).type = v.type := by
  cases b with
  | plain => rfl
  | bigEndian => exact v.type_swap

@[simp] theorem count_host (v : Value) : (b.host v).count = v.count := by
  cases b with
  | plain => rfl
  | bigEndian => exact v.count_swap

theorem elems_host (v : Value) : (b.host v).elems = (v.elements.map b.order).flatten := by
  rw [← Value.flatten_elements, elements_host]

/-- A value without numbers of more than a byte has the same objects on both hosts. -/
theorem host_of_bytes {v : Value} (h : v.type.elemLen ≤ 1) : b.host v = v := by
  cases b with
  | plain => rfl
  | bigEndian =>
    rw [Build.host]
    cases v <;> simp only [Value.type, SclType.elemLen, Value.swap] at h ⊢ <;> omega

theorem rep_iff_flat {v : Value} (hv : v.type.IsFlat) {o : Obj} {n : ℤ} :
    v.Rep o n ↔ (v.type.isComplex → n = v.count) ∧
      ((v.elems = [] ∧ o = .null) ∨ ∃ junk, o = .mem (v.elems ++ junk)) := by
  cases v with
  | string s => exact absurd rfl hv.1
  | stringA ss => exact absurd rfl hv.2
  | _ => exact Iff.rfl

/-- The object of a value, swapped, is that of a little-endian host; swapped again, it
    is the object. -/
theorem swapAll_host {v : Value} (hv : v.type.IsFlat) {o : Obj} {n : ℤ} (h : (b.host v).Rep o n) :
    v.Rep (o.swapAll b v.type.elemLen v.count) n ∧
      (o.swapAll b v.type.elemLen v.count).swapAll b v.type.elemLen v.count = o := by
  rw [rep_iff_flat (by rwa [type_host])] at h
  rw [rep_iff_flat hv]
  rw [type_host, count_host, elems_host] at h
  obtain ⟨hn, ⟨hnil, rfl⟩ | ⟨junk, rfl⟩⟩ := h
  · refine ⟨⟨hn, Or.inl ⟨?_, rfl⟩⟩, rfl⟩
    have hlen := congrArg List.length hnil
    rw [← Value.flatten_elements]
    apply List.eq_nil_of_length_eq_zero
    simpa [List.length_flatten, Function.comp_def] using hlen
  · have hback : (v.elements.map b.order).map b.order = v.elements := by
      simp [Function.comp_def]
    have hes : ∀ e ∈ v.elements, e.length = v.type.elemLen := fun e he =>
      Value.length_of_mem_elements he
    have hes' : ∀ e ∈ v.elements.map b.order, e.length = v.type.elemLen := by
      simpa using hes
    have hone := swapAll_mem b hes' junk
    have htwo := swapAll_mem b hes junk
    rw [List.length_map, hback, Value.length_elements hv] at hone
    rw [Value.length_elements hv] at htwo
    rw [hone, htwo]
    refine ⟨⟨hn, Or.inr ⟨junk, ?_⟩⟩, rfl⟩
    rw [Value.flatten_elements]

theorem stringWritesOn_eq (s : Option (List Byte)) : stringWritesOn b s = stringWrites s := by
  have hzero : b.image (0 : BitVec 32) = lenBytes 0 := by
    cases b <;> decide
  cases s with
  | none => rw [stringWritesOn, hzero, stringWrites_none]
  | some m => rw [stringWritesOn, b.swapImage_image, stringWrites_some, lenBytes]

/-- The elements an argument pair stands for: `array_len` of them, or one. -/
def SclType.elemCount (type : SclType) (arrayLen : ℤ) : ℤ := if type.isComplex then arrayLen else 1

/-- The types whose elements are swapped. -/
def SclType.IsSwapped (type : SclType) : Prop := 1 < type.elemLen ∨ type = .bool

theorem SclType.IsSwapped.isFlat {type : SclType} (h : type.IsSwapped) : type.IsFlat := by
  cases type <;> simp_all [SclType.IsSwapped, SclType.elemLen, SclType.IsFlat]

theorem sclWriteValue_swapped {type : SclType} (h : type.IsSwapped) (o : Obj) (n : ℤ) :
    sclWriteValue o type n =
      (if type.isComplex then [bytesOf (BitVec.ofInt 32 n)] else []) ++
        if type.elemCount n = 0 then []
        else [o.bytes (toUnsigned (type.elemLen * type.elemCount n))] := by
  have h₁ : toUnsigned 1 = 1 := by decide
  have h₄ : toUnsigned 4 = 4 := by decide
  have h₈ : toUnsigned 8 = 8 := by decide
  rw [sclWriteValue_elems h.isFlat]
  cases type <;> simp_all [SclType.IsSwapped, SclType.isComplex, SclType.elemLen, SclType.elemCount]

theorem sclWriteValueOn_swapped {type : SclType} (h : type.IsSwapped) (o : Obj) (n : ℤ) :
    sclWriteValueOn b o type n =
      if type.elemCount n = 0 then (sclWriteValue o type n, o)
      else (sclWriteValue (o.swapAll b type.elemLen (type.elemCount n)) type n,
        (o.swapAll b type.elemLen (type.elemCount n)).swapAll b type.elemLen
          (type.elemCount n)) := by
  cases type <;> simp only [SclType.IsSwapped, SclType.elemLen, reduceCtorEq, or_false] at h
  all_goals first
    | omega
    | by_cases hn : n = 0 <;> simp [sclWriteValueOn, sclWriteValue, SclType.isComplex,
        SclType.elemLen, SclType.elemCount, swap_eq_swapAll, Build.image, hn]

/-- The writes for a value are those of the object that represents it on a
    little-endian host, and its own object is as it was. -/
theorem sclWriteValueOn_eq {v : Value} {o : Obj} {n : ℤ} (h : (b.host v).Rep o n) :
    ∃ o', v.Rep o' n ∧ sclWriteValueOn b o v.type n = (sclWriteValue o' v.type n, o) := by
  have hstrings : ∀ b, stringWritesOn b = stringWrites := fun b => funext (stringWritesOn_eq b)
  by_cases hbytes : v.type.elemLen ≤ 1 ∧ v.type ≠ .bool
  · rw [host_of_bytes b hbytes.1] at h
    refine ⟨o, h, ?_⟩
    generalize v.type = type at *
    cases type <;> simp only [SclType.elemLen, sclWriteValueOn, sclWriteValue,
      SclType.isComplex, Build.swapImage_image, hstrings] at hbytes ⊢
    all_goals split_ifs <;> simp_all
  · have hswapped : v.type.IsSwapped := by
      by_contra hnot
      apply hbytes
      simpa [SclType.IsSwapped] using hnot
    have hv : v.type.IsFlat := hswapped.isFlat
    obtain ⟨hrep, hback⟩ := swapAll_host b hv h
    have hcount : v.type.elemCount n = v.count := by
      rw [SclType.elemCount]
      split_ifs with hc
      · exact (Value.rep_flat hv hrep).1 hc
      · rw [Value.count_scalar (by simpa using hc), Nat.cast_one]
    refine ⟨_, hrep, ?_⟩
    rw [sclWriteValueOn_swapped b hswapped, hcount, hback]
    split_ifs with h0
    · rw [sclWriteValue_swapped hswapped, sclWriteValue_swapped hswapped, hcount, if_pos h0,
        if_pos h0]
    · rfl

/-! ## One packet -/

theorem swapWord_swapWord {w : ℕ} (hw : 8 ∣ w) (v : BitVec w) : swapWord (swapWord v) = v := by
  rw [swapWord, bytesOf_swapWord hw, List.reverse_reverse, wordOf_bytesOf hw]

/-- Both hosts find the objects of the other in the other order. -/
@[simp] theorem host_host (v : Value) : b.host (b.host v) = v := by
  have h₄ : ∀ v : BitVec 32, swapWord (swapWord v) = v := swapWord_swapWord (by decide)
  have h₈ : ∀ v : BitVec 64, swapWord (swapWord v) = v := swapWord_swapWord (by decide)
  cases b with
  | plain => rfl
  | bigEndian => cases v <;> simp [Build.host, Value.swap, Function.comp_def, h₄, h₈]

theorem length_enc_host (v : Value) : (b.host v).enc.length = v.enc.length := by
  by_cases hv : v.type.IsFlat
  · have hv' : (b.host v).type.IsFlat := by rwa [type_host]
    rw [Value.enc_flat hv, Value.enc_flat hv', List.length_append, List.length_append,
      Value.length_elems hv, Value.length_elems hv', type_host, count_host]
  · rw [host_of_bytes]
    generalize v.type = type at *
    cases type <;> simp_all [SclType.IsFlat, SclType.elemLen]

/-- The values of a queue, as a little-endian host has them. -/
def Build.values (qs : List Queued) : List Value := qs.map fun q => b.host q.value

/-- The packet with these values. -/
def packetOf (opcode : BitVec 32) (vs : List Value) : List Byte :=
  bytesOf opcode ++ lenBytes 0 ++ lenBytes 0 ++ lenBytes (vs.flatMap Value.enc).length ++
    vs.flatMap Value.enc

theorem length_payload_values (qs : List Queued) :
    ((b.values qs).flatMap Value.enc).length = (payload qs).length := by
  simp [Build.values, payload, List.length_flatMap, Function.comp_def, length_enc_host]

/-- The loop of `scl_write_out` writes the values, and leaves their objects as they
    were. -/
theorem writeOutLoopOn_eq {heap : Heap (Node SclEle)} {p t : Addr} {z : SclEle}
    {l : List (Addr × SclEle)} {qs : List Queued} (hc : IsChain heap p (l ++ [(t, z)]))
    (hl : l.map Prod.snd = qs.map Queued.ele) (conn : OutConn) (objs : List Obj) {fuel : ℕ}
    (hf : l.length < fuel) :
    ∃ (heap' : Heap (Node SclEle)) (bufs : List (List Byte)),
      writeOutLoopOn b fuel heap conn p objs =
        some (heap', bufs.foldl OutConn.fwrite conn, t, objs ++ qs.map Queued.object) ∧
      ((∀ q ∈ qs, q.value.enc.length < 2 ^ 32) →
        bufs.flatten = (b.values qs).flatMap Value.enc) ∧
      (∀ a ∈ l.map Prod.fst, heap'.get a = none) ∧
      ∀ a, a ∉ l.map Prod.fst → heap'.get a = heap.get a := by
  induction l generalizing heap p conn fuel objs qs with
  | nil =>
    obtain ⟨f, rfl⟩ := Nat.exists_eq_add_one_of_ne_zero (Nat.ne_zero_of_lt hf)
    obtain rfl : qs = [] := by simpa using hl.symm
    obtain ⟨rfl, hne, q, hq, hq0⟩ := hc
    have hq0 : q = 0 := hq0
    exact ⟨heap, [], by simp [writeOutLoopOn, hq, hq0], by simp [Build.values], by simp, by simp⟩
  | cons x l ih =>
    obtain ⟨f, rfl⟩ := Nat.exists_eq_add_one_of_ne_zero (Nat.ne_zero_of_lt hf)
    cases qs with
    | nil => simp at hl
    | cons v qs =>
      rw [List.map_cons, List.map_cons, List.cons.injEq] at hl
      rw [List.cons_append] at hc
      obtain ⟨q, hq, hrest, hrest', hnot⟩ := hc.tail_free
      obtain ⟨rfl, -⟩ := hc
      have hq0 : q ≠ 0 := by
        rintro rfl
        simpa using hrest.eq_nil
      obtain ⟨o, hrep, hvalue⟩ : ∃ o, (b.host v.value).Rep o v.arrayLen ∧
          sclWriteValueOn b v.object v.value.type v.arrayLen =
            (sclWriteValue o v.value.type v.arrayLen, v.object) := by
        have hrep : (b.host (b.host v.value)).Rep v.object v.arrayLen := by
          rw [host_host]
          exact v.rep
        have hwrite := sclWriteValueOn_eq b hrep
        rwa [type_host] at hwrite
      obtain ⟨heap', bufs, hrun, hbufs, hfreed, hkept⟩ := ih hrest' hl.2
        ((sclWriteValue o v.value.type v.arrayLen).foldl OutConn.fwrite conn) (objs ++ [v.object])
        (show l.length < f by simp at hf; omega)
      have hx : x.1 ∉ l.map Prod.fst := fun hmem => hnot (by
        rw [List.map_append]
        exact List.mem_append_left _ hmem)
      refine ⟨heap', sclWriteValue o v.value.type v.arrayLen ++ bufs, ?_, fun hlen => ?_,
        Heap.free_cons hx hfreed hkept⟩
      · rw [writeOutLoopOn, hq]
        simp only [if_neg hq0, hl.1, Queued.ele, hvalue, hrun, List.foldl_append, List.map_cons,
          List.append_assoc, List.singleton_append]
      · have hflat := flatten_sclWriteValue hrep
          (by rw [length_enc_host]; exact hlen v (by simp))
        rw [type_host] at hflat
        rw [List.flatten_append, hflat, hbufs fun q hq => hlen q (by simp [hq]), Build.values,
          Build.values, List.map_cons, List.flatMap_cons]

variable {w : Writer ι} {A : Outbox ι}

/-- `scl_write_out` in either build: the packet holds the values as a little-endian
    host has them, and their objects are as they were; `out_packet_opcode` stays
    swapped. -/
theorem writeOutOn_packet (h : Refines w A) (c : ι) :
    ∃ w', sclWriteOutOn b w c = some (w', (A.pending c).map Queued.object) ∧
      Refines w' ⟨Function.update A.pending c [],
        Function.update A.opcode c (b.swapField (A.opcode c))⟩ ∧
      (w'.conns c).outPacketOpcode = b.swapField (A.opcode c) ∧
      ((∀ q ∈ A.pending c, q.value.enc.length < 2 ^ 32) →
        (w'.conns c).out = (w.conns c).out ++ packetOf (A.opcode c) (b.values (A.pending c))) := by
  obtain ⟨Q, hQ, hpending⟩ := h.queues
  obtain ⟨z, hchain⟩ := hQ.chain c
  have h32 : 8 ∣ 32 := by decide
  -- the header
  let conn₁ : OutConn := { w.conns c with
    outPacketOpcode := b.swapField (w.conns c).outPacketOpcode
    outPacketLen := b.swapField (w.conns c).outPacketLen }
  let header := [b.image conn₁.outPacketOpcode, b.image (b.swapField (0 : BitVec 32)),
    b.image (b.swapField (0 : BitVec 32)), b.image conn₁.outPacketLen]
  obtain ⟨sched, hheader, hsched⟩ := foldl_fwrite conn₁ (h.sched c) header
  -- the values
  obtain ⟨heap', bufs, hloop, hbufs, hfreed, hkept⟩ := writeOutLoopOn_eq b hchain (hpending c)
    (header.foldl OutConn.fwrite conn₁) []
    hchain.length_lt
  obtain ⟨sched', hwrites, hsched'⟩ := foldl_fwrite (header.foldl OutConn.fwrite conn₁)
    (by rw [hheader]; exact hsched) bufs
  rw [hwrites, hheader, List.nil_append] at hloop
  let conn₂ : OutConn := { conn₁ with
    out := (w.conns c).out ++ header.flatten ++ bufs.flatten
    sched := sched'
    outEleQueue := (w.conns c).outCurEle
    outPacketLen := 0 }
  have hstep : sclWriteOutOn b w c = some
      (⟨heap', (w.conns c).outCurEle, Function.update w.conns c conn₂⟩,
        (A.pending c).map Queued.object) := by
    unfold sclWriteOutOn
    show (writeOutLoopOn b (w.heap.size + 1) w.heap (header.foldl OutConn.fwrite conn₁)
      (header.foldl OutConn.fwrite conn₁).outEleQueue []).bind _ = _
    rw [hheader, hloop]
    rfl
  refine ⟨_, hstep, ?_, ?_, fun hlen => ?_⟩
  · have htaken := h.taken hQ hpending c hfreed hkept
      (w.conns c).outCurEle conn₂ rfl rfl rfl hsched'
    simpa only [conn₂, conn₁, h.opcode c] using htaken
  · simp only [Function.update_self, conn₂, conn₁, h.opcode c]
  · have hzero : bytesOf (0 : BitVec 32) = lenBytes 0 := rfl
    have hword : bytesOf (w.conns c).outPacketLen =
        lenBytes ((b.values (A.pending c)).flatMap Value.enc).length := by
      rw [h.len c, lenBytes, length_payload_values]
    simp only [Function.update_self, conn₂, conn₁, header, image_swapField b h32, hbufs hlen,
      h.opcode c, hword, hzero, packetOf, List.flatten_cons, List.flatten_nil, List.append_nil,
      List.append_assoc]

/-! ## Runs -/

/-- What a call does to the elements and the connections, in either build. -/
def Writer.stepOn (w : Writer ι) : WriterOp ι → Option (Writer ι)
  | .writeOut c => (sclWriteOutOn b w c).map Prod.fst
  | op => w.step op

/-- What a call does to the queues, in either build. -/
def Outbox.stepOn (A : Outbox ι) : WriterOp ι → Outbox ι
  | .writeOut c =>
    ⟨Function.update A.pending c [], Function.update A.opcode c (b.swapField (A.opcode c))⟩
  | op => A.step op

/-- A sequence of calls. -/
def Writer.runOn (w : Writer ι) (ops : List (WriterOp ι)) : Option (Writer ι) :=
  ops.foldlM (Writer.stepOn b) w

/-- Every allocation of the sequence of calls succeeds. -/
def AllFreshOn : Writer ι → List (WriterOp ι) → Prop
  | _, [] => True
  | w, op :: ops => op.Fresh w ∧ ∀ w', w.stepOn b op = some w' → AllFreshOn w' ops

theorem stepOn_refines (h : Refines w A) {op : WriterOp ι} (hop : op.Fresh w) :
    ∃ w', w.stepOn b op = some w' ∧ Refines w' (A.stepOn b op) := by
  cases op with
  | opcode c op => exact step_refines h hop
  | queue c q core => exact step_refines h hop
  | writeOut c =>
    obtain ⟨w', hstep, h', -⟩ := writeOutOn_packet b h c
    exact ⟨w', by simp only [Writer.stepOn, hstep, Option.map_some], h'⟩

theorem runOn_refines (h : Refines w A) {ops : List (WriterOp ι)} (hops : AllFreshOn b w ops) :
    ∃ w', w.runOn b ops = some w' ∧ Refines w' (ops.foldl (Outbox.stepOn b) A) := by
  induction ops generalizing w A with
  | nil => exact ⟨w, rfl, h⟩
  | cons op ops ih =>
    obtain ⟨w₁, hstep, h₁⟩ := stepOn_refines b h hops.1
    obtain ⟨w₂, hrun, h₂⟩ := ih h₁ (hops.2 w₁ hstep)
    refine ⟨w₂, ?_, h₂⟩
    rw [Writer.runOn, List.foldlM_cons, hstep]
    exact hrun

/-! ## Without `SCO_BIG_ENDIAN` -/

theorem writeOutLoopOn_plain (fuel : ℕ) (heap : Heap (Node SclEle)) (conn : OutConn) (cur : Addr)
    (objs : List Obj) :
    (writeOutLoopOn .plain fuel heap conn cur objs).map (fun r => (r.1, r.2.1, r.2.2.1)) =
      writeOutLoop fuel heap conn cur := by
  induction fuel generalizing heap conn cur objs with
  | zero => rfl
  | succ fuel ih =>
    rw [writeOutLoopOn, writeOutLoop]
    cases heap.get cur with
    | none => rfl
    | some ele =>
      simp only [sclWriteValueOn_plain]
      split_ifs with h0
      · rfl
      · exact ih _ _ _ _

theorem sclWriteOutOn_plain (w : Writer ι) (c : ι) :
    (sclWriteOutOn .plain w c).map Prod.fst = sclWriteOut w c := by
  have hfield : ∀ v : BitVec 32, Build.plain.swapField v = v := swapField_plain (by decide)
  have hzero : bytesOf (0 : BitVec 32) = lenBytes 0 := rfl
  unfold sclWriteOutOn sclWriteOut OutConn.header
  simp only [hfield, Build.image, Build.order_plain, hzero, ← writeOutLoopOn_plain _ _ _ _ []]
  simp only [Option.bind_eq_bind, Option.map_bind, Option.bind_map]
  rfl

end CompatSuva.Scl
