import CompatSuva.Scl.Reader

/-!
# Decoding what was encoded

`scl_get_value`, at the encoding of a value, returns that value: a pointer, or a
table of pointers, at which the value stands in the packet. This holds in both
builds, as far as the bytes of the value go.

* `Value.Reads`: the value stands where `scl_get_value` says, within bounds, and
  `Value.Reads.congr` is its frame rule;
* `stringALoopOn_enc`: the strings of an `SCL_STRING_A`, by induction; the length
  field of each string is cleared when the next one is read, which terminates
  the string before it;
* `getValueOn_enc`: one value; `getValuesOn_enc`: a list of values, all of which
  still read right in the end.
-/

namespace CompatSuva.Scl

open CompatSuva.Common

/-! ## Values in a packet -/

/-- The bytes `bs` stand at `a`, within `[lo, hi)`. -/
def Stands (mem : Memory) (lo hi a : ℤ) (bs : List Byte) : Prop :=
  lo ≤ a ∧ a + bs.length ≤ hi ∧ Holds mem a bs

/-- The pointer `p` points at the string `s`. -/
def StrReads (mem : Memory) (lo hi : ℤ) (p : Option ℤ) (s : Option CStr) : Prop :=
  match s with
  | none => p = none
  | some s => ∃ a, p = some a ∧ Stands mem lo hi a s.image

/-- The result `ret`, with `*array_len = arrayLen`, is the value: it stands in
    memory where `ret` points, within `[lo, hi)`. -/
def Value.Reads (mem : Memory) (tables : List (List (Option ℤ))) (lo hi : ℤ) (ret : Ret)
    (arrayLen : Option ℤ) : Value → Prop
  | .string s =>
    match s with
    | none => ret = .null
    | some s => ∃ a, ret = .ptr a ∧ Stands mem lo hi a s.image
  | .stringA ss => arrayLen = some (ss.length : ℤ) ∧
    ∃ t ps, ret = .table t ∧ tables[t]? = some ps ∧ List.Forall₂ (StrReads mem lo hi) ps ss
  | v => (v.type.isComplex → arrayLen = some (v.count : ℤ)) ∧
    ∃ a, ret = .ptr a ∧ Stands mem lo hi a v.elems

theorem Stands.congr {mem mem' : Memory} {lo hi lo' hi' a : ℤ} {bs : List Byte}
    (h : Stands mem lo hi a bs) (hmem : Agree mem mem' lo hi) (hlo : lo' ≤ lo) (hhi : hi ≤ hi') :
    Stands mem' lo' hi' a bs :=
  ⟨hlo.trans h.1, h.2.1.trans hhi, h.2.2.congr hmem h.1 h.2.1⟩

theorem StrReads.congr {mem mem' : Memory} {lo hi lo' hi' : ℤ} {p : Option ℤ} {s : Option CStr}
    (h : StrReads mem lo hi p s) (hmem : Agree mem mem' lo hi) (hlo : lo' ≤ lo) (hhi : hi ≤ hi') :
    StrReads mem' lo' hi' p s := by
  cases s with
  | none => exact h
  | some s =>
    obtain ⟨a, hp, hs⟩ := h
    exact ⟨a, hp, hs.congr hmem hlo hhi⟩

theorem Value.reads_flat {v : Value} (hv : v.type.IsFlat) {mem : Memory}
    {tables : List (List (Option ℤ))} {lo hi : ℤ} {ret : Ret} {arrayLen : Option ℤ} :
    v.Reads mem tables lo hi ret arrayLen ↔
      (v.type.isComplex → arrayLen = some (v.count : ℤ)) ∧
        ∃ a, ret = .ptr a ∧ Stands mem lo hi a v.elems := by
  cases v with
  | string s => exact absurd rfl hv.1
  | stringA ss => exact absurd rfl hv.2
  | _ => exact Iff.rfl

/-- Frame rule: a value read earlier still reads the same where the memory is
    unchanged. -/
theorem Value.Reads.congr {v : Value} {mem mem' : Memory} {tables tables' : List (List (Option ℤ))}
    {lo hi lo' hi' : ℤ} {ret : Ret} {arrayLen : Option ℤ}
    (h : v.Reads mem tables lo hi ret arrayLen) (hmem : Agree mem mem' lo hi)
    (htables : tables <+: tables') (hlo : lo' ≤ lo) (hhi : hi ≤ hi') :
    v.Reads mem' tables' lo' hi' ret arrayLen := by
  rcases v.cases_type with ⟨s, rfl⟩ | ⟨ss, rfl⟩ | hv
  · cases s with
    | none => exact h
    | some s =>
      obtain ⟨a, hret, hs⟩ := h
      exact ⟨a, hret, hs.congr hmem hlo hhi⟩
  · obtain ⟨hn, t, ps, hret, ht, hps⟩ := h
    refine ⟨hn, t, ps, hret, ?_, hps.imp fun p s hp => hp.congr hmem hlo hhi⟩
    obtain ⟨more, rfl⟩ := htables
    obtain ⟨hlt, -⟩ := List.getElem?_eq_some_iff.mp ht
    rw [List.getElem?_append_left hlt, ht]
  · rw [Value.reads_flat hv] at h ⊢
    obtain ⟨hn, a, hret, hs⟩ := h
    exact ⟨hn, a, hret, hs.congr hmem hlo hhi⟩

/-! ## What decoding a value does to the packet -/

/-- From `conn` to `conn'` the cursor has moved over `k` bytes, only these bytes
    may have changed, and no table is gone. -/
structure Decoded (conn conn' : InConn) (k : ℕ) : Prop where
  cursor : conn'.cursor = conn.cursor + k
  mem : ∀ x, x < conn.cursor ∨ conn.cursor + k ≤ x → conn'.mem x = conn.mem x
  tables : conn.tables <+: conn'.tables
  pdata : conn'.pdata = conn.pdata
  opcode : conn'.inPacketOpcode = conn.inPacketOpcode

theorem Decoded.refl (conn : InConn) : Decoded conn conn 0 :=
  ⟨by simp, fun _ _ => rfl, List.prefix_refl _, rfl, rfl⟩

theorem Decoded.trans {conn conn' conn'' : InConn} {j k : ℕ} (h : Decoded conn conn' j)
    (h' : Decoded conn' conn'' k) : Decoded conn conn'' (j + k) where
  cursor := by rw [h'.cursor, h.cursor]; push_cast; ring
  mem x hx := by
    have := h.cursor
    rw [h'.mem x (by push_cast at hx; omega), h.mem x (by push_cast at hx; omega)]
  tables := h.tables.trans h'.tables
  pdata := h'.pdata.trans h.pdata
  opcode := h'.opcode.trans h.opcode

/-- Bytes behind what was decoded. -/
theorem Decoded.holds {conn conn' : InConn} {k : ℕ} (h : Decoded conn conn' k) {bs : List Byte}
    (hbs : Holds conn.mem (conn.cursor + k) bs) : Holds conn'.mem conn'.cursor bs := by
  rw [h.cursor]
  intro i hi
  rw [h.mem _ (by omega), hbs i hi]

/-- Bytes in front of what is decoded. -/
theorem Decoded.agree {conn conn' : InConn} {k : ℕ} (h : Decoded conn conn' k) (lo : ℤ) :
    Agree conn.mem conn'.mem lo conn.cursor :=
  fun x _ hx => (h.mem x (Or.inl hx)).symm

/-! ## Reading a length -/

variable (b : Build)

/-- A length or count field of the encoding. -/
theorem readIntOn_lenBytes {conn : InConn} {m n : ℕ} (hp : conn.pdata = some m)
    (h : Holds conn.mem conn.cursor (lenBytes n)) (hn : n < 2 ^ 31) :
    conn.readIntOn b = some ((n : ℤ), { conn with
      mem := b.swap conn.mem conn.cursor 4
      log := conn.log ++ [Access.payload conn.cursor 4] }) := by
  rw [InConn.readIntOn, hp]
  simp only
  rw [b.load_swap, h.load (by simp), Build.word, Build.order_order]
  exact congrArg (fun k => some (k, _)) (intOf_ofNat hn)

/-- Reading a length leaves the memory outside it. -/
theorem agree_swap (m : Memory) (len : ℕ) {src lo hi : ℤ} (h : hi ≤ src ∨ src + len ≤ lo) :
    Agree m (b.swap m src len) lo hi :=
  fun _ h₁ h₂ => (b.swap_of_outside m (by omega)).symm

/-! ## Strings -/

theorem normStr_of_ne {s : Option CStr} (h : (strBytes s).length ≠ 0) :
    ∃ t, s = some t ∧ normStr s = some t := by
  cases s with
  | none => simp at h
  | some t =>
    have : t.val ≠ [] := by
      rintro heq
      simp [heq] at h
    exact ⟨t, rfl, by simp [normStr, this]⟩

theorem normStr_of_eq {s : Option CStr} (h : (strBytes s).length = 0) : normStr s = none := by
  cases s with
  | none => rfl
  | some t =>
    have : t.val = [] := List.eq_nil_of_length_eq_zero h
    simp [normStr, this]

/-- The `SCL_STRING` case, at the encoding of a string. -/
theorem getStringOn_enc {conn : InConn} {m : ℕ} {s : Option CStr} (hp : conn.pdata = some m)
    (hmem : Holds conn.mem conn.cursor (Value.string s).enc)
    (hlen : (Value.string s).enc.length < 2 ^ 31 + 4) :
    ∃ ret conn', getStringOn b conn = some (ret, conn') ∧
      Decoded conn conn' (Value.string s).enc.length ∧
      ∀ arrayLen, (Value.string s).norm.Reads conn'.mem conn'.tables conn.cursor conn'.cursor ret
        arrayLen := by
  simp only [Value.enc, List.length_append, length_lenBytes, List.length_singleton] at hlen ⊢
  have hfield := (holds_append.mp (holds_append.mp hmem).1).1
  have hchars := (holds_append.mp (holds_append.mp hmem).1).2
  unfold getStringOn
  rw [readIntOn_lenBytes b hp hfield (by omega)]
  simp only [Option.bind_eq_bind, Option.bind_some, InConn.advance, sclLenLen]
  by_cases h0 : (strBytes s).length = 0
  · rw [if_pos (by simpa using h0)]
    refine ⟨_, _, rfl, ⟨by simp [h0]; ring, fun x hx => ?_, List.prefix_refl _, rfl, rfl⟩,
      fun arrayLen => ?_⟩
    · push_cast at hx
      exact b.swap_of_outside _ (by omega)
    · rw [Value.norm, normStr_of_eq h0]
      rfl
  · rw [if_neg (by simpa using h0)]
    obtain ⟨t, rfl, hnorm⟩ := normStr_of_ne h0
    simp only [InConn.write, hp, Option.bind_some, strBytes_some] at h0 hlen hchars ⊢
    have hwrap : wrap32 (t.val.length + 1) = t.val.length + 1 :=
      wrap32_of_lt (by omega) (by omega)
    rw [hwrap]
    refine ⟨_, _, rfl, ⟨by push_cast; ring, fun x hx => ?_, List.prefix_refl _, hp.symm ▸ rfl, rfl⟩,
      fun arrayLen => ?_⟩
    · push_cast at hx
      have hswap : b.swap conn.mem conn.cursor 4 x = conn.mem x := b.swap_of_outside _ (by omega)
      rcases hx with hx | hx
      · exact (store_eq_of_lt (by omega)).trans hswap
      · exact (store_eq_of_ge (by simp; omega)).trans hswap
    · rw [Value.norm, hnorm]
      refine ⟨_, rfl, by omega, by simp [CStr.image], ?_⟩
      rw [CStr.image, holds_append]
      refine ⟨?_, ?_⟩
      · rw [length_lenBytes] at hchars
        have hkept := hchars.congr (agree_swap b conn.mem 4 (Or.inr (le_refl _)))
          (le_refl (conn.cursor + 4)) (le_refl _)
        exact hkept.congr (agree_store_below (le_refl _)) (le_refl _) (by simp)
      · have := holds_store (b.swap conn.mem conn.cursor 4) (conn.cursor + 4 + t.val.length) [0]
        push_cast
        exact this

/-! ## String arrays -/

/-- The encodings of the strings of an `SCL_STRING_A`, without count and trailing
    byte. -/
def encStrs (ss : List (Option CStr)) : List Byte :=
  ss.flatMap fun s => lenBytes (strBytes s).length ++ strBytes s

theorem encStrs_cons (s : Option CStr) (ss : List (Option CStr)) :
    encStrs (s :: ss) = lenBytes (strBytes s).length ++ (strBytes s ++ encStrs ss) := by
  simp [encStrs]

theorem Value.enc_stringA (ss : List (Option CStr)) :
    (Value.stringA ss).enc = lenBytes ss.length ++ (encStrs ss ++ [0]) := by
  simp [Value.enc, encStrs]

/-- Every string has a length field. -/
theorem four_mul_length_le_encStrs (ss : List (Option CStr)) :
    4 * ss.length ≤ (encStrs ss).length := by
  induction ss with
  | nil => simp
  | cons s ss ih =>
    rw [encStrs_cons]
    simp only [List.length_cons, List.length_append, length_lenBytes]
    omega

/-- Behind the length field of a string, which is cleared; the pointer is stored in
    entry `i` of the table. -/
def InConn.behindLength (conn : InConn) (cap i : ℕ) : InConn :=
  { conn with
    mem := store (b.swap conn.mem conn.cursor 4) conn.cursor [0, 0, 0, 0]
    cursor := conn.cursor + 4
    log := conn.log ++ [.payload conn.cursor 4] ++ [.payload conn.cursor 4] ++ [.table i cap] }

/-- The pointer to a string whose length field is next. -/
def InConn.stringPtr (conn : InConn) (s : Option CStr) : Option ℤ :=
  if (strBytes s).length = 0 then none else some (conn.cursor + 4)

theorem decoded_behindLength (conn : InConn) (cap i len : ℕ) :
    Decoded conn ((conn.behindLength b cap i).advance len) (4 + len) := by
  refine ⟨?_, fun x hx => ?_, List.prefix_refl _, rfl, rfl⟩
  · show conn.cursor + 4 + (len : ℤ) = _
    push_cast
    ring
  · push_cast at hx
    have hswap : b.swap conn.mem conn.cursor 4 x = conn.mem x := b.swap_of_outside _ (by omega)
    rcases hx with hx | hx
    · exact (store_eq_of_lt hx).trans hswap
    · exact (store_eq_of_ge (by simp; omega)).trans hswap

/-- One round of the loop. -/
theorem stringALoopOn_cons {conn : InConn} {m : ℕ} {s : Option CStr} (ss : List (Option CStr))
    (cap : ℕ) (ptrs : List (Option ℤ)) (hp : conn.pdata = some m)
    (hfield : Holds conn.mem conn.cursor (lenBytes (strBytes s).length))
    (hlen : (strBytes s).length < 2 ^ 31) :
    stringALoopOn b cap (s :: ss).length conn ptrs =
      stringALoopOn b cap ss.length
        ((conn.behindLength b cap ptrs.length).advance (strBytes s).length)
        (ptrs ++ [conn.stringPtr s]) := by
  rw [List.length_cons, stringALoopOn, readIntOn_lenBytes b hp hfield hlen]
  simp only [Option.bind_eq_bind, Option.bind_some, InConn.write, hp, InConn.advance, sclLenLen,
    InConn.stringPtr]
  by_cases h0 : (strBytes s).length = 0
  · rw [if_pos (by simpa using h0), if_pos h0]
    simp [InConn.behindLength, h0, hp]
  · rw [if_neg (by simpa using h0), if_neg h0]
    simp [InConn.behindLength, hp]

/-- While the loop runs, the terminator of a string may still be missing if it
    belongs at `stop`. -/
def StrPending (mem : Memory) (lo stop : ℤ) (p : Option ℤ) (s : Option CStr) : Prop :=
  match s with
  | none => p = none
  | some s => ∃ a, p = some a ∧ lo ≤ a ∧ a + s.val.length ≤ stop ∧ Holds mem a s.val ∧
    (a + s.val.length = stop ∨ mem (a + s.val.length) = 0)

theorem StrPending.mono {mem : Memory} {lo lo' stop : ℤ} {p : Option ℤ} {s : Option CStr}
    (h : StrPending mem lo stop p s) (hlo : lo' ≤ lo) : StrPending mem lo' stop p s := by
  cases s with
  | none => exact h
  | some t =>
    obtain ⟨a, hp, hloa, hrest⟩ := h
    exact ⟨a, hp, hlo.trans hloa, hrest⟩

/-- The characters of the string just passed stay, and its terminator is the next
    length field, once that is cleared. -/
theorem strPending_next {conn conn' : InConn} {s : Option CStr} {cap i k : ℕ}
    (hchars : Holds conn.mem (conn.cursor + 4) (strBytes s))
    (hdec : Decoded ((conn.behindLength b cap i).advance (strBytes s).length) conn' k)
    (hend : k = 0 ∨ conn'.mem (conn.cursor + 4 + (strBytes s).length) = 0) :
    StrPending conn'.mem conn.cursor conn'.cursor (conn.stringPtr s) (normStr s) := by
  have hcur : conn'.cursor = conn.cursor + 4 + (strBytes s).length + k := hdec.cursor
  unfold InConn.stringPtr
  by_cases h0 : (strBytes s).length = 0
  · rw [if_pos h0, normStr_of_eq h0]
    rfl
  · obtain ⟨t, rfl, hnorm⟩ := normStr_of_ne h0
    rw [if_neg h0, hnorm]
    simp only [strBytes_some] at hchars hcur hend hdec ⊢
    refine ⟨_, rfl, by omega, by omega, ?_, ?_⟩
    · have hkept := hchars.congr (agree_swap b conn.mem 4 (Or.inr (le_refl _)))
        (le_refl (conn.cursor + 4)) (le_refl _)
      have hst : Holds (conn.behindLength b cap i).mem (conn.cursor + 4) t.val :=
        hkept.congr (agree_store_above (by simp)) (le_refl (conn.cursor + 4)) (le_refl _)
      exact hst.congr (hdec.agree (conn.cursor + 4)) (le_refl _) (le_refl _)
    · rcases hend with rfl | hzero
      · left
        omega
      · exact Or.inr hzero

/-- The loop over the strings: the pointers stored point at the strings, which
    are terminated, but for one that ends where the loop has stopped. -/
theorem stringALoopOn_enc {ss : List (Option CStr)} (cap : ℕ) {conn : InConn} {m : ℕ}
    (ptrs : List (Option ℤ)) (hp : conn.pdata = some m)
    (hmem : Holds conn.mem conn.cursor (encStrs ss))
    (hlen : (encStrs ss).length < 2 ^ 31) :
    ∃ conn' new, stringALoopOn b cap ss.length conn ptrs = some (conn', ptrs ++ new) ∧
      Decoded conn conn' (encStrs ss).length ∧
      (ss = [] ∨ conn'.mem conn.cursor = 0) ∧
      List.Forall₂ (fun p s => StrPending conn'.mem conn.cursor conn'.cursor p
        (normStr s)) new ss := by
  induction ss generalizing conn ptrs with
  | nil => exact ⟨conn, [], by simp [stringALoopOn], Decoded.refl conn, Or.inl rfl, .nil⟩
  | cons s ss ih =>
    rw [encStrs_cons] at hmem hlen ⊢
    simp only [List.length_append, length_lenBytes] at hlen ⊢
    obtain ⟨hfield, hrest⟩ := holds_append.mp hmem
    rw [length_lenBytes] at hrest
    obtain ⟨hchars, hrest⟩ := holds_append.mp hrest
    have hdec := decoded_behindLength b conn cap ptrs.length (strBytes s).length
    obtain ⟨conn', new, hrun, hdec', hzero, hnew⟩ :=
      @ih ((conn.behindLength b cap ptrs.length).advance (strBytes s).length)
        (ptrs ++ [conn.stringPtr s]) hp
        (hdec.holds (by push_cast; rwa [← add_assoc])) (by omega)
    refine ⟨conn', conn.stringPtr s :: new, ?_, ?_, Or.inr ?_, .cons ?_ ?_⟩
    · rw [stringALoopOn_cons b ss cap ptrs hp hfield (by omega), hrun, List.append_assoc,
        List.singleton_append]
    · rw [← add_assoc]
      exact hdec.trans hdec'
    · have hcleared := holds_store (b.swap conn.mem conn.cursor 4) conn.cursor [0, 0, 0, 0] 0
        (by simp)
      rw [hdec'.mem _ (Or.inl (by show conn.cursor < conn.cursor + 4 + _; omega))]
      show store (b.swap conn.mem conn.cursor 4) conn.cursor [0, 0, 0, 0] conn.cursor = 0
      simpa using hcleared
    · apply strPending_next b hchars hdec'
      apply hzero.imp_left
      rintro rfl
      rfl
    · apply hnew.imp
      intro p s hs
      exact hs.mono (by show conn.cursor ≤ conn.cursor + 4 + _; omega)

/-- The `SCL_STRING_A` case, behind the count. -/
theorem getStringsOn_enc {conn : InConn} {m : ℕ} {ss : List (Option CStr)}
    (hp : conn.pdata = some m)
    (hmem : Holds conn.mem conn.cursor (encStrs ss ++ [0]))
    (hlen : (encStrs ss).length < 2 ^ 31) :
    ∃ ret conn', getStringsOn b conn ss.length true = some (ret, conn') ∧
      Decoded conn conn' ((encStrs ss).length + 1) ∧
      ∀ lo, lo ≤ conn.cursor → (Value.stringA ss).norm.Reads conn'.mem conn'.tables lo conn'.cursor
        ret (some (ss.length : ℤ)) := by
  unfold getStringsOn
  obtain ⟨conn₁, ptrs, hrun, hdec, -, hptrs⟩ :=
    stringALoopOn_enc b ((BitVec.ofInt 32 (8 * (ss.length : ℤ))).toNat / 8) [] hp
      (holds_append.mp hmem).1 hlen
  have hp₁ : conn₁.pdata = some m := hdec.pdata.trans hp
  rw [if_neg (by simp)]
  simp only [Int.toNat_natCast, hrun, Option.bind_eq_bind, Option.bind_some, List.nil_append,
    InConn.write, hp₁, InConn.advance, if_true]
  have hcur := hdec.cursor
  refine ⟨_, _, rfl, ⟨by push_cast; omega, fun x hx => ?_, ?_, hp₁ ▸ hdec.pdata ▸ rfl, hdec.opcode⟩,
    fun lo hlo => ⟨by simp, _, ptrs, rfl, by simp, ?_⟩⟩
  · push_cast at hx
    have : store conn₁.mem conn₁.cursor [0] x = conn₁.mem x := by
      rcases hx with hx | hx
      · exact store_eq_of_lt (by omega)
      · exact store_eq_of_ge (by simp; omega)
    exact this.trans (hdec.mem x (by omega))
  · exact hdec.tables.trans (List.prefix_append _ _)
  · -- the trailing byte terminates the last string
    rw [List.forall₂_map_right_iff]
    refine hptrs.imp fun p s hs => ?_
    cases hns : normStr s with
    | none => rwa [hns] at hs
    | some t =>
      rw [hns] at hs
      obtain ⟨a, rfl, hloa, hstop, hchars, hend⟩ := hs
      refine ⟨a, rfl, by omega, by simp [CStr.image]; omega, ?_⟩
      rw [CStr.image, holds_append, holds_singleton]
      refine ⟨hchars.congr (agree_store_below (le_refl _)) (le_refl _) hstop, ?_⟩
      rcases hend with hend | hend
      · rw [hend]
        exact holds_singleton.mp (holds_store conn₁.mem conn₁.cursor [0])
      · by_cases heq : a + t.val.length = conn₁.cursor
        · rw [heq]
          exact holds_singleton.mp (holds_store conn₁.mem conn₁.cursor [0])
        · exact (store_eq_of_lt (by omega)).trans hend

/-! ## Any value -/

/-- `scl_get_value` for the types made of elements. -/
theorem sclGetValueOn_flat {type : SclType} (h : type.IsFlat) (conn : InConn)
    (withLen tableOk : Bool) :
    sclGetValueOn b conn type withLen tableOk =
      if type.isComplex then
        if withLen then (conn.readIntOn b).bind fun r =>
          some (.ptr (r.2.cursor + 4), some r.1,
            (r.2.advance 4).advance (wrap32 (type.elemLen * r.1)))
        else some (.null, none, conn)
      else some (.ptr conn.cursor, none, conn.advance type.elemLen) := by
  obtain ⟨hs, hA⟩ := h
  cases type <;> cases withLen <;>
    simp_all [sclGetValueOn, SclType.isComplex, InConn.advance, sclLenLen]

theorem sclGetValue_flat {type : SclType} (h : type.IsFlat) (conn : InConn)
    (withLen tableOk : Bool) :
    sclGetValue conn type withLen tableOk =
      if type.isComplex then
        if withLen then conn.readInt.bind fun r =>
          some (.ptr (r.2.cursor + 4), some r.1,
            (r.2.advance 4).advance (wrap32 (type.elemLen * r.1)))
        else some (.null, none, conn)
      else some (.ptr conn.cursor, none, conn.advance type.elemLen) :=
  sclGetValueOn_flat .plain h conn withLen tableOk

theorem SclType.elemLen_pos {type : SclType} (h : type.IsFlat) : 0 < type.elemLen := by
  obtain ⟨hs, hA⟩ := h
  cases type <;> simp_all [SclType.elemLen]

/-- A value has no more elements than bytes. -/
theorem Value.count_le_elems {v : Value} (hv : v.type.IsFlat) : v.count ≤ v.elems.length := by
  rw [Value.length_elems hv]
  exact Nat.le_mul_of_pos_left _ (SclType.elemLen_pos hv)

/-- The `SCL_STRING_A` case. -/
theorem getStringAOn_enc {conn : InConn} {m : ℕ} {ss : List (Option CStr)}
    (hp : conn.pdata = some m)
    (hmem : Holds conn.mem conn.cursor (Value.stringA ss).enc)
    (hlen : (Value.stringA ss).enc.length < 2 ^ 31 + 4) :
    ∃ ret conn', sclGetValueOn b conn .stringA true true = some (ret, some (ss.length : ℤ), conn') ∧
      Decoded conn conn' (Value.stringA ss).enc.length ∧
      (Value.stringA ss).norm.Reads conn'.mem conn'.tables conn.cursor conn'.cursor ret
        (some (ss.length : ℤ)) := by
  rw [Value.enc_stringA] at hmem hlen ⊢
  simp only [List.length_append, length_lenBytes, List.length_singleton] at hlen ⊢
  have hcount := four_mul_length_le_encStrs ss
  obtain ⟨hfield, hrest⟩ := holds_append.mp hmem
  rw [length_lenBytes] at hrest
  -- behind the count
  generalize hconn₁ : ({ conn with
    mem := b.swap conn.mem conn.cursor 4
    cursor := conn.cursor + 4
    log := conn.log ++ [.payload conn.cursor 4] } : InConn) = conn₁
  have hdec : Decoded conn conn₁ 4 := by
    rw [← hconn₁]
    exact ⟨rfl, fun x hx => b.swap_of_outside _ hx, List.prefix_refl _, rfl, rfl⟩
  obtain ⟨ret, conn', hrun, hdec', hreads⟩ :=
    getStringsOn_enc b (hdec.pdata.trans hp) (hdec.holds hrest) (by omega)
  have hcur := hdec.cursor
  refine ⟨ret, conn', ?_, hdec.trans hdec', hreads _ (by omega)⟩
  simp only [sclGetValueOn, SclType.isComplex, readIntOn_lenBytes b hp hfield (by omega),
    Option.bind_eq_bind, Option.bind_some, InConn.advance, sclLenLen, and_self, if_true]
  show (getStringsOn b { conn with
    mem := b.swap conn.mem conn.cursor 4
    cursor := conn.cursor + 4
    log := conn.log ++ [.payload conn.cursor 4] } ss.length true).bind _ = _
  rw [hconn₁, hrun]
  rfl

/-- An array of elements. -/
theorem getElemsOn_enc {conn : InConn} {m : ℕ} {v : Value} (hp : conn.pdata = some m)
    (hv : v.type.IsFlat) (hc : v.type.isComplex)
    (hmem : Holds conn.mem conn.cursor (lenBytes v.count ++ v.elems))
    (hlen : (lenBytes v.count ++ v.elems).length < 2 ^ 31 + 4) :
    ∃ ret conn', sclGetValueOn b conn v.type true true = some (ret, some (v.count : ℤ), conn') ∧
      Decoded conn conn' (lenBytes v.count ++ v.elems).length ∧
      v.Reads conn'.mem conn'.tables conn.cursor conn'.cursor ret (some (v.count : ℤ)) := by
  obtain ⟨hfield, hbytes⟩ := holds_append.mp hmem
  simp only [List.length_append, length_lenBytes] at hlen hbytes
  have hcount := Value.count_le_elems hv
  have hwrap : wrap32 (v.type.elemLen * (v.count : ℤ)) = v.elems.length := by
    have hcast : (v.type.elemLen * (v.count : ℤ)) = (v.elems.length : ℕ) := by
      rw [Value.length_elems hv]
      push_cast
      rfl
    rw [hcast, wrap32_of_lt (by omega) (by omega)]
  rw [sclGetValueOn_flat b hv]
  simp only [hc, if_true, readIntOn_lenBytes b hp hfield (by omega), Option.bind_some, hwrap,
    InConn.advance]
  refine ⟨_, _, rfl, ⟨by simp; ring, fun x hx => ?_, List.prefix_refl _, rfl, rfl⟩, ?_⟩
  · simp only [List.length_append, length_lenBytes] at hx
    push_cast at hx
    exact b.swap_of_outside _ (by omega)
  · rw [Value.reads_flat hv]
    exact ⟨fun _ => rfl, _, rfl, by simp, le_refl _,
      hbytes.congr (agree_swap b conn.mem 4 (Or.inr (le_refl _))) (le_refl _) (le_refl _)⟩

/-- One element. -/
theorem getElemOn_enc (conn : InConn) {v : Value} (hv : v.type.IsFlat)
    (hc : v.type.isComplex = false) (hmem : Holds conn.mem conn.cursor v.elems) (withLen : Bool) :
    ∃ ret conn', sclGetValueOn b conn v.type withLen true = some (ret, none, conn') ∧
      Decoded conn conn' v.elems.length ∧
      v.Reads conn'.mem conn'.tables conn.cursor conn'.cursor ret none := by
  have helems := Value.length_elems hv
  rw [Value.count_scalar hc, mul_one] at helems
  rw [sclGetValueOn_flat b hv]
  simp only [hc, Bool.false_eq_true, if_false, ← helems]
  refine ⟨_, _, rfl, ⟨rfl, fun _ _ => rfl, List.prefix_refl _, rfl, rfl⟩, ?_⟩
  rw [Value.reads_flat hv]
  exact ⟨by simp [hc], _, rfl, le_refl _, le_refl _, hmem⟩

/-- `scl_get_value`, at the encoding of a value, returns the value. The bound is
    what keeps `int` arithmetic from wrapping: less than `2^31` bytes behind a
    count or length. -/
theorem getValueOn_enc {conn : InConn} {m : ℕ} {v : Value} (hp : conn.pdata = some m)
    (hmem : Holds conn.mem conn.cursor v.enc) (hlen : v.enc.length < 2 ^ 31 + 4) {withLen : Bool}
    (hw : v.type.isComplex → withLen = true) :
    ∃ ret arrayLen conn', sclGetValueOn b conn v.type withLen true = some (ret, arrayLen, conn') ∧
      Decoded conn conn' v.enc.length ∧
      v.norm.Reads conn'.mem conn'.tables conn.cursor conn'.cursor ret arrayLen := by
  rcases v.cases_type with ⟨s, rfl⟩ | ⟨ss, rfl⟩ | hv
  · obtain ⟨ret, conn', hrun, hdec, hreads⟩ := getStringOn_enc b hp hmem hlen
    refine ⟨ret, none, conn', ?_, hdec, hreads _⟩
    simp [sclGetValueOn, Value.type, SclType.isComplex, hrun]
  · obtain rfl := hw rfl
    obtain ⟨ret, conn', hget⟩ := getStringAOn_enc b hp hmem hlen
    exact ⟨ret, _, conn', hget⟩
  · rw [Value.enc_flat hv] at hmem hlen ⊢
    rw [Value.norm_flat hv]
    cases hc : v.type.isComplex with
    | false =>
      rw [hc, if_neg (by simp), List.nil_append] at hmem
      simp only [Bool.false_eq_true, if_false, List.nil_append]
      obtain ⟨ret, conn', hget⟩ := getElemOn_enc b conn hv hc hmem withLen
      exact ⟨ret, _, conn', hget⟩
    | true =>
      obtain rfl := hw hc
      rw [hc, if_pos rfl] at hmem hlen
      rw [if_pos rfl]
      obtain ⟨ret, conn', hget⟩ := getElemsOn_enc b hp hv hc hmem hlen
      exact ⟨ret, _, conn', hget⟩

theorem getValue_enc {conn : InConn} {m : ℕ} {v : Value} (hp : conn.pdata = some m)
    (hmem : Holds conn.mem conn.cursor v.enc) (hlen : v.enc.length < 2 ^ 31 + 4) {withLen : Bool}
    (hw : v.type.isComplex → withLen = true) :
    ∃ ret arrayLen conn', sclGetValue conn v.type withLen true = some (ret, arrayLen, conn') ∧
      Decoded conn conn' v.enc.length ∧
      v.norm.Reads conn'.mem conn'.tables conn.cursor conn'.cursor ret arrayLen :=
  getValueOn_enc .plain hp hmem hlen hw

/-- A call of `scl_get_value`: the type, and whether `array_len` is supplied. -/
abbrev Request := SclType × Bool

/-- A sequence of calls of `scl_get_value`, with their results. -/
def getValuesOn : InConn → List Request → Option (List (Ret × Option ℤ) × InConn)
  | conn, [] => some ([], conn)
  | conn, r :: rs => do
    let (ret, arrayLen, conn) ← sclGetValueOn b conn r.1 r.2 true
    let (rets, conn) ← getValuesOn conn rs
    some ((ret, arrayLen) :: rets, conn)

/-- `getValuesOn` of the plain build. -/
def getValues (conn : InConn) (rs : List Request) :
    Option (List (Ret × Option ℤ) × InConn) := getValuesOn .plain conn rs

@[simp] theorem getValues_nil (conn : InConn) : getValues conn [] = some ([], conn) := rfl

theorem getValues_cons (conn : InConn) (r : Request) (rs : List Request) :
    getValues conn (r :: rs) = (sclGetValue conn r.1 r.2 true).bind fun v =>
      (getValues v.2.2 rs).bind fun vs => some ((v.1, v.2.1) :: vs.1, vs.2) := rfl

/-- The request asks for a value of this type. -/
def Asks (v : Value) (r : Request) : Prop := r.1 = v.type ∧ (v.type.isComplex → r.2 = true)

/-- A sequence of calls at the encodings of the values it asks for: every value
    returned still reads right after the last call. -/
theorem getValuesOn_enc {conn : InConn} {m : ℕ} {vs : List Value} {rs : List Request}
    (hp : conn.pdata = some m) (hmem : Holds conn.mem conn.cursor (vs.flatMap Value.enc))
    (hlen : ∀ v ∈ vs, v.enc.length < 2 ^ 31 + 4) (hrs : List.Forall₂ Asks vs rs) :
    ∃ rets conn', getValuesOn b conn rs = some (rets, conn') ∧
      Decoded conn conn' (vs.flatMap Value.enc).length ∧
      List.Forall₂ (fun v r => v.norm.Reads conn'.mem conn'.tables conn.cursor conn'.cursor
        r.1 r.2) vs rets := by
  induction hrs generalizing conn with
  | nil => exact ⟨[], conn, rfl, Decoded.refl conn, .nil⟩
  | @cons v r vs rs hr _ ih =>
    rw [List.flatMap_cons] at hmem ⊢
    rw [List.length_append]
    obtain ⟨htype, hw⟩ := hr
    obtain ⟨hthis, hrest⟩ := holds_append.mp hmem
    obtain ⟨ret, arrayLen, conn₁, hrun, hdec, hreads⟩ :=
      getValueOn_enc b hp hthis (hlen v (by simp)) hw
    obtain ⟨rets, conn', hruns, hdec', hreads'⟩ :=
      @ih conn₁ (hdec.pdata.trans hp) (hdec.holds hrest) fun u hu => hlen u (by simp [hu])
    have hc₁ := hdec.cursor
    have hc' := hdec'.cursor
    refine ⟨(ret, arrayLen) :: rets, conn', ?_, hdec.trans hdec', .cons ?_ ?_⟩
    · rw [getValuesOn, htype, hrun]
      simp [hruns]
    · exact hreads.congr (hdec'.agree _) hdec'.tables (le_refl _) (by omega)
    · exact hreads'.imp fun v r hv =>
        hv.congr (fun _ _ _ => rfl) (List.prefix_refl _) (by omega) (le_refl _)

theorem getValues_enc {conn : InConn} {m : ℕ} {vs : List Value} {rs : List Request}
    (hp : conn.pdata = some m) (hmem : Holds conn.mem conn.cursor (vs.flatMap Value.enc))
    (hlen : ∀ v ∈ vs, v.enc.length < 2 ^ 31 + 4) (hrs : List.Forall₂ Asks vs rs) :
    ∃ rets conn', getValues conn rs = some (rets, conn') ∧
      Decoded conn conn' (vs.flatMap Value.enc).length ∧
      List.Forall₂ (fun v r => v.norm.Reads conn'.mem conn'.tables conn.cursor conn'.cursor
        r.1 r.2) vs rets :=
  getValuesOn_enc .plain hp hmem hlen hrs

end CompatSuva.Scl
