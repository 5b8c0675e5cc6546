import CompatSuva.Scl.RoundTrip

/-!
# Where `scl_get_value` reads and writes

`scl_get_value` compares nothing with the size of the packet. It stays inside
the packet on those sequences of calls whose values are whole: `Fits` says so in
terms of the bytes of the payload alone.

* `sclGetValue_whole`: a call at a whole value makes no access outside the packet
  or the pointer table and moves the cursor behind the value;
* `getValues_inBounds`: so does every sequence of calls whose values are whole, on
  every packet received;
* `getValue_out_of_bounds`: a value that is not whole is not rejected.
-/

namespace CompatSuva.Scl

open CompatSuva.Common

/-! ## Accesses -/

/-- The access is inside a payload of `n` bytes, or inside its pointer table. -/
def Access.Inside (n : ℕ) : Access → Prop
  | .payload offset len => 0 ≤ offset ∧ offset + len ≤ n
  | .table index cap => index < cap

instance (n : ℕ) (a : Access) : Decidable (a.Inside n) := by
  cases a <;> unfold Access.Inside <;> infer_instance

/-- Every access made so far is inside, and so is the cursor. -/
structure InConn.InBounds (n : ℕ) (conn : InConn) : Prop where
  accesses : ∀ a ∈ conn.log, a.Inside n
  cursor_nonneg : 0 ≤ conn.cursor
  cursor_le : conn.cursor ≤ n

/-! ## Whole values -/

/-- The length or count field at the front of `bs`, if it is there and not
    negative. -/
def field (bs : List Byte) : Option ℕ :=
  if 4 ≤ bs.length ∧ 0 ≤ intOf (bs.take 4) then some (intOf (bs.take 4)).toNat else none

/-- The bytes taken by `k` strings of an `SCL_STRING_A` at the front of `bs`. -/
def stringsSize : ℕ → List Byte → Option ℕ
  | 0, _ => some 0
  | k + 1, bs => do
    let len ← field bs
    let rest ← stringsSize k (bs.drop (sclLenLen + len))
    some (sclLenLen + len + rest)

/-- The bytes a call of `scl_get_value` goes over, as the fields at the front of
    `bs` have it. Without `array_len` an array is taken to be empty. -/
def valueSize (type : SclType) (withLen : Bool) (bs : List Byte) : Option ℕ :=
  match type with
  | .int | .long | .float | .doub | .bool => some type.elemLen
  | .intA | .longA | .floatA | .doubA | .boolA | .data =>
    if withLen then (field bs).map fun count => sclLenLen + type.elemLen * count else some 0
  | .string => (field bs).map fun len => sclLenLen + len + 1
  | .stringA =>
    if withLen then do
      let count ← field bs
      let size ← stringsSize count (bs.drop sclLenLen)
      some (sclLenLen + size + 1)
    else some 1

theorem valueSize_flat {type : SclType} (h : type.IsFlat) (withLen : Bool) (bs : List Byte) :
    valueSize type withLen bs = if type.isComplex then
      if withLen then (field bs).map fun count => 4 + type.elemLen * count else some 0
      else some type.elemLen := by
  obtain ⟨hs, hA⟩ := h
  cases type <;> simp_all [valueSize, SclType.isComplex, sclLenLen]

/-- The values asked for are whole: each ends within `bs`, and takes less than
    `2^31 + 4` bytes. -/
def Fits : List Byte → List Request → Prop
  | _, [] => True
  | bs, r :: rs =>
    match valueSize r.1 r.2 bs with
    | none => False
    | some size => size ≤ bs.length ∧ size < 2 ^ 31 + 4 ∧ Fits (bs.drop size) rs

instance decidableFits : ∀ bs rs, Decidable (Fits bs rs)
  | _, [] => inferInstanceAs (Decidable True)
  | bs, r :: rs =>
    match h : valueSize r.1 r.2 bs with
    | none => decidable_of_iff False (by rw [Fits, h])
    | some size =>
      have := decidableFits (bs.drop size) rs
      decidable_of_iff (size ≤ bs.length ∧ size < 2 ^ 31 + 4 ∧ Fits (bs.drop size) rs)
        (by rw [Fits, h])

theorem Fits.take {bs : List Byte} {rs : List Request} (h : Fits bs rs) (k : ℕ) :
    Fits bs (rs.take k) := by
  induction rs generalizing bs k with
  | nil => simpa using h
  | cons r rs ih =>
    cases k with
    | zero => trivial
    | succ k =>
      rw [Fits] at h
      rw [List.take_succ_cons, Fits]
      cases hsize : valueSize r.1 r.2 bs with
      | none => simp [hsize] at h
      | some size =>
        simp only [hsize] at h
        exact ⟨h.1, h.2.1, ih h.2.2 k⟩

/-! ## Encoded values -/

theorem field_lenBytes {k : ℕ} (hk : k < 2 ^ 31) (rest : List Byte) :
    field (lenBytes k ++ rest) = some k := by
  have hint : intOf ((lenBytes k ++ rest).take 4) = k := by
    rw [List.take_left' (length_lenBytes k), lenBytes, intOf_ofNat hk]
  rw [field, if_pos ⟨by simp, by omega⟩, hint]
  rfl

/-- The strings of an `SCL_STRING_A`. -/
theorem stringsSize_enc {ss : List (Option CStr)} (rest : List Byte)
    (hlen : (encStrs ss).length < 2 ^ 31) :
    stringsSize ss.length (encStrs ss ++ rest) = some (encStrs ss).length := by
  induction ss with
  | nil => rfl
  | cons s ss ih =>
    rw [encStrs_cons] at hlen ⊢
    simp only [List.length_append, length_lenBytes] at hlen ⊢
    have hdrop : (lenBytes (strBytes s).length ++ (strBytes s ++ encStrs ss) ++ rest).drop
        (4 + (strBytes s).length) = encStrs ss ++ rest := by
      rw [← List.append_assoc, List.append_assoc _ _ rest]
      exact List.drop_left' (by simp)
    have hfield : field (lenBytes (strBytes s).length ++ (strBytes s ++ encStrs ss) ++ rest) =
        some (strBytes s).length := by
      rw [List.append_assoc, field_lenBytes (by omega)]
    simp only [List.length_cons, stringsSize, hfield, Option.bind_eq_bind, Option.bind_some,
      sclLenLen, hdrop, ih (by omega), Nat.add_assoc]

/-- An encoded value is whole. -/
theorem valueSize_enc {v : Value} {r : Request} (hr : Asks v r) (rest : List Byte)
    (hlen : v.enc.length < 2 ^ 31 + 4) : valueSize r.1 r.2 (v.enc ++ rest) = some v.enc.length := by
  obtain ⟨type, withLen⟩ := r
  obtain ⟨rfl, hw⟩ := hr
  rcases v.cases_type with ⟨s, rfl⟩ | ⟨ss, rfl⟩ | hv
  · have henc : (Value.string s).enc = lenBytes (strBytes s).length ++ (strBytes s ++ [0]) := by
      simp [Value.enc]
    rw [henc] at hlen ⊢
    simp only [List.length_append, length_lenBytes, List.length_singleton] at hlen ⊢
    rw [show (Value.string s).type = .string from rfl, valueSize, List.append_assoc,
      field_lenBytes (by omega)]
    simp [sclLenLen, Nat.add_assoc]
  · obtain rfl : withLen = true := hw rfl
    have hcount := four_mul_length_le_encStrs ss
    rw [Value.enc_stringA] at hlen ⊢
    simp only [List.length_append, length_lenBytes, List.length_singleton] at hlen ⊢
    rw [show (Value.stringA ss).type = .stringA from rfl, valueSize, if_pos rfl, List.append_assoc,
      field_lenBytes (by omega), List.append_assoc]
    simp only [Option.bind_eq_bind, Option.bind_some, List.drop_left' (length_lenBytes ss.length),
      sclLenLen]
    rw [stringsSize_enc _ (by omega)]
    simp [Nat.add_assoc]
  · have helems := Value.length_elems hv
    rw [Value.enc_flat hv] at hlen ⊢
    rw [valueSize_flat hv]
    cases hc : v.type.isComplex with
    | false =>
      rw [Value.count_scalar hc, mul_one] at helems
      simp [helems]
    | true =>
      obtain rfl : withLen = true := hw hc
      rw [hc, if_pos rfl] at hlen
      simp only [List.length_append, length_lenBytes] at hlen
      have hle := Value.count_le_elems hv
      have hcount : v.count < 2 ^ 31 := by omega
      simp [field_lenBytes hcount, helems]

/-! ## One call -/

/-- The bytes left of a packet of `n` bytes are `bs`. -/
structure InConn.Left (n : ℕ) (conn : InConn) (bs : List Byte) : Prop where
  pdata : conn.pdata = some n
  nonneg : 0 ≤ conn.cursor
  length : conn.cursor + bs.length = n
  holds : Holds conn.mem conn.cursor bs

/-- Going over `k` bytes, with every access inside. -/
structure Within (n : ℕ) (conn conn' : InConn) (k : ℕ) : Prop extends Decoded conn conn' k where
  accesses : ∀ a ∈ conn'.log, a ∈ conn.log ∨ a.Inside n

variable {n : ℕ} {conn conn' conn'' : InConn} {bs : List Byte}

theorem Within.refl (n : ℕ) (conn : InConn) : Within n conn conn 0 :=
  ⟨Decoded.refl conn, fun _ ha => Or.inl ha⟩

theorem Within.trans {j k l : ℕ} (h : Within n conn conn' j) (h' : Within n conn' conn'' k)
    (hl : j + k = l) : Within n conn conn'' l := by
  subst hl
  refine ⟨h.toDecoded.trans h'.toDecoded, fun a ha => ?_⟩
  rcases h'.accesses a ha with ha | ha
  · exact h.accesses a ha
  · exact Or.inr ha

theorem Within.advance (n : ℕ) (conn : InConn) (k : ℕ) : Within n conn (conn.advance k) k :=
  ⟨⟨rfl, fun _ _ => rfl, List.prefix_refl _, rfl, rfl⟩, fun _ ha => Or.inl ha⟩

theorem InConn.Left.drop {k : ℕ} (h : conn.Left n bs) (hw : Decoded conn conn' k)
    (hk : k ≤ bs.length) : conn'.Left n (bs.drop k) := by
  have hcursor := hw.cursor
  have hlength := h.length
  have hnonneg := h.nonneg
  have hsplit : Holds conn.mem conn.cursor (bs.take k ++ bs.drop k) := by
    rw [List.take_append_drop]
    exact h.holds
  have hrest := (holds_append.mp hsplit).2
  rw [List.length_take_of_le hk] at hrest
  exact ⟨hw.pdata.trans h.pdata, by omega, by simp; omega, hw.holds hrest⟩

theorem field_eq_some {len : ℕ} (h : field bs = some len) :
    4 ≤ bs.length ∧ intOf (bs.take 4) = len := by
  unfold field at h
  split_ifs at h with hcond
  have := Option.some.inj h
  exact ⟨hcond.1, by omega⟩

/-- Reading a length or count field that is there. -/
theorem readInt_field {len : ℕ} (h : conn.Left n bs) (hfield : field bs = some len) :
    ∃ conn', conn.readInt = some ((len : ℤ), conn') ∧ Within n conn conn' 0 := by
  obtain ⟨hlen, hint⟩ := field_eq_some hfield
  have hload : load conn.mem conn.cursor 4 = bs.take 4 := by
    have hsplit : Holds conn.mem conn.cursor (bs.take 4 ++ bs.drop 4) := by
      rw [List.take_append_drop]
      exact h.holds
    exact (holds_append.mp hsplit).1.load (by simp; omega)
  have hlength := h.length
  have hnonneg := h.nonneg
  refine ⟨{ conn with log := conn.log ++ [.payload conn.cursor 4] }, ?_,
    ⟨⟨by simp, fun _ _ => rfl, List.prefix_refl _, rfl, rfl⟩, fun a ha => ?_⟩⟩
  · simp [InConn.readInt_eq, h.pdata, hload, hint]
  · rcases List.mem_append.mp ha with ha | ha
    · exact Or.inl ha
    · rw [List.mem_singleton.mp ha]
      exact Or.inr ⟨hnonneg, by push_cast; omega⟩

/-- Writing among the `k` bytes the cursor then moves over. -/
theorem write_within (h : conn.Left n bs) (j : ℕ) (bytes : List Byte) {k : ℕ}
    (hj : j + bytes.length ≤ k) (hk : k ≤ bs.length) :
    ∃ conn', conn.write (conn.cursor + j) bytes = some conn' ∧
      Within n conn (conn'.advance k) k := by
  have hlength := h.length
  have hnonneg := h.nonneg
  refine ⟨{ conn with
      mem := store conn.mem (conn.cursor + j) bytes
      log := conn.log ++ [.payload (conn.cursor + j) bytes.length] },
        by simp [InConn.write, h.pdata],
    ⟨⟨rfl, fun x hx => ?_, List.prefix_refl _, rfl, rfl⟩, fun a ha => ?_⟩⟩
  · rcases hx with hx | hx
    · exact store_eq_of_lt (by omega)
    · exact store_eq_of_ge (by omega)
  · rcases List.mem_append.mp ha with ha | ha
    · exact Or.inl ha
    · rw [List.mem_singleton.mp ha]
      exact Or.inr ⟨by omega, by omega⟩

/-- The `SCL_STRING` case. -/
theorem getString_whole {size : ℕ} (h : conn.Left n bs)
    (hsize : valueSize .string false bs = some size) (hle : size ≤ bs.length)
    (hlt : size < 2 ^ 31 + 4) :
    ∃ ret conn', getStringOn .plain conn = some (ret, conn') ∧ Within n conn conn' size := by
  simp only [valueSize, Option.map_eq_some_iff, sclLenLen] at hsize
  obtain ⟨len, hfield, rfl⟩ := hsize
  obtain ⟨conn₁, hread, hw₁⟩ := readInt_field h hfield
  have hw₂ := hw₁.trans (Within.advance n conn₁ 4) (Nat.zero_add 4)
  have h₂ := h.drop hw₂.toDecoded (by omega)
  unfold getStringOn
  simp only [InConn.readIntOn_plain, hread, Option.bind_eq_bind, Option.bind_some, sclLenLen]
  split_ifs with h0
  · have hlen : len = 0 := by exact_mod_cast h0
    subst hlen
    exact ⟨_, _, rfl, hw₂.trans (Within.advance n _ 1) rfl⟩
  · obtain ⟨conn₃, hwrite, hw₃⟩ := write_within h₂ len [0] (le_refl _) (by simp; omega)
    have hwrap : wrap32 ((len : ℤ) + 1) = ((len + 1 : ℕ) : ℤ) := by
      rw [wrap32_of_lt (by omega) (by omega)]
      push_cast
      rfl
    rw [hwrite, hwrap]
    exact ⟨_, _, rfl, hw₂.trans hw₃ (by simp; omega)⟩

/-- The loop over the strings of an `SCL_STRING_A`. -/
theorem stringALoop_whole (cap : ℕ) {k size : ℕ} {ptrs : List (Option ℤ)} (h : conn.Left n bs)
    (hsize : stringsSize k bs = some size) (hle : size ≤ bs.length)
    (hcap : ptrs.length + k ≤ cap) :
    ∃ conn' ptrs', stringALoopOn .plain cap k conn ptrs = some (conn', ptrs') ∧
      Within n conn conn' size := by
  induction k generalizing conn bs size ptrs with
  | zero =>
    rw [← Option.some.inj hsize]
    exact ⟨conn, ptrs, rfl, Within.refl n conn⟩
  | succ k ih =>
    simp only [stringsSize, Option.bind_eq_bind, Option.bind_eq_some_iff, sclLenLen] at hsize
    obtain ⟨len, hfield, rest, hrest, hsize⟩ := hsize
    obtain rfl := Option.some.inj hsize
    obtain ⟨conn₁, hread, hw₁⟩ := readInt_field h hfield
    -- the length field is cleared, and the pointer stored in the table
    obtain ⟨conn₂, hwrite, hw₂⟩ :=
      write_within (h.drop hw₁.toDecoded (Nat.zero_le _)) 0 [0, 0, 0, 0] (le_refl 4)
        (by simp; omega)
    rw [Nat.cast_zero, add_zero] at hwrite
    let conn₃ : InConn := { conn₂.advance 4 with
      log := (conn₂.advance 4).log ++ [.table ptrs.length cap] }
    have hw₃ : Within n (conn₂.advance 4) conn₃ 0 := by
      refine ⟨⟨by simp [conn₃], fun _ _ => rfl, List.prefix_refl _, rfl, rfl⟩, fun a ha => ?_⟩
      rcases List.mem_append.mp ha with ha | ha
      · exact Or.inl ha
      · rw [List.mem_singleton.mp ha]
        exact Or.inr (show ptrs.length < cap by omega)
    have hw := (hw₁.trans hw₂ rfl).trans (hw₃.trans (Within.advance n conn₃ len) rfl) rfl
    have hstep : ∃ p, stringALoopOn .plain cap (k + 1) conn ptrs =
        stringALoopOn .plain cap k (conn₃.advance len) (ptrs ++ [p]) := by
      rw [stringALoopOn, InConn.readIntOn_plain, hread]
      simp only [Option.bind_eq_bind, Option.bind_some, hwrite, sclLenLen]
      split_ifs with h0
      · refine ⟨none, ?_⟩
        rw [h0]
        simp [conn₃, InConn.advance]
      · exact ⟨_, rfl⟩
    obtain ⟨p, hstep⟩ := hstep
    have hleft := h.drop hw.toDecoded (by omega)
    obtain ⟨conn', ptrs', hrun, hw'⟩ := ih hleft (by simpa using hrest) (by simp; omega)
      (show (ptrs ++ [p]).length + k ≤ cap by simp; omega)
    exact ⟨conn', ptrs', hstep.trans hrun, hw.trans hw' (by simp)⟩

/-- Every string has a length field, so a count is never large. -/
theorem le_stringsSize {k size : ℕ} (h : stringsSize k bs = some size) : 4 * k ≤ size := by
  induction k generalizing bs size with
  | zero => omega
  | succ k ih =>
    simp only [stringsSize, Option.bind_eq_bind, Option.bind_eq_some_iff, sclLenLen] at h
    obtain ⟨len, -, rest, hrest, hsize⟩ := h
    have := ih hrest
    have := Option.some.inj hsize
    omega

/-- The `SCL_STRING_A` case, behind the count. -/
theorem getStrings_whole {count size : ℕ} (h : conn.Left n bs)
    (hsize : stringsSize count bs = some size) (hle : size + 1 ≤ bs.length)
    (hlt : size < 2 ^ 31) :
    ∃ ret conn', getStringsOn .plain conn count true = some (ret, conn') ∧
      Within n conn conn' (size + 1) := by
  have hcount := le_stringsSize hsize
  have hcap : (BitVec.ofInt 32 (8 * (count : ℤ))).toNat / 8 = count := by
    have hcast : (8 * (count : ℤ)) = ((8 * count : ℕ) : ℤ) := by push_cast; rfl
    rw [hcast, BitVec.ofInt_natCast, BitVec.toNat_ofNat, Nat.mod_eq_of_lt (by omega)]
    omega
  obtain ⟨conn₁, ptrs, hrun, hw₁⟩ :=
    stringALoop_whole count h hsize (by omega)
      (show ([] : List (Option ℤ)).length + count ≤ count by simp)
  obtain ⟨conn₂, hwrite, hw₂⟩ := write_within (h.drop hw₁.toDecoded (by omega)) 0 [0] (le_refl 1)
    (by simp; omega)
  rw [Nat.cast_zero, add_zero] at hwrite
  have hw := hw₁.trans hw₂ rfl
  simp only [getStringsOn, Bool.true_eq_false, false_and, if_false, hcap, Int.toNat_natCast, hrun,
    Option.bind_eq_bind, Option.bind_some, hwrite, if_true]
  refine ⟨_, _, rfl, ⟨⟨hw.cursor, hw.mem, ?_, hw.pdata, hw.opcode⟩, hw.accesses⟩⟩
  exact hw.tables.trans (List.prefix_append _ _)

/-- `scl_get_value` at a whole value. -/
theorem sclGetValue_whole {r : Request} {size : ℕ} (h : conn.Left n bs)
    (hsize : valueSize r.1 r.2 bs = some size) (hle : size ≤ bs.length) (hlt : size < 2 ^ 31 + 4) :
    ∃ ret arrayLen conn', sclGetValue conn r.1 r.2 true = some (ret, arrayLen, conn') ∧
      Within n conn conn' size := by
  obtain ⟨type, withLen⟩ := r
  by_cases hflat : type.IsFlat
  · rw [sclGetValue_flat hflat]
    simp only [valueSize_flat hflat] at hsize
    split_ifs at hsize ⊢ with hcomplex hlen
    · obtain ⟨count, hfield, rfl⟩ := Option.map_eq_some_iff.mp hsize
      obtain ⟨conn₁, hread, hw₁⟩ := readInt_field h hfield
      have hwrap : wrap32 (type.elemLen * (count : ℤ)) = ((type.elemLen * count : ℕ) : ℤ) := by
        rw [wrap32_of_lt (by positivity) (by push_cast; push_cast at hlt; omega)]
        push_cast
        rfl
      simp only [hread, Option.bind_some, hwrap]
      refine ⟨_, _, _, rfl, (hw₁.trans (Within.advance n conn₁ 4) (Nat.zero_add 4)).trans
        (Within.advance n _ _) rfl⟩
    · rw [← Option.some.inj hsize]
      exact ⟨_, _, _, rfl, Within.refl n conn⟩
    · rw [← Option.some.inj hsize]
      exact ⟨_, _, _, rfl, Within.advance n conn _⟩
  · by_cases hs : type = .string
    · subst hs
      obtain ⟨ret, conn', hrun, hw⟩ := getString_whole h hsize hle hlt
      exact ⟨ret, none, conn', by simp [sclGetValue, sclGetValueOn, SclType.isComplex, hrun], hw⟩
    · have hA : type = .stringA := by
        by_contra hA
        exact hflat ⟨hs, hA⟩
      subst hA
      cases withLen with
      | false =>
        rw [← Option.some.inj hsize]
        exact ⟨.null, none, conn.advance 1, by simp [sclGetValue, sclGetValueOn],
          Within.advance n conn 1⟩
      | true =>
        simp only [valueSize, if_true, Option.bind_eq_bind, Option.bind_eq_some_iff,
          sclLenLen] at hsize
        obtain ⟨count, hfield, rest, hrest, hsize⟩ := hsize
        obtain rfl := Option.some.inj hsize
        obtain ⟨conn₁, hread, hw₁⟩ := readInt_field h hfield
        have hw₂ := hw₁.trans (Within.advance n conn₁ 4) (Nat.zero_add 4)
        obtain ⟨ret, conn', hrun, hw'⟩ :=
          getStrings_whole (h.drop hw₂.toDecoded (by omega)) hrest (by simp; omega) (by omega)
        refine ⟨ret, some (count : ℤ), conn', ?_, hw₂.trans hw' (by omega)⟩
        simp only [sclGetValue, sclGetValueOn, SclType.isComplex, InConn.readIntOn_plain, hread,
          Option.bind_eq_bind, Option.bind_some, and_self, if_true, sclLenLen]
        rw [hrun]
        rfl

/-! ## Any sequence of calls -/

theorem getValues_whole {rs : List Request} (h : conn.Left n bs) (hfits : Fits bs rs) :
    ∃ rets conn' k, getValues conn rs = some (rets, conn') ∧ Within n conn conn' k ∧
      k ≤ bs.length := by
  induction rs generalizing conn bs with
  | nil => exact ⟨[], conn, 0, rfl, Within.refl n conn, Nat.zero_le _⟩
  | cons r rs ih =>
    rw [Fits] at hfits
    cases hsize : valueSize r.1 r.2 bs with
    | none => simp [hsize] at hfits
    | some size =>
      simp only [hsize] at hfits
      obtain ⟨hle, hlt, hfits⟩ := hfits
      obtain ⟨ret, arrayLen, conn₁, hget, hw₁⟩ := sclGetValue_whole h hsize hle hlt
      obtain ⟨rets, conn', k, hrun, hw, hk⟩ := ih (h.drop hw₁.toDecoded hle) hfits
      rw [List.length_drop] at hk
      refine ⟨(ret, arrayLen) :: rets, conn', size + k, ?_, hw₁.trans hw rfl, by omega⟩
      simp [getValues_cons, hget, hrun]

/-- The payload of the packet a stream starts with. -/
def packetPayload (bs : List Byte) : List Byte := (bs.take (packetLen bs)).drop headerLen

theorem length_packetPayload {bs : List Byte} (h : packetLen bs ≤ bs.length) :
    (packetPayload bs).length = (headerWord (bs.take headerLen) 3).toNat := by
  rw [packetPayload, List.length_drop, List.length_take_of_le h, packetLen]
  omega

/-- A packet that has just been read. -/
theorem left_received (header payload : List Byte) (junk : Memory)
    (h : payload.length = (headerWord header 3).toNat) :
    (InConn.received header payload junk).Left payload.length payload where
  pdata := by simp [InConn.received, InConn.newPacket_eq, h]
  nonneg := le_refl _
  length := by simp [InConn.received, InConn.newPacket_eq]
  holds := holds_store _ _ _

/-- On every packet received, in every sequence of calls of `scl_get_value` whose
    values are whole, every access is inside the payload or inside a pointer
    table, and the cursor stays in the payload. -/
theorem getValues_inBounds (conn : InConn) (junk : Memory) {evs : List ReadEvent}
    (h : Arrives sclTimeout (packetLen (stream evs)) evs) {rs : List Request}
    (hfits : Fits (packetPayload (stream evs)) rs) :
    ∃ ret conn₁ evs', sclReadPacket conn true junk evs = some (ret, conn₁, evs') ∧
      conn₁.pdata = some (packetPayload (stream evs)).length ∧
      Holds conn₁.mem 0 (packetPayload (stream evs)) ∧
      ∀ k, ∃ rets conn', getValues conn₁ (rs.take k) = some (rets, conn') ∧
        conn'.InBounds (packetPayload (stream evs)).length := by
  obtain ⟨ret, hread⟩ := sclReadPacket_of_arrives conn junk h
  have hleft := left_received ((stream evs).take headerLen) (packetPayload (stream evs)) junk
    (length_packetPayload h.le_length)
  refine ⟨ret, _, _, hread, hleft.pdata, hleft.holds, fun k => ?_⟩
  obtain ⟨rets, conn', size, hrun, hw, hsize⟩ := getValues_whole hleft (hfits.take k)
  have hcursor := hw.cursor
  have h0 : (InConn.received ((stream evs).take headerLen) (packetPayload (stream evs)) junk).cursor
      = 0 := rfl
  refine ⟨rets, conn', hrun, fun a ha => (hw.accesses a ha).resolve_left ?_, by omega, by omega⟩
  simp [InConn.received, InConn.newPacket_eq]

/-- A packet with a payload of `bs`, read in one go. -/
def onePacket (opcode : BitVec 32) (bs : List Byte) : List ReadEvent :=
  pushBack (bytesOf opcode ++ lenBytes 0 ++ lenBytes 0 ++ lenBytes bs.length ++ bs) []

/-- A string and an `SCL_INT`, both whole. -/
theorem getValues_inBounds_two :
    ∃ ret conn₁ evs', sclReadPacket .opened true (fun _ => 0xff)
        (onePacket 5 (lenBytes 2 ++ [104, 105, 0] ++ bytesOf (7 : BitVec 32))) =
          some (ret, conn₁, evs') ∧
      ∃ rets conn', getValues conn₁ [(.string, false), (.int, false)] = some (rets, conn') ∧
        conn'.InBounds 11 := by
  obtain ⟨ret, conn₁, evs', hread, -, -, hall⟩ := getValues_inBounds .opened (fun _ => 0xff)
    (show Arrives sclTimeout (packetLen (stream (onePacket 5 (lenBytes 2 ++ [104, 105, 0] ++
      bytesOf (7 : BitVec 32))))) (onePacket 5 _) by decide)
    (show Fits _ [(.string, false), (.int, false)] by decide)
  exact ⟨ret, conn₁, evs', hread, hall 2⟩

/-- A value that is not whole is not rejected: at a payload of four bytes that
    hold the length -16, `scl_get_value` for an `SCL_STRING` writes 12 bytes in
    front of the payload and leaves the cursor there. -/
theorem getValue_out_of_bounds :
    ∃ conn evs' ret arrayLen conn', sclReadPacket .opened true (fun _ => 0xff)
        (onePacket 5 [0xf0, 0xff, 0xff, 0xff]) = some (4, conn, evs') ∧
      sclGetValue conn .string false true = some (ret, arrayLen, conn') ∧
      .payload (-12) 1 ∈ conn'.log ∧ conn'.cursor = -11 ∧ ¬ conn'.InBounds 4 := by
  obtain ⟨ret, hread⟩ := sclReadPacket_of_arrives .opened (fun _ => 0xff)
    (show Arrives sclTimeout (packetLen (stream (onePacket 5 [0xf0, 0xff, 0xff, 0xff])))
      (onePacket 5 [0xf0, 0xff, 0xff, 0xff]) by decide)
  have hret : (sclReadPacket .opened true (fun _ => 0xff)
      (onePacket 5 [0xf0, 0xff, 0xff, 0xff])).map Prod.fst = some 4 := by decide
  rw [hread] at hret
  obtain rfl : ret = 4 := Option.some.inj hret
  refine ⟨_, _, .ptr 4, none, _, hread, rfl, ?_, ?_, fun h => ?_⟩
  · decide
  · decide
  · exact absurd h.cursor_nonneg (by decide)

end CompatSuva.Scl
