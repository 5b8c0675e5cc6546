import CompatSuva.Audit.History
import CompatSuva.Audit.Process

/-!
# The programs that are audited with

`xuids` and `dotfiles` (`xuids.c` and `dotfiles.c` lines 18–66) run `find` on the file systems of
`/etc/fstab` that are of certain types, and print what it prints; `passwordless`
(`passwordless.c` lines 9–20) prints the accounts of `/etc/shadow` without a password. Their
outputs are what `db_diff` and `get_passwordless` collect.

* `scan_iff`: when `xuids` and `dotfiles` succeed, and what they print then;
* `found_reported`: a file that `find` has found on one of the file systems, and that the last
  audit has not seen, is in the reply of the suvlet;
* `passwordless_reply`: the reply is the accounts without a password.
-/

namespace CompatSuva.Audit.Utilities

open CompatSuva.Common CompatSuva.Scl CompatSuva.Audit.DbDiff CompatSuva.Audit.History

/-! ## Model -/

/-- `struct fstab`: what the programs read of it. -/
structure Fstab where
  file : CStr
  vfstype : CStr

/-- A run of `find`: whether `safe_exec_pipe` and `fdopen` succeed, its output, and the status that
    `wait` gives, if it does not fail. -/
structure Find where
  pid : Bool
  fdopen : Bool
  output : List Byte
  wait : Option ℕ

/-- The test of line 59. A `find` that a signal has ended passes it: its `WEXITSTATUS` is 0. -/
def Find.failed (r : Find) : Bool :=
  match r.wait with
  | none => true
  | some status => wexitstatus status ≠ 0

/-- Every step succeeds. -/
def Find.Succeeds (r : Find) : Prop := r.pid = true ∧ r.fdopen = true ∧ r.failed = false

/-- The types that are looked at (lines 35–40). -/
def vfstypes : List (List Byte × ℕ) :=
  [(chars "ext2", 4), (chars "ext3", 4), (chars "ext4", 4), (chars "resierfs", 8),
    (chars "minixfs", 7), (chars "xfs", 3)]

/-- The test of lines 34–40. -/
def scanned (ftab : Fstab) : Bool :=
  vfstypes.any fun t => strncmp ftab.vfstype.val t.1 t.2

/-- The loop that prints what `find` prints (lines 53–55): `line` is the format of `printf`. -/
def printLoop : ℕ → List Byte → Except Halt (List Byte)
  | 0, _ => .error .starved
  | fuel + 1, rest =>
    match fgets lineLength rest with
    | none => .ok []
    | some piece =>
      match fprintf (cstr piece) with
      | none => .error .undefined
      | some out => (out ++ ·) <$> printLoop fuel (rest.drop piece.length)

/-- The arguments of `find` (lines 42–44). -/
def argv (opts : List (List Byte)) (ftab : Fstab) : List (List Byte) :=
  [chars "find", ftab.file.val] ++ opts

/-- The loop over the file systems (lines 33–62): the exit code, and what has been printed. The
    `i`-th call of `safe_exec_pipe` with these arguments has the outcome `find i`. -/
def scanLoop (opts : List (List Byte)) (find : ℕ → List (List Byte) → Find) :
    ℕ → List Fstab → Except Halt (ℕ × List Byte)
  | _, [] => .ok (0, [])
  | i, ftab :: rest =>
    if scanned ftab then
      let r := find i (argv opts ftab)
      if r.pid = false then .ok (2, [])
      else if r.fdopen = false then .ok (3, [])
      else do
        let out ← printLoop (r.output.length + 1) r.output
        if r.failed then .ok (4, out)
        else do
          let (code, more) ← scanLoop opts find (i + 1) rest
          .ok (code, out ++ more)
    else scanLoop opts find i rest

/-- `main` of both programs: `setfsent` fails, or there are file systems. -/
def scan (opts : List (List Byte)) (find : ℕ → List (List Byte) → Find) :
    Option (List Fstab) → Except Halt (ℕ × List Byte)
  | none => .ok (1, [])
  | some mounts => scanLoop opts find 0 mounts

/-- The options of the programs (line 44). -/
def optsOf : Db → List (List Byte)
  | .xuids => [chars "-xdev", chars "-perm", chars "+6000"]
  | .dotfiles => [chars "-xdev", chars "-type", chars "d", chars "-name", chars ".*"]

/-- `main` of `xuids.c`. -/
def xuids (find : ℕ → List (List Byte) → Find) (fstab : Option (List Fstab)) :
    Except Halt (ℕ × List Byte) := scan (optsOf .xuids) find fstab

/-- `main` of `dotfiles.c`. -/
def dotfiles (find : ℕ → List (List Byte) → Find) (fstab : Option (List Fstab)) :
    Except Halt (ℕ × List Byte) := scan (optsOf .dotfiles) find fstab

/-- The program whose output goes to a file. -/
def utility : Db → (ℕ → List (List Byte) → Find) → Option (List Fstab) →
    Except Halt (ℕ × List Byte)
  | .xuids => xuids
  | .dotfiles => dotfiles

/-- `struct spwd`: what `passwordless` reads of it. -/
structure Spwd where
  namp : CStr
  pwdp : CStr

/-- `main` of `passwordless.c`: what it prints for the entries of `/etc/shadow`. -/
def passwordless (entries : List Spwd) : List Byte :=
  entries.flatMap fun e => if strncmp e.pwdp.val [] 1 then e.namp.val ++ [10] else []

/-! ## Looking for files -/

/-- The runs of `find` on these file systems, one after the other. -/
def runsOf (opts : List (List Byte)) (find : ℕ → List (List Byte) → Find) :
    ℕ → List Fstab → List Find
  | _, [] => []
  | i, ftab :: rest => find i (argv opts ftab) :: runsOf opts find (i + 1) rest

/-- What becomes of runs of `find`. -/
def outcome : List Find → ℕ × List Byte
  | [] => (0, [])
  | r :: rs =>
    if r.pid = false then (2, [])
    else if r.fdopen = false then (3, [])
    else if r.failed then (4, r.output)
    else ((outcome rs).1, r.output ++ (outcome rs).2)

/-- The output is printed as it is. -/
def Plain (output : List Byte) : Prop := (0 : Byte) ∉ output ∧ (37 : Byte) ∉ output

variable {opts : List (List Byte)} {find : ℕ → List (List Byte) → Find} {mounts : List Fstab}

theorem printLoop_spec {pieces : List (List Byte)} {rest : List Byte}
    (hpieces : Pieces lineLength pieces rest) (hplain : Plain rest) {fuel : ℕ}
    (hfuel : pieces.length < fuel) : printLoop fuel rest = .ok rest := by
  induction pieces generalizing rest fuel with
  | nil =>
    obtain ⟨k, rfl⟩ := Nat.exists_eq_add_one_of_ne_zero (Nat.ne_zero_of_lt hfuel)
    obtain rfl : rest = [] := hpieces
    rw [printLoop, fgets, if_pos rfl]
  | cons piece pieces ih =>
    rw [List.length_cons] at hfuel
    obtain ⟨k, rfl⟩ := Nat.exists_eq_add_one_of_ne_zero (Nat.ne_zero_of_lt hfuel)
    obtain ⟨hfgets, hrest⟩ := hpieces
    have hsplit := fgets_append hfgets
    obtain ⟨hnul, hpercent⟩ := hplain
    rw [← hsplit, List.mem_append, not_or] at hnul hpercent
    have hloop := ih hrest ⟨hnul.2, hpercent.2⟩ (show pieces.length < k by omega)
    rw [printLoop, hfgets]
    simp only [cstr_noNul hnul.1, fprintf_plain hpercent.1, hloop, map_ok, hsplit]

theorem scanLoop_eq {i : ℕ}
    (hplain : ∀ r ∈ runsOf opts find i (mounts.filter scanned), Plain r.output) :
    scanLoop opts find i mounts = .ok (outcome (runsOf opts find i (mounts.filter scanned))) := by
  induction mounts generalizing i with
  | nil => rfl
  | cons ftab mounts ih =>
    rw [scanLoop]
    cases hscanned : scanned ftab with
    | false =>
      rw [List.filter_cons_of_neg (by simp [hscanned])] at hplain ⊢
      exact ih hplain
    | true =>
      rw [List.filter_cons_of_pos hscanned, runsOf] at hplain ⊢
      obtain ⟨hfirst, hrest⟩ := List.forall_mem_cons.mp hplain
      obtain ⟨pieces, hpieces⟩ :=
        @pieces_exist lineLength (by decide) (find i (argv opts ftab)).output
      have hprint := printLoop_spec hpieces hfirst
        (Nat.lt_succ_of_le (hpieces.length_le (by decide)))
      simp only [if_true, outcome]
      split_ifs
      · rfl
      · rfl
      · rw [hprint]
        rfl
      · rw [hprint, ih hrest]
        rfl

theorem utility_eq (which : Db) (find : ℕ → List (List Byte) → Find)
    (fstab : Option (List Fstab)) : utility which find fstab = scan (optsOf which) find fstab := by
  cases which <;> rfl

theorem outcome_spec (rs : List Find) :
    ((outcome rs).1 = 0 ↔ ∀ r ∈ rs, r.Succeeds) ∧
      ((outcome rs).1 = 0 → (outcome rs).2 = rs.flatMap Find.output) := by
  induction rs with
  | nil => simp [outcome]
  | cons r rs ih =>
    obtain ⟨hzero, hout⟩ := ih
    rw [outcome, List.forall_mem_cons, ← hzero, List.flatMap_cons, Find.Succeeds]
    cases r.pid with
    | false => simp
    | true =>
      cases r.fdopen with
      | false => simp
      | true =>
        cases r.failed with
        | true => simp
        | false => simpa using hout

/-- Nothing that the program reads or prints has a NUL or a `%`: it succeeds exactly if there is
    an `/etc/fstab` and every `find` on a file system of one of the types succeeds. Then it has
    printed what they have printed, in the order of `/etc/fstab`. -/
theorem scan_iff {which : Db} {fstab : Option (List Fstab)}
    (hplain : ∀ mounts, fstab = some mounts →
      ∀ r ∈ runsOf (optsOf which) find 0 (mounts.filter scanned), Plain r.output) :
    ∃ code out, utility which find fstab = .ok (code, out) ∧
      (code = 0 ↔ ∃ mounts, fstab = some mounts ∧
        ∀ r ∈ runsOf (optsOf which) find 0 (mounts.filter scanned), r.Succeeds) ∧
      (code = 0 → ∃ mounts, fstab = some mounts ∧
        out = (runsOf (optsOf which) find 0 (mounts.filter scanned)).flatMap Find.output) := by
  rw [utility_eq]
  cases fstab with
  | none => exact ⟨1, [], rfl, by simp, by simp⟩
  | some mounts =>
    obtain ⟨hzero, hout⟩ := outcome_spec (runsOf (optsOf which) find 0 (mounts.filter scanned))
    refine ⟨_, _, scanLoop_eq (hplain mounts rfl), ?_, fun h => ⟨mounts, rfl, hout h⟩⟩
    rw [hzero]
    simp

theorem noNul_slash : (0 : Byte) ∉ chars "/" := by decide

theorem noNul_ext3 : (0 : Byte) ∉ chars "ext3" := by decide

/-- A file system on which `find` finds a file. -/
def rootMount : Fstab := ⟨⟨chars "/", noNul_slash⟩, ⟨chars "ext3", noNul_ext3⟩⟩

/-- A run of `find` that prints one line. -/
def foundA : Find := ⟨true, true, fileOf [chars "/a"] [], some 0⟩

theorem plain_foundA (opts : List (List Byte)) :
    ∀ r ∈ runsOf opts (fun _ _ => foundA) 0 [rootMount], Plain r.output := by
  intro r hr
  rw [List.mem_singleton.mp hr]
  show Plain foundA.output
  exact ⟨by decide, by decide⟩

theorem scan_iff_root : ∃ out,
    utility .xuids (fun _ _ => foundA) (some [rootMount]) = .ok (0, out) := by
  obtain ⟨code, out, hscan, hzero, -⟩ :=
    @scan_iff (fun _ _ => foundA) .xuids (some [rootMount]) (by
      intro mounts hmounts
      obtain rfl := Option.some.inj hmounts
      exact plain_foundA _)
  obtain rfl := hzero.mpr ⟨_, rfl, by
    intro r hr
    rw [List.mem_singleton.mp hr]
    exact ⟨rfl, rfl, rfl⟩⟩
  exact ⟨out, hscan⟩

/-! ## From the file systems to the reply -/

/-- Lines that a program has printed. -/
structure Printed (output : List Byte) (lines : List (List Byte)) : Prop where
  eq : output = fileOf lines []
  noNewline : ∀ line ∈ lines, (10 : Byte) ∉ line

theorem fileOf_injective {lines lines' : List (List Byte)} {last last' : List Byte}
    (h : ∀ line ∈ lines ++ [last], (10 : Byte) ∉ line)
    (h' : ∀ line ∈ lines' ++ [last'], (10 : Byte) ∉ line)
    (heq : fileOf lines last = fileOf lines' last') : lines = lines' ∧ last = last' := by
  rw [fileOf_eq_intercalate, fileOf_eq_intercalate] at heq
  have hsplit := congrArg (List.splitOn (10 : Byte)) heq
  rw [List.splitOn_intercalate 10 h (by simp), List.splitOn_intercalate 10 h' (by simp)] at hsplit
  obtain ⟨hlines, hlast⟩ := List.append_inj' hsplit rfl
  exact ⟨hlines, (List.cons.inj hlast).1⟩

theorem fileOf_append (lines lines' : List (List Byte)) :
    fileOf (lines ++ lines') [] = fileOf lines [] ++ fileOf lines' [] := by
  simp [fileOf]

/-- The lines of all runs of `find`. -/
theorem printed_flatMap {rs : List Find} (h : ∀ r ∈ rs, ∃ lines, Printed r.output lines) :
    ∃ lines, Printed (rs.flatMap Find.output) lines ∧
      ∀ r ∈ rs, ∀ found, Printed r.output found → ∀ line ∈ found, line ∈ lines := by
  induction rs with
  | nil => exact ⟨[], ⟨rfl, by simp⟩, by simp⟩
  | cons r rs ih =>
    obtain ⟨⟨found, hfound⟩, hrest⟩ := List.forall_mem_cons.mp h
    obtain ⟨lines, hlines, hall⟩ := ih hrest
    refine ⟨found ++ lines, ⟨?_, fun line hline => ?_⟩, fun r' hr' found' hfound' line hline => ?_⟩
    · rw [List.flatMap_cons, hfound.eq, hlines.eq, fileOf_append]
    · exact (List.mem_append.mp hline).elim (hfound.noNewline line) (hlines.noNewline line)
    · rcases List.mem_cons.mp hr' with rfl | hr'
      · have hnil : ∀ {ls : List (List Byte)}, (∀ l ∈ ls, (10 : Byte) ∉ l) →
            ∀ l ∈ ls ++ [[]], (10 : Byte) ∉ l := by
          intro ls hls l hl
          rcases List.mem_append.mp hl with hl | hl
          · exact hls l hl
          · rw [List.mem_singleton.mp hl]
            exact List.not_mem_nil
        obtain ⟨rfl, -⟩ := fileOf_injective (hnil hfound'.noNewline) (hnil hfound.noNewline)
          (hfound'.eq.symm.trans hfound.eq)
        exact List.mem_append_left _ hline
      · exact List.mem_append_right _ (hall r' hr' found' hfound' line hline)

theorem mem_news {x : PlainListing} {lines : List (List Byte)}
    (hprinted : Printed x.program.output lines) {line : List Byte} (hline : line ∈ lines)
    (hne : line ≠ []) (hkeep : keepLine line = true) : line ∈ x.news := by
  have hx : ∀ l ∈ x.lines ++ [x.last], (10 : Byte) ∉ l := by
    intro l hl
    rcases List.mem_append.mp hl with hl | hl
    · exact (x.isOutput.isLine l hl).noNewline
    · rw [List.mem_singleton.mp hl]
      exact x.isOutput.isLast.noNewline
  have hls : ∀ l ∈ lines ++ [[]], (10 : Byte) ∉ l := by
    intro l hl
    rcases List.mem_append.mp hl with hl | hl
    · exact hprinted.noNewline l hl
    · rw [List.mem_singleton.mp hl]
      exact List.not_mem_nil
  obtain ⟨rfl, -⟩ := fileOf_injective hx hls (x.output.symm.trans hprinted.eq)
  rw [PlainListing.news, PlainListing.rows, rowsOf]
  exact List.mem_filter.mpr ⟨List.mem_append_left _ (List.mem_filter.mpr ⟨hline, hkeep⟩),
    by simpa using hne⟩

variable {a a' : Auditor} {known : Db → List (List Byte)}

/-- A file that `find` has found on a file system of one of the types is reported, if the last
    audit that has succeeded has not seen it; in any session, with whatever other calls, and
    whatever has failed before. -/
theorem found_reported (h : Keeps a known) {before after : List Call} {which : Db}
    {x : PlainListing} (hx : x.program.Succeeds)
    (hrunning : utility which find (some mounts) = .ok (0, x.program.output))
    (hplain : ∀ r ∈ runsOf (optsOf which) find 0 (mounts.filter scanned), Plain r.output)
    (hprinted : ∀ r ∈ runsOf (optsOf which) find 0 (mounts.filter scanned),
      ∃ lines, Printed r.output lines)
    {r : Find} (hr : r ∈ runsOf (optsOf which) find 0 (mounts.filter scanned))
    {found : List (List Byte)} (hfound : Printed r.output found) {path : List Byte}
    (hpath : path ∈ found) (hne : path ≠ []) (hkeep : keepLine path = true)
    (hnew : path ∉ lastKnown which (known which) before) {replies : List (List Byte)}
    (hrun : Runs Serves a (before ++ .getNew which x :: after) replies a') :
    ∃ reported, replies[before.length]? = some (fileOf reported []) ∧ path ∈ reported := by
  obtain ⟨lines, hlines, hall⟩ := printed_flatMap hprinted
  have hout : x.program.output =
      (runsOf (optsOf which) find 0 (mounts.filter scanned)).flatMap Find.output := by
    have heq := (scanLoop_eq hplain).symm.trans (utility_eq which find (some mounts) ▸ hrunning)
    obtain ⟨hzero, heq⟩ := Prod.mk.inj (Except.ok.inj heq)
    rw [← heq]
    exact (outcome_spec _).2 hzero
  rw [← hout] at hlines
  have hmem := mem_news hlines (hall r hr found hfound path hpath) hne hkeep
  exact ⟨_, reply_report h hx hrun, (mem_report_iff (Nat.zero_le _)).mpr (by
    obtain ⟨sought, rest, hnews⟩ := List.append_of_mem hmem
    exact ⟨sought, rest, hnews, Or.inl hnew⟩)⟩

theorem isOutput_a : IsOutput [chars "/a"] [] :=
  isOutput_singleton ⟨by decide, by decide, by decide⟩

theorem short_a : (fileOf [chars "/a"] []).length < sizeLimit := by decide

theorem plain_a : (37 : Byte) ∉ kept [chars "/a"] [] := by decide

/-- The audit with this run of `find`. -/
def listingFoundA : PlainListing :=
  ⟨⟨printing (fileOf [chars "/a"] []), _, _, isOutput_a, rfl, short_a⟩, plain_a⟩

theorem found_reported_a : ∃ d replies a' reported,
    Runs Serves ⟨d, d, [], 0, fun _ => []⟩ [.getNew .xuids listingFoundA] replies a' ∧
      replies[0]? = some (fileOf reported []) ∧ chars "/a" ∈ reported := by
  obtain ⟨d, hd⟩ := constructor_usable
  obtain ⟨replies, a', hrun⟩ := runs_exist (keeps_empty hd) [.getNew .xuids listingFoundA]
  have hprinted : Printed foundA.output [chars "/a"] := by
    refine ⟨rfl, fun line hline => ?_⟩
    rw [List.mem_singleton.mp hline]
    decide
  have hmem : foundA ∈ runsOf (optsOf .xuids) (fun _ _ => foundA) 0 ([rootMount].filter scanned) :=
    List.mem_singleton_self _
  have hscan : utility .xuids (fun _ _ => foundA) (some [rootMount]) =
      .ok (0, listingFoundA.program.output) := by
    rw [utility_eq]
    exact scanLoop_eq (plain_foundA _)
  obtain ⟨reported, hreply, hreported⟩ := @found_reported (fun _ _ => foundA) [rootMount] _ a' _
    (keeps_empty hd) [] [] .xuids listingFoundA (succeeds_printing _) hscan (plain_foundA _)
    (fun r hr => by
      rw [List.mem_singleton.mp hr]
      exact ⟨_, hprinted⟩) foundA hmem _ hprinted (chars "/a")
    (by decide) (by decide) (by decide) (by decide) replies hrun
  exact ⟨d, replies, a', reported, hrun, hreply, hreported⟩

theorem passwordless_eq (entries : List Spwd) : passwordless entries =
    fileOf ((entries.filter fun e => e.pwdp.val = []).map fun e => e.namp.val) [] := by
  induction entries with
  | nil => rfl
  | cons e entries ih =>
    have htest : strncmp e.pwdp.val [] 1 = decide (e.pwdp.val = []) := by
      cases hpwd : e.pwdp.val <;> simp [strncmp]
    rw [passwordless, List.flatMap_cons, htest]
    rw [passwordless] at ih
    rw [ih]
    by_cases hpwd : e.pwdp.val = []
    · simp [hpwd, fileOf]
    · simp [hpwd]

/-- The reply of `get_passwordless` is the names of the accounts without a password, each on a
    line, in any session. -/
theorem passwordless_reply (h : Keeps a known) {before after : List Call} {x : Listing}
    (hexec : x.program.exec = true) (hfdopen : x.program.fdopen = true)
    (hexited : x.program.exited = true) {entries : List Spwd}
    (hout : x.program.output = passwordless entries) {replies : List (List Byte)}
    (hrun : Runs Serves a (before ++ .getPasswordless x :: after) replies a') :
    replies[before.length]? =
      some (fileOf ((entries.filter fun e => e.pwdp.val = []).map fun e => e.namp.val) []) := by
  rw [reply_eq h hrun, audit, ← passwordless_eq, ← hout, x.output]
  simp [programFailure, hexec, hfdopen, hexited]

theorem noNul_a : (0 : Byte) ∉ chars "a" := by decide

theorem noNul_x : (0 : Byte) ∉ chars "x" := by decide

/-- Two accounts, the first one without a password. -/
def shadowA : List Spwd := [⟨⟨chars "a", noNul_a⟩, ⟨[], List.not_mem_nil⟩⟩,
  ⟨⟨chars "x", noNul_x⟩, ⟨chars "x", noNul_x⟩⟩]

theorem passwordless_reply_a : ∃ d replies a',
    Runs Serves ⟨d, d, [], 0, fun _ => []⟩ [.getPasswordless listingA.toListing] replies a' ∧
      replies[0]? = some (chars "a\n") := by
  obtain ⟨d, hd⟩ := constructor_usable
  obtain ⟨replies, a', hrun⟩ :=
    runs_exist (keeps_empty hd) [.getPasswordless listingA.toListing]
  exact ⟨d, replies, a', hrun, @passwordless_reply _ a' _ (keeps_empty hd) [] [] listingA.toListing
    rfl rfl rfl shadowA rfl replies hrun⟩

end CompatSuva.Audit.Utilities
