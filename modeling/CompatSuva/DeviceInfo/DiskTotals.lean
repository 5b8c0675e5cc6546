import CompatSuva.Common.Tokens
import CompatSuva.DeviceInfo.ReportBuffers

/-!
# The totals of the disk table

`DeviceInfo_DiskSpaceTotal` and `DeviceInfo_DiskSpaceTable` read the same output. The first discards
a line, the header of `df`, but `grep ^/dev` has removed that already: what is discarded is the
first row. A number that is not a `long` is read as the `long` next to it.

* `diskSpaceTable_rows`: the table has a row for each line;
* `diskSpaceTotal_cases`: the totals are those of the rows behind the first;
* `leftOut_eq_zero_iff`: nothing but zeros is left out where the first row has zeros;
* `totals_agree_iff`: when the totals are the sums of the columns of the table.
-/

namespace CompatSuva.DeviceInfo

open CompatSuva.Common CompatSuva.Scl

/-! ## Rows -/

/-- A row of `df`. -/
structure Row where
  filesystem : List Byte
  blocks : ℤ
  used : ℤ
  available : ℤ
  percentused : List Byte
  mount : List Byte
  deriving DecidableEq

namespace Row

/-- Its six fields. -/
def fields (r : Row) : List (List Byte) :=
  [r.filesystem, decimalInt r.blocks, decimalInt r.used, decimalInt r.available, r.percentused,
    r.mount]

/-- The numeric columns. -/
def columns (r : Row) : ℤ × ℤ × ℤ := (r.blocks, r.used, r.available)

/-- The numeric columns as `long`s. -/
def longs (r : Row) : ℤ × ℤ × ℤ := (clampLong r.blocks, clampLong r.used, clampLong r.available)

/-- What the table has for the row. -/
def text (r : Row) : List Byte :=
  chars "<Disk>\n" ++ (rowTexts r.filesystem (decimalInt r.blocks) (decimalInt r.used)
    (decimalInt r.available) r.percentused r.mount).flatten

end Row

/-- A line of `df`, and its row. -/
structure Prints (line : List Byte) (r : Row) : Prop extends Short line where
  words_eq : words (line ++ [10]) = r.fields

/-- The table with the rows. -/
def tableOf (rows : List Row) : List Byte :=
  tableHeader ++ (rows.map Row.text).flatten ++ tableFooter

theorem short_of_prints {lines : List (List Byte)} {rows : List Row}
    (h : List.Forall₂ Prints lines rows) : ∀ line ∈ lines, Short line := by
  induction h with
  | nil => exact fun _ hmem => absurd hmem List.not_mem_nil
  | cons hline _ ih => exact List.forall_mem_cons.mpr ⟨hline.toShort, ih⟩

/-! ## The table -/

theorem adds_eq {lines : List (List Byte)} {rows : List Row} (h : List.Forall₂ Prints lines rows) :
    (lines.map (· ++ [10])).map tableAppends.adds = (rows.map Row.text).map some := by
  induction h with
  | nil => rfl
  | cons hline _ ih =>
    rw [List.map_cons, List.map_cons, List.map_cons, List.map_cons, ih, Appends.adds,
      show tableAppends.stored _ = words _ from List.drop_zero, hline.words_eq]
    rfl

theorem row_cases {e : Appends} {msg t : List Byte} (h : e.adds msg = some t)
    (payload : List Byte) :
    e.row payload msg = .ok (payload ++ t) ∨ ∃ f, e.row payload msg = .error (.fault f) := by
  rw [Appends.adds] at h
  rw [Appends.row, h]
  by_cases hroom : payload.length + e.before < xmlSize
  · by_cases hfit : WordsFit e.arrays (e.stored msg)
    · rw [if_pos hroom, if_pos hfit]
      by_cases hadd : payload.length + t.length < xmlSize
      · exact Or.inl (if_pos hadd)
      · exact Or.inr ⟨_, if_neg hadd⟩
    · exact Or.inr ⟨_, by rw [if_pos hroom, if_neg hfit]⟩
  · exact Or.inr ⟨_, if_neg hroom⟩

/-- Where no line ends it, the loop appends all texts or is undefined. -/
theorem row_fold_cases {e : Appends} {msgs texts : List (List Byte)}
    (h : msgs.map e.adds = texts.map some) (payload : List Byte) :
    msgs.foldlM e.row payload = .ok (payload ++ texts.flatten) ∨
      ∃ f, msgs.foldlM e.row payload = .error (.fault f) := by
  induction msgs generalizing texts payload with
  | nil =>
    obtain rfl : texts = [] := List.map_eq_nil_iff.mp h.symm
    exact Or.inl (by rw [List.flatten_nil, List.append_nil]; rfl)
  | cons msg msgs ih =>
    obtain ⟨t, texts, rfl, hadds, hrest⟩ := List.map_eq_cons_iff.mp h.symm
    rw [List.foldlM_cons, List.flatten_cons, ← List.append_assoc]
    obtain hrow | ⟨f, hrow⟩ := row_cases hadds.symm payload
    · rw [hrow, ok_bind]
      exact ih hrest.symm _
    · exact Or.inr ⟨f, by rw [hrow, error_bind]⟩

/-- The table has a row for each line, where it fits. -/
theorem diskSpaceTable_rows {lines : List (List Byte)} {rows : List Row}
    (h : List.Forall₂ Prints lines rows) :
    diskSpaceTable (some (fileOf lines [])) = .ok (tableOf rows) ↔ TableFits (fileOf lines []) := by
  rw [← diskSpaceTable_returns_iff]
  refine ⟨fun heq => ⟨_, heq⟩, ?_⟩
  rintro ⟨text, htext⟩
  rw [htext]
  rw [diskSpaceTable, strcats_header, ok_bind, overLines_eq, msgsOf_fileOf (short_of_prints h),
    show tableRow = tableAppends.row from funext fun payload => funext (tableRow_eq payload)]
    at htext
  obtain hfold | ⟨f, hfold⟩ := row_fold_cases (adds_eq h) tableHeader
  · rw [hfold, ok_bind, strcat] at htext
    split at htext
    · rw [← Except.ok.inj htext, tableOf]
    · cases htext
  · rw [hfold, error_bind] at htext
    cases htext

/-! ## The totals -/

/-- A `long`. -/
def InLong (z : ℤ) : Prop := -longMax - 1 ≤ z ∧ z ≤ longMax

instance (z : ℤ) : Decidable (InLong z) :=
  inferInstanceAs (Decidable (-longMax - 1 ≤ z ∧ z ≤ longMax))

/-- Three `long`s. -/
structure InLongs (t : ℤ × ℤ × ℤ) : Prop where
  total : InLong t.1
  used : InLong t.2.1
  free : InLong t.2.2

theorem addLong_ok {x y : ℤ} (h : InLong (x + y)) : addLong x y = .ok (x + y) := if_pos h

theorem addLong_overflow {x y : ℤ} (h : ¬ InLong (x + y)) :
    addLong x y = .error (.fault .overflow) := if_neg h

theorem scan_totals {line : List Byte} {r : Row} (h : Prints line r) :
    scan [.skip, .long, .long, .long, .skip, .skip] (line ++ [10]) =
      .ok [.long r.longs.1, .long r.longs.2.1, .long r.longs.2.2] := by
  obtain ⟨s₁, h₁, hw₁⟩ := sscanf_skip h.words_eq [.long, .long, .long, .skip, .skip]
  obtain ⟨s₂, h₂, hw₂⟩ := sscanf_long hw₁ [.long, .long, .skip, .skip]
  obtain ⟨s₃, h₃, hw₃⟩ := sscanf_long hw₂ [.long, .skip, .skip]
  obtain ⟨s₄, h₄, hw₄⟩ := sscanf_long hw₃ [.skip, .skip]
  obtain ⟨s₅, h₅, hw₅⟩ := sscanf_skip hw₄ [.skip]
  obtain ⟨s₆, h₆, -⟩ := sscanf_skip hw₅ []
  rw [scan, h₁, h₂, h₃, h₄, h₅, h₆]
  rfl

/-- A row is added to the sums, if they stay `long`s. -/
theorem totalRow_cases {line : List Byte} {r : Row} (h : Prints line r) (t : ℤ × ℤ × ℤ) :
    InLongs (t + r.longs) ∧ totalRow t (line ++ [10]) = .ok (t + r.longs) ∨
      ¬ InLongs (t + r.longs) ∧ totalRow t (line ++ [10]) = .error (.fault .overflow) := by
  have hrow : totalRow t (line ++ [10]) =
      (do
        let total ← addLong t.1 r.longs.1
        let used ← addLong t.2.1 r.longs.2.1
        let free ← addLong t.2.2 r.longs.2.2
        return (total, used, free)) := by
    rw [totalRow, scan_totals h]
    rfl
  rw [hrow]
  by_cases htotal : InLong (t.1 + r.longs.1)
  · rw [addLong_ok htotal, ok_bind]
    by_cases hused : InLong (t.2.1 + r.longs.2.1)
    · rw [addLong_ok hused, ok_bind]
      by_cases hfree : InLong (t.2.2 + r.longs.2.2)
      · rw [addLong_ok hfree, ok_bind]
        exact Or.inl ⟨⟨htotal, hused, hfree⟩, rfl⟩
      · rw [addLong_overflow hfree]
        exact Or.inr ⟨fun hin => hfree hin.free, rfl⟩
    · rw [addLong_overflow hused]
      exact Or.inr ⟨fun hin => hused hin.used, rfl⟩
  · rw [addLong_overflow htotal]
    exact Or.inr ⟨fun hin => htotal hin.total, rfl⟩

/-- The loop adds the rows up, if all sums on the way are `long`s. -/
theorem total_fold_cases {lines : List (List Byte)} {rows : List Row}
    (h : List.Forall₂ Prints lines rows) {t : ℤ × ℤ × ℤ} (ht : InLongs t) :
    (∀ before, before <+: rows → InLongs (t + (before.map Row.longs).sum)) ∧
        (lines.map (· ++ [10])).foldlM totalRow t = .ok (t + (rows.map Row.longs).sum) ∨
      (¬ ∀ before, before <+: rows → InLongs (t + (before.map Row.longs).sum)) ∧
        (lines.map (· ++ [10])).foldlM totalRow t = .error (.fault .overflow) := by
  induction h generalizing t with
  | nil =>
    refine Or.inl ⟨fun before hbefore => ?_, ?_⟩
    · rw [List.prefix_nil.mp hbefore, List.map_nil, List.sum_nil, add_zero]
      exact ht
    · rw [List.map_nil, List.map_nil, List.sum_nil, add_zero]
      rfl
  | @cons line r lines rows hline _ ih =>
    rw [List.map_cons, List.foldlM_cons, List.map_cons, List.sum_cons, ← add_assoc]
    obtain ⟨hin, hrow⟩ | ⟨hnot, hrow⟩ := totalRow_cases hline t
    · rw [hrow, ok_bind]
      obtain ⟨hall, hfold⟩ | ⟨hnot, hfold⟩ := ih hin
      · refine Or.inl ⟨fun before hbefore => ?_, hfold⟩
        obtain rfl | ⟨before', rfl, hbefore'⟩ := List.prefix_cons_iff.mp hbefore
        · rw [List.map_nil, List.sum_nil, add_zero]
          exact ht
        · rw [List.map_cons, List.sum_cons, ← add_assoc]
          exact hall before' hbefore'
      · refine Or.inr ⟨fun hall => hnot fun before hbefore => ?_, hfold⟩
        have := hall (r :: before) (List.cons_prefix_cons.mpr ⟨rfl, hbefore⟩)
        rwa [List.map_cons, List.sum_cons, ← add_assoc] at this
    · refine Or.inr ⟨fun hall => hnot ?_, by rw [hrow, error_bind]⟩
      have := hall [r] (List.cons_prefix_cons.mpr ⟨rfl, List.nil_prefix⟩)
      rwa [List.map_singleton, List.sum_singleton] at this

/-- The first line is discarded. -/
theorem discardLine_fileOf {lines : List (List Byte)} (h : ∀ line ∈ lines, Short line) :
    discardLine (fileOf lines []) = fileOf lines.tail [] := by
  cases lines with
  | nil => rfl
  | cons line lines =>
    have hline := h line List.mem_cons_self
    have hfile : fileOf (line :: lines) [] = line ++ 10 :: fileOf lines [] := by
      simp [fileOf]
    have hget : fgets bufSize (fileOf (line :: lines) []) = some (line ++ [10]) := by
      rw [hfile, fgets, if_neg (by simp), takeLine_line hline.noNewline hline.short]
    rw [discardLine, hget]
    show (fileOf (line :: lines) []).drop (line ++ [10]).length = fileOf lines []
    rw [hfile, show line ++ 10 :: fileOf lines [] = (line ++ [10]) ++ fileOf lines [] by simp,
      List.drop_left]

theorem length_totalText {t : ℤ × ℤ × ℤ} (h : InLongs t) : (totalText t).length < xmlSize := by
  have htotal := length_decimalInt h.total.1 h.total.2
  have hused := length_decimalInt h.used.1 h.used.2
  have hfree := length_decimalInt h.free.1 h.free.2
  have hcomma : (chars ",").length = 1 := by decide
  have hsize : xmlSize = 4000 := rfl
  rw [totalText]
  simp only [List.length_append, hcomma]
  omega

/-- The totals are those of the rows behind the first, if all sums on the way are `long`s. -/
theorem diskSpaceTotal_cases {lines : List (List Byte)} {rows : List Row}
    (h : List.Forall₂ Prints lines rows) :
    (∀ before, before <+: rows.tail → InLongs (before.map Row.longs).sum) ∧
        diskSpaceTotal (some (fileOf lines [])) =
          .ok (totalText (rows.tail.map Row.longs).sum) ∨
      (¬ ∀ before, before <+: rows.tail → InLongs (before.map Row.longs).sum) ∧
        diskSpaceTotal (some (fileOf lines [])) = .error .overflow := by
  have hzero : InLongs 0 := ⟨by decide, by decide, by decide⟩
  have htail : List.Forall₂ Prints lines.tail rows.tail := by
    cases h with
    | nil => exact List.Forall₂.nil
    | cons _ hrest => exact hrest
  have hshort := short_of_prints h
  have hfold := total_fold_cases htail hzero
  simp only [zero_add] at hfold
  rw [diskSpaceTotal, overLines_eq, discardLine_fileOf hshort,
    msgsOf_fileOf fun line hline => hshort line (List.mem_of_mem_tail hline)]
  obtain ⟨hall, hfold⟩ | ⟨hnot, hfold⟩ := hfold
  · refine Or.inl ⟨hall, ?_⟩
    have hfits := length_totalText (hall _ (List.prefix_refl _))
    rw [show ((0 : ℤ), (0 : ℤ), (0 : ℤ)) = 0 from rfl, hfold, ok_bind, strcat, List.length_nil,
      zero_add, if_pos hfits]
    rfl
  · refine Or.inr ⟨hnot, ?_⟩
    rw [show ((0 : ℤ), (0 : ℤ), (0 : ℤ)) = 0 from rfl, hfold]
    rfl

/-! ## Agreement -/

theorem tokens_totalText (t : ℤ × ℤ × ℤ) :
    tokens 44 (totalText t) = [decimalInt t.1, decimalInt t.2.1, decimalInt t.2.2] := by
  have hcomma : ∀ z, (44 : Byte) ∉ decimalInt z := fun z hmem => by
    obtain h | h := mem_decimalInt hmem
    · exact absurd h (by decide)
    · exact absurd h (by decide)
  have hsplit : totalText t =
      decimalInt t.1 ++ 44 :: (decimalInt t.2.1 ++ 44 :: decimalInt t.2.2) := by
    rw [totalText, show chars "," = [44] from by decide]
    simp only [List.append_assoc, List.cons_append, List.nil_append]
  rw [hsplit, tokens_append (decimalInt_ne_nil _) (hcomma _),
    tokens_append (decimalInt_ne_nil _) (hcomma _), tokens_single (decimalInt_ne_nil _) (hcomma _)]

/-- The text shows the totals. -/
theorem totalText_injective : Function.Injective totalText := by
  intro t t' h
  have htokens := tokens_totalText t
  rw [h, tokens_totalText] at htokens
  simp only [List.cons.injEq, and_true] at htokens
  obtain ⟨htotal, hused, hfree⟩ := htokens
  exact Prod.ext (decimalInt_injective htotal).symm
    (Prod.ext (decimalInt_injective hused).symm (decimalInt_injective hfree).symm)

/-- What the totals leave out: the first row, and what the numbers of the others have beyond a
    `long`. -/
def leftOut : List Row → ℤ × ℤ × ℤ
  | [] => 0
  | first :: rest => first.columns + (rest.map fun r => r.columns - r.longs).sum

theorem columns_eq_leftOut_add (rows : List Row) :
    (rows.map Row.columns).sum = leftOut rows + (rows.tail.map Row.longs).sum := by
  cases rows with
  | nil => rfl
  | cons first rest =>
    have hrest : (rest.map Row.columns).sum =
        (rest.map fun r => r.columns - r.longs).sum + (rest.map Row.longs).sum := by
      rw [← List.sum_map_add]
      exact congrArg List.sum (List.map_congr_left fun r _ => (sub_add_cancel _ _).symm)
    rw [List.map_cons, List.sum_cons, hrest, leftOut, List.tail_cons, add_assoc]

theorem longs_eq {r : Row} (h : InLongs r.columns) : r.longs = r.columns := by
  have hclamp : ∀ {z : ℤ}, InLong z → clampLong z = z := fun {z} hz => by
    rw [clampLong, min_eq_left hz.2, max_eq_left hz.1]
  exact Prod.ext (hclamp h.total) (Prod.ext (hclamp h.used) (hclamp h.free))

/-- Where all numbers are `long`s, only the first row is left out. -/
theorem leftOut_eq_zero_iff {rows : List Row} (h : ∀ r ∈ rows, InLongs r.columns) :
    leftOut rows = 0 ↔ ∀ first ∈ rows.head?, first.columns = 0 := by
  cases rows with
  | nil => simp [leftOut]
  | cons first rest =>
    have hrest : (rest.map fun r => r.columns - r.longs).sum = 0 := by
      refine List.sum_eq_zero fun d hd => ?_
      obtain ⟨r, hr, rfl⟩ := List.mem_map.mp hd
      rw [longs_eq (h r (List.mem_cons_of_mem _ hr)), sub_self]
    rw [leftOut, hrest, add_zero]
    simp

/-- The totals are the sums of the columns of the table exactly where the table fits, all sums on
    the way are `long`s, and nothing but zeros is left out. -/
theorem totals_agree_iff {lines : List (List Byte)} {rows : List Row}
    (h : List.Forall₂ Prints lines rows) :
    diskSpaceTable (some (fileOf lines [])) = .ok (tableOf rows) ∧
        diskSpaceTotal (some (fileOf lines [])) = .ok (totalText (rows.map Row.columns).sum) ↔
      TableFits (fileOf lines []) ∧
        (∀ before, before <+: rows.tail → InLongs (before.map Row.longs).sum) ∧
        leftOut rows = 0 := by
  rw [diskSpaceTable_rows h]
  refine and_congr_right fun _ => ?_
  obtain ⟨hall, hrun⟩ | ⟨hnot, hrun⟩ := diskSpaceTotal_cases h
  · rw [hrun, and_iff_right hall, Except.ok.injEq, totalText_injective.eq_iff,
      columns_eq_leftOut_add, eq_comm, add_eq_right]
  · rw [hrun]
    exact iff_of_false (by simp) fun hcond => hnot hcond.1

/-- The row of a loop device without a file. -/
def loopRow : Row := ⟨chars "/dev/loop0", 0, 0, 0, chars "-", chars "/mnt"⟩

/-- The row of a disk. -/
def diskRow : Row := ⟨chars "/dev/sda1", 100, 50, 50, chars "50%", chars "/"⟩

theorem prints_loop : Prints (chars "/dev/loop0 0 0 0 - /mnt") loopRow :=
  ⟨by decide +kernel, by decide +kernel⟩

theorem prints_disk : Prints (chars "/dev/sda1 100 50 50 50% /") diskRow :=
  ⟨by decide +kernel, by decide +kernel⟩

theorem totals_agree_loop :
    diskSpaceTable (some (fileOf [chars "/dev/loop0 0 0 0 - /mnt",
      chars "/dev/sda1 100 50 50 50% /"]
        [])) = .ok (tableOf [loopRow, diskRow]) ∧
      diskSpaceTotal (some (fileOf [chars "/dev/loop0 0 0 0 - /mnt",
        chars "/dev/sda1 100 50 50 50% /"] [])) = .ok (totalText (100, 50, 50)) := by
  have hrows : List.Forall₂ Prints [chars "/dev/loop0 0 0 0 - /mnt",
      chars "/dev/sda1 100 50 50 50% /"] [loopRow, diskRow] :=
    .cons prints_loop (.cons prints_disk .nil)
  refine (totals_agree_iff hrows).mpr ⟨?_, ?_, by decide⟩
  · exact (diskSpaceTable_rows hrows).mp (by decide +kernel)
  · intro before hbefore
    obtain rfl | ⟨before', rfl, hbefore'⟩ := List.prefix_cons_iff.mp hbefore
    · exact ⟨by decide, by decide, by decide⟩
    · rw [List.prefix_nil.mp hbefore']
      exact ⟨by decide, by decide, by decide⟩

/-- The only row is left out. -/
theorem totals_disagree : ¬ ∀ (lines : List (List Byte)) (rows : List Row),
    List.Forall₂ Prints lines rows →
      diskSpaceTable (some (fileOf lines [])) = .ok (tableOf rows) ∧
        diskSpaceTotal (some (fileOf lines [])) = .ok (totalText (rows.map Row.columns).sum) := by
  intro hall
  obtain ⟨-, htotal⟩ := hall _ _ (.cons prints_disk .nil)
  have hrun : diskSpaceTotal (some (fileOf [chars "/dev/sda1 100 50 50 50% /"] [])) =
      .ok (chars "0,0,0") := by decide +kernel
  rw [hrun] at htotal
  exact absurd htotal (by decide +kernel)

end CompatSuva.DeviceInfo
