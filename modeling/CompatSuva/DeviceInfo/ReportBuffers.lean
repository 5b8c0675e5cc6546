import CompatSuva.DeviceInfo.Disk
import CompatSuva.Software.Payload

/-!
# The buffers of the reports

`payload` is filled by `strcat` in loops that do not look at its size, for as many lines as `df`,
`packages.xml` and `software-wrapper` have; the arrays for the words of a line of `df` are smaller
than the line. Whether a report fits is a sum over the lines that the loop gets to.

* `row_fold_safe_iff`: when a loop over the lines, and what is behind it, does not run over a
  buffer;
* `reports_fit_iff`: when the four reports do not.
-/

namespace CompatSuva.DeviceInfo

open CompatSuva.Common CompatSuva.Scl

/-! ## Safe loops -/

/-- Not undefined. -/
def Safe {α : Type} (m : Except Leave α) : Prop := ∀ f, m ≠ .error (.fault f)

theorem safe_ok {α : Type} (a : α) : Safe (.ok a : Except Leave α) := fun _ h => by cases h

theorem safe_ret {α : Type} (text : List Byte) : Safe (.error (.ret text) : Except Leave α) :=
  fun _ h => by cases h

theorem not_safe_fault {α : Type} (f : Fault) : ¬ Safe (.error (.fault f) : Except Leave α) :=
  fun h => h f rfl

/-- A function that is not undefined returns a string. -/
theorem returned_iff (m : Except Leave (List Byte)) : (∃ text, returned m = .ok text) ↔ Safe m := by
  match m with
  | .ok text => exact iff_of_true ⟨text, rfl⟩ (safe_ok text)
  | .error (.ret text) => exact iff_of_true ⟨text, rfl⟩ (safe_ret text)
  | .error (.fault f) =>
    refine iff_of_false ?_ (not_safe_fault f)
    rintro ⟨text, h⟩
    cases h

/-- The text that a line adds. -/
def Appends.adds (e : Appends) (msg : List Byte) : Option (List Byte) := e.text (e.stored msg)

/-- The lines that the loop gets to: it ends with the first that has not enough words. -/
def Appends.reached (e : Appends) : List (List Byte) → List (List Byte)
  | [] => []
  | msg :: msgs => if e.adds msg = none then [msg] else msg :: e.reached msgs

/-- The bytes added by the loop, and by what is behind it: `last` bytes. -/
def Appends.added (e : Appends) (last : ℕ) : List (List Byte) → ℕ
  | [] => last
  | msg :: msgs =>
    match e.adds msg with
    | none => e.before
    | some t => t.length + e.added last msgs

/-- A line, and the rest of the loop. -/
theorem row_bind_safe_iff (e : Appends) (payload msg : List Byte)
    (k : List Byte → Except Leave (List Byte)) :
    Safe (e.row payload msg >>= k) ↔
      payload.length + e.before < xmlSize ∧ WordsFit e.arrays (e.stored msg) ∧
        ∀ t, e.adds msg = some t →
          payload.length + t.length < xmlSize ∧ Safe (k (payload ++ t)) := by
  rw [Appends.row, Appends.adds]
  by_cases hroom : payload.length + e.before < xmlSize
  · by_cases hfit : WordsFit e.arrays (e.stored msg)
    · rw [if_pos hroom, if_pos hfit]
      cases htext : e.text (e.stored msg) with
      | none => exact iff_of_true (safe_ret _) ⟨hroom, hfit, fun t h => by cases h⟩
      | some t =>
        by_cases hadd : payload.length + t.length < xmlSize
        · simp only [hadd, ↓reduceIte, ok_bind]
          refine ⟨fun hsafe => ⟨hroom, hfit, fun t' ht' => ?_⟩, fun h => (h.2.2 t rfl).2⟩
          obtain rfl := Option.some.inj ht'
          exact ⟨hadd, hsafe⟩
        · simp only [hadd, ↓reduceIte, error_bind]
          exact iff_of_false (not_safe_fault _) fun h => hadd (h.2.2 t rfl).1
    · rw [if_pos hroom, if_neg hfit]
      exact iff_of_false (not_safe_fault _) fun h => hfit h.2.1
  · rw [if_neg hroom]
    exact iff_of_false (not_safe_fault _) fun h => hroom h.1

/-- A loop over the lines, and what is behind it: the words of the lines it gets to fit the arrays,
    and all that is added fits `payload`. -/
theorem row_fold_safe_iff {e : Appends} {row : List Byte → List Byte → Except Leave (List Byte)}
    (hrow : ∀ payload msg, payload.length < xmlSize → row payload msg = e.row payload msg)
    {k : List Byte → Except Leave (List Byte)} {last : ℕ}
    (hk : ∀ payload, payload.length < xmlSize →
      (Safe (k payload) ↔ payload.length + last < xmlSize))
    (msgs : List (List Byte)) {payload : List Byte} (hpayload : payload.length < xmlSize) :
    Safe (msgs.foldlM row payload >>= k) ↔
      (∀ msg ∈ e.reached msgs, WordsFit e.arrays (e.stored msg)) ∧
        payload.length + e.added last msgs < xmlSize := by
  induction msgs generalizing payload with
  | nil =>
    show Safe (k payload) ↔ _
    rw [hk payload hpayload]
    exact (and_iff_right fun msg h => absurd h List.not_mem_nil).symm
  | cons msg msgs ih =>
    rw [List.foldlM_cons, bind_assoc, hrow payload msg hpayload, row_bind_safe_iff,
      Appends.reached, Appends.added]
    cases hadds : e.adds msg with
    | none =>
      rw [if_pos rfl]
      constructor
      · rintro ⟨hroom, hfit, -⟩
        refine ⟨fun m hm => ?_, hroom⟩
        rw [List.mem_singleton.mp hm]
        exact hfit
      · rintro ⟨hfit, hroom⟩
        exact ⟨hroom, hfit msg List.mem_cons_self, fun t h => by cases h⟩
    | some t =>
      have hbefore := e.before_le _ t hadds
      simp only [reduceCtorEq, ↓reduceIte, List.forall_mem_cons]
      constructor
      · rintro ⟨-, hfit, hrest⟩
        obtain ⟨hadd, hsafe⟩ := hrest t rfl
        rw [ih (by rw [List.length_append]; exact hadd), List.length_append] at hsafe
        obtain ⟨hfits, hroom⟩ := hsafe
        exact ⟨⟨hfit, hfits⟩, by omega⟩
      · rintro ⟨⟨hfit, hfits⟩, hroom⟩
        refine ⟨by omega, hfit, fun t' ht' => ?_⟩
        obtain rfl := Option.some.inj ht'
        have hadd : payload.length + t.length < xmlSize := by omega
        refine ⟨hadd, ?_⟩
        rw [ih (by rw [List.length_append]; exact hadd), List.length_append]
        exact ⟨hfits, by omega⟩

theorem row_ok {e : Appends} {payload msg r : List Byte} (h : e.row payload msg = .ok r) :
    ∃ t, e.adds msg = some t ∧ r = payload ++ t := by
  rw [Appends.row] at h
  split at h
  · split at h
    · split at h
      · cases h
      next t htext =>
        split at h
        · exact ⟨t, htext, (Except.ok.inj h).symm⟩
        · cases h
    · cases h
  · cases h

theorem added_eq {e : Appends} {msgs texts : List (List Byte)}
    (h : msgs.map e.adds = texts.map some) (last : ℕ) :
    e.added last msgs = texts.flatten.length + last := by
  induction msgs generalizing texts with
  | nil =>
    obtain rfl : texts = [] := List.map_eq_nil_iff.mp h.symm
    exact (Nat.zero_add _).symm
  | cons msg msgs ih =>
    obtain ⟨t, texts, rfl, hadds, hrest⟩ := List.map_eq_cons_iff.mp h.symm
    rw [Appends.added, ← hadds, List.flatten_cons, List.length_append, Nat.add_assoc,
      ← ih hrest.symm]

theorem mem_of_mem_reached {e : Appends} {msg : List Byte} {msgs : List (List Byte)}
    (h : msg ∈ e.reached msgs) : msg ∈ msgs := by
  induction msgs with
  | nil => exact h
  | cons first msgs ih =>
    rw [Appends.reached] at h
    split at h
    · rw [List.mem_singleton.mp h]
      exact List.mem_cons_self
    · obtain rfl | h := List.mem_cons.mp h
      · exact List.mem_cons_self
      · exact List.mem_cons_of_mem _ (ih h)

/-! ## The reports of the DeviceInfo suvlet -/

/-- Of each line that the loop of the table gets to, the second to the fifth word fit `blocks`,
    `used`, `available` and `percentused`; all that is put together fits `payload`. -/
def TableFits (output : List Byte) : Prop :=
  (∀ msg ∈ tableAppends.reached (msgsOf output),
    ∀ word ∈ ((words msg).drop 1).take 4, word.length < 30) ∧
  tableHeader.length + tableAppends.added tableFooter.length (msgsOf output) < xmlSize

/-- Of each line that the loop of the percentages gets to, the fifth word fits `percentused`; all
    that is put together fits `payload`. -/
def PercentagesFit (output : List Byte) : Prop :=
  (∀ msg ∈ percentagesAppends.reached (msgsOf output),
    ∀ word ∈ ((words msg).drop 4).take 1, word.length < 10) ∧
  percentagesAppends.added 0 (msgsOf output) < xmlSize

theorem length_word_of_msg {output msg word : List Byte} (hmsg : msg ∈ msgsOf output)
    (hword : word ∈ words msg) : word.length < 100 :=
  Nat.lt_of_le_of_lt (length_word_le hword) (length_msg hmsg)

/-- `filesystem` and `mount` are large enough. -/
theorem wordsFit_table {ws : List (List Byte)} (h : ∀ word ∈ ws, word.length < 100) :
    WordsFit [200, 30, 30, 30, 30, 200] ws ↔ ∀ word ∈ (ws.drop 1).take 4, word.length < 30 := by
  have hall : ∀ word ∈ ws, word.length < 200 := fun word hword => by
    have := h word hword
    omega
  match ws with
  | [] | [_] | [_, _] | [_, _, _] | [_, _, _, _] | [_, _, _, _, _] =>
    simp_all [WordsFit]
  | _ :: _ :: _ :: _ :: _ :: _ :: _ => simp_all [WordsFit]

/-- So is `mount`. -/
theorem wordsFit_percentages {ws : List (List Byte)} (h : ∀ word ∈ ws, word.length < 100) :
    WordsFit [10, 100] ws ↔ ∀ word ∈ ws.take 1, word.length < 10 := by
  match ws with
  | [] | [_] => simp_all [WordsFit]
  | _ :: _ :: _ => simp_all [WordsFit]

theorem strcats_header :
    strcats [] [chars "<?xml version='1.0' ?>\n", chars "<Disks>\n"] = .ok tableHeader := by
  rw [strcats_eq _ (by decide), if_pos (by decide)]
  rfl

theorem strcat_safe_iff (text payload : List Byte) :
    Safe (strcat payload text) ↔ payload.length + text.length < xmlSize := by
  rw [strcat]
  split
  · exact iff_of_true (safe_ok _) ‹_›
  · exact iff_of_false (not_safe_fault _) ‹_›

theorem diskSpaceTable_returns_iff (output : List Byte) :
    (∃ text, diskSpaceTable (some output) = .ok text) ↔ TableFits output := by
  rw [diskSpaceTable, returned_iff, strcats_header, ok_bind, overLines_eq,
    row_fold_safe_iff (fun payload msg _ => tableRow_eq payload msg)
      (fun payload _ => strcat_safe_iff tableFooter payload) _ (by decide), TableFits]
  refine and_congr_left fun _ => forall₂_congr fun msg hmsg => ?_
  exact wordsFit_table fun word hword => length_word_of_msg (mem_of_mem_reached hmsg) hword

theorem diskSpacePercentages_returns_iff (output : List Byte) :
    (∃ text, diskSpacePercentages (some output) = .ok text) ↔ PercentagesFit output := by
  have hpure : ∀ payload : List Byte, payload.length < xmlSize →
      (Safe (pure payload : Except Leave (List Byte)) ↔ payload.length + 0 < xmlSize) :=
    fun payload h => iff_of_true (safe_ok payload) h
  have hfold := row_fold_safe_iff (fun payload msg h => percentagesRow_eq h msg) hpure
    (msgsOf output) (show ([] : List Byte).length < xmlSize by decide)
  rw [bind_pure, List.length_nil, zero_add] at hfold
  rw [diskSpacePercentages, returned_iff, overLines_eq, hfold, PercentagesFit]
  refine and_congr_left fun _ => forall₂_congr fun msg hmsg => ?_
  refine wordsFit_percentages fun word hword => ?_
  exact length_word_of_msg (mem_of_mem_reached hmsg) (List.mem_of_mem_drop hword)

/-! ## The reports of the Software suvlet -/

theorem fetchPackageList_returns_iff (file : List Byte) :
    (∃ r, Software.fetchPackageList (some file) = .ok r) ↔
      (Software.shown Software.bufSize file).length < Software.xmlSize := by
  have hread := Software.readAll_eq (show 2 ≤ Software.bufSize by decide) file
    (show ([] : List Byte).length < Software.xmlSize by decide)
  rw [List.length_nil, zero_add] at hread
  rw [Software.fetchPackageList, hread]
  split
  · exact iff_of_true ⟨_, rfl⟩ ‹_›
  · refine iff_of_false ?_ ‹_›
    rintro ⟨r, h⟩
    cases h

/-- What the earlier requests left in `payload` takes room too. -/
theorem installPKG_returns_iff {history : List Software.Request} {payload : List Byte}
    (h : Software.serve [] history = .ok payload) (name : CStr) (output : List Byte) :
    (∃ r, Software.installPKG (some name) (some output) payload = .ok r) ↔
      22 + name.val.length < 200 ∧
        payload.length + (Software.shown 2000 output).length < Software.xmlSize := by
  have hpayload := (Software.leftEmpty_iff history Software.stored_nil h).1.fits
  have hrun := Software.runWrapper_eq (.install (some name)) output hpayload
  rw [show Software.Command.lineSize (.install (some name)) = 2000 from rfl] at hrun
  obtain ⟨hcall, name', heq, hname⟩ | ⟨hcall, hnot⟩ :=
    Software.call_cases (.install (some name)) (some output) payload
  · obtain rfl := Option.some.inj heq
    rw [Software.Command.call] at hcall
    rw [hcall, show Software.Command.lineSize (.install (some name)) = 2000 from rfl, hrun]
    split
    · exact iff_of_true ⟨_, rfl⟩ ⟨hname, ‹_›⟩
    · refine iff_of_false ?_ fun hfits => absurd hfits.2 ‹_›
      rintro ⟨r, h⟩
      cases h
  · rw [Software.Command.call] at hcall
    rw [hcall]
    refine iff_of_false ?_ fun hfits => hnot ⟨name, rfl, hfits.1⟩
    rintro ⟨r, h⟩
    cases h

/-! ## The four reports -/

/-- The reports do not run over a buffer exactly where all that is appended fits `payload`, and the
    words of `df` that are stored fit their arrays. -/
theorem reports_fit_iff {history : List Software.Request} {payload : List Byte}
    (h : Software.serve [] history = .ok payload) (disks packages : List Byte) (name : CStr)
    (output : List Byte) :
    ((∃ text, diskSpaceTable (some disks) = .ok text) ↔ TableFits disks) ∧
    ((∃ text, diskSpacePercentages (some disks) = .ok text) ↔ PercentagesFit disks) ∧
    ((∃ r, Software.fetchPackageList (some packages) = .ok r) ↔
      (Software.shown Software.bufSize packages).length < Software.xmlSize) ∧
    ((∃ r, Software.installPKG (some name) (some output) payload = .ok r) ↔
      22 + name.val.length < 200 ∧
        payload.length + (Software.shown 2000 output).length < Software.xmlSize) :=
  ⟨diskSpaceTable_returns_iff disks, diskSpacePercentages_returns_iff disks,
    fetchPackageList_returns_iff packages, installPKG_returns_iff h name output⟩

/-- A partition, as `df` has it. -/
def partition : List Byte := chars "/dev/sda1 20511356 9420132 10049320 49% /mnt/data"

/-- Two partitions, a list of one package, and a package installed behind another reply. -/
theorem reports_fit_two :
    (∃ text, diskSpaceTable (some (fileOf [partition, partition] [])) = .ok text) ∧
    (∃ text, diskSpacePercentages (some (fileOf [partition, partition] [])) = .ok text) ∧
    (∃ r, Software.fetchPackageList (some (chars "<package>games</package>\n")) = .ok r) ∧
    ∃ r, Software.installPKG (some ⟨chars "games.rpm", by decide⟩) (some (chars "done\n"))
      (chars "error\n") = .ok r := by
  have hserve : Software.serve [] [.wrapper .reset (some (chars "error\n"))] =
      .ok (chars "error\n") := by decide +kernel
  obtain ⟨htable, hpercentages, hlist, hinstall⟩ := reports_fit_iff hserve
    (fileOf [partition, partition] []) (chars "<package>games</package>\n")
    ⟨chars "games.rpm", by decide⟩ (chars "done\n")
  exact ⟨htable.mpr ⟨by decide +kernel, by decide +kernel⟩,
    hpercentages.mpr ⟨by decide +kernel, by decide +kernel⟩,
    hlist.mpr (by decide +kernel), hinstall.mpr ⟨by decide, by decide +kernel⟩⟩

/-- The table of thirty partitions is longer than `payload`. -/
theorem reports_overrun :
    ¬ ((∀ output, ∃ text, diskSpaceTable (some output) = .ok text) ∧
      (∀ output, ∃ text, diskSpacePercentages (some output) = .ok text) ∧
      (∀ file, ∃ r, Software.fetchPackageList (some file) = .ok r) ∧
      ∀ (history : List Software.Request) (payload : List Byte),
        Software.serve [] history = .ok payload → ∀ (name : CStr) (output : List Byte),
          22 + name.val.length < 200 →
            ∃ r, Software.installPKG (some name) (some output) payload = .ok r) := by
  rintro ⟨htable, -⟩
  obtain ⟨-, hroom⟩ :=
    (diskSpaceTable_returns_iff _).mp (htable (fileOf (List.replicate 30 partition) []))
  have hrow : tableRow [] (partition ++ [10]) = .ok (chars ("<Disk>\n<Filesystem>/dev/sda1" ++
      "</Filesystem>\n<Blocks>20511356</Blocks>\n<Used>9420132</Used>\n<Available>10049320" ++
      "</Available>\n<Use>49%</Use>\n<Mounted_on>/mnt/data</Mounted_on>\n</Disk>\n")) := by
    decide +kernel
  rw [tableRow_eq] at hrow
  obtain ⟨t, hadds, ht⟩ := row_ok hrow
  have hlen : t.length = 179 := by
    rw [List.nil_append] at ht
    rw [← ht]
    decide +kernel
  have hmsgs : msgsOf (fileOf (List.replicate 30 partition) []) =
      List.replicate 30 (partition ++ [10]) := by
    rw [msgsOf_fileOf, List.map_replicate]
    intro line hline
    rw [(List.mem_replicate.mp hline).2]
    decide
  have htexts : (List.replicate 30 (partition ++ [10])).map tableAppends.adds =
      (List.replicate 30 t).map some := by
    rw [List.map_replicate, List.map_replicate, hadds]
  have hadded := added_eq htexts tableFooter.length
  rw [hmsgs, hadded, List.length_flatten, List.map_replicate, List.sum_replicate, hlen] at hroom
  exact absurd hroom (by decide)

end CompatSuva.DeviceInfo
