import CompatSuva.Common.Inodes
import CompatSuva.Software.Payload
import CompatSuva.Software.Written

/-!
# Sessions of the Software suvlet

The requests of a client are answered by the same process (`Software.c` lines 30–252). They share
`payload`, the two files `packages.xml` and `packages.xml.new`, and the table of descriptors, and a
call that returns early leaves its streams open. `exit` writes what such streams still have.

* `session_refines`: the replies of any session are those of a catalogue that has a document and
  replaces it as a whole;
* `exit_intact_iff`: when the document survives the exit of the suvlet;
* `failed_call_overwrites`: a call that has failed writes over the document of a later one;
* `exhausted`: descriptors are missing for good, and without any the suvlet refuses all.
-/

namespace CompatSuva.Software.Sessions

open CompatSuva.Common CompatSuva.Scl

/-! ## Model -/

/-- The files in the suvlet's directory. -/
inductive FileName where
  | packagesXml
  | packagesXmlNew
  deriving DecidableEq, Repr

/-- The files, the array, and the streams that calls have left open with text. -/
structure Suvlet where
  files : Inodes FileName
  payload : List Byte
  unclosed : List Pending

/-- What is returned. -/
inductive Reply where
  | text (s : List Byte)
  | code (n : ℤ)
  deriving DecidableEq, Repr

/-- A call, with what the system gives: whether `fopen` succeeds; how many bytes of a stream that is
    left open have been written by then; what the wrapper outputs, if it runs. -/
inductive Call where
  | fetchPackageList (fopen : Bool)
  | createPackageList (devicetype : ℤ) (env : Env) (flushed : ℕ)
  | installRPM
  | wrapper (c : Command) (output : Option (List Byte))

/-- Undefined behaviour; or a file is opened that is not there, which does not happen. -/
inductive Stop where
  | halt (h : Halt)
  | list (f : ListFault)
  | noFile
  deriving DecidableEq, Repr

/-- The files after `Software_CreatePackageList`. The old `packages.xml.new` is emptied, if there is
    one. It gets its new name when all is written and the stream is closed. -/
def Suvlet.created (s : Suvlet) (devicetype : ℤ) (env : Env) (flushed : ℕ) (o : Outcome) : Suvlet :=
  if env.fopen then
    let (i, files) := s.files.create .packagesXmlNew
    match o.file with
    | some text => { s with files := (files.put i text).rename .packagesXmlNew .packagesXml }
    | none =>
      let text := (written env devicetype).flatMap Part.text
      { s with
        files := files.put i (text.take flushed),
        unclosed := ⟨i, (text.take flushed).length, text.drop flushed⟩ :: s.unclosed }
  else s

/-- `popen` and `pclose`. -/
def wrapperUses (output : Option (List Byte)) : List Use :=
  if output.isSome then [.take, .take, .give, .give] else []

/-- The reply to a call, what is done with descriptors, and the suvlet afterwards. -/
def answer (s : Suvlet) : Call → Except Stop (Reply × List Use × Suvlet)
  | .fetchPackageList true =>
    match s.files.read .packagesXml with
    | none => .error .noFile
    | some file => do
      let (text, payload) ← (fetchPackageList (some file)).mapError .halt
      return (.text text, [.take], { s with payload := payload })
  | .fetchPackageList false => do
    let (text, payload) ← (fetchPackageList none).mapError .halt
    return (.text text, [], { s with payload := payload })
  | .createPackageList devicetype env flushed => do
    let o ← (createPackageList env devicetype).mapError .list
    return (.code o.ret, o.log.flatMap Event.uses, s.created devicetype env flushed o)
  | .installRPM => .ok (.text (chars "not implemented"), [], s)
  | .wrapper c output => do
    let (text, payload) ← (c.call output s.payload).mapError .halt
    return (.text text, wrapperUses output, { s with payload := payload })

/-- A call is answered. -/
def Serves (s : Suvlet) (c : Call) (r : Reply) (s' : Suvlet) : Prop :=
  ∃ us, answer s c = .ok (r, us, s')

/-- The same, with what is done with descriptors. -/
def ServesWith (s : Suvlet) (c : Call) (r : Reply) (us : List Use) (s' : Suvlet) : Prop :=
  answer s c = .ok (r, us, s')

/-- The files once the suvlet has exited: its streams have written what they had, in some order. -/
def Suvlet.exit (s : Suvlet) (order : List Pending) : Inodes FileName := s.files.flush order

/-! ## What it is for -/

/-- The document that is published; the array; and what is still to be written over the document and
    over the next one, each at an offset. -/
structure Catalogue where
  published : Option (List Byte)
  payload : List Byte
  spoilt : List (ℕ × List Byte)
  waiting : List (ℕ × List Byte)

/-- What a call that fails has not written yet. -/
def rest (devicetype : ℤ) (env : Env) (flushed : ℕ) : ℕ × List Byte :=
  let text := (written env devicetype).flatMap Part.text
  ((text.take flushed).length, text.drop flushed)

/-- A call that succeeds publishes its document; others do not touch the one that is published. -/
def Catalogue.created (k : Catalogue) (devicetype : ℤ) (env : Env) (flushed : ℕ) (o : Outcome) :
    Catalogue :=
  match o.file with
  | some doc => { k with published := some doc, spoilt := k.waiting, waiting := [] }
  | none =>
    if env.fopen then { k with waiting := rest devicetype env flushed :: k.waiting } else k

/-- The reply to a call; `none` where the behaviour is undefined. -/
def catalogue (k : Catalogue) : Call → Option (Reply × Catalogue)
  | .fetchPackageList true =>
    match k.published with
    | none => none
    | some doc =>
      if doc.length < xmlSize then some (.text doc, { k with payload := doc }) else none
  | .fetchPackageList false => some (.text (chars "error"), { k with payload := [] })
  | .createPackageList devicetype env flushed =>
    match createPackageList env devicetype with
    | .error _ => none
    | .ok o =>
      if (0 : Byte) ∈ env.thedate then none
      else some (.code o.ret, k.created devicetype env flushed o)
  | .installRPM => some (.text (chars "not implemented"), k)
  | .wrapper c output =>
    match c.call output k.payload with
    | .error _ => none
    | .ok (text, payload) => some (.text text, { k with payload := payload })

/-- The text of streams behind a name. -/
def Suvlet.behind (s : Suvlet) (name : FileName) : List (ℕ × List Byte) :=
  match s.files.names name with
  | none => []
  | some i => (s.unclosed.filter (·.inode = i)).map fun p => (p.pos, p.bytes)

/-- The suvlet has this catalogue. -/
structure Reflects (s : Suvlet) (k : Catalogue) : Prop where
  published : s.files.read .packagesXml = k.published
  noNul : ∀ doc, k.published = some doc → (0 : Byte) ∉ doc
  payload : s.payload = k.payload
  spoilt : s.behind .packagesXml = k.spoilt
  waiting : s.behind .packagesXmlNew = k.waiting
  below : ∀ p ∈ s.unclosed, p.inode < s.files.next

/-! ## A call that creates the list -/

variable {s s' : Suvlet} {k k' : Catalogue} {devicetype : ℤ} {env : Env} {flushed : ℕ}
  {o : Outcome} {calls : List Call} {replies : List Reply}

theorem xml_ne_new : FileName.packagesXml ≠ .packagesXmlNew := by decide

/-- The streams on the file that `fopen` gives are those behind its name. -/
theorem behind_create (hbelow : ∀ p ∈ s.unclosed, p.inode < s.files.next) :
    (s.unclosed.filter (·.inode = (s.files.create .packagesXmlNew).1)).map
      (fun p => (p.pos, p.bytes)) = s.behind .packagesXmlNew := by
  rw [Inodes.create_inode, Suvlet.behind]
  cases hname : s.files.names .packagesXmlNew with
  | some i => rfl
  | none =>
    rw [Option.getD_none]
    have hnone : s.unclosed.filter (·.inode = s.files.next) = [] := by
      rw [List.filter_eq_nil_iff]
      intro p hp
      have := hbelow p hp
      simp only [decide_eq_true_eq]
      omega
    rw [hnone, List.map_nil]

/-- A document is published. -/
theorem reflects_published (h : Reflects s k) (hfopen : env.fopen = true) {doc : List Byte}
    (hfile : o.file = some doc) (hdoc : (0 : Byte) ∉ doc) :
    Reflects (s.created devicetype env flushed o) (k.created devicetype env flushed o) := by
  have hnames := Inodes.names_create s.files .packagesXmlNew
  have hmoved := Inodes.names_rename (f := (s.files.create .packagesXmlNew).2.put
    (s.files.create .packagesXmlNew).1 doc) xml_ne_new.symm hnames
  rw [Suvlet.created, if_pos hfopen, hfile, Catalogue.created, hfile]
  refine ⟨?_, fun d hd => Option.some.inj hd ▸ hdoc, h.payload, ?_, ?_, fun p hp => ?_⟩
  · rw [Inodes.read, hmoved.1, Option.map_some, Inodes.data_rename, Inodes.data_put_self]
  · rw [← h.waiting, ← behind_create h.below]
    unfold Suvlet.behind
    rw [hmoved.1]
  · unfold Suvlet.behind
    rw [hmoved.2]
  · have := h.below p hp
    have hnext := (s.files.create_next .packagesXmlNew).1
    rw [Inodes.next_rename]
    exact Nat.lt_of_lt_of_le this hnext

/-- A stream is left open on the new file. -/
theorem reflects_left (h : Reflects s k) (hfopen : env.fopen = true) (hfile : o.file = none) :
    Reflects (s.created devicetype env flushed o) (k.created devicetype env flushed o) := by
  have hnames := Inodes.names_create s.files .packagesXmlNew
  have hxml := Inodes.names_create_ne (f := s.files) xml_ne_new
  rw [Suvlet.created, if_pos hfopen, hfile, Catalogue.created, hfile]
  simp only [if_pos hfopen]
  refine ⟨?_, h.noNul, h.payload, ?_, ?_, fun p hp => ?_⟩
  · rw [Inodes.read_put_create_ne xml_ne_new]
    exact h.published
  · rw [← h.spoilt]
    unfold Suvlet.behind
    dsimp only
    rw [Inodes.names_put, hxml]
    cases hi : s.files.names .packagesXml with
    | none => rfl
    | some i =>
      have hne : (s.files.create .packagesXmlNew).1 ≠ i :=
        (Inodes.create_other xml_ne_new hi).1.symm
      dsimp only
      rw [List.filter_cons_of_neg (by simpa using hne)]
  · rw [← h.waiting, ← behind_create h.below]
    unfold Suvlet.behind
    dsimp only
    rw [Inodes.names_put, hnames]
    dsimp only
    rw [List.filter_cons_of_pos (by simp)]
    rfl
  · have hnext := s.files.create_next .packagesXmlNew
    rcases List.mem_cons.mp hp with rfl | hold
    · exact hnext.2
    · exact Nat.lt_of_lt_of_le (h.below p hold) hnext.1

theorem reflects_created (h : Reflects s k) (hdate : (0 : Byte) ∉ env.thedate)
    (hcreate : createPackageList env devicetype = .ok o) :
    Reflects (s.created devicetype env flushed o) (k.created devicetype env flushed o) := by
  cases createPackageList_spec hcreate with
  | noStream hfopen =>
    rw [Suvlet.created, Catalogue.created, hfopen]
    exact h
  | left hfopen hheld => exact reflects_left h hfopen rfl
  | done hfopen hheld hfirst hnul =>
    exact reflects_published h hfopen rfl (noNul_file hcreate hdate rfl)

/-! ## Sessions -/

theorem mapError_ok {ε ε' α : Type} {f : ε → ε'} {m : Except ε α} {a : α} (h : m = .ok a) :
    m.mapError f = .ok a := by
  rw [h]
  rfl

/-- A document that fits is read as it is. -/
theorem fetchPackageList_eq {doc : List Byte} (hnul : (0 : Byte) ∉ doc)
    (hfits : doc.length < xmlSize) : fetchPackageList (some doc) = .ok (doc, doc) := by
  have hread := readAll_eq (show 2 ≤ bufSize by decide) doc
    (show ([] : List Byte).length < xmlSize by decide)
  rw [shown_eq (by decide) hnul, if_pos (by simpa using hfits)] at hread
  rw [fetchPackageList, hread]
  rfl

theorem serves_simulates : Simulates Serves catalogue Reflects := by
  intro s k c r k' h hspec
  cases c with
  | fetchPackageList fopen =>
    cases fopen with
    | true =>
      rw [catalogue] at hspec
      split at hspec
      · cases hspec
      next doc hdoc =>
        split at hspec
        swap
        · cases hspec
        next hfits =>
          obtain ⟨rfl, rfl⟩ := Prod.mk.inj (Option.some.inj hspec)
          have hfetch := fetchPackageList_eq (h.noNul doc hdoc) hfits
          refine ⟨{ s with payload := doc }, ⟨[.take], ?_⟩,
            ⟨h.published, h.noNul, rfl, h.spoilt, h.waiting, h.below⟩⟩
          rw [answer, h.published, hdoc]
          simp only [mapError_ok hfetch]
          rfl
    | false =>
      obtain ⟨rfl, rfl⟩ := Prod.mk.inj (Option.some.inj hspec)
      exact ⟨{ s with payload := [] }, ⟨[], rfl⟩,
        ⟨h.published, h.noNul, rfl, h.spoilt, h.waiting, h.below⟩⟩
  | createPackageList devicetype env flushed =>
    rw [catalogue] at hspec
    split at hspec
    · cases hspec
    next o hcreate =>
      split at hspec
      · cases hspec
      next hdate =>
        obtain ⟨rfl, rfl⟩ := Prod.mk.inj (Option.some.inj hspec)
        refine ⟨_, ⟨o.log.flatMap Event.uses, ?_⟩, reflects_created h hdate hcreate⟩
        rw [answer, mapError_ok hcreate]
        rfl
  | installRPM =>
    obtain ⟨rfl, rfl⟩ := Prod.mk.inj (Option.some.inj hspec)
    exact ⟨s, ⟨[], rfl⟩, h⟩
  | wrapper c output =>
    rw [catalogue] at hspec
    split at hspec
    · cases hspec
    next text payload hcall =>
      obtain ⟨rfl, rfl⟩ := Prod.mk.inj (Option.some.inj hspec)
      refine ⟨{ s with payload := payload }, ⟨wrapperUses output, ?_⟩,
        ⟨h.published, h.noNul, rfl, h.spoilt, h.waiting, h.below⟩⟩
      rw [answer, h.payload, mapError_ok hcall]
      rfl

theorem serves_deterministic : Deterministic Serves := by
  intro s c r r' s' s'' h h'
  obtain ⟨us, h⟩ := h
  obtain ⟨us', h'⟩ := h'
  have heq := Except.ok.inj (h.symm.trans h')
  simp only [Prod.mk.injEq] at heq
  exact ⟨heq.1, heq.2.2⟩

/-- A suvlet that has just been started. -/
theorem reflects_start {files : Inodes FileName} {payload : List Byte}
    (hnul : ∀ doc, files.read .packagesXml = some doc → (0 : Byte) ∉ doc) :
    Reflects ⟨files, payload, []⟩ ⟨files.read .packagesXml, payload, [], []⟩ := by
  refine ⟨rfl, hnul, rfl, ?_, ?_, fun p hp => absurd hp List.not_mem_nil⟩
  · unfold Suvlet.behind
    split
    · rfl
    · rfl
  · unfold Suvlet.behind
    split
    · rfl
    · rfl

theorem runs_reflect (h : Reflects s k) (hspec : specRun catalogue k calls = some (replies, k'))
    {replies' : List Reply} (hrun : Runs Serves s calls replies' s') :
    replies' = replies ∧ Reflects s' k' :=
  serves_simulates.of_runs serves_deterministic h hspec hrun

/-- Any calls, in any order, are answered as by the catalogue. -/
theorem session_refines (h : Reflects s k)
    (hspec : specRun catalogue k calls = some (replies, k')) :
    (∃ s', Runs Serves s calls replies s') ∧
      ∀ replies' s', Runs Serves s calls replies' s' → replies' = replies ∧ Reflects s' k' := by
  obtain ⟨s', hrun, -⟩ := serves_simulates.runs h hspec
  exact ⟨⟨s', hrun⟩, fun replies' s' hrun' => runs_reflect h hspec hrun'⟩

/-- A directory without the two files. -/
def noFiles : Inodes FileName where
  data := fun _ => []
  names := fun _ => none
  next := 0
  below := fun _ _ h => absurd h (Option.some_ne_none _).symm
  unique := fun _ _ _ h => absurd h (Option.some_ne_none _).symm

/-- A listing that does not run, and one without packages. -/
def noListing : Env := ⟨chars "Mon", true, none, fun _ => none, [], []⟩

def noPackages : Env := ⟨chars "Tue", true, some [], fun _ => none, [], []⟩

/-- A call that fails, one that succeeds, and one that reads the document. -/
def threeCalls : List Call :=
  [.createPackageList 1000 noListing 0, .createPackageList 1000 noPackages 0,
    .fetchPackageList true]

/-- The document without packages. -/
def emptyDocument : List Byte := [Part.header (chars "Tue"), .trailer].flatMap Part.text

theorem reflects_noFiles : Reflects ⟨noFiles, [], []⟩ ⟨none, [], [], []⟩ :=
  reflects_start fun _ h => absurd h (Option.some_ne_none _).symm

theorem threeCalls_catalogue : specRun catalogue ⟨none, [], [], []⟩ threeCalls =
    some ([.code (-1), .code 0, .text emptyDocument],
      ⟨some emptyDocument, emptyDocument, [(0, (Part.header (chars "Mon")).text)], []⟩) := by
  rfl

theorem session_refines_three : ∃ s', Runs Serves ⟨noFiles, [], []⟩ threeCalls
    [.code (-1), .code 0, .text emptyDocument] s' :=
  (session_refines reflects_noFiles threeCalls_catalogue).1

/-! ## Exit -/

/-- The document survives the exit of the suvlet, in whatever order the streams are written, exactly
    if it has all the text that is still to be written over it. -/
theorem exit_intact_iff (h : Reflects s k)
    (hspec : specRun catalogue k calls = some (replies, k')) {replies' : List Reply}
    (hrun : Runs Serves s calls replies' s') {doc : List Byte} (hdoc : k'.published = some doc) :
    (∀ order : List Pending, order.Perm s'.unclosed →
        (s'.exit order).read .packagesXml = some doc) ↔
      ∀ text ∈ k'.spoilt, HasAt doc text.1 text.2 := by
  obtain ⟨-, h'⟩ := runs_reflect h hspec hrun
  have hread := h'.published.trans hdoc
  obtain ⟨i, hi, hdata⟩ := Option.map_eq_some_iff.mp hread
  have hsame (order : List Pending) : (s'.exit order).read .packagesXml = some doc ↔
      (s'.files.flush order).data i = s'.files.data i := by
    rw [Suvlet.exit, Inodes.read, Inodes.names_flush, hi, Option.map_some, hdata]
    exact ⟨Option.some.inj, congrArg some⟩
  simp only [hsame, Inodes.flush_data_iff, ← h'.spoilt, Suvlet.behind, hi, List.mem_map,
    List.mem_filter, decide_eq_true_eq]
  rw [← hdata]
  constructor
  · rintro hall _ ⟨p, ⟨hp, hinode⟩, rfl⟩
    exact hall p hp hinode
  · intro hall p hp hinode
    exact hall _ ⟨p, ⟨hp, hinode⟩, rfl⟩

theorem mon_ne_tue : ¬ HasAt emptyDocument 0 (Part.header (chars "Mon")).text := by decide

theorem exit_intact_iff_three : ∃ s' order, Runs Serves ⟨noFiles, [], []⟩ threeCalls
    [.code (-1), .code 0, .text emptyDocument] s' ∧ order.Perm s'.unclosed ∧
      (s'.exit order).read .packagesXml ≠ some emptyDocument := by
  obtain ⟨s', hrun, -⟩ := serves_simulates.runs reflects_noFiles threeCalls_catalogue
  by_contra hall
  refine mon_ne_tue ((exit_intact_iff reflects_noFiles threeCalls_catalogue hrun rfl).mp
    (fun order hperm => ?_) _ List.mem_cons_self)
  by_contra hne
  exact hall ⟨s', order, hrun, hperm, hne⟩

/-! ## A call that has failed -/

/-- The call puts a document in the place of the one before. -/
def Publishes : Call → Prop
  | .createPackageList devicetype env _ =>
    ∃ o doc, createPackageList env devicetype = .ok o ∧ o.file = some doc
  | _ => False

/-- A call that does not publish keeps the document, and text that is still to be written. -/
theorem catalogue_keeps {c : Call} {r : Reply} (hc : ¬ Publishes c)
    (h : catalogue k c = some (r, k')) :
    k'.published = k.published ∧ k'.spoilt = k.spoilt ∧ ∀ text ∈ k.waiting, text ∈ k'.waiting := by
  cases c with
  | fetchPackageList fopen =>
    cases fopen with
    | true =>
      rw [catalogue] at h
      split at h
      · cases h
      split at h
      · obtain ⟨rfl, rfl⟩ := Prod.mk.inj (Option.some.inj h)
        exact ⟨rfl, rfl, fun text htext => htext⟩
      · cases h
    | false =>
      obtain ⟨rfl, rfl⟩ := Prod.mk.inj (Option.some.inj h)
      exact ⟨rfl, rfl, fun text htext => htext⟩
  | createPackageList devicetype env flushed =>
    rw [catalogue] at h
    split at h
    · cases h
    next o hcreate =>
      split at h
      · cases h
      obtain ⟨rfl, rfl⟩ := Prod.mk.inj (Option.some.inj h)
      cases hfile : o.file with
      | some doc => exact absurd ⟨o, doc, hcreate, hfile⟩ hc
      | none =>
        rw [Catalogue.created, hfile]
        cases hfopen : env.fopen with
        | false => exact ⟨rfl, rfl, fun text htext => htext⟩
        | true => exact ⟨rfl, rfl, fun text htext => List.mem_cons_of_mem _ htext⟩
  | installRPM =>
    obtain ⟨rfl, rfl⟩ := Prod.mk.inj (Option.some.inj h)
    exact ⟨rfl, rfl, fun text htext => htext⟩
  | wrapper c output =>
    rw [catalogue] at h
    split at h
    · cases h
    · obtain ⟨rfl, rfl⟩ := Prod.mk.inj (Option.some.inj h)
      exact ⟨rfl, rfl, fun text htext => htext⟩

/-- Up to a character that is in neither, two texts agree. -/
theorem sep_prefix_eq {x y u v : List Byte} {c : Byte} (hx : c ∉ x) (hy : c ∉ y)
    (h : x ++ c :: u <+: y ++ c :: v) : x = y := by
  obtain ⟨w, hw⟩ := h
  have htake {z t : List Byte} (hz : c ∉ z) : (z ++ c :: t).takeWhile (· ≠ c) = z := by
    rw [List.takeWhile_append_of_pos fun b hb => by simpa using fun hbc : b = c => hz (hbc ▸ hb)]
    simp
  calc x = (x ++ c :: (u ++ w)).takeWhile (· ≠ c) := (htake hx).symm
    _ = (y ++ c :: v).takeWhile (· ≠ c) := by rw [← hw, List.append_assoc, List.cons_append]
    _ = y := htake hy

/-- A document does not begin with the text of a call that had another date. -/
theorem not_hasAt_header {thedate thedate' : List Byte} (hne : thedate ≠ thedate')
    (h : (60 : Byte) ∉ thedate) (h' : (60 : Byte) ∉ thedate') {parts parts' : List Part} :
    ¬ HasAt ((Part.header thedate' :: parts').flatMap Part.text) 0
      ((Part.header thedate :: parts).flatMap Part.text) := by
  intro hat
  have hbegins : (Part.header thedate :: parts).flatMap Part.text <+:
      (Part.header thedate' :: parts').flatMap Part.text := by
    rw [HasAt, List.drop_zero] at hat
    rw [← hat]
    exact List.take_prefix _ _
  have hheader (d : List Byte) (ps : List Part) :
      ∃ rest, (Part.header d :: ps).flatMap Part.text =
        (chars "<?xml version='1.0' ?>\n" ++ chars "<Software>\n" ++ chars " <Date>") ++
          (d ++ 60 :: rest) := by
    refine ⟨chars "/Date>\n" ++ chars " <Packages>\n" ++ ps.flatMap Part.text, ?_⟩
    rw [List.flatMap_cons, Part.text]
    simp only [List.append_assoc]
    rfl
  obtain ⟨rest, hrest⟩ := hheader thedate parts
  obtain ⟨rest', hrest'⟩ := hheader thedate' parts'
  rw [hrest, hrest', List.prefix_append_right_inj] at hbegins
  exact hne (sep_prefix_eq h h' hbegins)

/-- A call that fails leaves a stream open whose text goes over the document of a later call, when
    the suvlet exits. -/
theorem failed_call_overwrites (h : Reflects s k) {before between after : List Call} {d₁ d₂ : ℤ}
    {env₁ env₂ : Env} {n : ℕ}
    (hspec : specRun catalogue k (before ++ .createPackageList d₁ env₁ 0 ::
      (between ++ .createPackageList d₂ env₂ n :: after)) = some (replies, k'))
    {replies' : List Reply} (hrun : Runs Serves s (before ++ .createPackageList d₁ env₁ 0 ::
      (between ++ .createPackageList d₂ env₂ n :: after)) replies' s')
    (hfopen : env₁.fopen = true) (hfailed : ¬ Publishes (.createPackageList d₁ env₁ 0))
    (hbetween : ∀ c ∈ between, ¬ Publishes c) (hdone : Publishes (.createPackageList d₂ env₂ n))
    (hafter : ∀ c ∈ after, ¬ Publishes c) (hdates : env₁.thedate ≠ env₂.thedate)
    (h₁ : (60 : Byte) ∉ env₁.thedate) (h₂ : (60 : Byte) ∉ env₂.thedate) :
    ∃ order : List Pending, order.Perm s'.unclosed ∧
      (s'.exit order).read .packagesXml ≠ s'.files.read .packagesXml := by
  obtain ⟨k₁, _, _, -, hrest⟩ := specRun_append hspec
  obtain ⟨_, k₂, _, hfail, hrest, -⟩ := specRun_cons.mp hrest
  obtain ⟨k₃, _, _, hkept, hrest⟩ := specRun_append hrest
  obtain ⟨_, k₄, _, hsuccess, hlast, -⟩ := specRun_cons.mp hrest
  have hwaiting : rest d₁ env₁ 0 ∈ k₂.waiting := by
    rw [catalogue] at hfail
    split at hfail
    · cases hfail
    next o hcreate =>
      split at hfail
      · cases hfail
      obtain ⟨-, rfl⟩ := Prod.mk.inj (Option.some.inj hfail)
      cases hfile : o.file with
      | some doc => exact absurd ⟨o, doc, hcreate, hfile⟩ hfailed
      | none =>
        rw [Catalogue.created, hfile]
        simp only [if_pos hfopen]
        exact List.mem_cons_self
  have hwaiting₃ : rest d₁ env₁ 0 ∈ k₃.waiting :=
    specRun_keeps (P := fun k => rest d₁ env₁ 0 ∈ k.waiting)
      (fun _ c _ _ hc hstep => (catalogue_keeps (hbetween c hc) hstep).2.2 _) hkept hwaiting
  have hpublished : rest d₁ env₁ 0 ∈ k₄.spoilt ∧
      ∃ parts, k₄.published = some ((Part.header env₂.thedate :: parts).flatMap Part.text) := by
    obtain ⟨o, doc, hcreate, hfile⟩ := hdone
    rw [catalogue, hcreate] at hsuccess
    dsimp only at hsuccess
    split at hsuccess
    · cases hsuccess
    obtain ⟨-, rfl⟩ := Prod.mk.inj (Option.some.inj hsuccess)
    rw [Catalogue.created, hfile]
    refine ⟨hwaiting₃, ?_⟩
    cases createPackageList_spec hcreate with
    | noStream hfopen => cases hfile
    | left hfopen hheld => cases hfile
    | done hfopen hheld hfirst hnul =>
      obtain ⟨parts, hparts⟩ := written_eq env₂ d₂
      refine ⟨parts ++ [.trailer], ?_⟩
      rw [← hfile, Outcome.file, hparts]
      rfl
  obtain ⟨hspoilt, parts, hdoc⟩ := hpublished
  have hkept' : k'.published = k₄.published ∧ rest d₁ env₁ 0 ∈ k'.spoilt :=
    specRun_keeps (P := fun k => k.published = k₄.published ∧ rest d₁ env₁ 0 ∈ k.spoilt)
      (fun _ c _ _ hc hstep hk => by
        obtain ⟨hpub, hspoilt, -⟩ := catalogue_keeps (hafter c hc) hstep
        rw [hpub, hspoilt]
        exact hk) hlast ⟨rfl, hspoilt⟩
  have hread := (runs_reflect h hspec hrun).2.published
  rw [hkept'.1, hdoc] at hread
  by_contra hall
  have hintact := (exit_intact_iff h hspec hrun (hkept'.1.trans hdoc)).mp fun order hperm => by
    by_contra hne
    exact hall ⟨order, hperm, hread ▸ hne⟩
  obtain ⟨parts₁, hparts₁⟩ := written_eq env₁ d₁
  have hat := hintact _ hkept'.2
  rw [rest, hparts₁] at hat
  exact not_hasAt_header hdates h₁ h₂ hat

theorem failed_call_overwrites_three : ∃ s' order, Runs Serves ⟨noFiles, [], []⟩ threeCalls
    [.code (-1), .code 0, .text emptyDocument] s' ∧ order.Perm s'.unclosed ∧
      (s'.exit order).read .packagesXml ≠ s'.files.read .packagesXml := by
  obtain ⟨s', hrun, -⟩ := serves_simulates.runs reflects_noFiles threeCalls_catalogue
  have hfailed : ¬ Publishes (.createPackageList 1000 noListing 0) := by
    rintro ⟨o, doc, hcreate, hfile⟩
    cases hcreate
    cases hfile
  have hfetch : ∀ c ∈ [Call.fetchPackageList true], ¬ Publishes c := by
    intro c hc
    rw [List.mem_singleton.mp hc]
    exact id
  obtain ⟨order, hperm, hne⟩ := @failed_call_overwrites _ s' _ _ _ reflects_noFiles [] []
    [.fetchPackageList true] 1000 1000 noListing noPackages 0 threeCalls_catalogue _ hrun rfl
    hfailed (fun c hc => absurd hc List.not_mem_nil) ⟨_, _, rfl, rfl⟩ hfetch (by decide) (by decide)
    (by decide)
  exact ⟨s', order, hrun, hperm, hne⟩

/-! ## Descriptors -/

/-- The descriptors that a call takes and does not give back: `Software_FetchPackageList` does not
    close its stream, and `Software_CreatePackageList` closes none when it fails. -/
def keeps : Call → ℕ
  | .fetchPackageList fopen => if fopen then 1 else 0
  | .createPackageList devicetype env _ =>
    match createPackageList env devicetype with
    | .error _ => 0
    | .ok o =>
      if env.fopen = false ∨ o.ret = 0 then 0 else if env.listing = none then 1 else 3
  | .installRPM => 0
  | .wrapper _ _ => 0

/-- The replies that say that nothing was done. -/
def Refused (c : Call) (r : Reply) : Prop :=
  match c with
  | .fetchPackageList _ => r = .text (chars "error")
  | .createPackageList _ _ _ => r = .code (-1)
  | .installRPM => r = .text (chars "not implemented")
  | .wrapper _ _ => r = .text (chars "error: wrapper did not run")

theorem mapError_eq_ok {ε ε' α : Type} {f : ε → ε'} {m : Except ε α} {a : α}
    (h : m.mapError f = .ok a) : m = .ok a := by
  cases m with
  | error e => cases h
  | ok b =>
    obtain rfl := Except.ok.inj h
    rfl

/-- What an answered call does. -/
inductive Answered (s : Suvlet) : Call → Reply → List Use → Suvlet → Prop
  | fetched (payload : List Byte) :
      Answered s (.fetchPackageList true) (.text payload) [.take] { s with payload := payload }
  | noList :
      Answered s (.fetchPackageList false) (.text (chars "error")) [] { s with payload := [] }
  | created {devicetype : ℤ} {env : Env} {flushed : ℕ} {o : Outcome}
      (hcreate : createPackageList env devicetype = .ok o) :
      Answered s (.createPackageList devicetype env flushed) (.code o.ret)
        (o.log.flatMap Event.uses) (s.created devicetype env flushed o)
  | notImplemented : Answered s .installRPM (.text (chars "not implemented")) [] s
  | wrapped {c : Command} {output : Option (List Byte)} {text payload : List Byte}
      (hcall : c.call output s.payload = .ok (text, payload)) :
      Answered s (.wrapper c output) (.text text) (wrapperUses output) { s with payload := payload }

theorem answered {c : Call} {r : Reply} {us : List Use} (h : ServesWith s c r us s') :
    Answered s c r us s' := by
  unfold ServesWith at h
  cases c with
  | fetchPackageList fopen =>
    cases fopen with
    | true =>
      rw [answer] at h
      split at h
      · cases h
      next file hfile =>
        obtain ⟨⟨text, payload⟩, hfetch, h⟩ := bind_eq_ok.mp h
        obtain ⟨payload', -, hsame⟩ := bind_eq_ok.mp (mapError_eq_ok hfetch)
        obtain ⟨rfl, rfl⟩ := Prod.mk.inj (Except.ok.inj hsame)
        cases h
        exact .fetched _
    | false =>
      obtain ⟨⟨text, payload⟩, hfetch, h⟩ := bind_eq_ok.mp h
      obtain ⟨rfl, rfl⟩ := Prod.mk.inj (Except.ok.inj hfetch)
      cases h
      exact .noList
  | createPackageList devicetype env flushed =>
    obtain ⟨o, hcreate, h⟩ := bind_eq_ok.mp h
    cases h
    exact .created (mapError_eq_ok hcreate)
  | installRPM =>
    cases h
    exact .notImplemented
  | wrapper c output =>
    obtain ⟨⟨text, payload⟩, hcall, h⟩ := bind_eq_ok.mp h
    cases h
    exact .wrapped (mapError_eq_ok hcall)

theorem serves_keeps : Costs ServesWith fun c _ => keeps c := by
  intro s c r us s' h
  cases answered h with
  | fetched payload => rfl
  | noList => rfl
  | notImplemented => rfl
  | @created devicetype env flushed o hcreate =>
    simp only [keeps, hcreate]
    cases createPackageList_spec hcreate with
    | noStream hfopen =>
      rw [if_pos (.inl hfopen)]
      rfl
    | left hfopen hheld =>
      rw [if_neg (by simp [hfopen])]
      exact hheld
    | done hfopen hheld hfirst hnul =>
      rw [if_pos (.inr rfl)]
      exact hheld
  | @wrapped c output text payload hcall =>
    cases output with
    | none => rfl
    | some output => rfl

theorem runWrapper_none {size : ℕ} {payload text payload' : List Byte}
    (h : runWrapper size none payload = .ok (text, payload')) :
    text = chars "error: wrapper did not run" := (Prod.mk.inj (Except.ok.inj h)).1.symm

theorem call_none {c : Command} {payload text payload' : List Byte}
    (h : c.call none payload = .ok (text, payload')) :
    text = chars "error: wrapper did not run" := by
  cases c with
  | install filename =>
    obtain ⟨-, -, h⟩ := bind_eq_ok.mp h
    exact runWrapper_none h
  | unInstall filename =>
    obtain ⟨-, -, h⟩ := bind_eq_ok.mp h
    exact runWrapper_none h
  | reset => exact @runWrapper_none 200 payload text payload' h

/-- Without a descriptor nothing is opened. -/
theorem serves_refused : Refuses ServesWith 0 Refused := by
  rintro ⟨free, s⟩ c r ⟨free', s'⟩ hfree ⟨us, h, hafter⟩
  obtain rfl : free = 0 := Nat.le_zero.mp hfree
  have hstart (u : List Use) (heq : us = .take :: u) : False := by
    rw [heq] at hafter
    cases hafter
  cases answered h with
  | fetched payload => exact (hstart _ rfl).elim
  | noList => rfl
  | notImplemented => rfl
  | @created devicetype env flushed o hcreate =>
    cases createPackageList_spec hcreate with
    | noStream hfopen => rfl
    | left hfopen hheld => rfl
    | @done log hfopen hheld hfirst hnul =>
      cases log with
      | nil => cases hfirst
      | cons e log =>
        obtain rfl := Option.some.inj hfirst
        exact (hstart _ rfl).elim
  | @wrapped c output text payload hcall =>
    cases output with
    | none => exact congrArg Reply.text (call_none hcall)
    | some output => exact (hstart _ rfl).elim

/-- What calls keep is missing in the table, and when it is all that was free, the suvlet refuses
    every later call. -/
theorem exhausted {free free' : ℕ} {before after : List Call}
    (hrun : Runs (WithTable ServesWith) (free, s) (before ++ after) replies (free', s')) :
    free' + ((before ++ after).map keeps).sum = free ∧
      ((before.map keeps).sum = free →
        List.Forall₂ Refused after (replies.drop before.length)) := by
  refine ⟨serves_keeps.runs_map hrun, fun hall => ?_⟩
  obtain ⟨t, rs, rs', rfl, hlength, hbefore, hrest⟩ := hrun.split
  have := serves_keeps.runs_map hbefore
  rw [← hlength, List.drop_left]
  exact serves_keeps.refused serves_refused (by omega) hrest

/-- One descriptor, and a call that keeps it. -/
theorem exhausted_one : ∃ s', Runs (WithTable ServesWith) (1, ⟨noFiles, [], []⟩)
    [.createPackageList 1000 noListing 0, .fetchPackageList false]
    [.code (-1), .text (chars "error")] (0, s') ∧
      List.Forall₂ Refused [.fetchPackageList false] [.text (chars "error")] := by
  let s₁ := (⟨noFiles, [], []⟩ : Suvlet).created 1000 noListing 0 ⟨-1, none, [.opened .xml]⟩
  have hfirst : WithTable ServesWith (1, ⟨noFiles, [], []⟩) (.createPackageList 1000 noListing 0)
      (.code (-1)) (0, s₁) := ⟨[.take], rfl, rfl⟩
  have hsecond : WithTable ServesWith (0, s₁) (.fetchPackageList false) (.text (chars "error"))
      (0, { s₁ with payload := [] }) := ⟨[], rfl, rfl⟩
  have hrun := Runs.cons hfirst (.cons hsecond .nil)
  exact ⟨_, hrun, (@exhausted _ _ _ 1 0 [.createPackageList 1000 noListing 0]
    [.fetchPackageList false] hrun).2 rfl⟩

end CompatSuva.Software.Sessions
