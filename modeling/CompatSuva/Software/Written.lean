import CompatSuva.Common.Descriptors
import CompatSuva.Software.PackageList

/-!
# What is written to `packages.xml.new`

`Software_CreatePackageList` writes as it goes, to a stream that is only closed at the end
(`Software.c` lines 67–72, 85–92, 166–180). When the function is left before, what it has written so
far is in the stream, and the streams stay open.

* `createPackageList_spec`: the document is what was written with the end added, and all descriptors
  are given back; or the function returns -1 and keeps some;
* `noNul_file`: the document is a string.
-/

namespace CompatSuva.Software

open CompatSuva.Common CompatSuva.Scl

/-! ## Model -/

variable {ε σ : Type}

/-- The state when a loop of `fgets` ends or is left. -/
def pieceState (size : ℕ) (body : σ → List Byte → Except ε σ) : ℕ → List Byte → σ → σ
  | 0, _, s => s
  | fuel + 1, rest, s =>
    match fgets size rest with
    | none => s
    | some piece =>
      match body s piece with
      | .error _ => s
      | .ok s => pieceState size body fuel (rest.drop piece.length) s

/-- The parts that `Software_CreatePackageList` has written when its loop ends or is left. -/
def written (env : Env) (devicetype : ℤ) : List Part :=
  match env.listing with
  | none => [.header env.thedate]
  | some listing =>
    if 1000 ≤ devicetype ∧ devicetype < 2000 then
      (pieceState lineSize (rpmRound env) (listing.length + 1) listing
        ⟨[.opened .xml, .opened .list], [.header env.thedate], 0, env.line1, some .list⟩).xml
    else
      let s := pieceState lineSize cobaltRound (listing.length + 1) listing (env.line, [])
      .header env.thedate :: s.2.map .cobalt

/-- What is done with the table of descriptors: `fopen` takes one; `popen` takes the two ends of a
    pipe and gives one back; `fclose` and `pclose` give one back. -/
def Event.uses : Event → List Use
  | .opened .xml => [.take]
  | .opened .list => [.take, .take, .give]
  | .opened (.info _) => [.take, .take, .give]
  | .closed _ => [.give]

/-- So many descriptors are taken and not given back. -/
def Held (log : List Event) (n : ℕ) : Prop := Kept (log.flatMap Event.uses) n

/-- What is put into the text of a part. -/
def Part.values : Part → List (List Byte)
  | .header thedate => [thedate]
  | .rpm p => [p.name, p.version, p.release, p.size, p.summary]
  | .cobalt p => [p.name, p.version, p.release]
  | .trailer => []

/-- They are strings. -/
def Part.NoNul (p : Part) : Prop := ∀ value ∈ p.values, (0 : Byte) ∉ value

/-! ## Streams -/

variable {env : Env} {devicetype : ℤ} {log : List Event} {n : ℕ}

theorem Held.opened (h : Held log n) (s : Stream) : Held (log ++ [.opened s]) (n + 1) := by
  unfold Held at *
  rw [List.flatMap_append, List.flatMap_singleton]
  apply h.append
  cases s with
  | xml => decide
  | list => decide
  | info round => rfl

theorem Held.closed (h : Held log (n + 1)) (s : Stream) : Held (log ++ [.closed s]) n := by
  unfold Held Kept at *
  rw [List.flatMap_append, List.flatMap_singleton, List.count_append, List.count_append, h]
  show _ + 0 = _ + 1 + _
  omega

/-! ## Strings -/

theorem noNul_text {p : Part} (h : p.NoNul) : (0 : Byte) ∉ p.text := by
  have htag (name : String) (value : List Byte) (hname : (0 : Byte) ∉ chars name)
      (hvalue : (0 : Byte) ∉ value) : (0 : Byte) ∉ tag name value := by
    simp only [tag, List.mem_append, not_or]
    exact ⟨⟨⟨⟨⟨⟨by decide, hname⟩, by decide⟩, hvalue⟩, by decide⟩, hname⟩, by decide⟩
  unfold Part.NoNul at h
  cases p with
  | header thedate =>
    simp only [Part.text, List.mem_append, not_or]
    exact ⟨⟨⟨⟨⟨by decide, by decide⟩, by decide⟩, h _ List.mem_cons_self⟩, by decide⟩, by decide⟩
  | rpm p =>
    simp only [Part.values, List.forall_mem_cons] at h
    obtain ⟨hname, hversion, hrelease, hsize, hsummary, -⟩ := h
    simp only [Part.text, List.mem_append, not_or]
    exact ⟨⟨⟨⟨⟨⟨by decide, htag _ _ (by decide) hname⟩, htag _ _ (by decide) hversion⟩,
      htag _ _ (by decide) hrelease⟩, htag _ _ (by decide) hsize⟩, htag _ _ (by decide) hsummary⟩,
      by decide⟩
  | cobalt p =>
    simp only [Part.values, List.forall_mem_cons] at h
    obtain ⟨hname, hversion, hrelease, -⟩ := h
    simp only [Part.text, List.mem_append, not_or]
    exact ⟨⟨⟨⟨by decide, htag _ _ (by decide) hname⟩, htag _ _ (by decide) hversion⟩,
      htag _ _ (by decide) hrelease⟩, by decide⟩
  | trailer => decide

theorem noNul_cstr (s : List Byte) : (0 : Byte) ∉ cstr s := by
  intro hmem
  simpa using List.mem_takeWhile_imp hmem

/-- A string that is scanned has no NUL, and neither has what is behind it. -/
theorem noNul_scanStr {s word rest : List Byte} (hs : (0 : Byte) ∉ s)
    (h : scanStr s = some (word, rest)) : (0 : Byte) ∉ word ∧ (0 : Byte) ∉ rest := by
  have hdrop : (0 : Byte) ∉ s.dropWhile isSpace := fun hmem =>
    hs ((List.dropWhile_sublist isSpace).subset hmem)
  rw [(scanStr_some h).1, List.mem_append, not_or] at hdrop
  exact hdrop

theorem noNul_scanWords {sizes : List ℕ} {s rest : List Byte} {ws : List (List Byte)}
    (hs : (0 : Byte) ∉ s) (h : scanWords sizes s = .ok (ws, rest)) :
    (∀ word ∈ ws, (0 : Byte) ∉ word) ∧ (0 : Byte) ∉ rest := by
  induction sizes generalizing s ws with
  | nil =>
    obtain ⟨rfl, rfl⟩ := Prod.mk.inj (Except.ok.inj h)
    exact ⟨fun _ hw => absurd hw List.not_mem_nil, hs⟩
  | cons size sizes ih =>
    rw [scanWords] at h
    split at h
    next =>
      obtain ⟨rfl, rfl⟩ := Prod.mk.inj (Except.ok.inj h)
      exact ⟨fun _ hw => absurd hw List.not_mem_nil, List.not_mem_nil⟩
    next word rest' hscan =>
      obtain ⟨hword, hrest'⟩ := noNul_scanStr hs hscan
      split at h
      swap
      · cases h
      obtain ⟨⟨ws', rest''⟩, hws, heq⟩ := bind_eq_ok.mp h
      obtain ⟨rfl, rfl⟩ := Prod.mk.inj (Except.ok.inj heq)
      obtain ⟨hall, hrest⟩ := ih hrest' hws
      exact ⟨List.forall_mem_cons.mpr ⟨hword, hall⟩, hrest⟩

theorem noNul_scanInfo {s : List Byte} {p : Fields} (hs : (0 : Byte) ∉ s)
    (h : scanInfo s = .ok (some p)) : (Part.rpm p).NoNul := by
  rw [scanInfo] at h
  obtain ⟨⟨ws, rest⟩, hws, h⟩ := bind_eq_ok.mp h
  obtain ⟨hall, hrest⟩ := noNul_scanWords hs hws
  split at h
  swap
  · cases h
  next name version release size rest' heq =>
    obtain ⟨rfl, rfl⟩ := Prod.mk.inj heq
    have hsummary : (0 : Byte) ∉ (rest.dropWhile isSpace).takeWhile (· ≠ 10) := fun hmem =>
      hrest ((List.dropWhile_sublist isSpace).subset ((List.takeWhile_sublist _).subset hmem))
    dsimp only at h
    split at h
    · cases h
    split at h
    swap
    · cases h
    obtain rfl := Option.some.inj (Except.ok.inj h)
    simp only [List.forall_mem_cons] at hall
    obtain ⟨hname, hversion, hrelease, hsize, -⟩ := hall
    simp only [Part.NoNul, Part.values, List.forall_mem_cons]
    exact ⟨hname, hversion, hrelease, hsize, hsummary, fun _ hv => absurd hv List.not_mem_nil⟩

/-- What is found in a line are strings. -/
theorem noNul_cobaltLine {line : List Byte} {r : List Byte × Entry} (h : cobaltLine line = .ok r) :
    (Part.cobalt r.2).NoNul := by
  rw [cobaltLine] at h
  obtain ⟨line₁, -, h⟩ := bind_eq_ok.mp h
  obtain ⟨⟨line₂, release⟩, hrelease, h⟩ := bind_eq_ok.mp h
  obtain ⟨line₃, -, h⟩ := bind_eq_ok.mp h
  obtain ⟨⟨version, release'⟩, hversion, h⟩ := bind_eq_ok.mp h
  obtain ⟨line₄, -, h⟩ := bind_eq_ok.mp h
  obtain ⟨name, hname, h⟩ := bind_eq_ok.mp h
  obtain rfl := Except.ok.inj h
  have hrindex {s found : List Byte} (h : rindex isDash (cstr s) = some found) :
      (0 : Byte) ∉ found := by
    obtain ⟨i, -, rfl⟩ := Option.map_eq_some_iff.mp h
    exact fun hmem => noNul_cstr s (List.mem_of_mem_drop hmem)
  have hstrcpy {size : ℕ} {overflow : Fault} {s s' : List Byte}
      (h : strcpy size overflow s = .ok s') : s' = s := by
    unfold strcpy at h
    split at h
    · exact (Except.ok.inj h).symm
    · cases h
  have hreleaseNul : (0 : Byte) ∉ release := by
    rw [takeRelease] at hrelease
    split at hrelease
    · cases hrelease
    next found hfound =>
      obtain ⟨release₁, hcopy, h⟩ := bind_eq_ok.mp hrelease
      obtain ⟨line₅, -, h⟩ := bind_eq_ok.mp h
      obtain ⟨-, rfl⟩ := Prod.mk.inj (Except.ok.inj h)
      rw [hstrcpy hcopy]
      exact hrindex hfound
  have hdash : (0 : Byte) ∉ chars "-" := by decide
  have hversionNul : (0 : Byte) ∉ version ∧ (0 : Byte) ∉ release' := by
    rw [takeVersion] at hversion
    split at hversion
    · obtain ⟨rfl, rfl⟩ := Prod.mk.inj (Except.ok.inj hversion)
      exact ⟨hreleaseNul, hdash⟩
    next found hfound =>
      split at hversion
      · obtain ⟨version₁, hcopy, h⟩ := bind_eq_ok.mp hversion
        obtain ⟨rfl, rfl⟩ := Prod.mk.inj (Except.ok.inj h)
        rw [hstrcpy hcopy]
        exact ⟨hrindex hfound, hreleaseNul⟩
      · obtain ⟨rfl, rfl⟩ := Prod.mk.inj (Except.ok.inj hversion)
        exact ⟨hreleaseNul, hdash⟩
  have hnameNul : (0 : Byte) ∉ name := by
    rw [stringAt] at hname
    split at hname
    · rw [← Except.ok.inj hname]
      exact noNul_cstr _
    · cases hname
  simp only [Part.NoNul, Part.values, List.forall_mem_cons]
  exact ⟨hnameNul, fun hmem => hversionNul.1 (List.mem_of_mem_drop hmem),
    fun hmem => hversionNul.2 (List.mem_of_mem_drop hmem), fun _ hv => absurd hv List.not_mem_nil⟩

/-! ## Loops -/

theorem eachPiece_pieceState {size fuel : ℕ} {starved : ε} {body : σ → List Byte → Except ε σ}
    {rest : List Byte} {s s' : σ} (h : eachPiece size starved body fuel rest s = .ok s') :
    pieceState size body fuel rest s = s' := by
  induction fuel generalizing rest s with
  | zero => cases h
  | succ fuel ih =>
    rw [eachPiece] at h
    rw [pieceState]
    cases hpiece : fgets size rest with
    | none =>
      simp only [hpiece] at h ⊢
      exact Except.ok.inj h
    | some piece =>
      simp only [hpiece] at h ⊢
      obtain ⟨s₁, hbody, h⟩ := bind_eq_ok.mp h
      simp only [hbody]
      exact ih h

/-- What every round keeps, the loop keeps. -/
theorem post_eachPiece {size : ℕ} (hsize : 2 ≤ size) (starved : ε) {E : ε → Prop} {Q : σ → Prop}
    {body : σ → List Byte → Except ε σ} (hbody : ∀ s piece, Q s → Post E Q (body s piece))
    (file : List Byte) {s : σ} (hs : Q s) :
    Post E Q (eachPiece size starved body (file.length + 1) file s) := by
  obtain ⟨pieces, hpieces⟩ := pieces_exist hsize file
  rw [eachPiece_eq starved body hpieces (Nat.lt_succ_of_le (hpieces.length_le hsize))]
  exact Post.foldlM hbody pieces hs

/-- A return of -1 with so many descriptors held, or undefined behaviour. -/
def LeftWith (n : ℕ) : Leave → Prop
  | .ret value log => value = -1 ∧ Held log n
  | .fault _ => True

/-- Within the loop two streams are open, and what is written are strings. -/
structure Listing (env : Env) (v : Vars) : Prop where
  first : v.log.head? = some (.opened .xml)
  held : Held v.log 2
  noNul : (0 : Byte) ∉ env.thedate → ∀ p ∈ v.xml, p.NoNul
  packageList : v.packageList = some .list

theorem rpmRound_noNul {v v' : Vars} {piece : List Byte} (h : rpmRound env v piece = .ok v') :
    ∃ p : Fields, v'.xml = v.xml ++ [.rpm p] ∧ (Part.rpm p).NoNul := by
  rw [rpmRound] at h
  obtain ⟨-, -, h⟩ := bind_eq_ok.mp h
  split at h
  · cases h
  next output _ =>
    obtain ⟨text, htext, h⟩ := bind_eq_ok.mp h
    obtain ⟨r, hscan, h⟩ := bind_eq_ok.mp h
    have hnul : (0 : Byte) ∉ text := by
      rw [stringAt] at htext
      split at htext
      · rw [← Except.ok.inj htext]
        exact noNul_cstr _
      · cases htext
    split at h
    · cases h
    next p =>
      obtain rfl := Except.ok.inj h
      exact ⟨p, rfl, noNul_scanInfo hnul hscan⟩

theorem rpmRound_spec {v : Vars} (hv : Listing env v) (piece : List Byte) :
    Post (LeftWith 3) (Listing env) (rpmRound env v piece) := by
  obtain ⟨f, hf⟩ | hret | ⟨p, line1, hok, -⟩ := rpmRound_cases env v piece
  · rw [hf]
    exact trivial
  · rw [hret]
    exact ⟨rfl, hv.held.opened _⟩
  · obtain ⟨q, hxml, hq⟩ := rpmRound_noNul hok
    rw [hok]
    refine ⟨?_, ?_, fun hdate part hpart => ?_, hv.packageList⟩
    · show (v.log ++ roundLog v.round).head? = _
      rw [List.head?_append, hv.first, Option.some_or]
    · show Held (v.log ++ ([.opened (.info v.round)] ++ [.closed (.info v.round)])) 2
      rw [← List.append_assoc]
      exact (hv.held.opened _).closed _
    · have hsame : part ∈ v.xml ++ [.rpm q] := hxml ▸ hpart
      rcases List.mem_append.mp hsame with hold | hnew
      · exact hv.noNul hdate part hold
      · rw [List.mem_singleton.mp hnew]
        exact hq

theorem cobaltRound_spec {s : List Byte × List Entry}
    (hs : ∀ e ∈ s.2, (Part.cobalt e).NoNul) (piece : List Byte) :
    Post (fun _ => True) (fun s => ∀ e ∈ s.2, (Part.cobalt e).NoNul) (cobaltRound s piece) := by
  rw [cobaltRound]
  cases hline : cobaltLine (store s.1 piece) with
  | error f => exact trivial
  | ok r =>
    rw [ok_bind]
    intro e he
    rcases List.mem_append.mp he with hold | hnew
    · exact hs e hold
    · rw [List.mem_singleton.mp hnew]
      exact noNul_cobaltLine hline

/-! ## The function -/

variable {o : Outcome}

/-- What is left of the function once the list is read. -/
theorem ending_spec {v : Vars} (hv : Listing env v) :
    ending v = .ok ⟨0, some (v.xml ++ [.trailer]), v.log ++ [.closed .list, .closed .xml]⟩ ∧
      Held (v.log ++ [.closed .list, .closed .xml]) 0 ∧
      (v.log ++ [Event.closed .list, .closed .xml]).head? = some (.opened .xml) := by
  refine ⟨by rw [ending, hv.packageList], ?_, by rw [List.head?_append, hv.first, Option.some_or]⟩
  rw [show [Event.closed .list, .closed .xml] = [.closed .list] ++ [.closed .xml] from rfl,
    ← List.append_assoc]
  exact (hv.held.closed _).closed _

/-- How the function comes to an end. -/
inductive Finished (env : Env) (devicetype : ℤ) : Outcome → Prop
  | noStream (hfopen : env.fopen = false) : Finished env devicetype ⟨-1, none, []⟩
  | left {log : List Event} (hfopen : env.fopen = true)
      (hheld : Held log (if env.listing = none then 1 else 3)) :
      Finished env devicetype ⟨-1, none, log⟩
  | done {log : List Event} (hfopen : env.fopen = true) (hheld : Held log 0)
      (hfirst : log.head? = some (.opened .xml))
      (hnul : (0 : Byte) ∉ env.thedate → ∀ p ∈ written env devicetype, p.NoNul) :
      Finished env devicetype ⟨0, some (written env devicetype ++ [.trailer]), log⟩

theorem held_opened : Held [.opened .xml] 1 := rfl

theorem listing_listed (env : Env) : Listing env (.listed env) := by
  refine ⟨rfl, rfl, fun hdate p hp => ?_, rfl⟩
  rw [List.mem_singleton.mp hp]
  intro value hvalue
  rw [List.mem_singleton.mp hvalue]
  exact hdate

theorem createPackageList_rpm (hfopen : env.fopen = true)
    (htype : 1000 ≤ devicetype ∧ devicetype < 2000)
    (h : createPackageList env devicetype = .ok o) : Finished env devicetype o := by
  have hnot : ¬ (2000 ≤ devicetype ∧ devicetype < 3000) := by omega
  rw [createPackageList, if_pos hfopen, rpmBranch, if_pos htype, openList] at h
  cases hlisting : env.listing with
  | none =>
    rw [hlisting] at h
    obtain rfl := Except.ok.inj h
    refine .left hfopen ?_
    rw [if_pos hlisting]
    exact held_opened
  | some listing =>
    rw [hlisting] at h
    have hloop := post_eachPiece (show 2 ≤ lineSize by decide) (Leave.fault .starved)
      (fun v piece (hv : Listing env v) => rpmRound_spec hv piece) listing (listing_listed env)
    change returned (eachPiece lineSize (.fault .starved) (rpmRound env) (listing.length + 1)
      listing (.listed env) >>= _) = .ok o at h
    cases hrun : eachPiece lineSize (.fault .starved) (rpmRound env) (listing.length + 1) listing
      (.listed env) with
    | error e =>
      rw [hrun] at h hloop
      cases e with
      | fault f => cases h
      | ret value log =>
        obtain ⟨rfl, hheld⟩ : value = -1 ∧ Held log 3 := hloop
        obtain rfl := Except.ok.inj h
        refine .left hfopen ?_
        rw [if_neg (by rw [hlisting]; exact Option.some_ne_none _)]
        exact hheld
    | ok v =>
      have hv := hloop.ok hrun
      have hwritten : v.xml = written env devicetype := by
        rw [written, hlisting]
        simp only [if_pos htype]
        exact congrArg Vars.xml (eachPiece_pieceState hrun).symm
      obtain ⟨hending, hheld, hfirst⟩ := ending_spec hv
      rw [hrun, ok_bind, cobaltBranch, if_neg hnot, ok_bind, hending] at h
      obtain rfl := Except.ok.inj h
      rw [hwritten]
      exact .done hfopen hheld hfirst (hwritten ▸ hv.noNul)

theorem createPackageList_cobalt (hfopen : env.fopen = true)
    (htype : 2000 ≤ devicetype ∧ devicetype < 3000)
    (h : createPackageList env devicetype = .ok o) : Finished env devicetype o := by
  have hnot : ¬ (1000 ≤ devicetype ∧ devicetype < 2000) := by omega
  rw [createPackageList, if_pos hfopen, rpmBranch, if_neg hnot, ok_bind, cobaltBranch, if_pos htype,
    openList] at h
  cases hlisting : env.listing with
  | none =>
    rw [hlisting] at h
    obtain rfl := Except.ok.inj h
    refine .left hfopen ?_
    rw [if_pos hlisting]
    exact held_opened
  | some listing =>
    rw [hlisting] at h
    have hloop := post_eachPiece (show 2 ≤ lineSize by decide) Fault.starved
      (fun s piece hs => cobaltRound_spec hs piece) listing (s := (env.line, []))
      fun e he => absurd he List.not_mem_nil
    cases hrun : cobaltLoop listing env.line with
    | error f =>
      simp only [ok_bind, hrun] at h
      cases h
    | ok s =>
      have hs := hloop.ok hrun
      have hwritten : written env devicetype = .header env.thedate :: s.2.map .cobalt := by
        rw [written, hlisting]
        simp only [if_neg hnot]
        rw [eachPiece_pieceState hrun]
      have hlisted : Listing env { Vars.listed env with
          xml := [.header env.thedate] ++ s.2.map .cobalt } := by
        refine ⟨rfl, rfl, fun hdate p hp => ?_, rfl⟩
        rcases List.mem_append.mp hp with hhead | hentry
        · exact (listing_listed env).noNul hdate p hhead
        · obtain ⟨e, he, rfl⟩ := List.mem_map.mp hentry
          exact hs e he
      obtain ⟨hending, hheld, hfirst⟩ := ending_spec hlisted
      simp only [ok_bind, hrun] at h
      change returned (ending { Vars.listed env with
        xml := [.header env.thedate] ++ s.2.map .cobalt }) = .ok o at h
      rw [hending] at h
      obtain rfl := Except.ok.inj h
      show Finished env devicetype
        ⟨0, some (.header env.thedate :: s.2.map .cobalt ++ [.trailer]), _⟩
      rw [← hwritten]
      refine .done hfopen hheld hfirst ?_
      rw [hwritten]
      exact hlisted.noNul

theorem createPackageList_spec (h : createPackageList env devicetype = .ok o) :
    Finished env devicetype o := by
  cases hfopen : env.fopen with
  | false =>
    rw [createPackageList, hfopen] at h
    obtain rfl := Except.ok.inj h
    exact .noStream hfopen
  | true =>
    by_cases hrpm : 1000 ≤ devicetype ∧ devicetype < 2000
    · exact createPackageList_rpm hfopen hrpm h
    by_cases hcobalt : 2000 ≤ devicetype ∧ devicetype < 3000
    · exact createPackageList_cobalt hfopen hcobalt h
    · rw [createPackageList, if_pos hfopen, rpmBranch, if_neg hrpm, ok_bind, cobaltBranch,
        if_neg hcobalt] at h
      cases h

theorem pieceState_xml (env : Env) (fuel : ℕ) (rest : List Byte) (v : Vars) :
    ∃ parts, (pieceState lineSize (rpmRound env) fuel rest v).xml = v.xml ++ parts := by
  induction fuel generalizing rest v with
  | zero => exact ⟨[], (List.append_nil _).symm⟩
  | succ fuel ih =>
    rw [pieceState]
    split
    next => exact ⟨[], (List.append_nil _).symm⟩
    next piece _ =>
      split
      next => exact ⟨[], (List.append_nil _).symm⟩
      next v' hround =>
        obtain ⟨p, hxml, -⟩ := rpmRound_noNul hround
        obtain ⟨parts, hparts⟩ := ih (rest.drop piece.length) v'
        exact ⟨.rpm p :: parts, by rw [hparts, hxml, List.append_assoc, List.singleton_append]⟩

/-- The date is written first. -/
theorem written_eq (env : Env) (devicetype : ℤ) :
    ∃ parts, written env devicetype = .header env.thedate :: parts := by
  unfold written
  split
  · exact ⟨[], rfl⟩
  next listing _ =>
    split
    · obtain ⟨parts, hparts⟩ := pieceState_xml env (listing.length + 1) listing
        ⟨[.opened .xml, .opened .list], [.header env.thedate], 0, env.line1, some .list⟩
      exact ⟨parts, hparts⟩
    · exact ⟨_, rfl⟩

/-- The document is a string. -/
theorem noNul_file (h : createPackageList env devicetype = .ok o) (hdate : (0 : Byte) ∉ env.thedate)
    {text : List Byte} (hfile : o.file = some text) : (0 : Byte) ∉ text := by
  cases createPackageList_spec h with
  | noStream hfopen => cases hfile
  | left hfopen hheld => cases hfile
  | done hfopen hheld hfirst hnul =>
    obtain rfl := Option.some.inj hfile
    intro hmem
    obtain ⟨p, hp, hmem⟩ := List.mem_flatMap.mp hmem
    rcases List.mem_append.mp hp with hwritten | htrailer
    · exact noNul_text (hnul hdate p hwritten) hmem
    · rw [List.mem_singleton.mp htrailer] at hmem
      exact absurd hmem (by decide)

end CompatSuva.Software
