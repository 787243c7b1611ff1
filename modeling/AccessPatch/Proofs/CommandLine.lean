import AccessPatch.Command.Program
import AccessPatch.Proofs.Confined
import AccessPatch.Proofs.Reporting

/-!
# What a command line may change

`Annotate.Options.Touches` lists the places that a request to patch may change: the report, and,
if anything is to be written at all, the documents that it works on or the one output in their
place, and their backups, if these are wanted. Every other place is as it was, whatever the
command ends with, so that no temporary file is left either, and every other request changes
nothing (`keeps_execute`). The steps are those of the command: applying operations
(`keeps_of_applies`), one document (`keeps_of_reports`), all documents and the report
(`confined_run`).
-/

namespace AccessPatch

open Run (Confined Ends Idle accessed_eq_ok_iff)
open Store (Keeps)

/-! ## One document -/

namespace Patch

variable {buffer patched : Bytes} {ops : List Op} {o : Application} {s t : Store} {place : Location}

/-- A place at which the document is saved. -/
def Application.SavesAt (o : Application) (s : Store) (place : Location) : Prop :=
  ∃ bak, o.SavesTo bak ∧ s.locate bak = .ok place

/-- A place that applying operations may change. -/
def Application.Touches (o : Application) (s : Store) (place : Location) : Prop :=
  o.dryRun = false ∧ ((∃ path, o.target = .ok path ∧ s.locate path = .ok place) ∨ o.SavesAt s place)

theorem keeps_of_saves {result : Except Failure (Option Path)} (h : Saves buffer o s result t) :
    s.Keeps (o.SavesAt s) t := by
  cases h with
  | nameless _ => exact .refl _ s
  | unwanted _ => exact .refl _ s
  | refused _ _ => exact .refl _ s
  | @saved bak place hpath hwrite =>
    have htarget := (accessed_eq_ok_iff.mp hwrite).2
    exact Store.keeps_put (Store.entry?_of_target htarget)
      ⟨bak, savesTo_iff.mpr hpath, Store.locate_of_target htarget⟩

theorem keeps_of_applies {result : Except Failure Outcome} (h : Applies buffer ops o s result t) :
    s.Keeps (o.Touches s) t := by
  cases h with
  | idle _ => exact .refl _ s
  | refused _ _ => exact .refl _ s
  | shown _ _ _ => exact .refl _ s
  | replaced _ _ hdry hreplaces =>
    have hsaved : ∀ {result : Except Failure (Option Path)} {u : Store}, Saves buffer o s result u →
        s.Keeps (o.Touches s) u :=
      fun hsaves => (keeps_of_saves hsaves).mono fun place hplace => ⟨hdry, .inr hplace⟩
    cases hreplaces with
    | aimless _ => exact .refl _ s
    | unsaved _ hsaves => exact hsaved hsaves
    | unwritten _ hsaves _ => exact hsaved hsaves
    | @written path backup place u hpath hsaves hwrite =>
      have htarget := (accessed_eq_ok_iff.mp hwrite).2
      have hkeeps := hsaved hsaves
      refine hkeeps.trans
        (Store.keeps_put (Store.entry?_of_target htarget) ⟨hdry, .inl ⟨path, hpath, ?_⟩⟩)
      exact (hkeeps.locate path place).mp (Store.locate_of_target htarget)

end Patch

section Document

variable {path : Path} {config : Config} {write : Bool} {out : Option Path} {s t : Store}

/-- A place that annotating a document may change. -/
structure DocumentTouches (path : Path) (config : Config) (write : Bool)
    (out : Option Path) (s : Store) (place : Location) : Prop where
  write : write = true
  leads : s.locate (out.getD path) = .ok place ∨
    config.backup = true ∧ ∃ bak, path.backup? = some bak ∧ s.locate bak = .ok place

theorem keeps_of_reports (hpath : path.Proper) (hout : ∀ p ∈ out, p.Proper)
    {result : Except Failure DocumentReport}
    (h : Reports path config write (out.map toString) s result t) :
    s.Keeps (DocumentTouches path config write out s) t := by
  have htarget : (applicationFor path config write (out.map toString)).target =
      .ok (out.getD path) := by
    cases out with
    | none => exact target_applicationFor config write hpath
    | some p => exact congrArg Except.ok (Path.ofString_toString (hout p rfl))
  cases h with
  | unread _ => exact .refl _ s
  | unpaired _ _ => exact .refl _ s
  | applied _ _ happlies =>
    refine (Patch.keeps_of_applies happlies).mono ?_
    rintro place ⟨hdry, hplace⟩
    refine ⟨by simpa [applicationFor] using hdry, ?_⟩
    rcases hplace with ⟨p, hp, hlocate⟩ | ⟨bak, hsaves, hlocate⟩
    · obtain rfl := Except.ok.inj (htarget.symm.trans hp)
      exact .inl hlocate
    · exact .inr ⟨hsaves.1, bak, backup?_of_savePath hpath (Patch.savesTo_iff.mp hsaves), hlocate⟩

end Document

namespace Command

/-! ## Steps that change nothing -/

theorem idle_readConfig (path : Option Path) : Idle (readConfig path) := by
  unfold readConfig
  cases path with
  | none => exact Run.idle_pure _
  | some path =>
    refine (Run.idle_checkUsable path).bind fun _ => Run.idle_get (fun s => do
      let content ← Run.ofExcept _ (s.read path)
      let entries ← Run.ofExcept _ (Config.entriesOfBytes path content)
      Run.note _
      Run.ofExcept _ (Config.ofEntries path entries)) fun s => ?_
    refine (Run.idle_ofExcept _ _).bind fun content =>
      (Run.idle_ofExcept _ _).bind fun entries => ?_
    exact (Run.idle_remark _).bind fun _ => Run.idle_ofExcept _ _

theorem idle_discover (root : Path) (patterns : List String) : Idle (discover root patterns) :=
  Run.idle_get (fun s => Run.ofExcept .discovery (s.discover root patterns)) fun _ =>
    Run.idle_ofExcept _ _

theorem idle_findElements (buffer : Bytes) (identity : String) (tags : List String) :
    Idle (findElements buffer identity tags) :=
  fun s => ⟨_, ends_findElements buffer identity tags s⟩

theorem idle_surveyDocument (path : Path) (config : Config) :
    Idle (surveyDocument path config) := by
  have hread : Idle (readElements path config.tagsInForce) :=
    (Run.idle_contentOf path).bind fun buffer => (idle_findElements _ _ _).bind fun _ =>
      Run.idle_pure _
  refine hread.catchDocument.bind fun found => ?_
  cases found with
  | ok found => exact Run.idle_pure _
  | error e => exact (Run.idle_remark _).bind fun _ => Run.idle_pure _

theorem idle_loadOrReport (path : Option Path) : Idle (loadOrReport path) := by
  refine ((idle_readConfig path).map some).tryCatch fun f => ?_
  split
  · exact (Run.idle_remark _).bind fun _ => Run.idle_pure _
  · exact Run.idle_throw _

theorem idle_documentsFor (root : Path) (file : Option Path) (config : Config) :
    Idle (documentsFor root file config) := by
  unfold documentsFor
  cases file with
  | some file => exact Run.idle_pure _
  | none =>
    refine (idle_discover _ _).bind fun files => ?_
    split
    · exact (Run.idle_remark _).bind fun _ => Run.idle_pure _
    · exact Run.idle_pure _

theorem idle_printFailed (report : DocumentReport) (e : DocumentError) :
    Idle (printFailed report e) :=
  Run.idle_remark _

theorem Annotate.idle_printReport (report : DocumentReport) (diff : Bool) :
    Idle (printReport report diff) := by
  unfold printReport
  split
  · exact idle_printFailed _ _
  · refine (Run.idle_remark _).bind fun _ =>
      (Run.idle_forM (fun op => Run.idle_remark _) _).bind fun _ => ?_
    split
    · split
      · exact Run.idle_pure _
      · refine (Run.idle_remark _).bind fun _ => ?_
        split
        · exact Run.idle_remark _
        · exact Run.idle_pure _
    · exact Run.idle_pure _

theorem Scan.idle_printReport (report : DocumentReport) : Idle (printReport report) := by
  unfold printReport
  split
  · exact idle_printFailed _ _
  · exact (Run.idle_remark _).bind fun _ => Run.idle_forM (fun e => Run.idle_remark _) _

/-- To scan changes nothing. -/
theorem Scan.idle_run (o : Scan.Options) : Idle (Scan.run o) := by
  refine (idle_loadOrReport _).bind fun config => ?_
  cases config with
  | none => exact Run.idle_pure _
  | some config =>
    refine (idle_documentsFor _ _ _).bind fun files =>
      (Run.idle_mapM (fun file => idle_surveyDocument file _) files).bind fun reports => ?_
    dsimp only
    by_cases hjson : o.json = true
    · rw [if_pos hjson]
      exact (Run.idle_remark _).bind fun _ => Run.idle_pure _
    · rw [if_neg hjson]
      exact (Run.idle_forM idle_printReport reports).bind fun _ => Run.idle_pure _

/-! ## What a command works on -/

/-- The configuration that a command has is the one that is read. -/
theorem ends_readConfig_of_load {path : Option Path} {config : Config} {s : Store}
    (h : Ends (loadOrReport path) s (.ok (some config)) s) :
    Ends (readConfig path) s (.ok config) s := by
  have honly : ∀ {result}, Ends (loadOrReport path) s result s → result = .ok (some config) :=
    fun hresult => (hresult.unique h).1
  obtain ⟨result, hread⟩ := idle_readConfig path s
  cases result with
  | ok found =>
    cases honly ((hread.map some).tryCatch_ok _)
    exact hread
  | error f =>
    have hfailed := hread.map_error some
    cases f with
    | configuration fault =>
      cases fault with
      | config e =>
        cases honly (hfailed.tryCatch_error ((Run.ends_remark _ s).bind (Run.ends_pure none s)))
      | _ => cases honly (hfailed.tryCatch_error (Run.ends_throw _ s))
    | _ => cases honly (hfailed.tryCatch_error (Run.ends_throw _ s))

/-- A command works on the file that is named, or on those that are found. -/
theorem mem_of_documentsFor {root doc : Path} {file : Option Path} {config : Config}
    {files : List Path} {s : Store} (h : Ends (documentsFor root file config) s (.ok files) s)
    (hdoc : doc ∈ files) :
    file = some doc ∨ file = none ∧ ∃ found, s.discover root config.patterns = .ok found ∧
    doc ∈ found := by
  cases file with
  | some file =>
    obtain ⟨hsame, -⟩ := h.unique (Run.ends_pure [file] s)
    cases hsame
    exact .inl (congrArg some (List.mem_singleton.mp hdoc).symm)
  | none =>
    refine .inr ⟨rfl, ?_⟩
    have hsearch :
        Ends (discover root config.patterns) s
          ((s.discover root config.patterns).mapError .discovery) s :=
      Run.ends_get (fun s => Run.ofExcept .discovery (s.discover root config.patterns))
        (Run.ends_ofExcept _ _ s)
    cases hfound : s.discover root config.patterns with
    | error fault =>
      rw [hfound] at hsearch
      obtain ⟨hsame, -⟩ := h.unique hsearch.bind_error
      cases hsame
    | ok found =>
      rw [hfound] at hsearch
      have hrest : Ends (documentsFor root none config) s (.ok found) s := by
        refine hsearch.bind ?_
        split
        · exact (Run.ends_remark _ s).bind (Run.ends_pure found s)
        · exact Run.ends_pure found s
      obtain ⟨hsame, -⟩ := h.unique hrest
      cases hsame
      exact ⟨files, rfl, hdoc⟩

namespace Annotate

/-- A request to patch works on a document, and `config` is the configuration that it reads. -/
structure Options.WorksOn (o : Options) (s : Store) (config : Config) (doc : Path) : Prop where
  reads : Ends (readConfig o.config) s (.ok config) s
  /-- One output is for one file. -/
  single : o.out = none ∨ o.file ≠ none
  chosen : o.file = some doc ∨
    o.file = none ∧ ∃ found, s.discover o.root config.patterns = .ok found ∧ doc ∈ found

/-- A place that a request to patch may change. -/
inductive Options.Touches (o : Options) (s : Store) : Location → Prop
  /-- The report, if there is to be one. -/
  | report {path : Path} {place : Location} (given : o.report = some path)
      (leads : s.locate path = .ok place) :
      Touches o s place
  /-- A document that the request works on, if something is to be written, and no other output is
  named. -/
  | document {config : Config} {doc : Path} {place : Location} (write : o.write = true)
      (works : o.WorksOn s config doc) (inPlace : o.out = none) (leads : s.locate doc = .ok place) :
      Touches o s place
  /-- The output that is named in its stead. -/
  | out {config : Config} {doc path : Path} {place : Location} (write : o.write = true)
      (works : o.WorksOn s config doc) (given : o.out = some path)
      (leads : s.locate path = .ok place) :
      Touches o s place
  /-- The backup of a document, unless the options or the configuration rule it out. -/
  | backup {config : Config} {doc bak : Path} {place : Location} (write : o.write = true)
      (works : o.WorksOn s config doc) (wanted : o.noBackup = false ∧ config.backup = true)
      (beside : doc.backup? = some bak) (leads : s.locate bak = .ok place) : Touches o s place

variable {o : Options} {s t : Store} {config : Config} {doc : Path}

theorem backup_overriddenBy (h : (config.overriddenBy o.overrides).backup = true) :
    o.noBackup = false ∧ config.backup = true := by
  cases hno : o.noBackup with
  | true => simp [Config.overriddenBy, Options.overrides, hno] at h
  | false => simpa [Config.overriddenBy, Options.overrides, hno] using h

/-- One document, from a store that those before it may have changed. -/
theorem confined_patchOne (hdoc : doc.Proper) (hout : ∀ p ∈ o.out, p.Proper)
    (hworks : o.WorksOn s config doc) (hkeeps : s.Keeps (o.Touches s) t) :
    Confined (o.Touches s) (patchOne o (config.overriddenBy o.overrides) doc) t := by
  obtain ⟨result, u, hreports⟩ :=
    exists_reports doc (config.overriddenBy o.overrides) o.write (o.out.map toString) t
  have htouches : ∀ place,
      DocumentTouches doc (config.overriddenBy o.overrides) o.write o.out t place →
      o.Touches s place := by
    rintro place ⟨hwrite, hleads | ⟨hbackup, bak, hbak, hleads⟩⟩
    · cases hcase : o.out with
      | none =>
        rw [hcase] at hleads
        exact .document hwrite hworks hcase ((hkeeps.locate _ _).mp hleads)
      | some path =>
        rw [hcase] at hleads
        exact .out hwrite hworks hcase ((hkeeps.locate _ _).mp hleads)
    · exact .backup hwrite hworks (backup_overriddenBy hbackup) hbak ((hkeeps.locate _ _).mp hleads)
  have hfirst : Confined (o.Touches s)
      (annotateDocument doc (config.overriddenBy o.overrides) o.write (o.out.map toString)) t :=
    ⟨result, u, ends_of_reports hreports, (keeps_of_reports hdoc hout hreports).mono htouches⟩
  exact hfirst.bind fun report u _ _ =>
    ((idle_printReport report o.diff).bind fun _ => Run.idle_pure report).confined u

/-! ## All documents -/

theorem confined_writeReport {path : Path} (hreport : o.report = some path)
    (hkeeps : s.Keeps (o.Touches s) t) (report : RunReport) :
    Confined (o.Touches s) (writeReport report path) t := by
  have hwrite : Confined (o.Touches s) (Run.writeFile path (Utf8.encode report.toJson.render)) t :=
    Run.confined_writeFile
      (fun place hleads => .report hreport ((hkeeps.locate path place).mp hleads)) _
  exact hwrite.bind fun _ u _ _ => (Run.idle_pure path).confined u

/-- A request to patch changes what it may touch, and nothing else. -/
theorem confined_run (hnamed : s.Named) (hfile : ∀ p ∈ o.file, p.Proper)
    (hout : ∀ p ∈ o.out, p.Proper) :
    Confined (o.Touches s) (run o) s := by
  unfold run
  by_cases hlone : o.out.isSome = true ∧ o.file.isNone = true
  · rw [if_pos hlone]
    exact ((Run.idle_remark _).bind fun _ => Run.idle_pure _).confined s
  rw [if_neg hlone]
  refine (idle_loadOrReport o.config).bind_confined fun loaded hload => ?_
  cases loaded with
  | none => exact (Run.idle_pure _).confined s
  | some config =>
    have hreads := ends_readConfig_of_load hload
    have hsingle : o.out = none ∨ o.file ≠ none := by
      simpa [Option.isSome_iff_ne_none, ← or_iff_not_imp_left] using hlone
    refine (idle_documentsFor _ _ _).bind_confined fun files hfiles => ?_
    have hturn : ∀ doc ∈ files, ∀ t, s.Keeps (o.Touches s) t →
        Confined (o.Touches s) (patchOne o (config.overriddenBy o.overrides) doc) t := by
      intro doc hdoc t hkeeps
      have hchosen := mem_of_documentsFor hfiles hdoc
      have hproper : doc.Proper := by
        rcases hchosen with hnamed | ⟨-, found, hfound, hmem⟩
        · exact hfile doc hnamed
        · exact Store.proper_of_mem_discover hnamed hfound hmem
      exact confined_patchOne hproper hout ⟨hreads, hsingle, hchosen⟩ hkeeps
    refine (Run.confined_mapM hturn).bind fun reports t _ hkeeps => ?_
    have hlast : ∀ (line : String) (exit : Exit), Idle (Run.print line >>= fun _ => pure exit) :=
      fun line exit => (Run.idle_remark _).bind fun _ => Run.idle_pure exit
    cases hreport : o.report with
    | none => exact (hlast _ _).confined t
    | some path =>
      refine (confined_writeReport hreport hkeeps _).discard.bind fun _ u _ _ => ?_
      exact ((Run.idle_remark _).bind fun _ => hlast _ _).confined u

end Annotate

/-! ## A command line -/

namespace Program

variable {args : List String} {options : Annotate.Options} {request : Request} {store t : Store}

theorem exists_arguments_of_readCommand {name : String}
    (h : readCommand name args = .ok (.patch options)) :
    ∃ a, options = .ofArguments a := by
  unfold readCommand at h
  split at h
  · obtain ⟨a, -, h⟩ := bind_eq_ok_iff.mp h
    split at h
    · cases h
    · obtain ⟨_, -, h⟩ := bind_eq_ok_iff.mp h
      cases h
  · split at h
    · obtain ⟨a, -, h⟩ := bind_eq_ok_iff.mp h
      split at h
      · cases h
      · obtain ⟨_, -, h⟩ := bind_eq_ok_iff.mp h
        cases h
        exact ⟨a, rfl⟩
    · cases h

theorem exists_arguments_of_readRequest (h : readRequest args = .ok (.patch options)) :
    ∃ a, options = .ofArguments a := by
  obtain ⟨a, -, h⟩ := bind_eq_ok_iff.mp h
  split at h
  · cases h
  · cases h
  · split at h
    · cases h
    · exact exists_arguments_of_readCommand h

/-- The paths that the options of a command line name are those of texts. -/
theorem proper_of_readRequest (h : readRequest args = .ok (.patch options)) :
    (∀ p ∈ options.file, p.Proper) ∧ ∀ p ∈ options.out, p.Proper := by
  obtain ⟨a, rfl⟩ := exists_arguments_of_readRequest h
  have hmap : ∀ (text : Option String), ∀ p ∈ text.map Path.ofString, p.Proper := by
    intro text p hp
    obtain ⟨text, -, rfl⟩ := Option.map_eq_some_iff.mp hp
    exact Path.proper_ofString text
  exact ⟨hmap _, hmap _⟩

/-- Every request but one to patch changes nothing. -/
theorem idle_perform (h : ∀ options, request ≠ .patch options) : Idle (perform request) := by
  cases request with
  | version => exact (Run.idle_remark _).bind fun _ => Run.idle_pure _
  | help => exact (Run.idle_remark _).bind fun _ => Run.idle_pure _
  | scan options => exact Scan.idle_run options
  | patch options => exact absurd rfl (h options)

theorem store_execute {result : Except Failure Exit} (hrequest : readRequest args = .ok request)
    (h : Ends (perform request) store result t) : (execute store args).store = t := by
  have hstore := (h.exec_eq []).2
  unfold execute
  rw [hrequest]
  dsimp only
  split <;> exact hstore

/-- A command line changes the places that its request to patch may touch, if it is one, and no
others. -/
theorem keeps_execute (store : Store) (hnamed : store.Named) (args : List String) :
    ((∀ options, readRequest args ≠ .ok (.patch options)) → (execute store args).store = store) ∧
      ∀ options, readRequest args = .ok (.patch options) →
        ∀ place, ¬ options.Touches store place →
          Store.entry? (execute store args).store place = store.entry? place := by
  constructor
  · intro hother
    cases hrequest : readRequest args with
    | error fault =>
      unfold execute
      rw [hrequest]
    | ok request =>
      have hidle : Idle (perform request) :=
        idle_perform fun options hpatch =>
          hother options (hrequest.trans (congrArg Except.ok hpatch))
      obtain ⟨result, hends⟩ := hidle store
      exact store_execute hrequest hends
  · intro options hrequest place hplace
    obtain ⟨hfile, hout⟩ := proper_of_readRequest hrequest
    obtain ⟨result, t, hends, hkeeps⟩ := Annotate.confined_run hnamed hfile hout
    rw [store_execute hrequest hends]
    exact hkeeps.apart place hplace

/-- A document, and another one beside it. -/
def besideScene : Store where
  entries :=
    [(["a.xib"], .file (Utf8.encode "<view></view>")),
      (["b.xib"], .file (Utf8.encode "<view></view>"))]

/-- Where one file is named and no backup is wanted, this file is all that changes. -/
theorem keeps_execute_besideScene :
    let args := ["patch", "--apply", "--no-backup", "--allowlist", "view", "--file", "a.xib"]
    besideScene.Named ∧
    Store.entry? (execute besideScene args).store ["a.xib"] ≠ besideScene.entry? ["a.xib"] ∧
      ∀ place ≠ ["a.xib"], Store.entry? (execute besideScene args).store place =
        besideScene.entry? place := by
  intro args
  have hnamed : besideScene.Named := ⟨by decide +kernel, by decide +kernel⟩
  let options : Annotate.Options :=
    { root := .ofString ".", file := some (.ofString "a.xib"), write := true, noBackup := true,
      allowlist := some "view" }
  have hrequest : readRequest args = .ok (.patch options) := by decide +kernel
  have hleads : besideScene.locate (.ofString "a.xib") = .ok ["a.xib"] := by decide +kernel
  refine ⟨hnamed, by decide +kernel, fun place hplace => ?_⟩
  refine (keeps_execute besideScene hnamed args).2 options hrequest place fun htouches => ?_
  cases htouches with
  | report given _ => cases given
  | out _ _ given _ => cases given
  | backup _ _ wanted _ _ => cases wanted.1
  | document _ works _ leads =>
    rcases works.chosen with hdoc | ⟨hnone, -⟩
    · cases hdoc
      exact hplace (Except.ok.inj (leads.symm.trans hleads))
    · cases hnone

end Program

end Command

end AccessPatch
