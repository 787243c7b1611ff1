import AccessPatch.Proofs.Batch
import AccessPatch.Proofs.Predicting
import AccessPatch.Proofs.Tag.Kept
import AccessPatch.Proofs.Verified

/-!
# Documents that end a batch

An error that concerns a document goes into its report, and the batch goes on. Five kinds of
documents escape that (`Escapes`): one whose path no file can have, two whose declared encoding
cannot be used, and two in UTF-16 whose tags are not where they seem to be. A batch comes to its
end if and only if no document escapes in its turn, and then each report says what ended the work
on its document (`returns_annotateAll`).
-/

namespace AccessPatch

open Patch (Applies Outcome Replaces)
open Run (Ends accessed accessed_eq_error accessed_eq_ok_iff accessed_of_not_usable
  accessed_of_usable)
open Xml (Encoding Source)

variable {path : Path} {paths first rest : List Path} {config : Config} {write : Bool}
  {s t u : Store} {r : DocumentReport} {f : Failure}

/-! ## Escapes -/

/-- The ways in which a document ends a whole batch. -/
inductive Escapes (s : Store) (path : Path) (config : Config) : Failure → Prop
  /-- No file can have its path. -/
  | unusable (h : ¬ path.Usable) : Escapes s path config (.unusablePath path)
  /-- It declares an encoding that is not known. -/
  | unknownEncoding {content : Bytes} {name : String} (husable : path.Usable)
      (hread : s.read path = .ok content)
      (h : Source.ofBytes content = .error (.unknownEncoding name)) :
      Escapes s path config (.unknownEncoding name)
  /-- It declares an encoding that cannot be read byte by byte. -/
  | multiByteEncoding {content : Bytes} {name : String} (husable : path.Usable)
      (hread : s.read path = .ok content)
      (h : Source.ofBytes content = .error (.multiByteEncoding name)) :
      Escapes s path config (.multiByteEncoding name)
  /-- It is in UTF-16, and the tags of an element seem to be out of order. -/
  | disordered {content : Bytes} {source : Source} {bigEndian : Bool} {ranges : List TagRange}
      {fault : Pairing.Fault} (husable : path.Usable) (hread : s.read path = .ok content)
      (hsource : Source.ofBytes content = .ok source) (hwide : source.encoding = .utf16 bigEndian)
      (hranges : TagRange.ofDocument content = .ok ranges)
      (h : trackedElements content config.tagsInForce ranges = .error fault) :
      Escapes s path config (.pairing fault)
  /-- It is in UTF-16, and operations do not fit where the tags seem to be. -/
  | misfit {content : Bytes} {source : Source} {bigEndian : Bool} {ranges : List TagRange}
      {elements : List Element} {misfit : Patch.Misfit} (husable : path.Usable)
      (hread : s.read path = .ok content) (hsource : Source.ofBytes content = .ok source)
      (hwide : source.encoding = .utf16 bigEndian)
      (hranges : TagRange.ofDocument content = .ok ranges)
      (helements : trackedElements content config.tagsInForce ranges = .ok elements)
      (h : Patch.splice content (opsFor config content elements) = .error misfit) :
      Escapes s path config (.misfit misfit)

theorem fault_of_add {buffer : Bytes} {symbols : List Xml.Symbol} {c : TagRange.Collector}
    {e : Xml.Event} {error : Xml.ReadError} (h : c.add buffer symbols e = .error error) :
    ∃ fault line column, error = .fault fault line column := by
  unfold TagRange.Collector.add at h
  split at h
  · split at h
    · cases h
      exact ⟨_, _, _, rfl⟩
    · cases h
  · split at h
    · cases h
    · cases h
  · cases h
  · cases h

theorem exists_lineOnly_eq (fault : Xml.Fault) (line : Nat) (column : Option Nat) :
    ∃ column', TagRange.lineOnly (.fault fault line column) = .fault fault line column' := by
  unfold TagRange.lineOnly
  split
  · rename_i h
    cases h
    exact ⟨_, rfl⟩
  · exact ⟨_, rfl⟩

/-- A document that is decoded breaks off with a fault, if at all. -/
theorem fault_of_ofDocument {buffer : Bytes} {source : Source} {e : Xml.ReadError}
    (hsource : Source.ofBytes buffer = .ok source) (h : TagRange.ofDocument buffer = .error e) :
    ∃ fault line column, e = .fault fault line column := by
  unfold TagRange.ofDocument at h
  cases hfold : (Xml.read buffer).events.foldlM
      (TagRange.Collector.add buffer (Xml.read buffer).symbols) {} with
  | error e' =>
    simp only [hfold] at h
    cases h
    obtain ⟨c, x, hadd⟩ := exists_step_of_foldlM_error hfold
    exact fault_of_add hadd
  | ok c =>
    simp only [hfold] at h
    unfold Xml.read at h
    simp only [hsource] at h
    cases hrun : (source.reader source.encoding.alphabet false).run source.body source.ragged with
    | ok events =>
      simp only [hrun] at h
      cases h
    | error stop =>
      simp only [hrun] at h
      cases h
      obtain ⟨column, heq⟩ := exists_lineOnly_eq stop.fault _ _
      exact ⟨_, _, column, heq⟩

theorem ofDocument_of_source_error {buffer : Bytes} {e : Xml.ReadError}
    (h : Source.ofBytes buffer = .error e) :
    TagRange.ofDocument buffer = .error (TagRange.lineOnly e) := by
  unfold TagRange.ofDocument Xml.read
  rw [h]
  rfl

theorem elementsOf_of_range_error {buffer : Bytes} {identity : String} {tags : List String}
    {e : Xml.ReadError} (h : TagRange.ofDocument buffer = .error e) :
    elementsOf buffer identity tags = .error (.ofRead identity e) := by
  unfold elementsOf tokenize
  rw [h]
  rfl

theorem elementsOf_of_ranges {buffer : Bytes} {ranges : List TagRange}
    (h : TagRange.ofDocument buffer = .ok ranges) (identity : String) (tags : List String) :
    elementsOf buffer identity tags = (trackedElements buffer tags ranges).mapError .pairing := by
  unfold elementsOf tokenize
  rw [h]
  rfl

/-- Who can be stopped for the order of tags is in UTF-16. -/
theorem exists_wide {buffer : Bytes} {ranges : List TagRange} (config : Config)
    (hranges : TagRange.ofDocument buffer = .ok ranges)
    (h : ∀ elements patched, trackedElements buffer config.tagsInForce ranges = .ok elements →
      Patch.splice buffer (opsFor config buffer elements) ≠ .ok patched) :
    ∃ source bigEndian, Source.ofBytes buffer = .ok source ∧
      source.encoding = .utf16 bigEndian := by
  cases hsource : Source.ofBytes buffer with
  | error e =>
    rw [ofDocument_of_source_error hsource] at hranges
    cases hranges
  | ok source =>
    by_cases hwide : ∃ bigEndian, source.encoding = .utf16 bigEndian
    · obtain ⟨bigEndian, hwide⟩ := hwide
      exact ⟨source, bigEndian, rfl, hwide⟩
    · have hunit := Patch.unit_eq_one (not_exists.mp hwide)
      obtain ⟨elements, patched, helements, hsplice⟩ :=
        exists_splice_of_ofDocument hsource hunit hranges
        config.tagsInForce { lead := config.lead, unique := config.uniqueIds }
      exact absurd hsplice (h elements patched helements)

/-- A document that ends a batch does so before anything is written. -/
theorem reports_of_escapes (h : Escapes s path config f) :
    Reports path config write none s (.error f) s := by
  cases h with
  | unusable h => exact .unread (accessed_of_not_usable h _)
  | @unknownEncoding content name husable hread h =>
    exact .unpaired (accessed_eq_ok_iff.mpr ⟨husable, hread⟩)
      (elementsOf_of_range_error (ofDocument_of_source_error h))
  | multiByteEncoding husable hread h =>
    exact .unpaired (accessed_eq_ok_iff.mpr ⟨husable, hread⟩)
      (elementsOf_of_range_error (ofDocument_of_source_error h))
  | disordered husable hread _ _ hranges h =>
    refine .unpaired (f := .pairing _) (accessed_eq_ok_iff.mpr ⟨husable, hread⟩) ?_
    rw [elementsOf_of_ranges hranges, h]
    rfl
  | @misfit content _ _ _ elements misfit husable hread _ _ hranges helements h =>
    have hne : opsFor config content elements ≠ [] := by
      intro hnil
      rw [hnil, Patch.splice_nil] at h
      cases h
    have hprepare : Patch.prepare content (opsFor config content elements)
        (applicationFor path config write none) = .error (.misfit misfit) := by
      unfold Patch.prepare
      rw [h]
      rfl
    refine .applied (accessed_eq_ok_iff.mpr ⟨husable, hread⟩) ?_ (.refused hne hprepare)
    rw [elementsOf_of_ranges hranges, helements]
    rfl

theorem eq_of_blame {f' : Failure} (h : blame r f' = .error f) : f' = f ∧ ∀ e, f ≠ .document e := by
  cases f' with
  | document e => cases h
  | _ =>
    cases h
    exact ⟨rfl, by rintro e ⟨⟩⟩

/-- A document whose elements are not found escapes, unless the error is one that a report can
give. -/
theorem escapes_of_unpaired {content : Bytes} (husable : path.Usable)
    (hread : s.read path = .ok content)
    (h : elementsOf content (toString path) config.tagsInForce = .error f)
    (hnone : ∀ e, f ≠ .document e) :
    Escapes s path config f := by
  cases hranges : TagRange.ofDocument content with
  | error e =>
    rw [elementsOf_of_range_error hranges] at h
    obtain rfl := Except.error.inj h
    cases hsource : Source.ofBytes content with
    | ok source =>
      obtain ⟨fault, line, column, rfl⟩ := fault_of_ofDocument hsource hranges
      exact absurd rfl (hnone _)
    | error e' =>
      obtain rfl := Except.error.inj ((ofDocument_of_source_error hsource).symm.trans hranges)
      cases e' with
      | fault fault line column =>
        obtain ⟨column', heq⟩ := exists_lineOnly_eq fault line column
        rw [heq] at hnone
        exact absurd rfl (hnone _)
      | unknownEncoding name => exact .unknownEncoding husable hread hsource
      | multiByteEncoding name => exact .multiByteEncoding husable hread hsource
  | ok ranges =>
    rw [elementsOf_of_ranges hranges] at h
    cases hfound : trackedElements content config.tagsInForce ranges with
    | ok elements =>
      rw [hfound] at h
      cases h
    | error fault =>
      rw [hfound] at h
      cases h
      obtain ⟨source, bigEndian, hsource, hwide⟩ :=
        exists_wide config hranges fun elements patched h => by
        rw [hfound] at h
        cases h
      exact .disordered husable hread hsource hwide hranges hfound

/-- A document for which nothing can be prepared escapes, unless the error is one that a report
can give. -/
theorem escapes_of_refused {content : Bytes} {elements : List Element} {o : Patch.Application}
    (husable : path.Usable) (hread : s.read path = .ok content)
    (helements : elementsOf content (toString path) config.tagsInForce = .ok elements)
    (hprepare : Patch.prepare content (opsFor config content elements) o = .error f)
    (hnone : ∀ e, f ≠ .document e) : Escapes s path config f := by
  obtain ⟨ranges, htokenize, htracked⟩ := bind_eq_ok_iff.mp helements
  have hranges := mapError_eq_ok_iff.mp htokenize
  have hfound := mapError_eq_ok_iff.mp htracked
  rcases Patch.prepare_eq_error hprepare with ⟨misfit, hsplice, rfl⟩ | ⟨_, _, -, -, -, rfl⟩
  · obtain ⟨source, bigEndian, hsource, hwide⟩ := exists_wide config hranges
      fun elements' patched helements' => by
        obtain rfl := Except.ok.inj (hfound.symm.trans helements')
        rw [hsplice]
        exact fun h => nomatch h
    exact .misfit husable hread hsource hwide hranges hfound hsplice
  · exact absurd rfl (hnone _)

/-- Only a document that escapes ends a batch. -/
theorem escapes_of_reports (hproper : path.Proper)
    (h : Reports path config write none s (.error f) t) :
    Escapes s path config f ∧ t = s := by
  generalize hresult : Except.error f = result at h
  cases h with
  | unread h =>
    obtain ⟨rfl, hnone⟩ := eq_of_blame hresult.symm
    rcases accessed_eq_error h with ⟨hunusable, rfl⟩ | ⟨-, fault, -, rfl⟩
    · exact ⟨.unusable hunusable, rfl⟩
    · exact absurd rfl (hnone _)
  | unpaired hread h =>
    obtain ⟨rfl, hnone⟩ := eq_of_blame hresult.symm
    obtain ⟨husable, hread⟩ := accessed_eq_ok_iff.mp hread
    exact ⟨escapes_of_unpaired husable hread h hnone, rfl⟩
  | @applied content elements result t hread helements happlies =>
    obtain ⟨husable, hread⟩ := accessed_eq_ok_iff.mp hread
    cases result with
    | ok outcome => cases hresult
    | error f' =>
      obtain ⟨rfl, hnone⟩ := eq_of_blame hresult.symm
      cases happlies with
      | refused hne hprepare =>
        exact ⟨escapes_of_refused husable hread helements hprepare hnone, rfl⟩
      | replaced _ _ _ hreplaces =>
        exfalso
        rcases read_of_replaces hproper husable hread hreplaces with
          ⟨p, fault, herror, -⟩ | ⟨outcome, hok, -⟩
        · exact hnone _ (Except.error.inj herror)
        · cases hok

/-! ## Reports -/

/-- The report of a document says what ended the work on it. -/
structure Accounts (s : Store) (path : Path) (config : Config) (write : Bool)
    (r : DocumentReport) : Prop where
  named : r.path = path
  unread : ∀ fault, s.read path = .error fault → r.error = some (.inaccessible path fault.message)
  malformed : ∀ content fault line column, s.read path = .ok content →
    TagRange.ofDocument content = .error (.fault fault line column) →
      r.error =
        some (.malformed (toString path) fault.message (some line) (column.map fun n => (n : Int)))
  unverified : ∀ content elements patched diagnostic, s.read path = .ok content →
    elementsOf content (toString path) config.tagsInForce = .ok elements →
    opsFor config content elements ≠ [] →
      Patch.splice content (opsFor config content elements) = .ok patched → config.verify = true →
        Xml.check patched = .error diagnostic →
        r.error = some (.unverified (toString path) diagnostic)
  /-- The backup or the document cannot be written. -/
  unwritten : ∀ content elements patched, s.read path = .ok content →
    elementsOf content (toString path) config.tagsInForce = .ok elements →
    opsFor config content elements ≠ [] →
      Patch.prepare content (opsFor config content elements)
        (applicationFor path config write none) = .ok patched →
        write = true → ∀ p fault, (p = path ∨ config.backup = true ∧ path.backup? = some p) →
          s.target p = .error fault → ∃ p reason, r.error = some (.inaccessible p reason)

/-- What is written in place is written where its path leads, and the document has been saved. -/
theorem target_of_replaces {content patched : Bytes} {count : Nat} {outcome : Outcome} {p : Path}
    {fault : AccessFault} (hproper : path.Proper) (hread : s.read path = .ok content)
    (hp : p = path ∨ config.backup = true ∧ path.backup? = some p)
    (h : Replaces content patched (applicationFor path config write none) count s (.ok outcome) t) :
    s.target p ≠ .error fault := by
  cases h with
  | written htarget hsaves hwrite =>
    obtain rfl := Except.ok.inj ((target_applicationFor config write hproper).symm.trans htarget)
    rcases hp with rfl | ⟨hbackup, hbak⟩
    · rw [hsaves.target_eq_ok_iff.mp (accessed_eq_ok_iff.mp hwrite).2]
      exact fun h => nomatch h
    · have hsave :=
        savePath_applicationFor config write none hproper (Store.parts_ne_nil_of_read hread)
      rw [if_pos hbackup, hbak] at hsave
      cases hsaves with
      | unwanted h =>
        rw [hsave] at h
        cases h
      | saved h hwrite =>
        obtain rfl := Option.some.inj (Except.ok.inj (hsave.symm.trans h))
        rw [(accessed_eq_ok_iff.mp hwrite).2]
        exact fun h => nomatch h

theorem accounts_of_reports (hproper : path.Proper)
    (h : Reports path config write none s (.ok r) t) :
    Accounts s path config write r := by
  have husable : path.Usable := by
    by_contra hunusable
    have hfails := h.unique (reports_of_escapes (.unusable hunusable))
    cases hfails.1
  have hopens : ∀ {content}, s.read path = .ok content →
      accessed path (s.read path) = .ok content :=
    fun hread => accessed_eq_ok_iff.mpr ⟨husable, hread⟩
  refine ⟨h.path_eq, ?_, ?_, ?_, ?_⟩
  · intro fault hread
    have hfails : accessed path (s.read path) = .error (Run.inaccessible path fault) := by
      rw [accessed_of_usable husable, hread]
      rfl
    obtain ⟨hr, -⟩ := h.unique (.unread hfails)
    obtain rfl := Except.ok.inj hr
    rfl
  · intro content fault line column hread hranges
    obtain ⟨hr, -⟩ := h.unique (.unpaired (hopens hread) (elementsOf_of_range_error hranges))
    obtain rfl := Except.ok.inj hr
    rfl
  · intro content elements patched diagnostic hread helements hne hsplice hverify hcheck
    have hprepare :
        Patch.prepare content (opsFor config content elements)
          (applicationFor path config write none) =
        .error (.document (.unverified (toString path) diagnostic)) := by
      rw [← identity_applicationFor config write hproper]
      exact Patch.prepare_of_check_error hsplice hverify hcheck
    obtain ⟨hr, -⟩ := h.unique (.applied (hopens hread) helements (.refused hne hprepare))
    obtain rfl := Except.ok.inj hr
    rfl
  · intro content elements patched hread helements hne hprepare hwrite p fault hp hfault
    obtain ⟨result, u, hreplaces⟩ :=
      Patch.exists_replaces content patched (applicationFor path config write none)
      (opsFor config content elements).length s
    have hdry : (applicationFor path config write none).dryRun = false := by
      rw [hwrite]
      rfl
    obtain ⟨hr, -⟩ :=
      h.unique (.applied (hopens hread) helements (.replaced hne hprepare hdry hreplaces))
    rcases read_of_replaces hproper husable hread hreplaces with
      ⟨p', fault', rfl, -⟩ | ⟨outcome, rfl, -⟩
    · obtain rfl := Except.ok.inj hr
      exact ⟨p', fault'.message, rfl⟩
    · exact absurd hfault (target_of_replaces hproper hread hp hreplaces)

/-! ## The whole batch -/

/-- **A batch comes to its end if and only if no document escapes.** Then it has one report for
each document, in their order, with the error that ended the work on it. -/
theorem returns_annotateAll (texts : List String) (config : Config) (write : Bool) (s : Session) :
    let paths := texts.map Path.ofString
    let left (first : List Path) : Store := ((annotateAll first config write).exec s).2.store
    (∀ report, ((annotateAll paths config write).exec s).1 = .ok report →
      report.files.map (·.path) = paths ∧ ∀ first path rest, paths = first ++ path :: rest →
        ∃ r, report.files[first.length]? = some r ∧ Accounts (left first) path config write r) ∧
    ((∃ report, ((annotateAll paths config write).exec s).1 = .ok report) ↔
      ∀ first path rest, paths = first ++ path :: rest →
      ∀ f, ¬ Escapes (left first) path config f) := by
  intro paths left
  have hproper : ∀ {first path rest}, paths = first ++ path :: rest → path.Proper := by
    intro first path rest hsplit
    have hmem : path ∈ paths := by simp [hsplit]
    exact Path.proper_of_mem_map hmem
  have hleft : ∀ {first before t}, Processes config write first s.store before t → left first = t :=
    fun h => ((ends_of_processes h).exec_eq s.journal).2
  rcases processes_or_stops paths config write s.store with ⟨rs, u, h⟩ |
      ⟨first, path, rest, before, t, f, u, hsplit, hbefore, hstop⟩
  · have hrun := ((ends_of_processes h).exec_eq s.journal).1
    have hturn : ∀ {first path rest}, paths = first ++ path :: rest →
        ∃ r t', rs[first.length]? = some r ∧
        Reports path config write none (left first) (.ok r) t' := by
      intro first path rest hsplit
      rw [hsplit] at h
      obtain ⟨before, t, r, t', hbefore, hturn, hget⟩ := h.turn
      rw [hleft hbefore]
      exact ⟨r, t', hget, hturn⟩
    refine ⟨fun report hreport => ?_,
      ⟨fun _ first path rest hsplit f hescapes => ?_, fun _ => ⟨⟨rs⟩, hrun⟩⟩⟩
    · obtain rfl := Except.ok.inj (hrun.symm.trans hreport)
      refine ⟨h.paths_eq, fun first path rest hsplit => ?_⟩
      obtain ⟨r, t', hget, hreports⟩ := hturn hsplit
      exact ⟨r, hget, accounts_of_reports (hproper hsplit) hreports⟩
    · obtain ⟨r, t', -, hreports⟩ := hturn hsplit
      cases (hreports.unique (reports_of_escapes hescapes)).1
  · have hrun := ((ends_of_stop hbefore hstop rest).exec_eq s.journal).1
    rw [← hsplit] at hrun
    refine ⟨fun report hreport => ?_, ⟨?_, fun hnone => ?_⟩⟩
    · cases hrun.symm.trans hreport
    · rintro ⟨report, hreport⟩
      cases hrun.symm.trans hreport
    · have hescapes := (escapes_of_reports (hproper hsplit) hstop).1
      rw [← hleft hbefore] at hescapes
      exact absurd hescapes (hnone first path rest hsplit f)

/-- A document that declares an encoding that nobody knows. -/
def foreignDocument : Bytes :=
  Utf8.encode "<?xml version='1.0' encoding='bogus-enc'?><view/>"

/-- Such a document, and one that can be annotated. -/
def foreignScene : Store where
  entries := [(["a.xib"], .file foreignDocument), (["b.xib"], .file (Utf8.encode "<view></view>"))]

theorem find?_bogus : Xml.Charset.find? "bogus-enc" = none := by
  have hkey : Xml.Charset.normalize "bogus-enc" = "bogus_enc" := by decide +kernel
  have hspelled : ("bogus_enc".map fun c => if c == '.' then '_' else c) = "bogus_enc" := by
    decide +kernel
  have haliases : Xml.Charset.all.find? (·.aliases.contains "bogus_enc") = none := by
    rw [List.find?_eq_none]
    decide +kernel
  have hnames : Xml.Charset.all.find? (·.names.contains "bogus_enc") = none := by
    rw [List.find?_eq_none]
    decide +kernel
  unfold Xml.Charset.find?
  simp only [hkey, hspelled, haliases, hnames, ite_self]
  rfl

theorem ofBytes_foreignDocument :
    Source.ofBytes foreignDocument = .error (.unknownEncoding "bogus-enc") := by
  have hsniff : Encoding.sniff foreignDocument = some (.utf8, 0) := by decide +kernel
  have hnamed : Encoding.utf8.named? "bogus-enc" = none := by decide +kernel
  have hdeclared :
      ((Source.declarationBody? (Source.leadingChars 0 (Encoding.utf8.decode foreignDocument))).map
      fun (p : List Xml.Placed × Nat) => (Xml.Declaration.ofBody p.2 p.1).map
        fun (d : Xml.Declaration) => d.encoding.map Prod.fst) = some (.ok (some "bogus-enc")) := by
    decide +kernel
  obtain ⟨⟨declared, stop⟩, hbody, hdeclared⟩ := Option.map_eq_some_iff.mp hdeclared
  obtain ⟨declaration, hdeclaration, hname⟩ := map_eq_ok_iff.mp hdeclared
  obtain ⟨⟨name, pos⟩, hencoding, rfl⟩ := Option.map_eq_some_iff.mp hname
  unfold Source.ofBytes
  simp only [hsniff, if_true, hbody, hdeclaration, hencoding, Source.declaredEncoding, hnamed,
    find?_bogus]
  rfl

/-- The document in an unknown encoding ends the batch, with a failure that is no error of a
document. The other one does not have its turn. -/
theorem foreignScene_ends_batch :
    ((annotateAll [.ofString "a.xib", .ofString "b.xib"] {} true).exec ⟨foreignScene, []⟩).1 =
      .error (.unknownEncoding "bogus-enc") ∧
    ((annotateAll [.ofString "a.xib", .ofString "b.xib"] {} true).exec ⟨foreignScene, []⟩).2.store =
      foreignScene := by
  have husable : (Path.ofString "a.xib").Usable := by
    rw [Path.usable_iff]
    decide +kernel
  have hread : foreignScene.read (.ofString "a.xib") = .ok foreignDocument := by decide +kernel
  have hstop :
      Reports (.ofString "a.xib") {} true none foreignScene (.error (.unknownEncoding "bogus-enc"))
      foreignScene :=
    reports_of_escapes (.unknownEncoding husable hread ofBytes_foreignDocument)
  have hends := ends_of_stop .nil hstop [.ofString "b.xib"]
  rw [List.nil_append] at hends
  exact hends.exec_eq []

end AccessPatch
