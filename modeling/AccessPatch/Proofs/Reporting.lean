import AccessPatch.Annotation
import AccessPatch.Proofs.Applying

/-!
# What comes of one document

`Reports` says all that `annotateDocument` can do from a store: the document cannot be read, its
elements cannot be found, or the plan is applied. An error that concerns the document goes into
the report (`blame`), and any other failure ends the run. Every run is one of these
(`exists_reports`, `ends_of_reports`).
-/

namespace AccessPatch

open Patch (Applies Outcome)
open Run (Ends accessed)

/-- The report with the error that ended the work on its document. -/
def blame (report : DocumentReport) : Failure → Except Failure DocumentReport
  | .document e => .ok { report with error := some e }
  | f => .error f

/-- The report after the operations were applied. -/
def conclude (report : DocumentReport) : Except Failure Outcome → Except Failure DocumentReport
  | .ok outcome => .ok { report with outcome := some outcome }
  | .error f => blame report f

/-- How the operations for a document are applied. -/
def applicationFor (path : Path) (config : Config) (write : Bool) (out : Option String) :
    Patch.Application where
  source := some (toString path)
  out := out
  dryRun := ! write
  backup := config.backup
  verify := config.verify

/-- The operations for a document. -/
def opsFor (config : Config) (content : Bytes) (elements : List Element) : List Patch.Op :=
  Patch.planDetected content elements { lead := config.lead, unique := config.uniqueIds }

/-- What annotating a document comes to, from one store to another. -/
inductive Reports (path : Path) (config : Config) (write : Bool) (out : Option String) (s : Store) :
    Except Failure DocumentReport → Store → Prop
  | unread {f : Failure} (h : accessed path (s.read path) = .error f) :
      Reports path config write out s (blame { path } f) s
  | unpaired {content : Bytes} {f : Failure} (hread : accessed path (s.read path) = .ok content)
      (h : elementsOf content (toString path) config.tagsInForce = .error f) :
      Reports path config write out s (blame { path, content } f) s
  | applied {content : Bytes} {elements : List Element}
      {result : Except Failure Outcome} {t : Store}
      (hread : accessed path (s.read path) = .ok content)
      (helements : elementsOf content (toString path) config.tagsInForce = .ok elements)
      (happlies : Applies content (opsFor config content elements)
        (applicationFor path config write out) s
        result t) :
      Reports path config write out s
        (conclude { path, content, elements, ops := opsFor config content elements } result) t

variable {path : Path} {config : Config} {write : Bool} {out : Option String} {s t u : Store}
  {r : DocumentReport} {f : Failure}

/-! ## Annotating in place -/

theorem target_applicationFor (config : Config) (write : Bool) (h : path.Proper) :
    (applicationFor path config write none).target = .ok path := by
  show Except.ok (Path.ofString (toString path)) = .ok path
  rw [Path.ofString_toString h]

theorem toString_ne_empty (h : path.Proper) : toString path ≠ "" := by
  intro hempty
  have hpath := Path.ofString_toString h
  rw [hempty] at hpath
  rw [← hpath] at hempty
  exact absurd hempty (by decide)

theorem identity_applicationFor (config : Config) (write : Bool) (h : path.Proper) :
    (applicationFor path config write none).identity = toString path := by
  have hfind : [toString path].find? (fun text => decide (text ≠ "")) = some (toString path) :=
    List.find?_cons_of_pos (decide_eq_true (toString_ne_empty h))
  show ([toString path].find? fun text => decide (text ≠ "")).getD "<buffer>" = toString path
  rw [hfind]
  rfl

/-- A document is saved beside itself, if the configuration says so. -/
theorem savePath_applicationFor (config : Config) (write : Bool) (out : Option String)
    (h : path.Proper) (hparts : path.parts ≠ []) :
    (applicationFor path config write out).savePath =
      .ok (if config.backup then path.backup? else none) := by
  obtain ⟨bak, hbak⟩ := Path.exists_backup? hparts
  show (if config.backup then _ else _) = _
  by_cases hbackup : config.backup = true
  · rw [if_pos hbackup, if_pos hbackup, Path.ofString_toString h, hbak]
  · rw [if_neg hbackup, if_neg hbackup]

theorem backup?_of_savePath {bak : Path} (h : path.Proper)
    (hsave : (applicationFor path config write out).savePath = .ok (some bak)) :
    path.backup? = some bak := by
  obtain ⟨-, source, hsource, hbak⟩ := Patch.savesTo_iff.mpr hsave
  obtain rfl := Option.some.inj hsource
  rwa [Path.ofString_toString h] at hbak

/-! ## Every run -/

theorem exists_reports (path : Path) (config : Config) (write : Bool) (out : Option String)
    (s : Store) :
    ∃ result t, Reports path config write out s result t := by
  cases hread : accessed path (s.read path) with
  | error f => exact ⟨_, _, .unread hread⟩
  | ok content =>
    cases helements : elementsOf content (toString path) config.tagsInForce with
    | error f => exact ⟨_, _, .unpaired hread helements⟩
    | ok elements =>
      obtain ⟨result, t, happlies⟩ := Patch.exists_applies content (opsFor config content elements)
        (applicationFor path config write out) s
      exact ⟨_, _, .applied hread helements happlies⟩

/-- Finding elements changes nothing, whatever comes of it. -/
theorem ends_findElements (buffer : Bytes) (identity : String) (tags : List String) (s : Store) :
    Ends (findElements buffer identity tags) s (elementsOf buffer identity tags) s := by
  unfold findElements elementsOf
  cases tokenize buffer identity with
  | error f => exact (Run.ends_ofExcept_error rfl s).bind_error
  | ok ranges =>
    refine (Run.ends_ofExcept_ok rfl s).bind ((Run.ends_note _ s).bind ?_)
    show Ends _ s ((trackedElements buffer tags ranges).mapError .pairing) s
    cases trackedElements buffer tags ranges with
    | error fault => exact (Run.ends_ofExcept_error rfl s).bind_error
    | ok elements =>
      exact (Run.ends_ofExcept_ok rfl s).bind ((Run.ends_note _ s).bind (Run.ends_pure _ s))

theorem ends_failWith (report : DocumentReport) (e : DocumentError) (s : Store) :
    Ends (failWith report e) s (.ok { report with error := some e }) s :=
  (Run.ends_note _ s).bind (Run.ends_pure _ s)

/-- What concerns the document goes into its report, and any other failure ends the run. -/
theorem ends_of_caught_error {α : Type} {action : Run α}
    {next : Except DocumentError α → Run DocumentReport} {report : DocumentReport} {f : Failure}
    (h : Ends action s (.error f) t) (hnext : ∀ e, next (.error e) = failWith report e) :
    Ends (Run.catchDocument action >>= next) s (blame report f) t := by
  have hcaught := h.catchDocument
  cases f with
  | document e =>
    refine hcaught.bind ?_
    rw [hnext]
    exact ends_failWith report e t
  | _ => exact hcaught.bind_error

theorem ends_of_reports {result : Except Failure DocumentReport}
    (h : Reports path config write out s result t) :
    Ends (annotateDocument path config write out) s result t := by
  have hcontent := Run.ends_contentOf path s
  unfold annotateDocument
  cases h with
  | unread h =>
    rw [h] at hcontent
    exact ends_of_caught_error hcontent fun e => rfl
  | @unpaired content f hread h =>
    rw [hread] at hcontent
    have hfind := ends_findElements content (toString path) config.tagsInForce s
    rw [h] at hfind
    exact hcontent.catchDocument.bind (ends_of_caught_error hfind fun e => rfl)
  | @applied content elements result t hread helements happlies =>
    rw [hread] at hcontent
    have hfind := ends_findElements content (toString path) config.tagsInForce s
    rw [helements] at hfind
    have hplan := (returns_planAnnotations content elements
      { lead := config.lead, unique := config.uniqueIds }).ends s
    have happly := Patch.ends_of_applies happlies
    refine hcontent.catchDocument.bind (hfind.catchDocument.bind (hplan.bind ?_))
    cases result with
    | error f => exact ends_of_caught_error happly fun e => rfl
    | ok outcome => exact happly.catchDocument.bind (Run.ends_pure _ t)

theorem path_of_blame {r₀ : DocumentReport} (h : blame r₀ f = .ok r) : r.path = r₀.path := by
  cases f with
  | document e =>
    cases h
    rfl
  | _ => cases h

theorem Reports.path_eq {out : Option String} (h : Reports path config write out s (.ok r) t) :
    r.path = path := by
  generalize hresult : Except.ok r = result at h
  cases h with
  | unread _ => exact path_of_blame hresult.symm
  | unpaired _ _ => exact path_of_blame hresult.symm
  | @applied _ _ result _ _ _ _ =>
    cases result with
    | ok outcome =>
      cases hresult
      rfl
    | error f => exact path_of_blame hresult.symm

theorem Reports.unique {result result' : Except Failure DocumentReport} {out : Option String}
    (h : Reports path config write out s result t)
    (h' : Reports path config write out s result' u) :
    result = result' ∧ t = u :=
  (ends_of_reports h).unique (ends_of_reports h')

end AccessPatch
