import AccessPatch.Report

/-!
# Annotating documents

`surveyDocument` finds the elements of one document and `annotateDocument` gives them annotations;
both report an error that concerns it. `annotateAll` works on several documents, one after the
other. Other failures end the run.
-/

namespace AccessPatch

/-- Finds the tracked elements of a document. -/
def surveyDocument (path : Path) (config : Config) : Run DocumentReport := do
  match ← Run.catchDocument (readElements path config.tagsInForce) with
  | .ok (content, elements) => return { path, content, elements }
  | .error e => do
    Run.note (.scanFailed path e.message)
    return { path, error := some e }

/-- A report with the error that ended the work on its document. -/
def failWith (report : DocumentReport) (e : DocumentError) : Run DocumentReport := do
  Run.note (.patchFailed report.path e.message)
  return { report with error := some e }

/-- Plans the annotations of a document and applies the plan: in place, or to `out`. Nothing is
written unless `write` is set. -/
def annotateDocument (path : Path) (config : Config) (write : Bool) (out : Option String := none) :
    Run DocumentReport := do
  match ← Run.catchDocument (Run.contentOf path) with
  | .error e => failWith { path } e
  | .ok content =>
    match ← Run.catchDocument (findElements content (toString path) config.tagsInForce) with
    | .error e => failWith { path, content } e
    | .ok elements =>
      let naming : Patch.Naming := { lead := config.lead, unique := config.uniqueIds }
      let ops ← planAnnotations content elements naming
      let application : Patch.Application :=
        { source := some (toString path), out, dryRun := ! write
          backup := config.backup, verify := config.verify }
      match ← Run.catchDocument (Patch.apply content ops application) with
      | .error e => failWith { path, content, elements, ops } e
      | .ok outcome => return { path, content, elements, ops, outcome := some outcome }

/-- Annotates documents in place, one after the other. -/
def annotateAll (paths : List Path) (config : Config) (write : Bool) : Run RunReport := do
  return ⟨← paths.mapM fun path => annotateDocument path config write⟩

/-- The files below a directory that are documents. -/
def discover (root : Path) (patterns : List String) : Run (List Path) := do
  Run.ofExcept .discovery ((← get).store.discover root patterns)

/-- Writes a report as JSON. -/
def writeReport (report : RunReport) (path : Path) : Run Path := do
  Run.writeFile path (Utf8.encode report.toJson.render)
  return path

/-- Reads a configuration file; without one the configuration is the default. -/
def readConfig (path : Option Path) : Run Config := do
  match path with
  | none => return {}
  | some path => do
    Run.checkUsable path
    let unreadable (fault : AccessFault) : Failure :=
      .configuration (.config { problem := .unreadable fault, source := some path })
    let content ← Run.ofExcept unreadable ((← get).store.read path)
    let entries ← Run.ofExcept .configuration (Config.entriesOfBytes path content)
    Run.note (.loadedConfig path)
    Run.ofExcept .configuration (Config.ofEntries path entries)

end AccessPatch
