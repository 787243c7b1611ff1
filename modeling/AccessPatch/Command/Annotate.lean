import AccessPatch.Command.Scan
import AccessPatch.Diff.Unified

/-!
# Patching from the command line

`Annotate.run` adds the missing annotations to documents, or only shows what it would add.
-/

namespace AccessPatch.Command.Annotate

inductive Flag where
  | file
  | write
  | out
  | noBackup
  | report
  | lead
  | allowlist
  | uniqueIds
  | diff
  | config
  | verbose
  | help
deriving DecidableEq, Repr

def forms : List (OptionForm Flag) :=
  [{ option := .file, long := "--file", short := some 'f', takesValue := true },
   { option := .write, long := "--apply" },
   { option := .out, long := "--out", short := some 'o', takesValue := true },
   { option := .noBackup, long := "--no-backup" },
   { option := .report, long := "--report", short := some 'r', takesValue := true },
   { option := .lead, long := "--prefix", takesValue := true },
   { option := .allowlist, long := "--allowlist", takesValue := true },
   { option := .uniqueIds, long := "--unique-ids" },
   { option := .diff, long := "--diff" },
   { option := .config, long := "--config", short := some 'c', takesValue := true },
   { option := .verbose, long := "--verbose" },
   { option := .help, long := "--help" }]

/-- What is to be patched, and how. -/
structure Options where
  root : Path := {}
  file : Option Path := none
  /-- Whether anything is written. -/
  write : Bool := false
  /-- Where the result for the one file goes. -/
  out : Option Path := none
  noBackup : Bool := false
  /-- Where a report goes. -/
  report : Option Path := none
  lead : Option String := none
  allowlist : Option String := none
  uniqueIds : Bool := false
  diff : Bool := false
  config : Option Path := none
  verbose : Bool := false
deriving DecidableEq, Repr

def Options.ofArguments (a : Arguments Flag) : Options where
  root := Path.ofString (a.positional.head?.getD ".")
  file := (a.value? .file).map Path.ofString
  write := a.has .write
  out := (a.value? .out).map Path.ofString
  noBackup := a.has .noBackup
  report := (a.value? .report).map Path.ofString
  lead := a.value? .lead
  allowlist := a.value? .allowlist
  uniqueIds := a.has .uniqueIds
  diff := a.has .diff
  config := (a.value? .config).map Path.ofString
  verbose := a.has .verbose

/-- The paths that the options name, the root of a search included. -/
def Options.paths (o : Options) : List Path :=
  o.file.getD o.root :: (o.out.toList ++ o.report.toList ++ o.config.toList)

/-- The settings that the options replace. -/
def Options.overrides (o : Options) : Config.Overrides where
  lead := o.lead
  allowlist := TagSet.ofCommas? o.allowlist
  backup := if o.noBackup then some false else none
  uniqueIds := if o.uniqueIds then some true else none

/-- Prints a report, and the difference if asked for. -/
def printReport (r : DocumentReport) (diff : Bool) : Run Unit := do
  match r.error with
  | some e => printFailed r e
  | none => do
    Run.print ("\n" ++ toString r)
    r.ops.forM fun op =>
      Run.print ("  - " ++ op.source.tag ++ " lines " ++ toString op.source.startLine ++ "-" ++
        toString op.source.endLine ++ " [" ++ op.source.namingAttribute?.getD "no id" ++ "]")
    match r.outcome with
    | some outcome =>
      if outcome.applied = 0 then pure ()
      else
        Run.print ("  " ++ toString outcome)
        if diff then Run.print (Diff.unified r.content outcome.patched (toString r.path))
    | none => pure ()

/-- Patches one document and prints what was done. -/
def patchOne (o : Options) (config : Config) (file : Path) : Run DocumentReport := do
  let report ← annotateDocument file config o.write (o.out.map toString)
  printReport report o.diff
  return report

/-- Patches the documents that the options ask for. -/
def run (o : Options) : Run Exit := do
  if o.out.isSome ∧ o.file.isNone then
    Run.printError "Error: --out requires --file"
    return .failure
  else match ← loadOrReport o.config with
    | none => return .failure
    | some config => do
      let config := config.overriddenBy o.overrides
      let files ← documentsFor o.root o.file config
      let all : RunReport := ⟨← files.mapM (patchOne o config)⟩
      if let some path := o.report then
        discard (writeReport all path)
        Run.print ("Report written to " ++ toString path)
      Run.print ("\n" ++ (if o.write then "Applied" else "Dry run") ++ ": " ++ toString all)
      return if all.failed = [] then .success else .failure

end AccessPatch.Command.Annotate
