import AccessPatch.Annotation
import AccessPatch.Command.Arguments

/-!
# Scanning from the command line

`Scan.run` lists the tracked elements of documents and says which of them have annotations.
-/

namespace AccessPatch.Command

/-- How a command ends. -/
inductive Exit where
  | success
  | failure
  /-- The arguments cannot be understood. -/
  | usage
deriving DecidableEq, Repr

def Exit.code : Exit → Nat
  | success => 0
  | failure => 1
  | usage => 2

/-- The configuration of a command, or none after its error was printed. -/
def loadOrReport (path : Option Path) : Run (Option Config) :=
  tryCatch (some <$> readConfig path) fun failure =>
    match failure with
    | .configuration (.config e) => do
      Run.printError ("Error: " ++ e.message)
      return none
    | failure => throw failure

/-- The documents that a command works on: one file, or those below a directory. -/
def documentsFor (root : Path) (file : Option Path) (config : Config) : Run (List Path) := do
  match file with
  | some file => return [file]
  | none => do
    let files ← discover root config.patterns
    if files = [] then Run.print ("No documents found under " ++ toString root)
    return files

/-- Prints the error of a document. -/
def printFailed (report : DocumentReport) (e : DocumentError) : Run Unit :=
  Run.printError ("Error processing " ++ toString report.path ++ ": " ++ e.message)

namespace Scan

inductive Flag where
  | file
  | allowlist
  | config
  | json
  | verbose
  | help
deriving DecidableEq, Repr

def forms : List (OptionForm Flag) :=
  [{ option := .file, long := "--file", short := some 'f', takesValue := true },
   { option := .allowlist, long := "--allowlist", takesValue := true },
   { option := .config, long := "--config", short := some 'c', takesValue := true },
   { option := .json, long := "--json" },
   { option := .verbose, long := "--verbose" },
   { option := .help, long := "--help" }]

/-- What is to be scanned, and how the result is shown. -/
structure Options where
  root : Path := {}
  file : Option Path := none
  allowlist : Option String := none
  config : Option Path := none
  json : Bool := false
  verbose : Bool := false
deriving DecidableEq, Repr

def Options.ofArguments (a : Arguments Flag) : Options where
  root := Path.ofString (a.positional.head?.getD ".")
  file := (a.value? .file).map Path.ofString
  allowlist := a.value? .allowlist
  config := (a.value? .config).map Path.ofString
  json := a.has .json
  verbose := a.has .verbose

/-- The paths that the options name, the root of a search included. -/
def Options.paths (o : Options) : List Path :=
  o.file.getD o.root :: o.config.toList

/-- A report as JSON. -/
def reportJson (r : DocumentReport) : Json :=
  match r.error with
  | some e => .object [("file", .text (toString r.path)), ("error", .text e.message)]
  | none =>
    .object [("file", .text (toString r.path)),
      ("elements", .array (r.elements.map Element.toJson))]

/-- Prints a report as text. -/
def printReport (r : DocumentReport) : Run Unit := do
  match r.error with
  | some e => printFailed r e
  | none => do
    let (missing, annotated) := Patch.splitAnnotated r.elements
    Run.print (toString r.path ++ ": " ++ toString r.elements.length ++ " tracked, " ++
      toString annotated.length ++ " annotated, " ++ toString missing.length ++ " missing")
    r.elements.forM fun e =>
      Run.print ("  - " ++ toString e ++ (if e.annotated then " [annotated]" else " [missing]"))

/-- Scans the documents that the options ask for. -/
def run (o : Options) : Run Exit := do
  match ← loadOrReport o.config with
  | none => return .failure
  | some config => do
    let config := config.overriddenBy { allowlist := TagSet.ofCommas? o.allowlist }
    let files ← documentsFor o.root o.file config
    let reports ← files.mapM fun file => surveyDocument file config
    if o.json then Run.print (Json.array (reports.map reportJson)).render
    else reports.forM printReport
    return if reports.all (·.succeeded) then .success else .failure

end Scan

end AccessPatch.Command
