import AccessPatch.Command.Annotate

/-!
# The program

`Program.execute` runs a command line on a store: the options of the program, a command, and the
options of that command.
-/

namespace AccessPatch.Command

namespace Program

inductive Flag where
  | version
  | help
deriving DecidableEq, Repr

def forms : List (OptionForm Flag) :=
  [{ option := .version, long := "--version", short := some 'v' },
   { option := .help, long := "--help" }]

/-- What a command line asks for. -/
inductive Request where
  | version
  | help
  | scan (options : Scan.Options)
  | patch (options : Annotate.Options)
deriving DecidableEq, Repr

/-- Whether notes about the work are wanted. -/
def Request.verbose : Request → Bool
  | version | help => false
  | scan o => o.verbose
  | patch o => o.verbose

/-- The paths that a request is about. -/
def Request.paths : Request → List Path
  | version | help => []
  | scan o => o.paths
  | patch o => o.paths

/-- The version and a short description, for the two requests that need no document. -/
def versionText : String := "parsenode version 0.1.0"

def helpText : String :=
  "Usage: parsenode [OPTIONS] COMMAND [ARGS]...\n\n" ++
    "Insert accessibility annotations into storyboards and xibs.\n\n" ++
    "Commands:\n" ++
    "  scan   List tracked elements and whether they are already annotated.\n" ++
    "  patch  Insert missing accessibility annotations (dry run unless --apply)."

/-- Fails if there is more than one positional argument. -/
def checkPositional (positional : List String) : Except UsageFault Unit :=
  match positional with
  | _ :: second :: more => .error (.unexpectedArgument (" ".intercalate (second :: more)))
  | _ => .ok ()

/-- Reads the arguments of a command. -/
def readCommand (name : String) (args : List String) : Except UsageFault Request :=
  if name = "scan" then do
    let a ← Arguments.read Scan.forms true args
    if a.has .help then return .help
    checkPositional a.positional
    return .scan (.ofArguments a)
  else if name = "patch" then do
    let a ← Arguments.read Annotate.forms true args
    if a.has .help then return .help
    checkPositional a.positional
    return .patch (.ofArguments a)
  else .error (.unknownCommand name)

/-- Reads a command line. -/
def readRequest (args : List String) : Except UsageFault Request := do
  let a ← Arguments.read forms false args
  match a.options.head? with
  | some (.version, _) => return .version
  | some (.help, _) => return .help
  | none =>
    match a.positional with
    | [] => throw .missingCommand
    | name :: rest => readCommand name rest

/-- Carries out a request. -/
def perform : Request → Run Exit
  | .version => do
    Run.print versionText
    return .success
  | .help => do
    Run.print helpText
    return .success
  | .scan o => Scan.run o
  | .patch o => Annotate.run o

/-- What came of a command line. -/
structure Execution where
  exit : Exit
  output : String
  errors : String
  /-- The failure that ended the command early. -/
  failure : Option Failure := none
  store : Store
deriving DecidableEq, Repr

/-- Runs a command line on a store. -/
def execute (store : Store) (args : List String) : Execution :=
  match readRequest args with
  | .error fault => { exit := .usage, output := "", errors := fault.message ++ "\n", store }
  | .ok request =>
    let (result, session) := Run.exec (perform request) { store }
    let output := session.journal.output
    let errors := session.journal.errors request.verbose
    match result with
    | .ok exit => { exit, output, errors, store := session.store }
    | .error failure =>
      { exit := .failure, output, errors, failure := some failure, store := session.store }

end Program

end AccessPatch.Command
