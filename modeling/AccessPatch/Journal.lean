import AccessPatch.Lines
import AccessPatch.Store.Path

/-!
# The journal of a run

A run keeps a journal of what it prints and of what is worth noting about it. `Journal.output` and
`Journal.errors` are the two texts that a reader of the run sees; notes go to the second, all of
them if the run is verbose, else only the warnings.
-/

namespace AccessPatch

/-- Something worth noting. -/
inductive Note where
  | tokenized (identity : String) (spans : Nat)
  | tracked (identity : String) (elements : Nat)
  | planned (ops candidates : Nat)
  /-- The document mixes line terminators, and one of them is used. -/
  | mixedNewlines (used : Newline)
  | nothingToApply (identity : String)
  | savedBackup (path : Path)
  | wrote (ops : Nat) (path : Path)
  | scanFailed (path : Path) (reason : String)
  | patchFailed (path : Path) (reason : String)
  | loadedConfig (path : Path)
deriving DecidableEq, Repr

namespace Note

/-- A line terminator as bytes are written in a text. -/
def newlineText : Newline → String
  | .lf => "b'\\n'"
  | .cr => "b'\\r'"
  | .crlf => "b'\\r\\n'"

def isWarning : Note → Bool
  | mixedNewlines _ => true
  | _ => false

/-- The part of the program that makes the note. -/
def topic : Note → String
  | tokenized .. => "parsenode.spans"
  | tracked .. => "parsenode.tracker"
  | planned .. | mixedNewlines _ => "parsenode.planner"
  | nothingToApply _ | savedBackup _ | wrote .. => "parsenode.applier"
  | scanFailed .. | patchFailed .. => "parsenode.batch"
  | loadedConfig _ => "parsenode.config"

def message : Note → String
  | tokenized identity spans => "Tokenized " ++ identity ++ ": " ++ toString spans ++ " tag spans"
  | tracked identity elements =>
    "Parsed " ++ identity ++ ": " ++ toString elements ++ " tracked elements"
  | planned ops candidates =>
    "Planned " ++ toString ops ++ " insertions for " ++ toString candidates ++ " candidates"
  | mixedNewlines used =>
    "Document mixes line terminators; inserting with " ++ newlineText used
  | nothingToApply identity => "No patch operations for " ++ identity
  | savedBackup path => "Wrote backup " ++ toString path
  | wrote ops path => "Wrote " ++ toString ops ++ " insertions to " ++ toString path
  | scanFailed path reason => "Failed to scan " ++ toString path ++ ": " ++ reason
  | patchFailed path reason => "Failed to process " ++ toString path ++ ": " ++ reason
  | loadedConfig path => "Loaded configuration from " ++ toString path

/-- The line for a note: with level and topic if the run is verbose, else a warning by itself. -/
def line (verbose : Bool) (n : Note) : String :=
  if verbose then
    (if n.isWarning then "WARNING " else "DEBUG ") ++ n.topic ++ ": " ++ n.message ++ "\n"
  else if n.isWarning then n.message ++ "\n"
  else ""

end Note

/-- What a run leaves behind for its reader. -/
inductive Remark where
  | output (text : String)
  | error (text : String)
  | note (note : Note)
deriving DecidableEq, Repr

/-- The remarks of a run, in order. -/
abbrev Journal := List Remark

namespace Journal

/-- What the run prints. -/
def output (j : Journal) : String :=
  String.join (j.map fun r => match r with
    | .output text => text
    | _ => "")

/-- What the run prints about errors, and its notes. -/
def errors (j : Journal) (verbose : Bool) : String :=
  String.join (j.map fun r => match r with
    | .error text => text
    | .note note => note.line verbose
    | .output _ => "")

/-- The number of warnings. -/
def warnings (j : Journal) : Nat :=
  j.countP fun r => match r with
    | .note note => note.isWarning
    | _ => false

end Journal

end AccessPatch
