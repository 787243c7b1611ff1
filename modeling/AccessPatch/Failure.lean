import AccessPatch.Config.Mapping
import AccessPatch.Patch.Splice
import AccessPatch.Store.Discover
import AccessPatch.Tag.Reading
import AccessPatch.Tag.Pairing

/-!
# Failures

A `DocumentError` concerns one document: a run over many notes it and goes on. Every other
`Failure` ends the run.
-/

namespace AccessPatch

/-- What is wrong with one document. -/
inductive DocumentError where
  /-- It is not well-formed; line and column are given where they are known. -/
  | malformed (identity reason : String) (line column : Option Int)
  /-- It, its backup or its output cannot be read or written. -/
  | inaccessible (path : Path) (reason : String)
  /-- It would not be well-formed after patching. -/
  | unverified (identity diagnostic : String)
deriving DecidableEq, Repr

namespace DocumentError

/-- The line and column of a fault, in parentheses after the message. -/
def positionText (line column : Option Int) : String :=
  match line with
  | none => ""
  | some line =>
    " (line " ++ toString line ++
      (match column with
        | none => ""
        | some column => ", column " ++ toString column) ++ ")"

def message : DocumentError → String
  | malformed identity reason line column =>
    "XML parse error in " ++ identity ++ ": " ++ reason ++ positionText line column
  | inaccessible path reason => "Cannot access " ++ toString path ++ ": " ++ reason
  | unverified identity diagnostic =>
    "Patched output for " ++ identity ++ " is not well-formed: " ++ diagnostic ++
      "\n\nNo files were written."

end DocumentError

/-- Why a run over documents ends early, or an operation has no answer. -/
inductive Failure where
  | document (e : DocumentError)
  | pairing (fault : Pairing.Fault)
  | misfit (misfit : Patch.Misfit)
  /-- The document declares a character set that is not known. -/
  | unknownEncoding (name : String)
  /-- The document declares a character set that cannot be read byte by byte. -/
  | multiByteEncoding (name : String)
  /-- A patched document is to be written, and no place for it is given. -/
  | noDestination
  /-- A path without a last component cannot have a backup beside it. -/
  | namelessPath (path : Path)
  /-- A path holds the character with number zero. -/
  | unusablePath (path : Path)
  | configuration (fault : LoadFault)
  | discovery (fault : DiscoveryFault)
deriving DecidableEq, Repr

namespace Failure

/-- A failure of reading the document called `identity`. -/
def ofRead (identity : String) : Xml.ReadError → Failure
  | .fault fault line column =>
    .document (.malformed identity fault.message (some line) (column.map fun n => (n : Int)))
  | .unknownEncoding name => .unknownEncoding name
  | .multiByteEncoding name => .multiByteEncoding name

def message : Failure → String
  | document e => e.message
  | pairing .unmatchedClose => "an element ends where none is open"
  | pairing (.disordered tag start openEnd closeStart stop) =>
    "Inconsistent offsets for <" ++ tag ++ ">: " ++
      ", ".intercalate ([start, openEnd, closeStart, stop].map toString)
  | misfit m => m.message
  | unknownEncoding name => (Xml.ReadError.unknownEncoding name).message
  | multiByteEncoding name => (Xml.ReadError.multiByteEncoding name).message
  | noDestination => "Writing a patched buffer requires source_path or out_path"
  | namelessPath path => toString path ++ " has an empty name"
  | unusablePath path => toString path ++ " cannot be a path"
  | configuration (.config e) => e.message
  | configuration .undecodable => "the configuration is not UTF-8"
  | configuration .keyNotText => "a key of the configuration is no text"
  | configuration (.scalar fault) => (Yaml.Fault.value fault).message
  | configuration (.noSuchCharacter code) => (Yaml.Fault.noSuchCharacter code).message
  | discovery (.pattern fault) => fault.message
  | discovery (.access fault) => fault.message

end Failure

end AccessPatch
