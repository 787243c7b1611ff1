import AccessPatch.Config.Basic
import AccessPatch.Store.Basic
import AccessPatch.Yaml.Value

/-!
# Configuration files

`Config.ofMapping` takes the settings from a mapping; `Config.entriesOfBytes` finds the mapping in
a file. Unknown keys are reported before any value is looked at; of the values the first bad one
is reported.
-/

namespace AccessPatch

open Yaml (Value)

/-- What is wrong with a configuration. -/
inductive ConfigProblem where
  | unknownKeys (keys : List String)
  | noTags
  | notText (key : String)
  | notBoolean (key : String)
  | notTexts (key : String)
  | unreadable (fault : AccessFault)
  | invalid (fault : Yaml.Fault)
  | notMapping
deriving DecidableEq, Repr

def ConfigProblem.message : ConfigProblem → String
  | unknownKeys keys => "Unknown configuration keys: " ++ ", ".intercalate keys
  | noTags => "'tracked_tags' must not be empty"
  | notText key => "'" ++ key ++ "' must be a string"
  | notBoolean key => "'" ++ key ++ "' must be true or false"
  | notTexts key => "'" ++ key ++ "' must be a list of strings"
  | unreadable fault => "Cannot read configuration: " ++ fault.message
  | invalid fault => "Invalid YAML: " ++ fault.message
  | notMapping => "Configuration must be a mapping"

/-- A problem with a configuration, and the file that it comes from, if there is one. -/
structure ConfigError where
  problem : ConfigProblem
  source : Option Path := none
deriving DecidableEq, Repr

namespace ConfigError

/-- A message after the file that it concerns. -/
def messageIn (source : Option Path) (message : String) : String :=
  match source with
  | none => message
  | some path => toString path ++ ": " ++ message

def message (e : ConfigError) : String :=
  messageIn e.source e.problem.message

end ConfigError

/-- Why no configuration can be had from a file. -/
inductive LoadFault where
  | config (e : ConfigError)
  /-- The file is not UTF-8. -/
  | undecodable
  /-- A key of the mapping is no text. -/
  | keyNotText
  /-- A scalar is no value of the type written before it, or of the type that its form announces. -/
  | scalar (fault : Yaml.ValueFault)
  /-- An escape asks for a character that does not exist. -/
  | noSuchCharacter (code : Nat)
deriving DecidableEq, Repr

namespace Config

/-- The names of the settings. -/
inductive Key where
  | trackedTags
  | allowlist
  | lead
  | patterns
  | backup
  | uniqueIds
  | verify
deriving DecidableEq, Repr

namespace Key

def all : List Key :=
  [trackedTags, allowlist, lead, patterns, backup, uniqueIds, verify]

def name : Key → String
  | trackedTags => "tracked_tags"
  | allowlist => "allowlist"
  | lead => "prefix"
  | patterns => "patterns"
  | backup => "backup"
  | uniqueIds => "unique_ids"
  | verify => "verify"

def ofName? (s : String) : Option Key :=
  all.find? fun key => key.name == s

end Key

/-- The texts that a value lists: the items of a list of texts, or the parts of a comma-separated
text. -/
def textsOf (key : Key) : Value → Except ConfigProblem (List String)
  | .text s => .ok (Text.splitCommas s)
  | .list items =>
    match items.mapM Value.text? with
    | some texts => .ok texts
    | none => .error (.notTexts key.name)
  | _ => .error (.notTexts key.name)

def booleanOf (key : Key) : Value → Except ConfigProblem Bool
  | .boolean b => .ok b
  | _ => .error (.notBoolean key.name)

/-- Whether a value is null, which leaves a setting as it is. -/
def isNull : Value → Bool
  | .null => true
  | _ => false

/-- The configuration with one setting taken from a value. -/
def set (c : Config) (key : Key) (value : Value) : Except ConfigProblem Config :=
  if isNull value then .ok c
  else match key with
    | .trackedTags => do
      match TagSet.ofList (← textsOf key value) with
      | [] => throw .noTags
      | tags => return { c with trackedTags := tags }
    | .allowlist => do
      match TagSet.ofList (← textsOf key value) with
      | [] => return { c with allowlist := none }
      | tags => return { c with allowlist := some tags }
    | .lead =>
      match value with
      | .text s => .ok { c with lead := s }
      | _ => .error (.notText key.name)
    | .patterns => do return { c with patterns := ← textsOf key value }
    | .backup => do return { c with backup := ← booleanOf key value }
    | .uniqueIds => do return { c with uniqueIds := ← booleanOf key value }
    | .verify => do return { c with verify := ← booleanOf key value }

/-- The keys that name no setting, in order. -/
def unknownKeys (entries : List (String × Value)) : List String :=
  ((entries.map Prod.fst).filter fun key => (Key.ofName? key).isNone).mergeSort
    fun a b => decide (a ≤ b)

/-- The configuration that a mapping describes. -/
def ofMapping (entries : List (String × Value)) (source : Option Path := none) :
    Except ConfigError Config :=
  match unknownKeys entries with
  | [] =>
    (entries.foldlM (fun c (key, value) =>
      match Key.ofName? key with
      | some key => set c key value
      | none => .ok c) {}).mapError fun problem => { problem, source }
  | keys => .error { problem := .unknownKeys keys, source }

/-- A text with every line terminator written as one line feed. -/
def unifyNewlines : List Char → List Char
  | [] => []
  | '\r' :: '\n' :: rest => '\n' :: unifyNewlines rest
  | '\r' :: rest => '\n' :: unifyNewlines rest
  | c :: rest => c :: unifyNewlines rest

/-- The value that the content of a file holds. -/
def valueOfBytes (source : Path) (content : Bytes) : Except LoadFault Value :=
  match Utf8.decode? content with
  | none => .error .undecodable
  | some text =>
    (Value.ofText (unifyNewlines text.toList)).mapError fun fault =>
      match fault with
      | .value fault => .scalar fault
      | .noSuchCharacter code => .noSuchCharacter code
      | fault => .config { problem := .invalid fault, source := some source }

/-- The entries of the mapping that the content of a file holds; null has none. -/
def entriesOfBytes (source : Path) (content : Bytes) : Except LoadFault (List (Value × Value)) := do
  match ← valueOfBytes source content with
  | .null => return []
  | .mapping entries => return entries
  | _ => throw (.config { problem := .notMapping, source := some source })

/-- The configuration that the entries of a mapping in a file describe. -/
def ofEntries (source : Path) (entries : List (Value × Value)) : Except LoadFault Config :=
  match entries.mapM fun (key, value) => key.text?.map fun s => (s, value) with
  | some entries => (ofMapping entries (some source)).mapError .config
  | none => .error .keyNotText

end Config

end AccessPatch
