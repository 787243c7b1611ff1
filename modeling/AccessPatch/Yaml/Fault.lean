import AccessPatch.Yaml.Cursor

/-!
# Faults of a configuration text

A `Fault` says why a text is no document. Faults of a value that an explicit type does not admit are
kept apart, in `Fault.value`, and so are characters that do not exist.
-/

namespace AccessPatch.Yaml

/-- Why a scalar is no value of the type written before it. -/
inductive ValueFault where
  /-- It is no number, date or time. -/
  | notOfType (text : String)
  /-- It is none of the words for true and false. -/
  | notBoolean (text : String)
  /-- It is empty, or has digits of no kind. -/
  | noDigits
  /-- It has not the form of a date. -/
  | notDate (text : String)
deriving DecidableEq, Repr

/-- Why a text is no document. -/
inductive Fault where
  | unprintable (c : Char)
  | noToken (c : Char)
  | keyNotEnded
  | notAllowed (what : String)
  | badDirective
  | badAnchor
  | badTag
  | badBlockHeader
  | badEscape
  | noSuchCharacter (code : Nat)
  | unclosedQuote
  | markerInQuote
  | unexpected (wanted : String)
  | undefinedAlias (name : String)
  | duplicateAnchor (name : String)
  | undefinedHandle (handle : String)
  | secondDocument
  | unknownType (tag : String)
  | wrongKind (tag : String)
  | unhashableKey
  | badMerge
  | value (fault : ValueFault)
deriving DecidableEq, Repr

namespace Fault

def message : Fault → String
  | unprintable c => "unacceptable character #x" ++ String.ofList (Nat.toDigits 16 c.toNat)
  | noToken c => "no token starts with " ++ c.toString
  | keyNotEnded => "could not find expected ':'"
  | notAllowed what => what ++ " are not allowed here"
  | badDirective => "malformed directive"
  | badAnchor => "malformed anchor or alias"
  | badTag => "malformed tag"
  | badBlockHeader => "malformed header of a block scalar"
  | badEscape => "unknown escape"
  | noSuchCharacter code => "no character has the number " ++ toString code
  | unclosedQuote => "unclosed quotation"
  | markerInQuote => "a document ends inside a quotation"
  | unexpected wanted => "expected " ++ wanted
  | undefinedAlias name => "undefined alias " ++ name
  | duplicateAnchor name => "anchor " ++ name ++ " is defined twice"
  | undefinedHandle handle => "undefined tag handle " ++ handle
  | secondDocument => "expected a single document"
  | unknownType tag => "no values of type " ++ tag
  | wrongKind tag => "not a node of type " ++ tag
  | unhashableKey => "a collection cannot be a key"
  | badMerge => "only mappings can be merged"
  | value (.notOfType text) => "bad value " ++ text
  | value (.notBoolean text) => text ++ " is neither true nor false"
  | value .noDigits => "a number needs digits"
  | value (.notDate text) => text ++ " is no date"

end Fault

/-- A reader of a text that moves a cursor and may fail. -/
abbrev Scan := StateT Cursor (Except Fault)

namespace Scan

/-- Moves the cursor and fails never. -/
def run (f : Cursor → α × Cursor) : Scan α :=
  fun c => .ok (f c)

def move (f : Cursor → Cursor) : Scan Unit :=
  fun c => .ok ((), f c)

/-- Fails unless the character here has a property. -/
def expect (p : Option Char → Bool) (fault : Fault) : Scan Unit :=
  fun c => if p c.peek then .ok ((), c) else .error fault

end Scan

end AccessPatch.Yaml
