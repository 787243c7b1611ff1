/-!
# Faults of markup

Why a document is refused, with the wording that reports use.
-/

namespace AccessPatch.Xml

/-- A breach of the rules of markup. -/
inductive Fault where
  | badGrammar
  | noElement
  | badToken
  | unclosedToken
  | partialCharacter
  | mismatchedTag
  | duplicateAttribute
  | junkAfterRoot
  | misplacedParameterReference
  | undefinedEntity
  | recursiveEntity
  | asynchronousEntity
  | badCharacterNumber
  | unparsedEntity
  | externalEntityInAttribute
  | misplacedDeclaration
  | unsupportedEncoding
  | conflictingEncoding
  | unclosedCData
  | badDeclaration
  | badPublicId
  /-- The start tag of an element has no end where it begins. -/
  | noTagEnd (name : String)
deriving DecidableEq, Repr

namespace Fault

def message : Fault → String
  | badGrammar => "syntax error"
  | noElement => "no element found"
  | badToken => "not well-formed (invalid token)"
  | unclosedToken => "unclosed token"
  | partialCharacter => "partial character"
  | mismatchedTag => "mismatched tag"
  | duplicateAttribute => "duplicate attribute"
  | junkAfterRoot => "junk after document element"
  | misplacedParameterReference => "illegal parameter entity reference"
  | undefinedEntity => "undefined entity"
  | recursiveEntity => "recursive entity reference"
  | asynchronousEntity => "asynchronous entity"
  | badCharacterNumber => "reference to invalid character number"
  | unparsedEntity => "reference to binary entity"
  | externalEntityInAttribute => "reference to external entity in attribute"
  | misplacedDeclaration => "XML or text declaration not at start of entity"
  | unsupportedEncoding => "unknown encoding"
  | conflictingEncoding => "encoding specified in XML declaration is incorrect"
  | unclosedCData => "unclosed CDATA section"
  | badDeclaration => "XML declaration not well-formed"
  | badPublicId => "illegal character(s) in public id"
  | noTagEnd name => "cannot find end of <" ++ name ++ "> tag"

end Fault

/-- Where a fault lies: at the token under way, at the symbol being read, or at an offset. -/
inductive Place where
  | token
  | here
  | offset (pos : Nat)
deriving DecidableEq, Repr

/-- A fault with its place. -/
structure Flaw where
  fault : Fault
  place : Place := .token
deriving DecidableEq, Repr

/-- A symbol that does not fit. -/
def Flaw.unexpected : Flaw := ⟨.badToken, .here⟩

/-- The flaw of a glyph where a character of a name, or any character, is wanted. -/
def Flaw.unreadable (cutOff : Bool) : Flaw :=
  if cutOff then ⟨.partialCharacter, .token⟩ else .unexpected

end AccessPatch.Xml
