import AccessPatch.Element

/-!
# Tag ranges

The tags of a document in the order of their events: one range for the start tag of each element,
and one for its end. An element written as one tag ends with an empty range.
-/

namespace AccessPatch

/-- Whether a range is a start tag or the end of an element. -/
inductive TagRange.Kind where
  | opening
  | closing
deriving DecidableEq, Repr

/-- A start tag, or the end of an element, with the bytes it takes. -/
structure TagRange where
  kind : TagRange.Kind
  name : String
  start : Int
  stop : Int
  /-- Whether the element is written as one empty-element tag. -/
  selfClosing : Bool := false
  attributes : Attributes := []
deriving DecidableEq, Repr

end AccessPatch
