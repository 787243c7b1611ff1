/-!
# Events

What a document says about its elements, in the order of its tags, and the other names that it
gives.
-/

namespace AccessPatch.Xml

/-- The start or the end of an element, or a name of something else. -/
inductive Event where
  /-- A start tag from `start` to `stop`, which may be an empty-element tag. -/
  | opened (name : String) (attributes : List (String × String)) (start stop : Nat) (empty : Bool)
  /-- The end of an element: the offset of its end tag, or the one after its empty-element tag. -/
  | closed (name : String) (start : Nat)
  /-- An instruction with its target. -/
  | instruction (target : String)
  /-- The declaration of an entity or of a notation. -/
  | declared (name : String)
deriving DecidableEq, Repr

end AccessPatch.Xml
