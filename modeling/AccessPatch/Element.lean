import AccessPatch.Text.Utf8

/-!
# Elements of a document

An `Element` is a tracked element with the place of its markup in the document: where its start tag
begins and ends and where its end tag begins and ends, in that order.
-/

namespace AccessPatch

/-- Attribute names with their values, in the order of the document. -/
abbrev Attributes := List (String × String)

/-- The offsets of an element's markup. -/
structure Extent where
  /-- The offset of the `<` that begins the start tag. -/
  start : Int
  /-- The offset after the start tag. -/
  openEnd : Int
  /-- The offset of the end tag; the one after the start tag if there is no end tag. -/
  closeStart : Int
  /-- The offset after the last byte of the element. -/
  stop : Int
  start_le_openEnd : start ≤ openEnd := by omega
  openEnd_le_closeStart : openEnd ≤ closeStart := by omega
  closeStart_le_stop : closeStart ≤ stop := by omega
deriving DecidableEq, Repr

namespace Extent

/-- The extent with the given offsets, if they are in order. -/
def ofOffsets? (start openEnd closeStart stop : Int) : Option Extent :=
  if h : start ≤ openEnd ∧ openEnd ≤ closeStart ∧ closeStart ≤ stop then
    some { start, openEnd, closeStart, stop }
  else none

/-- An element written as one empty-element tag has nothing after that tag. -/
def selfClosing (x : Extent) : Bool :=
  x.closeStart == x.stop && x.stop == x.openEnd

end Extent

/-- A tracked element of a document. -/
structure Element where
  tag : String
  attributes : Attributes := []
  extent : Extent
  /-- The line of the element's first byte, from 1. -/
  startLine : Int
  /-- The line of the element's last byte. -/
  endLine : Int
  /-- Whether an annotation is a child of the element. -/
  annotated : Bool := false
  /-- The attributes of that annotation. -/
  accessibility : Option Attributes := none
deriving DecidableEq, Repr

namespace Element

/-- The attributes that name an element, in order of preference. -/
def namingAttributes : List String :=
  ["id", "userLabel", "accessibilityIdentifier"]

/-- The naming attribute that the element has first in order of preference. -/
def namingAttribute? (e : Element) : Option String :=
  namingAttributes.find? fun name => (e.attributes.lookup name).isSome

def isNamed (e : Element) : Bool :=
  e.namingAttribute?.isSome

/-- The text from which the element's identifier is made: the value of its naming attribute, even if
that is empty, and the empty text if it has none. -/
def seed (e : Element) : String :=
  (namingAttributes.findSome? fun name => e.attributes.lookup name).getD ""

/-- Whether two elements agree in all but their attributes and those of their annotations. -/
def Agrees (e f : Element) : Prop :=
  e.tag = f.tag ∧ e.extent = f.extent ∧ e.startLine = f.startLine ∧ e.endLine = f.endLine ∧
    e.annotated = f.annotated

instance (e f : Element) : Decidable (e.Agrees f) :=
  inferInstanceAs (Decidable (_ ∧ _))

/-- The tag and lines of an element, as people read them. -/
protected def toString (e : Element) : String :=
  "<" ++ e.tag ++ "> lines " ++ toString e.startLine ++ "-" ++ toString e.endLine

instance : ToString Element := ⟨Element.toString⟩

end Element

end AccessPatch
