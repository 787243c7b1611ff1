import AccessPatch.Accessibility
import AccessPatch.Identifier
import AccessPatch.Lines
import AccessPatch.Patch.Splice

/-!
# Planning

`plan` makes one operation for each tracked element without annotation. In an element with an end
tag the annotation goes right before that tag and takes over its indentation; an element written
as one tag is opened up to hold it.
-/

namespace AccessPatch.Patch

/-- The elements that lack an annotation, and those that have one. -/
def splitAnnotated (elements : List Element) : List Element × List Element :=
  List.partition (! ·.annotated) elements

/-- The elements that lack an annotation. -/
def candidates (elements : List Element) : List Element :=
  elements.filter (! ·.annotated)

/-- One level of indentation below `indent`: a tab where tabs are used, else four spaces. -/
def indentStep (indent : Bytes) : Bytes :=
  if indent.contains 0x09 then [0x09] else [0x20, 0x20, 0x20, 0x20]

/-- The operation that gives an element its annotation. -/
def opFor (buffer : Bytes) (newline : Bytes) (element : Element) (identifier : String) : Op :=
  let markup := Utf8.encode (Accessibility.markup identifier)
  if element.extent.selfClosing then
    let indent := indentBefore buffer element.extent.start
    { offset := element.extent.openEnd - 2
      text := Utf8.encode ">" ++ newline ++ indent ++ indentStep indent ++ markup ++ newline ++
        indent ++ Utf8.encode ("</" ++ element.tag ++ ">")
      source := element
      replaced := 2 }
  else
    { offset := element.extent.closeStart
      text := markup ++ newline ++ indentBefore buffer element.extent.closeStart
      source := element }

/-- How identifiers are chosen. -/
structure Naming where
  /-- The project's own lead of every generated identifier. -/
  lead : String := ""
  /-- Whether repeated identifiers are numbered. -/
  unique : Bool := false
  /-- Chooses the identifier of the candidate at a position, in place of the generated one. -/
  choose : Option (Nat → Element → String) := none

/-- The identifiers of the candidates, in their order. -/
def Naming.identifiers (naming : Naming) (elements : List Element) : List String :=
  let chosen := match naming.choose with
    | some choose => elements.mapIdx choose
    | none => elements.map fun e => Identifier.make e.tag (some e.seed) naming.lead
  if naming.unique then Identifier.numberRepeats chosen else chosen

/-- The operations that give every candidate its annotation, in the order of their offsets.
`newline` separates the lines they add. -/
def plan (buffer : Bytes) (elements : List Element) (naming : Naming) (newline : Bytes) : List Op :=
  let candidates := candidates elements
  inOrder (List.zipWith (opFor buffer newline) candidates (naming.identifiers candidates))

/-- Whether the document mixes terminators, so that the choice of one deserves a warning. -/
def mixesNewlines (buffer : Bytes) : Bool :=
  1 < (newlineKinds buffer).length

/-- The plan with the document's own first terminator. -/
def planDetected (buffer : Bytes) (elements : List Element) (naming : Naming) : List Op :=
  plan buffer elements naming (firstNewline buffer).bytes

end AccessPatch.Patch
