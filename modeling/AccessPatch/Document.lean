import AccessPatch.Patch.Plan
import AccessPatch.Run

/-!
# Documents

`findElements` finds the tracked elements of a document, and `planAnnotations` the operations that
give them annotations. Both note what they did in the journal of the run.
-/

namespace AccessPatch

/-- The ranges of the tags of a document. -/
def tokenize (buffer : Bytes) (identity : String) : Except Failure (List TagRange) :=
  (TagRange.ofDocument buffer).mapError (Failure.ofRead identity)

/-- The tracked elements of a document. -/
def elementsOf (buffer : Bytes) (identity : String) (tags : List String) :
    Except Failure (List Element) := do
  let ranges ← tokenize buffer identity
  (trackedElements buffer tags ranges).mapError .pairing

/-- Finds the tracked elements of the document called `identity`. -/
def findElements (buffer : Bytes) (identity : String) (tags : List String) :
    Run (List Element) := do
  let ranges ← Run.ofExcept id (tokenize buffer identity)
  Run.note (.tokenized identity ranges.length)
  let elements ← Run.ofExcept .pairing (trackedElements buffer tags ranges)
  Run.note (.tracked identity elements.length)
  return elements

/-- Reads a document and finds its tracked elements. -/
def readElements (path : Path) (tags : List String) : Run (Bytes × List Element) := do
  let buffer ← Run.contentOf path
  return (buffer, ← findElements buffer (toString path) tags)

/-- Plans the annotations of a document with its own first line terminator. -/
def planAnnotations (buffer : Bytes) (elements : List Element) (naming : Patch.Naming) :
    Run (List Patch.Op) := do
  if Patch.mixesNewlines buffer then Run.note (.mixedNewlines (firstNewline buffer))
  let ops := Patch.planDetected buffer elements naming
  Run.note (.planned ops.length (Patch.candidates elements).length)
  return ops

end AccessPatch
