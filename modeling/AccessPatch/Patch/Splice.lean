import AccessPatch.Element

/-!
# Splicing

A `Patch.Op` puts text in the place of a range of a document. `splice` carries out many at
once: from the highest offset down, so that no offset has to be moved. Ranges may touch and must not
overlap; texts for one offset land in the order given.
-/

namespace AccessPatch.Patch

/-- A text for a place of a document; places are those before any operation is carried out. -/
structure Op where
  /-- Where the text goes. -/
  offset : Int
  text : Bytes
  /-- The element for which the text is inserted. -/
  source : Element
  /-- The number of bytes whose place the text takes. -/
  replaced : Int := 0
deriving DecidableEq, Repr

/-- The offset after the bytes that the operation replaces. -/
def Op.stop (op : Op) : Int :=
  op.offset + op.replaced

/-- The text for display. -/
def Op.display (op : Op) : String :=
  Utf8.decodeLossy op.text

/-- Why operations cannot be carried out. -/
inductive Misfit where
  /-- An operation does not lie in a document of that size. -/
  | outside (offset : Int) (size : Nat)
  /-- An operation starts inside the range of another. -/
  | overlap (offset : Int)
deriving DecidableEq, Repr

def Misfit.message : Misfit → String
  | outside offset size =>
    "Patch offset " ++ toString offset ++ " is outside a buffer of " ++ toString size ++ " bytes"
  | overlap offset => "Patch at offset " ++ toString offset ++ " overlaps a previous patch"

/-- The operations in the order of their offsets; those at one offset keep their order. -/
def inOrder (ops : List Op) : List Op :=
  ops.mergeSort fun a b => decide (a.offset ≤ b.offset)

/-- Looks for an operation that does not fit in a document of `size` bytes, given the end of the
range before. -/
def checkFrom (size : Nat) (previousEnd : Int) : List Op → Except Misfit Unit
  | [] => .ok ()
  | op :: rest =>
    if op.offset < 0 ∨ op.stop > size then .error (.outside op.offset size)
    else if op.offset < previousEnd then .error (.overlap op.offset)
    else checkFrom size op.stop rest

/-- The bytes with `text` in the place of those from `start` to `stop`. A negative end counts from
the end of the bytes, and an end before the start is the start. -/
def replaceRange (bytes : Bytes) (start stop : Int) (text : Bytes) : Bytes :=
  let first := start.toNat
  let last := (if stop < 0 then stop + bytes.length else stop).toNat
  bytes.take first ++ text ++ bytes.drop (max first last)

/-- The document with every operation carried out. -/
def splice (buffer : Bytes) (ops : List Op) : Except Misfit Bytes := do
  let ordered := inOrder ops
  checkFrom buffer.length 0 ordered
  return ordered.foldr (fun op bytes => replaceRange bytes op.offset op.stop op.text) buffer

end AccessPatch.Patch
