import AccessPatch.Text.Utf8

/-!
# Lines of a document

A line ends with LF, CR or CR LF, and the pair counts once. `lineBreaks` lists the terminators of a
document with the offset after each, `LineTable` turns offsets into line numbers, and `indentBefore`
is the indentation of a line as far as an offset.
-/

namespace AccessPatch

/-- A line terminator. -/
inductive Newline where
  | lf
  | cr
  | crlf
deriving DecidableEq, Repr

namespace Newline

def bytes : Newline → Bytes
  | lf => [0x0A]
  | cr => [0x0D]
  | crlf => [0x0D, 0x0A]

end Newline

/-- The terminators of a document from left to right, each with the offset of the byte after it, if
the document starts at `start`. -/
def lineBreaksFrom (start : Nat) : Bytes → List (Newline × Nat)
  | [] => []
  | 0x0D :: 0x0A :: rest => (.crlf, start + 2) :: lineBreaksFrom (start + 2) rest
  | 0x0D :: rest => (.cr, start + 1) :: lineBreaksFrom (start + 1) rest
  | 0x0A :: rest => (.lf, start + 1) :: lineBreaksFrom (start + 1) rest
  | _ :: rest => lineBreaksFrom (start + 1) rest

/-- The terminators of a document, each with the offset of the byte after it. -/
def lineBreaks (buffer : Bytes) : List (Newline × Nat) :=
  lineBreaksFrom 0 buffer

/-- The first terminator of the document, and LF if it has none. -/
def firstNewline (buffer : Bytes) : Newline :=
  ((lineBreaks buffer).head?.map Prod.fst).getD .lf

/-- The kinds of terminator that the document holds. -/
def newlineKinds (buffer : Bytes) : List Newline :=
  [.lf, .cr, .crlf].filter fun style => ((lineBreaks buffer).map Prod.fst).contains style

/-- The offsets at which the lines of a document start. -/
structure LineTable where
  starts : List Nat
deriving DecidableEq, Repr

namespace LineTable

def ofBytes (buffer : Bytes) : LineTable :=
  ⟨0 :: (lineBreaks buffer).map Prod.snd⟩

/-- The number of lines. -/
def size (index : LineTable) : Nat :=
  index.starts.length

/-- The number of the line that holds an offset, from 1. What lies before the document counts as its
first byte, and what lies after it as its last line. -/
def lineAt (index : LineTable) (offset : Int) : Nat :=
  index.starts.countP (· ≤ offset.toNat)

/-- The offset at which a line starts. Lines are numbered from 1, and numbers from 0 down count back
from the last line. -/
def startOf? (index : LineTable) (line : Int) : Option Nat :=
  if 1 ≤ line then index.starts[(line - 1).toNat]?
  else index.starts.reverse[(-line).toNat]?

end LineTable

/-- A byte of an indentation: a space or a tab. -/
def isIndent (b : UInt8) : Bool :=
  b == 0x20 || b == 0x09

/-- A byte of a line terminator. -/
def isLineEnd (b : UInt8) : Bool :=
  b == 0x0A || b == 0x0D

/-- The part of a document before an offset; a negative offset counts from the end. -/
def Bytes.before (buffer : Bytes) (offset : Int) : Bytes :=
  buffer.take (if offset < 0 then offset + buffer.length else offset).toNat

/-- The spaces and tabs with which the line that holds `offset` begins, as far as `offset`. A line
begins after the last LF or CR before the offset. -/
def indentBefore (buffer : Bytes) (offset : Int) : Bytes :=
  let seen := Bytes.before buffer offset
  let lineStart := seen.length - (seen.reverse.takeWhile (! isLineEnd ·)).length
  ((buffer.take offset.toNat).drop lineStart).takeWhile isIndent

end AccessPatch
