/-!
# UTF-8

Documents are lists of bytes. `Utf8.encode` writes text as bytes; `Utf8.parts` cuts any bytes into
characters and ill-formed parts, one byte at a time, where an ill-formed part is as long as some
well-formed sequence begins that way. `Utf8.decode?` accepts the bytes without such a part, and
`Utf8.decodeLossy` puts U+FFFD for each.
-/

namespace AccessPatch

/-- The content of a file, or a part of it. -/
abbrev Bytes := List UInt8

namespace Utf8

/-- A character that has begun and not ended: its bits so far, how many bytes are still to come
(one at least), and the least and greatest value of the next. -/
structure Pending where
  bits : Nat
  more : Nat
  least : UInt8
  greatest : UInt8
deriving DecidableEq, Repr

/-- What a run of bytes decodes to: a character, or an ill-formed part as a whole. -/
inductive Part where
  | char (c : Char)
  | illFormed
deriving DecidableEq, Repr

/-- What a first byte announces. -/
inductive First where
  | char (c : Char)
  | more (pending : Pending)
  | illFormed
deriving DecidableEq, Repr

/-- Reads a first byte. The ranges leave out overlong forms, surrogates and what lies beyond
U+10FFFF. -/
def First.ofByte (b : UInt8) : First :=
  if b < 0x80 then .char (Char.ofNat b.toNat)
  else if b < 0xC2 then .illFormed
  else if b < 0xE0 then .more ⟨b.toNat - 0xC0, 1, 0x80, 0xBF⟩
  else if b < 0xF0 then
    .more ⟨b.toNat - 0xE0, 2, if b = 0xE0 then 0xA0 else 0x80, if b = 0xED then 0x9F else 0xBF⟩
  else if b < 0xF5 then
    .more ⟨b.toNat - 0xF0, 3, if b = 0xF0 then 0x90 else 0x80, if b = 0xF4 then 0x8F else 0xBF⟩
  else .illFormed

/-- The state of a decoder: a character under way, and the parts read before it, last one first. -/
structure Decoder where
  pending : Option Pending := none
  done : List Part := []
deriving DecidableEq, Repr

namespace Decoder

/-- Reads a byte with which a character has to begin. -/
def first (done : List Part) (b : UInt8) : Decoder :=
  match First.ofByte b with
  | .char c => ⟨none, .char c :: done⟩
  | .more p => ⟨some p, done⟩
  | .illFormed => ⟨none, .illFormed :: done⟩

/-- Reads one byte. A byte that cannot go on with the character under way ends an ill-formed part
and is read again as a first byte. -/
def step (d : Decoder) (b : UInt8) : Decoder :=
  match d.pending with
  | none => first d.done b
  | some p =>
    if p.least ≤ b ∧ b ≤ p.greatest then
      let bits := p.bits * 64 + (b.toNat - 0x80)
      if p.more ≤ 1 then ⟨none, .char (Char.ofNat bits) :: d.done⟩
      else ⟨some ⟨bits, p.more - 1, 0x80, 0xBF⟩, d.done⟩
    else first (.illFormed :: d.done) b

/-- The parts read, in order; a character that the bytes break off in is one ill-formed part. -/
def finish (d : Decoder) : List Part :=
  match d.pending with
  | none => d.done.reverse
  | some _ => (Part.illFormed :: d.done).reverse

end Decoder

/-- The characters and ill-formed parts of the bytes, in order. -/
def parts (bs : Bytes) : List Part :=
  (bs.foldl Decoder.step {}).finish

/-- The character of a part, with U+FFFD for an ill-formed one. -/
def Part.lossy : Part → Char
  | .char c => c
  | .illFormed => '\uFFFD'

/-- The character of a well-formed part. -/
def Part.char? : Part → Option Char
  | .char c => some c
  | .illFormed => none

/-- The text of the bytes, with U+FFFD for each ill-formed part. -/
def decodeLossy (bs : Bytes) : String :=
  String.ofList ((parts bs).map Part.lossy)

/-- The text of the bytes, if they are well-formed. -/
def decode? (bs : Bytes) : Option String :=
  ((parts bs).mapM Part.char?).map String.ofList

/-- The bytes of a text. -/
def encode (s : String) : Bytes :=
  s.toList.flatMap String.utf8EncodeChar

end Utf8

end AccessPatch
