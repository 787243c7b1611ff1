import AccessPatch.Xml.Charset
import AccessPatch.Xml.Name
import AccessPatch.Xml.Symbol

/-!
# Encodings

How the bytes of a document are read as symbols. `Encoding.sniff` tells an encoding by the first
bytes; what a document declares is settled in `Xml.Source`.
-/

namespace AccessPatch.Xml

/-- A way to write characters as bytes. -/
inductive Encoding where
  | utf8
  | utf16 (bigEndian : Bool)
  | latin1
  | ascii
  /-- A single-byte extension of ASCII, by its characters from 0x80 on, where U+FFFD stands for
  none, and the characters of ASCII that it lacks. -/
  | singleByte (upper : Array Char) (gaps : List Char)
deriving DecidableEq, Repr

namespace Encoding

/-- The number of bytes of the smallest character. -/
def unit : Encoding → Nat
  | utf16 _ => 2
  | _ => 1

/-- A byte that continues a UTF-8 character. -/
def isContinuation (b : UInt8) : Bool :=
  0x80 ≤ b && b < 0xC0

/-- The six bits that a continuation byte carries. -/
def continuationBits (b : UInt8) : Nat :=
  b.toNat % 64

def decodeUtf8 : Bytes → List Symbol
  | [] => []
  | b :: rest =>
    if b < 0x80 then ⟨.ofNat b.toNat, 1⟩ :: decodeUtf8 rest
    else if b < 0xC0 ∨ 0xF5 ≤ b then ⟨.malformed false, 1⟩ :: decodeUtf8 rest
    else if b < 0xE0 then
      match rest with
      | c :: rest =>
        (if 0xC2 ≤ b ∧ isContinuation c then
          ⟨.ofNat ((b.toNat - 0xC0) * 64 + continuationBits c), 2⟩
        else ⟨.malformed true, 2⟩) :: decodeUtf8 rest
      | [] => [⟨.cutOff, 1⟩]
    else if b < 0xF0 then
      match rest with
      | c :: d :: rest =>
        (if isContinuation c ∧ isContinuation d ∧ (b = 0xE0 → 0xA0 ≤ c) ∧ (b = 0xED → c < 0xA0) then
          ⟨.ofNat ((b.toNat - 0xE0) * 4096 + continuationBits c * 64 + continuationBits d), 3⟩
        else ⟨.malformed true, 3⟩) :: decodeUtf8 rest
      | rest => [⟨.cutOff, 1 + rest.length⟩]
    else
      match rest with
      | c :: d :: e :: rest =>
        (if isContinuation c ∧ isContinuation d ∧ isContinuation e ∧ (b = 0xF0 → 0x90 ≤ c) ∧
            (b = 0xF4 → c < 0x90) then
          ⟨.ofNat ((b.toNat - 0xF0) * 262144 + continuationBits c * 4096 + continuationBits d * 64 +
            continuationBits e), 4⟩
        else ⟨.malformed true, 4⟩) :: decodeUtf8 rest
      | rest => [⟨.cutOff, 1 + rest.length⟩]

/-- The character of a leading and a trailing UTF-16 unit, the second one unchecked. -/
def surrogatePair (lead trail : Nat) : Nat :=
  0x10000 + (lead % 0x400) * 0x400 + trail % 0x400

/-- Reads UTF-16. A last byte without partner is left out. -/
def decodeUtf16 (bigEndian : Bool) : Bytes → List Symbol
  | a :: b :: rest =>
    let word (x y : UInt8) := if bigEndian then x.toNat * 256 + y.toNat else y.toNat * 256 + x.toNat
    let n := word a b
    if 0xD800 ≤ n ∧ n < 0xDC00 then
      match rest with
      | c :: d :: rest => ⟨.char (Char.ofNat (surrogatePair n (word c d))), 4⟩ ::
          decodeUtf16 bigEndian rest
      | rest => [⟨.cutOff, 2 + rest.length⟩]
    else if 0xDC00 ≤ n ∧ n < 0xE000 then ⟨.malformed false, 2⟩ :: decodeUtf16 bigEndian rest
    else ⟨.ofNat n, 2⟩ :: decodeUtf16 bigEndian rest
  | _ => []

/-- The glyph of a byte below 0x80 in a single-byte character set. -/
def lowerGlyph (gaps : List Char) (b : UInt8) : Glyph :=
  if gaps.contains (.ofNat b.toNat) then .malformed false else .ofNat b.toNat

/-- The glyph of a byte from 0x80 on in a single-byte character set. -/
def upperGlyph (upper : Array Char) (b : UInt8) : Glyph :=
  match upper[b.toNat - 0x80]? with
  | some '\uFFFD' => .malformed false
  | some c => .ofNat c.toNat
  | none => .malformed false

/-- Reads bytes as symbols. -/
def decode (encoding : Encoding) (bytes : Bytes) : List Symbol :=
  match encoding with
  | utf8 => decodeUtf8 bytes
  | utf16 bigEndian => decodeUtf16 bigEndian bytes
  | latin1 => bytes.map fun b => ⟨.ofNat b.toNat, 1⟩
  | ascii => bytes.map fun b => ⟨if b < 0x80 then .ofNat b.toNat else .malformed false, 1⟩
  | singleByte upper gaps =>
    bytes.map fun b => ⟨if b < 0x80 then lowerGlyph gaps b else upperGlyph upper b, 1⟩

/-- The encoding that the first bytes of a document show and the number of bytes of its byte-order
mark; none if the bytes are too few to tell. -/
def sniff : Bytes → Option (Encoding × Nat)
  | [] => some (utf8, 0)
  | [b] => if b = 0xFE ∨ b = 0xFF ∨ b = 0xEF ∨ b = 0x00 then none else some (utf8, 0)
  | a :: b :: rest =>
    if a = 0xEF ∧ b = 0xBB then rest.head?.map fun c => (utf8, if c = 0xBF then 3 else 0)
    else if a = 0xFE ∧ b = 0xFF then some (utf16 true, 2)
    else if a = 0xFF ∧ b = 0xFE then some (utf16 false, 2)
    else if a = 0x00 then some (utf16 true, 0)
    else if b = 0x00 then some (utf16 false, 0)
    else some (utf8, 0)

/-- The characters that make names in a document of this encoding. -/
def alphabet : Encoding → Alphabet
  | utf8 | ascii => {}
  | utf16 _ | latin1 => { signs := true, keywordBound := 0x100 }
  | singleByte .. => { keywordBound := 0x10000 }

/-- The encodings that are built in, by the names that a document declares. `UTF-16` is the byte
order in use if that is known. -/
def named? (current : Encoding) (name : String) : Option Encoding :=
  match String.ofList (name.toList.map Char.toUpper) with
  | "UTF-8" => some utf8
  | "ISO-8859-1" => some latin1
  | "US-ASCII" => some ascii
  | "UTF-16" => match current with
    | utf16 bigEndian => some (utf16 bigEndian)
    | _ => some (utf16 true)
  | "UTF-16BE" => some (utf16 true)
  | "UTF-16LE" => some (utf16 false)
  | _ => none

end Encoding

end AccessPatch.Xml
