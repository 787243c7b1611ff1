import AccessPatch.Text.Utf8

/-!
# Symbols

A document is read as a list of symbols: characters with the number of bytes they take. Bytes that
are no character of markup are symbols too, since only a reader that meets them refuses the
document.
-/

namespace AccessPatch.Xml

/-- What a few bytes of a document stand for. -/
inductive Glyph where
  | char (c : Char)
  /-- No character that a document may hold; `begun` if it begins as one of several bytes does. -/
  | malformed (begun : Bool)
  /-- A character that the document ends in. -/
  | cutOff
deriving DecidableEq, Repr

/-- A glyph with the number of its bytes. -/
structure Symbol where
  glyph : Glyph
  width : Nat
deriving DecidableEq, Repr

/-- The characters a document may hold: tab, LF, CR and those from U+0020 on, without the
noncharacters U+FFFE and U+FFFF. -/
def isAllowed (n : Nat) : Bool :=
  n == 0x09 || n == 0x0A || n == 0x0D || (0x20 ≤ n && n != 0xFFFE && n != 0xFFFF)

/-- The glyph of a character number. -/
def Glyph.ofNat (n : Nat) : Glyph :=
  if isAllowed n then .char (Char.ofNat n) else .malformed (0x80 ≤ n)

/-- The symbols of a text, each as wide as its UTF-8 form. -/
def symbolsOf (text : List Char) : List Symbol :=
  text.map fun c => ⟨.ofNat c.toNat, c.utf8Size⟩

/-- A character with its offset. -/
structure Placed where
  char : Char
  pos : Nat
deriving DecidableEq, Repr

/-- A place in a document as people count it: the line from 1, and the number of characters before
it on that line. -/
structure Position where
  line : Nat := 1
  column : Nat := 0
deriving DecidableEq, Repr

namespace Position

/-- The place after one more symbol, and whether that symbol is a CR, so that an LF next belongs
to it. -/
def advance (p : Position × Bool) (s : Symbol) : Position × Bool :=
  match s.glyph with
  | .char '\r' => (⟨p.1.line + 1, 0⟩, true)
  | .char '\n' => if p.2 then (p.1, false) else (⟨p.1.line + 1, 0⟩, false)
  | _ => (⟨p.1.line, p.1.column + 1⟩, false)

/-- The symbols that lie before an offset. -/
def symbolsBefore (offset : Nat) : List Symbol → List Symbol
  | [] => []
  | s :: rest =>
    if s.width ≤ offset ∧ 0 < offset then s :: symbolsBefore (offset - s.width) rest else []

/-- The place of an offset. -/
def ofOffset (symbols : List Symbol) (offset : Nat) : Position :=
  ((symbolsBefore offset symbols).foldl advance ({}, false)).1

end Position

end AccessPatch.Xml
