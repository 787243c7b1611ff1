/-!
# A place in a text

A `Cursor` stands before what is left of a text and knows how far it has come. The classes of
characters here decide where words and lines of a configuration end.
-/

namespace AccessPatch.Yaml

/-- What is left of a text, and the place of its first character. -/
structure Cursor where
  rest : List Char
  index : Nat := 0
  line : Nat := 0
  column : Nat := 0
deriving DecidableEq, Repr

/-- Whether a character ends a line. -/
def isBreak (c : Char) : Bool :=
  c == '\n' || c == '\x85' || c == '\u2028' || c == '\u2029'

/-- What a line break counts as in a scalar: the line and the paragraph separator stay what they
are. -/
def breakText (c : Char) : Char :=
  if c = '\x85' then '\n' else c

/-- Whether a line ends here. -/
def endsLine : Option Char → Bool
  | none => true
  | some c => isBreak c

/-- Whether a space or the end of a line is here. -/
def endsItem : Option Char → Bool
  | none => true
  | some c => c == ' ' || isBreak c

/-- Whether a space, a tab or the end of a line is here. -/
def endsWord : Option Char → Bool
  | none => true
  | some c => c == ' ' || c == '\t' || isBreak c

/-- Whether a character may stand in the name of an anchor, a directive or a handle. -/
def isWordChar (c : Char) : Bool :=
  c.isAlphanum || c == '-' || c == '_'

namespace Cursor

def peek (c : Cursor) : Option Char := c.rest.head?

/-- The character `n` places on. -/
def look (c : Cursor) (n : Nat) : Option Char := c.rest[n]?

/-- The cursor after the next character. A byte-order mark takes no column. -/
def next (c : Cursor) : Cursor :=
  match c.rest with
  | [] => c
  | x :: rest =>
    if isBreak x then { rest, index := c.index + 1, line := c.line + 1, column := 0 }
    else
      { rest, index := c.index + 1, line := c.line
        column := if x = '\uFEFF' then c.column else c.column + 1 }

/-- The cursor `n` characters on. -/
def skip (c : Cursor) : Nat → Cursor
  | 0 => c
  | n + 1 => c.next.skip n

/-- The longest run of characters with a property, and the cursor after it. -/
def takeWhile (c : Cursor) (p : Char → Bool) : List Char × Cursor :=
  let run := c.rest.takeWhile p
  (run, c.skip run.length)

def dropWhile (c : Cursor) (p : Char → Bool) : Cursor :=
  (c.takeWhile p).2

/-- The cursor after a comment, if one begins here. -/
def skipComment (c : Cursor) : Cursor :=
  if c.peek = some '#' then c.dropWhile (! isBreak ·) else c

/-- Whether `---` or `...` stands here as a word. -/
def atMarker (c : Cursor) (mark : Char) : Bool :=
  c.rest.take 3 == [mark, mark, mark] && endsWord (c.look 3)

/-- Whether the mark between two documents stands here. -/
def atDocumentMarker (c : Cursor) : Bool :=
  c.atMarker '-' || c.atMarker '.'

end Cursor

end AccessPatch.Yaml
