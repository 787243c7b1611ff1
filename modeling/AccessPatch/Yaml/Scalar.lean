import AccessPatch.Text.Digit
import AccessPatch.Yaml.Fault

/-!
# Scalars

The three ways to write a text: plain, in quotation marks, and as a block of lines. A line break
inside is folded to a space unless empty lines follow it; a block that begins with `|` keeps its
lines.
-/

namespace AccessPatch.Yaml

namespace Scalar

/-! ## In quotation marks -/

/-- What a letter after a backslash stands for. -/
def escapes : List (Char × Char) :=
  [('0', '\x00'), ('a', '\x07'), ('b', '\x08'), ('t', '\t'), ('\t', '\t'), ('n', '\n'),
    ('v', '\x0b'),
   ('f', '\x0c'), ('r', '\r'), ('e', '\x1b'), (' ', ' '), ('"', '"'), ('\\', '\\'), ('/', '/'),
   ('N', '\x85'), ('_', '\u00a0'), ('L', '\u2028'), ('P', '\u2029')]

/-- How many hexadecimal digits follow a letter after a backslash. -/
def escapeWidths : List (Char × Nat) :=
  [('x', 2), ('u', 4), ('U', 8)]

/-- The line breaks here, with the blanks between them; `fuel` is greater than the number of
characters left. A document may not end here. -/
def quotedBreaks : Nat → Cursor → Except Fault (List Char × Cursor)
  | 0, c => .ok ([], c)
  | fuel + 1, c =>
    if c.atDocumentMarker then .error .markerInQuote
    else
      let c := c.dropWhile fun x => x == ' ' || x == '\t'
      match c.peek with
      | some x =>
        if isBreak x then do
          let (more, c) ← quotedBreaks fuel c.next
          return (breakText x :: more, c)
        else .ok ([], c)
      | none => .ok ([], c)

/-- The character with a number. U+FFFD stands for half a surrogate pair, which is none by itself.
-/
def characterOf (code : Nat) : Char :=
  if 0xD800 ≤ code ∧ code < 0xE000 then '\ufffd' else Char.ofNat code

/-- What a backslash begins, the cursor being after it. -/
def escape (c : Cursor) : Except Fault (List Char × Cursor) :=
  match c.peek with
  | none => .error .badEscape
  | some x =>
    match escapes.lookup x, escapeWidths.lookup x with
    | some y, _ => .ok ([y], c.next)
    | none, some width =>
      let digits := c.next.rest.take width
      if digits.length = width ∧ digits.all fun d => (hexDigit? d).isSome then
        let code := ofDigits 16 digits
        if 0x10FFFF < code then .error (.noSuchCharacter code)
        else .ok ([characterOf code], c.skip (width + 1))
      else .error .badEscape
    | none, none =>
      if isBreak x then quotedBreaks (c.rest.length + 1) c.next
      else .error .badEscape

/-- The characters as far as a blank, a line break or the closing mark; `fuel` is at least the
number of characters left. -/
def quotedWord (double : Bool) : Nat → Cursor → Except Fault (List Char × Cursor)
  | 0, c => .ok ([], c)
  | fuel + 1, c =>
    let keep (x : Char) (n : Nat) : Except Fault (List Char × Cursor) := do
      let (more, c) ← quotedWord double fuel (c.skip n)
      return (x :: more, c)
    match c.peek with
    | none => .ok ([], c)
    | some '\'' =>
      if double then keep '\'' 1
      else if c.look 1 = some '\'' then keep '\'' 2
      else .ok ([], c)
    | some '"' => if double then .ok ([], c) else keep '"' 1
    | some '\\' =>
      if double then do
        let (chars, c) ← escape c.next
        let (more, c) ← quotedWord double fuel c
        return (chars ++ more, c)
      else keep '\\' 1
    | some x => if x = ' ' ∨ x = '\t' ∨ isBreak x then .ok ([], c) else keep x 1

/-- The text for a line break after which the breaks `more` come at once. -/
def fold (lineBreak : Char) (more : List Char) : List Char :=
  if lineBreak ≠ '\n' then lineBreak :: more
  else if more = [] then [' ']
  else more

/-- The blanks here, folded if a line ends in them. -/
def quotedBlanks (c : Cursor) : Except Fault (List Char × Cursor) :=
  let (blanks, c) := c.takeWhile fun x => x == ' ' || x == '\t'
  match c.peek with
  | none => .error .unclosedQuote
  | some x =>
    if isBreak x then do
      let (more, c) ← quotedBreaks (c.rest.length + 1) c.next
      return (fold (breakText x) more, c)
    else .ok (blanks, c)

/-- Words and blanks as far as the closing mark; `fuel` is greater than the number of characters
left. -/
def quotedRest (double : Bool) : Nat → Cursor → Except Fault (List Char × Cursor)
  | 0, c => .ok ([], c)
  | fuel + 1, c => do
    let (word, c) ← quotedWord double c.rest.length c
    if c.peek = some (if double then '"' else '\'') then return (word, c.next)
    let (blanks, c) ← quotedBlanks c
    let (more, c) ← quotedRest double fuel c
    return (word ++ blanks ++ more, c)

/-- A text in quotation marks. -/
def quoted (double : Bool) : Scan String := do
  let chars ← fun c => quotedRest double (c.rest.length + 1) c.next
  return String.ofList chars

/-! ## Plain -/

/-- Line breaks and the spaces between them, and whether a document ends after one of them; `fuel`
is at least the number of characters left. -/
def plainBreaks : Nat → Cursor → List Char × Bool × Cursor
  | 0, c => ([], false, c)
  | fuel + 1, c =>
    match c.peek with
    | some ' ' => plainBreaks fuel c.next
    | some x =>
      if isBreak x then
        if c.next.atDocumentMarker then ([], true, c.next)
        else
          let (more, ended, c) := plainBreaks fuel c.next
          (breakText x :: more, ended, c)
      else ([], false, c)
    | none => ([], false, c)

/-- The blanks after a part of a plain text: what they count as, nothing if the text ends with
them, and whether they hold a line break. -/
def plainBlanks (c : Cursor) : List Char × Bool × Cursor :=
  let (spaces, c) := c.takeWhile (· == ' ')
  match c.peek with
  | some x =>
    if isBreak x then
      if c.next.atDocumentMarker then ([], true, c.next)
      else
        match plainBreaks c.rest.length c.next with
        | (_, true, c) => ([], true, c)
        | (more, false, c) => (fold (breakText x) more, true, c)
    else (spaces, false, c)
  | none => (spaces, false, c)

/-- Whether the plain text ends before the first of some characters. -/
def endsPlain (inFlow : Bool) : List Char → Bool
  | [] => true
  | ':' :: rest =>
    endsWord rest.head? || (inFlow && rest.head?.any ",[]\x7b\x7d".toList.contains)
  | x :: _ => endsWord (some x) || (inFlow && ",?[]\x7b\x7d".toList.contains x)

/-- The characters of a plain text before a blank or an indicator that ends it. -/
def plainWord (inFlow : Bool) : List Char → List Char
  | [] => []
  | x :: rest => if endsPlain inFlow (x :: rest) then [] else x :: plainWord inFlow rest

/-- The rest of a plain text after `blanks`, whose lines are indented by `indent` at least, and
whether a line ended after its last word; `fuel` is greater than the number of characters left. -/
def plainRest (inFlow : Bool) (indent : Int) (blanks : List Char) (lineEnded : Bool) :
    Nat → Cursor → List Char × Bool × Cursor
  | 0, c => ([], lineEnded, c)
  | fuel + 1, c =>
    let word := plainWord inFlow c.rest
    if c.peek = some '#' ∨ word = [] then ([], lineEnded, c)
    else
      let (next, ended, c) := plainBlanks (c.skip word.length)
      if next = [] ∨ c.peek = some '#' ∨ (! inFlow ∧ c.column < indent) then
        (blanks ++ word, ended, c)
      else
        let (more, ended, c) := plainRest inFlow indent next ended fuel c
        (blanks ++ word ++ more, ended, c)

/-- A plain text, and whether a line ended after it. -/
def plain (inFlow : Bool) (indent : Int) : Scan (String × Bool) := do
  let (chars, ended) ← Scan.run fun c =>
    let (chars, ended, c) := plainRest inFlow indent [] false (c.rest.length + 1) c
    ((chars, ended), c)
  return (String.ofList chars, ended)

/-! ## As a block of lines -/

/-- What happens to the line breaks at the end of a block. -/
inductive Chomping where
  | clip
  | strip
  | keep
deriving DecidableEq, Repr

/-- The chomping that an indicator asks for. -/
def chomping? : Option Char → Option Chomping
  | some '+' => some .keep
  | some '-' => some .strip
  | _ => none

/-- The width that an indicator asks for, from one to nine. -/
def width? (c : Option Char) : Option Nat :=
  c.bind fun d => if d.isDigit then some (ofDigits 10 [d]) else none

/-- The indicators after `|` or `>`, in either order. -/
def blockHeader : Scan (Chomping × Option Nat) := do
  let c ← get
  let result ←
    match chomping? c.peek, width? c.peek with
    | some chomping, _ => do
      move1
      let width := width? c.next.peek
      if width.isSome then move1
      pure (chomping, width)
    | none, some width => do
      move1
      let chomping := chomping? c.next.peek
      if chomping.isSome then move1
      pure (chomping.getD .clip, some width)
    | none, none => pure (.clip, none)
  if result.2 = some 0 then throw .badBlockHeader
  Scan.expect endsItem .badBlockHeader
  return result
where
  move1 : Scan Unit := Scan.move Cursor.next

/-- The line breaks before the first line, and the greatest column that the spaces among them reach;
`fuel` is at least the number of characters left. -/
def leadingBreaks : Nat → Cursor → List Char × Nat × Cursor
  | 0, c => ([], 0, c)
  | fuel + 1, c =>
    match c.peek with
    | some ' ' =>
      let (more, column, after) := leadingBreaks fuel c.next
      (more, max c.next.column column, after)
    | some x =>
      if isBreak x then
        let (more, column, after) := leadingBreaks fuel c.next
        (breakText x :: more, column, after)
      else ([], 0, c)
    | none => ([], 0, c)

/-- The cursor after at most `indent` columns of spaces. -/
def skipIndent (indent : Nat) (c : Cursor) : Cursor :=
  c.skip ((c.rest.take (indent - c.column)).takeWhile (· == ' ')).length

/-- The empty lines here, each indented by `indent` at most; `fuel` is greater than the number of
characters left. -/
def emptyLines (indent : Nat) : Nat → Cursor → List Char × Cursor
  | 0, c => ([], c)
  | fuel + 1, c =>
    let c := skipIndent indent c
    match c.peek with
    | some x =>
      if isBreak x then
        let (more, c) := emptyLines indent fuel c.next
        (breakText x :: more, c)
      else ([], c)
    | none => ([], c)

/-- Whether a blank is here. -/
def atBlank (c : Cursor) : Bool :=
  c.peek == some ' ' || c.peek == some '\t'

/-- The lines of a block after the line breaks `breaks`; `fuel` is greater than the number of
characters left. -/
def blockLines (folded : Bool) (chomping : Chomping) (indent : Nat) (breaks lastBreak : List Char) :
    Nat → Cursor → List Char × Cursor
  | 0, c => ([], c)
  | fuel + 1, c =>
    if c.column = indent ∧ c.peek.isSome then
      let blankFirst := atBlank c
      let (line, c) := c.takeWhile (! isBreak ·)
      let lineBreak := (c.peek.map breakText).toList
      let (next, c) := emptyLines indent (c.rest.length + 1) c.next
      let joint :=
        if c.column = indent ∧ c.peek.isSome then
          if folded ∧ lineBreak = ['\n'] ∧ ! blankFirst ∧ ! atBlank c then
            if next = [] then [' '] else []
          else lineBreak
        else []
      let (more, c) := blockLines folded chomping indent next lineBreak fuel c
      (breaks ++ line ++ joint ++ more, c)
    else
      match chomping with
      | .strip => ([], c)
      | .clip => (lastBreak, c)
      | .keep => (lastBreak ++ breaks, c)

/-- A block of lines in a collection that is indented by `indent`. -/
def block (folded : Bool) (indent : Int) : Scan String := do
  Scan.move Cursor.next
  let (chomping, width) ← blockHeader
  Scan.move fun c => (c.dropWhile (· == ' ')).skipComment
  Scan.expect endsLine .badBlockHeader
  Scan.move Cursor.next
  let least := max 1 (indent + 1).toNat
  let chars ← Scan.run fun c =>
    let (breaks, indent, c) :=
      match width with
      | none =>
        let (breaks, column, c) := leadingBreaks c.rest.length c
        (breaks, max least column, c)
      | some width =>
        let indent := least + width - 1
        let (breaks, c) := emptyLines indent (c.rest.length + 1) c
        (breaks, indent, c)
    blockLines folded chomping indent breaks [] (c.rest.length + 1) c
  return String.ofList chars

end Scalar

end AccessPatch.Yaml
