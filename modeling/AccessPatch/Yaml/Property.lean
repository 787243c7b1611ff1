import AccessPatch.Text.Digit
import AccessPatch.Text.Utf8
import AccessPatch.Yaml.Fault

/-!
# Anchors, tags and directives

The parts of a configuration text that are not content: names for nodes, types of nodes, and lines
that begin with a percent sign.
-/

namespace AccessPatch.Yaml

/-- A line that begins with a percent sign. -/
inductive Directive where
  | version (major : Nat)
  /-- What a handle stands for. -/
  | handle (handle lead : String)
  | reserved
deriving DecidableEq, Repr

namespace Scan

/-- A non-empty run of word characters. -/
def word (fault : Fault) : Scan String := do
  let name ← run (·.takeWhile isWordChar)
  if name = [] then throw fault
  return String.ofList name

/-- An anchor or an alias, from its indicator on. -/
def anchor : Scan String := do
  move Cursor.next
  let name ← word .badAnchor
  expect (fun c => endsWord c || (c.any "?:,]\x7d%@`".toList.contains)) .badAnchor
  return name

/-- A byte written as a percent sign and two hexadecimal digits. -/
def uriByte? (c : Cursor) : Option UInt8 :=
  match c.rest with
  | '%' :: a :: b :: _ => do
    let high ← hexDigit? a
    let low ← hexDigit? b
    return UInt8.ofNat (high * 16 + low)
  | _ => none

/-- A run of bytes written with percent signs, and the cursor after it; `fuel` bounds its length.
None if a percent sign has no two digits after it. -/
def uriBytes : Nat → Cursor → Option (List UInt8 × Cursor)
  | 0, c => some ([], c)
  | fuel + 1, c =>
    if c.peek = some '%' then do
      let byte ← uriByte? c
      let (more, c) ← uriBytes fuel (c.skip 3)
      return (byte :: more, c)
    else some ([], c)

/-- Whether a character may stand in the suffix of a tag. -/
def isUriChar (c : Char) : Bool :=
  c.isAlphanum || "-;/?:@&=+$,_.!~*'()[]".toList.contains c

/-- The characters of the suffix of a tag; `fuel` is greater than their number. -/
def uriChars : Nat → Cursor → Except Fault (List Char × Cursor)
  | 0, c => .ok ([], c)
  | fuel + 1, c =>
    match c.peek with
    | some '%' =>
      match uriBytes c.rest.length c with
      | none => .error .badTag
      | some (bytes, after) =>
        match Utf8.decode? bytes with
        | none => .error .badTag
        | some text => do
          let (more, c) ← uriChars fuel after
          return (text.toList ++ more, c)
    | some x =>
      if isUriChar x then do
        let (more, c) ← uriChars fuel c.next
        return (x :: more, c)
      else .ok ([], c)
    | none => .ok ([], c)

/-- The suffix of a tag, which is not empty. -/
def uri : Scan String := do
  let chars ← fun c => uriChars (c.rest.length + 1) c
  if chars = [] then throw .badTag
  return String.ofList chars

/-- A handle: an exclamation mark, two, or a word between two. -/
def tagHandle : Scan String := do
  expect (· == some '!') .badTag
  move Cursor.next
  let c ← get
  if c.peek = some ' ' then return "!"
  let name ← run (·.takeWhile isWordChar)
  expect (· == some '!') .badTag
  move Cursor.next
  return "!" ++ String.ofList name ++ "!"

/-- A tag: its handle, if it has one, and its suffix. -/
def tag : Scan (Option String × String) := do
  let c ← get
  let result ←
    if c.look 1 = some '<' then do
      move (·.skip 2)
      let suffix ← uri
      expect (· == some '>') .badTag
      move Cursor.next
      pure (none, suffix)
    else if endsWord (c.look 1) then do
      move Cursor.next
      pure (none, "!")
    else if (c.rest.drop 1 |>.takeWhile fun x => ! endsItem (some x)).contains '!' then do
      let handle ← tagHandle
      let suffix ← uri
      pure (some handle, suffix)
    else do
      move Cursor.next
      let suffix ← uri
      pure (some "!", suffix)
  expect endsItem .badTag
  return result

/-- What may follow on a line: spaces and a comment. -/
def endOfLine (fault : Fault) : Scan Unit := do
  move fun c => (c.dropWhile (· == ' ')).skipComment
  expect endsLine fault
  move Cursor.next

/-- A run of digits, as a number. -/
def digits (fault : Fault) : Scan Nat := do
  let ds ← run (·.takeWhile Char.isDigit)
  if ds = [] then throw fault
  return ofDigits 10 ds

/-- A line that begins with a percent sign. -/
def directive : Scan Directive := do
  move Cursor.next
  let name ← word .badDirective
  expect endsItem .badDirective
  let result ←
    if name = "YAML" then do
      move (·.dropWhile (· == ' '))
      let major ← digits .badDirective
      expect (· == some '.') .badDirective
      move Cursor.next
      discard (digits .badDirective)
      expect endsItem .badDirective
      pure (.version major)
    else if name = "TAG" then do
      move (·.dropWhile (· == ' '))
      let handle ← tagHandle
      expect (· == some ' ') .badDirective
      move (·.dropWhile (· == ' '))
      let lead ← uri
      expect endsItem .badDirective
      pure (.handle handle lead)
    else do
      move (·.dropWhile (! isBreak ·))
      pure .reserved
  endOfLine .badDirective
  return result

end Scan

end AccessPatch.Yaml
