import AccessPatch.Text.Digit
import AccessPatch.Xml.Name

/-!
# References

The markup that begins with `&` and ends with `;`: the name of an entity, or the number of a
character. A reference is read one character at a time.
-/

namespace AccessPatch.Xml

/-- What a reference stands for. -/
inductive Reference where
  | entity (name : String)
  | character (n : Nat)
deriving DecidableEq, Repr

namespace Reference

/-- A reference under way: what has been read after the `&`, names in reverse. -/
inductive Progress where
  | start
  | name (read : List Char)
  | number
  | decimal (n : Nat)
  | hexStart
  | hex (n : Nat)
deriving DecidableEq, Repr

/-- The outcome of one more character. -/
inductive Step where
  | going (progress : Progress)
  | done (reference : Reference)
  | unfit
deriving DecidableEq, Repr

/-- Reads one character of a reference. -/
def Progress.step (alphabet : Alphabet) (p : Progress) (c : Char) : Step :=
  match p with
  | start =>
    if c = '#' then .going number else if alphabet.isNameStart c then .going (name [c]) else .unfit
  | name read =>
    if c = ';' then .done (.entity (String.ofList read.reverse))
    else if alphabet.isNameChar c then .going (name (c :: read))
    else .unfit
  | number =>
    if c = 'x' then .going hexStart
    else if c.isDigit then .going (decimal (c.toNat - '0'.toNat))
    else .unfit
  | decimal n =>
    if c = ';' then .done (.character n)
    else if c.isDigit then .going (decimal (n * 10 + (c.toNat - '0'.toNat)))
    else .unfit
  | hexStart =>
    match hexDigit? c with
    | some d => .going (hex d)
    | none => .unfit
  | hex n =>
    if c = ';' then .done (.character n)
    else match hexDigit? c with
      | some d => .going (hex (n * 16 + d))
      | none => .unfit

/-- Whether a name is being read, so that any character could come. -/
def Progress.inName : Progress → Bool
  | start | name _ => true
  | _ => false

/-- The character with a number, if a document may refer to it. -/
def character? (n : Nat) : Option Char :=
  if n < 0xD800 ∨ (0xE000 ≤ n ∧ n < 0x110000) then
    if n == 0x09 || n == 0x0A || n == 0x0D || (0x20 ≤ n && n != 0xFFFE && n != 0xFFFF) then
      some (Char.ofNat n)
    else none
  else none

/-- The entities that every document has. -/
def predefined : List (String × Char) :=
  [("lt", '<'), ("gt", '>'), ("amp", '&'), ("quot", '"'), ("apos", '\'')]

end Reference

end AccessPatch.Xml
