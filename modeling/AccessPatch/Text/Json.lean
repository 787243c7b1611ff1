/-!
# JSON text

`Json.render` writes a value over several lines, two spaces for each level, the fields of an
object in the order given. The text is ASCII: all other characters are escaped.
-/

namespace AccessPatch

inductive Json where
  | null
  | boolean (b : Bool)
  | number (n : Int)
  | text (s : String)
  | array (items : List Json)
  | object (fields : List (String × Json))
deriving Repr

namespace Json

/-- A 16-bit unit as four hexadecimal digits after a backslash. -/
def unitText (n : Nat) : String :=
  let digits := [n / 4096 % 16, n / 256 % 16, n / 16 % 16, n % 16].map Nat.digitChar
  String.ofList ('\\' :: 'u' :: digits)

/-- A character inside quotation marks. One beyond the 16-bit range is written as a surrogate
pair. -/
def charText (c : Char) : String :=
  let n := c.toNat
  if c = '"' then "\\\""
  else if c = '\\' then "\\\\"
  else if c = '\n' then "\\n"
  else if c = '\r' then "\\r"
  else if c = '\t' then "\\t"
  else if n = 0x08 then "\\b"
  else if n = 0x0C then "\\f"
  else if 0x20 ≤ n ∧ n < 0x7F then c.toString
  else if n < 0x10000 then unitText n
  else unitText (0xD800 + (n - 0x10000) / 0x400) ++ unitText (0xDC00 + (n - 0x10000) % 0x400)

/-- A text in quotation marks. -/
def quote (s : String) : String :=
  "\"" ++ String.join (s.toList.map charText) ++ "\""

/-- The beginning of a line at a level. -/
def lineStart (level : Nat) : String :=
  String.ofList ('\n' :: List.replicate (2 * level) ' ')

mutual

/-- The text of a value at a level. -/
def renderAt (level : Nat) : Json → String
  | null => "null"
  | boolean b => if b then "true" else "false"
  | number n => toString n
  | text s => quote s
  | array [] => "[]"
  | array (item :: items) =>
    "[" ++ lineStart (level + 1) ++ renderAt (level + 1) item ++ renderItems (level + 1) items ++
      lineStart level ++ "]"
  | object [] => "\x7b\x7d"
  | object ((name, value) :: fields) =>
    "\x7b" ++ lineStart (level + 1) ++ quote name ++ ": " ++ renderAt (level + 1) value ++
      renderFields (level + 1) fields ++ lineStart level ++ "\x7d"

/-- The text of the items after the first. -/
def renderItems (level : Nat) : List Json → String
  | [] => ""
  | item :: items => "," ++ lineStart level ++ renderAt level item ++ renderItems level items

/-- The text of the fields after the first. -/
def renderFields (level : Nat) : List (String × Json) → String
  | [] => ""
  | (name, value) :: fields =>
    "," ++ lineStart level ++ quote name ++ ": " ++ renderAt level value ++
      renderFields level fields

end

def render (j : Json) : String :=
  j.renderAt 0

end Json

end AccessPatch
