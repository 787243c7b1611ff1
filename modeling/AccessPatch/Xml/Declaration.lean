import AccessPatch.Xml.Name
import AccessPatch.Xml.Symbol

/-!
# The declaration of a document

A document may begin with a declaration of its version, its encoding and whether it stands alone, in
this order, written like attributes. Reading one gives the declaration, or the offset of the first
character that does not fit.
-/

namespace AccessPatch.Xml

/-- What a document declares about itself. -/
structure Declaration where
  version : String
  /-- The declared encoding, with the offset of its name. -/
  encoding : Option (String × Nat) := none
  standalone : Bool := false
deriving DecidableEq, Repr

/-- A name with a value in quotes. -/
structure Declaration.Item where
  name : String
  namePos : Nat
  value : String
  valuePos : Nat
deriving DecidableEq, Repr

namespace Declaration

/-- The offset of the first of some characters, or the one after all of them. -/
def posOf (stop : Nat) (cs : List Placed) : Nat :=
  (cs.head?.map Placed.pos).getD stop

def textOf (cs : List Placed) : String :=
  String.ofList (cs.map Placed.char)

def skipSpace (cs : List Placed) : List Placed :=
  cs.dropWhile (isSpace ·.char)

def isAscii (c : Char) : Bool := c.toNat < 0x80

/-- A character of a value. -/
def isValueChar (c : Char) : Bool :=
  c.isAlphanum || c == '.' || c == '-' || c == '_'

/-- Reads white space and an item after it. No item is there if nothing but white space is left. -/
def item? (stop : Nat) (cs : List Placed) : Except Nat (Option (Item × List Placed)) := do
  if cs = [] then return none
  let nameOn := skipSpace cs
  if nameOn.length = cs.length then throw (posOf stop cs)
  if nameOn = [] then return none
  let (name, afterName) := nameOn.span fun c => isAscii c.char && c.char != '=' && ! isSpace c.char
  let equalsOn := match afterName with
    | c :: _ => if isAscii c.char then skipSpace afterName else afterName
    | [] => []
  match equalsOn with
  | ⟨'=', pos⟩ :: rest =>
    if name = [] then throw pos
    match skipSpace rest with
    | ⟨quote, pos⟩ :: valueOn =>
      if quote ≠ '"' ∧ quote ≠ '\'' then throw pos
      let (value, afterValue) := valueOn.span (isValueChar ·.char)
      match afterValue with
      | ⟨c, pos⟩ :: rest =>
        if c ≠ quote then throw pos
        return some (⟨textOf name, posOf stop nameOn, textOf value, posOf stop valueOn⟩, rest)
      | [] => throw stop
    | [] => throw stop
  | other => throw (posOf stop other)

/-- Reads what may follow the encoding: whether the document stands alone, and nothing else. -/
def readStandalone (stop : Nat) (version : String) (encoding : Option (String × Nat)) (item : Item)
    (rest : List Placed) : Except Nat Declaration := do
  if item.name ≠ "standalone" then throw item.namePos
  if item.value ≠ "yes" ∧ item.value ≠ "no" then throw item.valuePos
  if skipSpace rest ≠ [] then throw (posOf stop (skipSpace rest))
  return ⟨version, encoding, item.value = "yes"⟩

/-- Reads what may follow the version. -/
def readEncoding (stop : Nat) (version : String) (item : Item) (rest : List Placed) :
    Except Nat Declaration := do
  if item.name ≠ "encoding" then readStandalone stop version none item rest
  else
    match item.value.toList.head? with
    | some c => if ! c.isAlpha then throw item.valuePos
    | none => throw item.valuePos
    let encoding := some (item.value, item.valuePos)
    match ← item? stop rest with
    | none => return ⟨version, encoding, false⟩
    | some (item, rest) => readStandalone stop version encoding item rest

/-- Reads a declaration from what stands between its marks, which end at `stop`. -/
def ofBody (stop : Nat) (body : List Placed) : Except Nat Declaration := do
  match ← item? stop body with
  | none => throw (posOf stop body)
  | some (version, rest) =>
    if version.name ≠ "version" then throw version.namePos
    match ← item? stop rest with
    | none => return ⟨version.value, none, false⟩
    | some (item, rest) => readEncoding stop version.value item rest

end Declaration

end AccessPatch.Xml
