import AccessPatch.Xml.Fault
import AccessPatch.Xml.Reference
import AccessPatch.Xml.Symbol

/-!
# Declared entities and attributes

What the declarations at the head of a document leave behind: entities, and attributes with their
defaults. `Dtd.expandValue` gives an attribute value its final form, with references replaced and
white space normalised; `replacementText` does a part of that for the text of an entity.
-/

namespace AccessPatch.Xml

/-- A declared entity. -/
structure Entity where
  /-- Its replacement text, if that stands in the document. -/
  text : Option (List Char) := none
  /-- Whether it is data of some other kind than markup. -/
  unparsed : Bool := false
deriving DecidableEq, Repr

/-- A declared attribute of some element. -/
structure AttributeRule where
  element : String
  name : String
  /-- Whether its value is any text; if not, white space in it is collapsed. -/
  anyText : Bool
  /-- The value where the attribute is not given. -/
  default : Option String
  /-- Whether the value identifies the element in the document. -/
  identifies : Bool := false
deriving DecidableEq, Repr

/-- The declarations read so far. -/
structure Dtd where
  entities : List (String × Entity) := []
  /-- The declared attributes, in the order of their declarations. -/
  rules : List AttributeRule := []
  /-- Whether some declarations may be out of sight, so that an unknown entity is no fault. -/
  incomplete : Bool := false
  /-- Whether the document says that it needs no declarations from elsewhere. -/
  standalone : Bool := false
  /-- Whether declarations still count: those after one out of sight do not. -/
  reading : Bool := true
deriving DecidableEq, Repr

namespace Dtd

/-- Whether every entity has to be declared in sight. -/
def demandsEntities (dtd : Dtd) : Bool :=
  ! dtd.incomplete || dtd.standalone

/-- The replacement text of an entity that is referred to, where `opened` are the entities whose
text is being read, and `needed` says whether it has to be declared. No text is there for an
entity out of sight. -/
def entityText? (dtd : Dtd) (needed : Bool) (opened : List String) (name : String) :
    Except Fault (Option Entity) :=
  match dtd.entities.lookup name with
  | none => if needed then .error .undefinedEntity else .ok none
  | some entity =>
    if opened.contains name then .error .recursiveEntity
    else if entity.unparsed then .error .unparsedEntity
    else .ok (some entity)

end Dtd

/-! ## Attribute values -/

/-- An attribute value under way: the characters so far in reverse, the reference being read with
the offset of its `&`, and whether the last character was a CR. -/
structure ValueState where
  read : List Char := []
  reference : Option (Reference.Progress × Nat) := none
  afterCr : Bool := false
deriving DecidableEq, Repr

namespace ValueState

/-- Adds a space, unless white space is collapsed and one stands there already, or nothing does. -/
def addSpace (anyText : Bool) (read : List Char) : List Char :=
  if anyText then ' ' :: read
  else match read with
    | [] | ' ' :: _ => read
    | _ => ' ' :: read

/-- Reads one character, with `expand` for the text of an entity. -/
def step (alphabet : Alphabet) (anyText : Bool)
    (expand : List Char → Nat → String → Except Flaw (List Char))
    (s : ValueState) (c : Placed) : Except Flaw ValueState :=
  match s.reference with
  | some (progress, pos) =>
    match progress.step alphabet c.char with
    | .going progress => .ok { s with reference := some (progress, pos) }
    | .unfit => .error ⟨.badToken, .offset c.pos⟩
    | .done (.character n) =>
      match Reference.character? n with
      | none => .error ⟨.badCharacterNumber, .offset pos⟩
      | some ' ' => .ok ⟨addSpace anyText s.read, none, false⟩
      | some d => .ok ⟨d :: s.read, none, false⟩
    | .done (.entity name) =>
      match Reference.predefined.lookup name with
      | some d => .ok ⟨d :: s.read, none, false⟩
      | none => do return ⟨← expand s.read pos name, none, false⟩
  | none =>
    match c.char with
    | '&' => .ok { s with reference := some (.start, c.pos), afterCr := false }
    | '<' => .error ⟨.badToken, .offset c.pos⟩
    | '\n' => .ok ⟨if s.afterCr then s.read else addSpace anyText s.read, none, false⟩
    | '\r' => .ok ⟨addSpace anyText s.read, none, true⟩
    | ' ' | '\t' => .ok ⟨addSpace anyText s.read, none, false⟩
    | d => .ok ⟨d :: s.read, none, false⟩

/-- The characters read, in reverse, if no reference is unfinished. -/
def finish (s : ValueState) : Except Flaw (List Char) :=
  match s.reference with
  | some (_, pos) => .error ⟨.badToken, .offset pos⟩
  | none => .ok s.read

end ValueState

namespace Dtd

/-- The text after a reference to an entity in an attribute value, where `read` stands before it.
`enter` reads the replacement text of an entity. -/
def expandEntity (dtd : Dtd) (needed : Bool) (opened : List String)
    (enter : String → List Char → List Placed → Except Flaw (List Char))
    (read : List Char) (pos : Nat) (name : String) : Except Flaw (List Char) :=
  match dtd.entityText? needed opened name with
  | .error .unparsedEntity => .error ⟨.unparsedEntity, .offset pos⟩
  | .error fault => .error ⟨fault, .token⟩
  | .ok none => .ok read
  | .ok (some entity) =>
    match entity.text with
    | none => .error ⟨.externalEntityInAttribute, .offset pos⟩
    | some text =>
      match enter name read (text.map fun c => ⟨c, 0⟩) with
      | .error flaw => .error ⟨flaw.fault, .token⟩
      | .ok read => .ok read

/-- Reads the text of an attribute value after `read`. Entities are opened at most `depth` deep, and
since none may be open twice, the number of entities is depth enough. -/
def readValue (dtd : Dtd) (alphabet : Alphabet) (anyText needed : Bool) (depth : Nat)
    (opened : List String) (read : List Char) (text : List Placed) : Except Flaw (List Char) := do
  let enter (name : String) (read : List Char) (text : List Placed) : Except Flaw (List Char) :=
    match depth with
    | 0 => .error ⟨.recursiveEntity, .token⟩
    | depth + 1 =>
      dtd.readValue alphabet.forEntityText anyText needed depth (name :: opened) read text
  let last ← text.foldlM
    (ValueState.step alphabet anyText (dtd.expandEntity needed opened enter)) { read }
  last.finish

/-- The final form of an attribute value that stands in the text of the `opened` entities. A value
that is not any text loses a space at its end. -/
def expandValue (dtd : Dtd) (alphabet : Alphabet) (anyText : Bool) (opened : List String)
    (text : List Placed) :
    Except Flaw String := do
  let read ← dtd.readValue alphabet anyText dtd.demandsEntities dtd.entities.length opened []
    text
  return String.ofList (match anyText, read with
    | false, ' ' :: rest => rest.reverse
    | _, read => read.reverse)

/-- Whether the value of an attribute is any text, by the first declaration of it. -/
def isAnyText (dtd : Dtd) (element name : String) : Bool :=
  match dtd.rules.find? fun rule => rule.element == element && rule.name == name with
  | some rule => rule.anyText
  | none => true

/-- The defaults of the attributes of `element` that are not among the given ones. -/
def defaultsBeside (dtd : Dtd) (element : String) (given : List String) :
    List (String × String) :=
  dtd.rules.filterMap fun rule =>
    if rule.element == element && ! given.contains rule.name then
      rule.default.map fun value => (rule.name, value)
    else none

/-- The attributes of an element that are declared to identify it. -/
def identifyingAttributes (dtd : Dtd) (element : String) : List String :=
  (dtd.rules.filter fun rule => rule.element == element && rule.identifies).map AttributeRule.name

/-- Adds the declaration of an attribute; the first one that gives a default or makes the
attribute an identifier stands. -/
def addRule (dtd : Dtd) (rule : AttributeRule) : Dtd :=
  if (rule.default.isSome || rule.identifies) &&
      dtd.rules.any (fun r => r.element == rule.element && r.name == rule.name) then dtd
  else { dtd with rules := dtd.rules ++ [rule] }

end Dtd

/-! ## Entity values -/

/-- An entity value under way: its text so far in reverse, and a reference, or a parameter
reference, being read with the offset where it began. A reference to an entity stays as it is, so
its characters are kept in reverse. -/
inductive EntityValueState where
  | text (read : List Char) (afterCr : Bool)
  | reference (read : List Char) (progress : Reference.Progress) (raw : List Char) (pos : Nat)
  | percent (pos : Nat)
  | parameterName (pos : Nat)
deriving DecidableEq, Repr

namespace EntityValueState

def step (alphabet : Alphabet) (s : EntityValueState) (c : Placed) : Except Flaw EntityValueState :=
  match s with
  | text read afterCr =>
    match c.char with
    | '&' => .ok (reference read .start ['&'] c.pos)
    | '%' => .ok (percent c.pos)
    | '\n' => .ok (text (if afterCr then read else '\n' :: read) false)
    | '\r' => .ok (text ('\n' :: read) true)
    | d => .ok (text (d :: read) false)
  | reference read progress raw pos =>
    match progress.step alphabet c.char with
    | .going progress => .ok (reference read progress (c.char :: raw) pos)
    | .unfit => .error ⟨.badToken, .offset c.pos⟩
    | .done (.entity _) => .ok (text (c.char :: raw ++ read) false)
    | .done (.character n) =>
      match Reference.character? n with
      | none => .error ⟨.badCharacterNumber, .offset pos⟩
      | some d => .ok (text (d :: read) false)
  | percent pos =>
    if alphabet.isNameStart c.char then .ok (parameterName pos)
      else .error ⟨.badToken, .offset c.pos⟩
  | parameterName pos =>
    if c.char = ';' then .error ⟨.misplacedParameterReference, .offset pos⟩
    else if alphabet.isNameChar c.char then .ok (parameterName pos)
    else .error ⟨.badToken, .offset c.pos⟩

end EntityValueState

/-- The replacement text that an entity value gives: references to characters are replaced, line
breaks become LF, and references to entities stay. -/
def replacementText (alphabet : Alphabet) (value : List Placed) : Except Flaw (List Char) := do
  match ← value.foldlM (EntityValueState.step alphabet) (.text [] false) with
  | .text read _ => return read.reverse
  | .reference _ _ _ pos | .percent pos | .parameterName pos =>
    throw ⟨.badToken, .offset pos⟩

end AccessPatch.Xml
