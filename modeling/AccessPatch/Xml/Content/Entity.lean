import AccessPatch.Xml.Content.Token
import AccessPatch.Xml.Event

/-!
# Tags and entities in content

The attributes that a start tag gives an element, and what a reference in content brings in. The
text of an entity is content by itself: a tag in it may not reach outside. An element that comes
out of an entity has no tag of its own in the document, so a reader that needs those tags refuses
it.
-/

namespace AccessPatch.Xml.Content

/-- The attributes of the element that a start tag begins, in the text of the `opened` entities:
those of the tag, then the declared defaults of others. -/
def StartTag.resolve (tag : StartTag) (dtd : Dtd) (alphabet : Alphabet) (opened : List String) :
    Except Flaw (List (String × String)) := do
  let given ← tag.attributes.foldlM (fun given a => do
    if (given.lookup a.name).isSome then throw ⟨.duplicateAttribute, .offset a.pos⟩
    let value ← dtd.expandValue alphabet (dtd.isAnyText tag.name a.name) opened a.value
    return given ++ [(a.name, value)]) []
  return given ++ dtd.defaultsBeside tag.name (given.map Prod.fst)

/-- The fault of the content that ends in a state, if it may not end there. -/
def Lexer.faultAtEnd? : Lexer → Option Fault
  | .text _ _ => none
  | .verbatim _ _ => some .unclosedCData
  | _ => some .unclosedToken

/-- What is needed to read the text of entities: the declarations, the alphabet of the text, whether
elements may come out of entities, and the offset of the reference in the document, at which such
elements count as standing. -/
structure Expansion where
  dtd : Dtd
  alphabet : Alphabet
  admitsTags : Bool
  pos : Nat
deriving DecidableEq, Repr

/-- The state of reading the text of an entity: the token under way, the names of the elements
open in it, innermost first, and the events, last one first. -/
structure Expansion.State where
  lexer : Lexer := .idle
  stack : List String := []
  events : List Event := []
deriving DecidableEq, Repr

namespace Expansion

/-- The events that a reference in content brings in, in reverse, with `read` for the text of an
entity to be opened. -/
def ofReference (x : Expansion) (opened : List String)
    (read : String → List Char → Except Fault (List Event)) (r : Reference) :
    Except Fault (List Event) :=
  match r with
  | .character n => if (Reference.character? n).isSome then .ok [] else .error .badCharacterNumber
  | .entity name =>
    if (Reference.predefined.lookup name).isSome then .ok []
    else match x.dtd.entityText? x.dtd.demandsEntities opened name with
      | .error fault => .error fault
      | .ok none => .ok []
      | .ok (some entity) =>
        match entity.text with
        | none => .ok []
        | some text => read name text

/-- Opens the element that a start tag in the text of an entity begins. -/
def openElement (x : Expansion) (s : State) (tag : StartTag) (empty : Bool)
    (attributes : List (String × String)) : Except Fault State :=
  let opened := Event.opened tag.name attributes x.pos x.pos empty
  if ! x.admitsTags then .error (.noTagEnd tag.name)
  else if empty then .ok { s with events := .closed tag.name x.pos :: opened :: s.events }
  else .ok { s with stack := tag.name :: s.stack, events := opened :: s.events }

/-- Closes the innermost element open in the text of an entity. -/
def closeElement (x : Expansion) (s : State) (name : String) : Except Fault State :=
  match s.stack with
  | [] => .error .asynchronousEntity
  | innermost :: outer =>
    if innermost = name then .ok { s with stack := outer, events := .closed name x.pos :: s.events }
    else .error .mismatchedTag

/-- Acts on a token in the text of an entity. -/
def act (x : Expansion) (opened : List String)
    (read : String → List Char → Except Fault (List Event)) (s : State) (t : Token) :
    Except Fault State :=
  match t with
  | .startTag tag empty =>
    match tag.resolve x.dtd x.alphabet opened with
    | .error flaw => .error flaw.fault
    | .ok attributes => x.openElement s tag empty attributes
  | .endTag name => x.closeElement s name
  | .instruction target =>
    if target = Instruction.declarationTarget then .error .misplacedDeclaration
    else .ok { s with events := .instruction target :: s.events }
  | .reference r => (x.ofReference opened read r).map fun es => { s with events := es ++ s.events }

/-- Ends the text of an entity. -/
def finish (s : State) : Except Fault (List Event) :=
  match s.lexer.faultAtEnd? with
  | some fault => .error fault
  | none => if s.stack.isEmpty then .ok s.events else .error .asynchronousEntity

/-- The events in the text of an entity, in reverse, where the `opened` entities are those it is
read for, itself included. Entities are opened at most `depth` deep. -/
def readText (x : Expansion) (depth : Nat) (opened : List String) (text : List Char) :
    Except Fault (List Event) := do
  let read (name : String) (text : List Char) : Except Fault (List Event) :=
    match depth with
    | 0 => .error .recursiveEntity
    | depth + 1 => x.readText depth (name :: opened) text
  let last ← (symbolsOf text).foldlM (fun s symbol =>
    match s.lexer.step x.alphabet 1 0 symbol with
    | .error flaw => .error flaw.fault
    | .ok lexed =>
      let s := { s with lexer := lexed.lexer }
      match lexed.token with
      | none => .ok s
      | some token => x.act opened read s token) ({} : State)
  finish last

/-- The events that a reference in the content of the document itself brings in, in reverse. -/
def ofTopReference (x : Expansion) (r : Reference) : Except Fault (List Event) :=
  x.ofReference [] (fun name text => x.readText x.dtd.entities.length [name] text) r

end Expansion

end AccessPatch.Xml.Content
