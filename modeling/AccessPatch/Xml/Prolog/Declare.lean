import AccessPatch.Xml.Dtd
import AccessPatch.Xml.Prolog.Grammar

/-!
# Taking declarations into account

What the tokens of declarations do to the declared entities and attributes.
-/

namespace AccessPatch.Xml.Prolog

/-- What makes names, the declarations so far, and the parts of the one under way. -/
structure Context where
  alphabet : Alphabet := {}
  dtd : Dtd := {}
  /-- The entity being declared, if its declaration counts. -/
  entity : Option String := none
  element : String := ""
  attr : String := ""
  anyText : Bool := false
  identifies : Bool := false
deriving DecidableEq, Repr

/-- A character of a public identifier: letters, digits, spaces, line breaks and some marks. -/
def isPublicIdChar (c : Char) : Bool :=
  c.isAlphanum || " \r\n-'()+,./:=?;!*#@$_%".toList.contains c

/-- Accepts a public identifier. -/
def checkPublicId (text : List Placed) : Except Flaw Unit :=
  match text.find? (! isPublicIdChar ·.char) with
  | some c => .error ⟨.badPublicId, .offset c.pos⟩
  | none => .ok ()

namespace Context

/-- Changes the entity being declared. -/
def modifyEntity (ctx : Context) (f : Entity → Entity) : Context :=
  match ctx.entity with
  | none => ctx
  | some name =>
    { ctx with dtd.entities := ctx.dtd.entities.map fun (n, e) => (n, if n = name then f e else e) }

/-- Begins the declaration of an entity. The first declaration of a name counts, and those of
predefined names do not. -/
def declareEntity (ctx : Context) (name : String) : Context :=
  if (Reference.predefined.lookup name).isSome || ! ctx.dtd.reading ||
      (ctx.dtd.entities.lookup name).isSome then { ctx with entity := none }
  else { ctx with dtd.entities := (name, {}) :: ctx.dtd.entities, entity := some name }

/-- Ends the declaration of an attribute with its default. -/
def declareAttribute (ctx : Context) (text : Option (List Placed)) : Except Flaw Context := do
  if ! ctx.dtd.reading then return ctx
  match text with
  | none =>
    let rule := ⟨ctx.element, ctx.attr, ctx.anyText, none, ctx.identifies⟩
    return { ctx with dtd := ctx.dtd.addRule rule }
  | some text =>
    let value ← ctx.dtd.expandValue ctx.alphabet ctx.anyText [] text
    let rule := ⟨ctx.element, ctx.attr, ctx.anyText, some value, false⟩
    return { ctx with dtd := ctx.dtd.addRule rule }

def perform (ctx : Context) : Action → Except Flaw Context
  | .nothing | .root | .instruction _ | .notationName _ => .ok ctx
  | .publicId doctype text => do
    checkPublicId text
    return if doctype then { ctx with dtd.incomplete := true } else ctx
  | .systemId doctype => .ok (if doctype then { ctx with dtd.incomplete := true } else ctx)
  | .entityName name => .ok (ctx.declareEntity name)
  | .parameterEntity _ => .ok { ctx with entity := none }
  | .entityValue text => do
    if ! ctx.dtd.reading then return ctx
    let text ← replacementText ctx.alphabet text
    return ctx.modifyEntity fun e => { e with text := some text }
  | .unparsedEntity =>
    .ok (if ctx.dtd.reading then ctx.modifyEntity fun e => { e with unparsed := true } else ctx)
  | .attributesOf element => .ok { ctx with element }
  | .attributeName name => .ok { ctx with attr := name, anyText := false, identifies := false }
  | .attributeType anyText identifies => .ok { ctx with anyText, identifies }
  | .attributeDefault text => ctx.declareAttribute text
  | .parameterReference =>
    .ok { ctx with dtd.incomplete := true, dtd.reading := ctx.dtd.standalone }

end Context

end AccessPatch.Xml.Prolog
