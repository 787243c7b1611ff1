import AccessPatch.Xml.Prolog.Token

/-!
# The grammar outside the root element

`State.next?` says which tokens may follow in each state and what they mean. The declarations of a
document type are checked in full, also those that mean nothing to the reader.
-/

namespace AccessPatch.Xml.Prolog

/-- How the items of a group in a content model are joined. -/
inductive Connector where
  | sequence
  | choice
deriving DecidableEq, Repr

/-- What may come next. A `general` entity is one that documents refer to, as against one for
declarations only. The groups of a content model are open, innermost first, each with its connector
once that is known. -/
inductive State where
  | beforeDoctype
  | afterDoctype
  | epilog
  | doctypeName
  | doctypeIds
  | doctypePublic
  | doctypeSystem
  | doctypeSubset
  | doctypeEnd
  | subset
  | entityName
  | parameterEntityName
  | entityValue (general : Bool)
  | entityPublic (general : Bool)
  | entitySystem (general : Bool)
  | entityEnd (general : Bool)
  | unparsedName
  | notationName
  | notationIds
  | notationPublic
  | notationSystem
  | notationEnd
  | attributesOf
  | attributeName
  | attributeType
  | choiceValue
  | choiceEnd
  | notationChoice
  | notationValue
  | notationValueEnd
  | attributeDefault
  | fixedDefault
  | elementName
  | contentModel
  | modelStart
  | mixedEnd
  | mixedName
  | mixedAfterName
  | modelItem (groups : List (Option Connector))
  | modelAfterItem (groups : List (Option Connector))
  /-- Only the end of the declaration is left. -/
  | declarationEnd
deriving DecidableEq, Repr

/-- What a token means to the reader. -/
inductive Action where
  | nothing
  | root
  | instruction (target : String)
  | publicId (doctype : Bool) (text : List Placed)
  | systemId (doctype : Bool)
  | entityName (name : String)
  | parameterEntity (name : String)
  | notationName (name : String)
  | entityValue (text : List Placed)
  | unparsedEntity
  | attributesOf (element : String)
  | attributeName (name : String)
  | attributeType (anyText identifies : Bool)
  | attributeDefault (text : Option (List Placed))
  | parameterReference
deriving DecidableEq, Repr

/-- The types of attributes that are single words, with what they mean: whether the value is any
text, and whether it identifies the element. -/
def attributeTypes : List (String × Bool × Bool) :=
  [("CDATA", true, false), ("ID", false, true), ("IDREF", false, false), ("IDREFS", false, false),
    ("ENTITY", false, false), ("ENTITIES", false, false), ("NMTOKEN", false, false),
    ("NMTOKENS", false, false)]

/-- The state after a group closes. -/
def closeGroup : List (Option Connector) → State
  | [] | [_] => .declarationEnd
  | _ :: outer => .modelAfterItem outer

/-- The groups after a connector in the innermost one, if it is the only connector used there. -/
def connect? (connector : Connector) : List (Option Connector) → Option (List (Option Connector))
  | [] => none
  | none :: outer => some (some connector :: outer)
  | some c :: outer => if c = connector then some (some c :: outer) else none

namespace State

/-- The state that a keyword leads to at the head of the document or in the subset of its type. -/
def ofKeyword? (s : State) (keyword : String) : Option State :=
  match s, keyword with
  | beforeDoctype, "DOCTYPE" => some doctypeName
  | subset, "ENTITY" => some entityName
  | subset, "ATTLIST" => some attributesOf
  | subset, "ELEMENT" => some elementName
  | subset, "NOTATION" => some notationName
  | _, _ => none

/-- What follows an attribute's type word. -/
def attributeTypeNext? (word : String) : Option (State × Action) :=
  if word = "NOTATION" then some (notationChoice, .nothing)
  else (attributeTypes.lookup word).map fun t => (attributeDefault, .attributeType t.1 t.2)

/-- The state after a token in a declaration, and what the token means. -/
def inDeclaration? (s : State) (t : Token) : Option (State × Action) :=
  match s, t with
  | doctypeName, .name _ => some (doctypeIds, .nothing)
  | doctypeIds, .name "SYSTEM" => some (doctypeSystem, .nothing)
  | doctypeIds, .name "PUBLIC" => some (doctypePublic, .nothing)
  | doctypePublic, .literal text => some (doctypeSystem, .publicId true text)
  | doctypeSystem, .literal _ => some (doctypeSubset, .systemId true)
  | doctypeIds, .openBracket | doctypeSubset, .openBracket => some (subset, .nothing)
  | doctypeIds, .declarationClose | doctypeSubset, .declarationClose
  | doctypeEnd, .declarationClose => some (afterDoctype, .nothing)
  | entityName, .percent => some (parameterEntityName, .nothing)
  | entityName, .name name => some (entityValue true, .entityName name)
  | parameterEntityName, .name name => some (entityValue false, .parameterEntity name)
  | entityValue general, .name "SYSTEM" => some (entitySystem general, .nothing)
  | entityValue general, .name "PUBLIC" => some (entityPublic general, .nothing)
  | entityValue _, .literal text => some (declarationEnd, .entityValue text)
  | entityPublic general, .literal text => some (entitySystem general, .publicId false text)
  | entitySystem general, .literal _ => some (entityEnd general, .systemId false)
  | entityEnd true, .name "NDATA" => some (unparsedName, .nothing)
  | entityEnd _, .declarationClose => some (subset, .nothing)
  | unparsedName, .name _ => some (declarationEnd, .unparsedEntity)
  | notationName, .name name => some (notationIds, .notationName name)
  | notationIds, .name "SYSTEM" => some (notationSystem, .nothing)
  | notationIds, .name "PUBLIC" => some (notationPublic, .nothing)
  | notationPublic, .literal text => some (notationEnd, .publicId false text)
  | notationSystem, .literal _ | notationEnd, .literal _ => some (declarationEnd, .nothing)
  | notationEnd, .declarationClose => some (subset, .nothing)
  | attributesOf, .name element => some (attributeName, .attributesOf element)
  | attributeName, .declarationClose => some (subset, .nothing)
  | attributeName, .name name => some (attributeType, .attributeName name)
  | attributeType, .name word => attributeTypeNext? word
  | attributeType, .openParen => some (choiceValue, .nothing)
  | choiceValue, .name _ | choiceValue, .nameToken => some (choiceEnd, .nothing)
  | choiceEnd, .closeParen .one => some (attributeDefault, .nothing)
  | choiceEnd, .bar => some (choiceValue, .nothing)
  | notationChoice, .openParen => some (notationValue, .nothing)
  | notationValue, .name _ => some (notationValueEnd, .nothing)
  | notationValueEnd, .closeParen .one => some (attributeDefault, .nothing)
  | notationValueEnd, .bar => some (notationValue, .nothing)
  | attributeDefault, .hashName "IMPLIED" | attributeDefault, .hashName "REQUIRED" =>
    some (attributeName, .attributeDefault none)
  | attributeDefault, .hashName "FIXED" => some (fixedDefault, .nothing)
  | attributeDefault, .literal text | fixedDefault, .literal text =>
    some (attributeName, .attributeDefault (some text))
  | declarationEnd, .declarationClose => some (subset, .nothing)
  | _, _ => none

/-- The state after a token in the declaration of an element's content. -/
def inModel? (s : State) (t : Token) : Option State :=
  match s, t with
  | elementName, .name _ => some contentModel
  | contentModel, .name "EMPTY" | contentModel, .name "ANY" => some declarationEnd
  | contentModel, .openParen => some modelStart
  | modelStart, .hashName "PCDATA" => some mixedEnd
  | modelStart, .openParen => some (modelItem [none, none])
  | modelStart, .name _ | modelStart, .quantified _ => some (modelAfterItem [none])
  | mixedEnd, .closeParen .one | mixedEnd, .closeParen .any => some declarationEnd
  | mixedEnd, .bar | mixedAfterName, .bar => some mixedName
  | mixedName, .name _ => some mixedAfterName
  | mixedAfterName, .closeParen .any => some declarationEnd
  | modelItem groups, .openParen => some (modelItem (none :: groups))
  | modelItem groups, .name _ | modelItem groups, .quantified _ => some (modelAfterItem groups)
  | modelAfterItem groups, .closeParen _ => some (closeGroup groups)
  | modelAfterItem groups, .comma => (connect? .sequence groups).map modelItem
  | modelAfterItem groups, .bar => (connect? .choice groups).map modelItem
  | _, _ => none

/-- Whether declarations or the root element may come next, so that comments and instructions may.
-/
def betweenDeclarations : State → Bool
  | beforeDoctype | afterDoctype | epilog | subset => true
  | _ => false

/-- The state after a token and what the token means to the reader; none if it may not come. -/
def next? (s : State) (t : Token) : Option (State × Action) :=
  match t with
  | .space => some (s, .nothing)
  | .comment => if s.betweenDeclarations then some (s, .nothing) else none
  | .instruction target =>
    if s.betweenDeclarations ∧ target ≠ Instruction.declarationTarget
      then some (s, .instruction target)
    else none
  | .rootOpen => if s = beforeDoctype ∨ s = afterDoctype then some (s, .root) else none
  | .declarationOpen keyword => (s.ofKeyword? keyword).map fun s => (s, .nothing)
  | .parameterReference => if s = subset then some (s, .parameterReference) else none
  | .closeBracket => if s = subset then some (doctypeEnd, .nothing) else none
  | t =>
    match s.inDeclaration? t with
    | some result => some result
    | none => (s.inModel? t).map fun s => (s, .nothing)

/-- The fault of a token that may not come. -/
def faultOf (s : State) (t : Token) : Fault :=
  if s = epilog then .junkAfterRoot
  else match t with
    | .parameterReference => .misplacedParameterReference
    | .instruction target =>
      if target = Instruction.declarationTarget then .misplacedDeclaration else .badGrammar
    | _ => .badGrammar

end State

end AccessPatch.Xml.Prolog
