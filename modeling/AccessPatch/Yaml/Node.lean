import AccessPatch.Yaml.Kind
import AccessPatch.Yaml.Token

/-!
# Nodes of a configuration text

A `Node` is a scalar, a sequence or a mapping with its kind. `Node.ofText?` reads the one document
that a text may hold. An alias is replaced by the node of its anchor; inside of that node it is
`enclosing`.
-/

namespace AccessPatch.Yaml

inductive Node where
  | scalar (kind : Kind) (text : String)
  | sequence (kind : Kind) (items : List Node)
  | mapping (kind : Kind) (entries : List (Node × Node))
  /-- The collection in which the alias stands. -/
  | enclosing (isMapping : Bool)
deriving Repr

namespace Node

def kind : Node → Kind
  | scalar kind _ | sequence kind _ | mapping kind _ => kind
  | enclosing isMapping => if isMapping then .mapping else .sequence

/-- The key `=` as a text, and any other node as it is. -/
def asText : Node → Node
  | scalar .value s => scalar .text s
  | sequence .value items => sequence .text items
  | mapping .value entries => mapping .text entries
  | node => node

mutual

/-- How many collections stand one in another. -/
def depth : Node → Nat
  | scalar _ _ | enclosing _ => 0
  | sequence _ items => depthOfItems items + 1
  | mapping _ entries => depthOfEntries entries + 1

def depthOfItems : List Node → Nat
  | [] => 0
  | node :: rest => max node.depth (depthOfItems rest)

def depthOfEntries : List (Node × Node) → Nat
  | [] => 0
  | (key, value) :: rest => max (max key.depth value.depth) (depthOfEntries rest)

end

end Node

/-- What is left of the tokens and why they break off if they do, the anchors met so far, and what
the handles of tags stand for. -/
structure Composer where
  tokens : List Token
  fault : Option Fault := none
  anchors : List (String × Node) := []
  handles : List (String × String) := []

/-- A reader of tokens. -/
abbrev Compose := StateT Composer (Except Fault)

namespace Compose

/-- The handles that need no directive. -/
def defaultHandles : List (String × String) :=
  [("!", "!"), ("!!", Kind.tagLead)]

/-- The next token, if there is one. Where the tokens break off, this fails. -/
def peek : Compose (Option Token) := do
  let c ← get
  match c.tokens, c.fault with
  | token :: _, _ => return some token
  | [], none => return none
  | [], some fault => throw fault

def next : Compose Unit :=
  modify fun c => { c with tokens := c.tokens.tail }

/-- Whether the next token is one of some tokens. -/
def atAny (tokens : List Token) : Compose Bool := do
  return (← peek).any tokens.contains

/-- Takes the next token if it is the given one. -/
def take? (token : Token) : Compose Bool := do
  let found := (← peek) == some token
  if found then next
  return found

/-- Takes the given token, or fails. -/
def expect (token : Token) (wanted : String) : Compose Unit := do
  unless ← take? token do throw (.unexpected wanted)

/-- The node that stands where nothing is written. -/
def empty : Node := .scalar .null ""

/-- The name of the anchor here, if there is one. -/
def anchor? : Compose (Option String) := do
  match ← peek with
  | some (.anchor name) => next; return some name
  | _ => return none

/-- The handle and the rest of the tag here, if there is one. -/
def tag? : Compose (Option (Option String × String)) := do
  match ← peek with
  | some (.tag handle suffix) => next; return some (handle, suffix)
  | _ => return none

/-- A tag with its handle written out. -/
def resolve (handle : Option String) (suffix : String) : Compose String := do
  match handle with
  | none => return suffix
  | some handle =>
    match (← get).handles.lookup handle with
    | some lead => return lead ++ suffix
    | none => throw (.undefinedHandle handle)

/-- The anchor and the tag here, in either order. -/
def properties : Compose (Option String × Option String) := do
  let first ← anchor?
  let tag ← tag?
  let anchor ← if first.isNone ∧ tag.isSome then anchor? else pure first
  match tag with
  | none => return (anchor, none)
  | some (handle, suffix) => return (anchor, some (← resolve handle suffix))

/-- Gives a node the name of its anchor. -/
def define (anchor : Option String) (node : Node) : Compose Unit :=
  match anchor with
  | none => pure ()
  | some name => modify fun c => { c with anchors := (name, node) :: c.anchors }

/-- The kind of a collection with a tag. -/
def collectionKind (tag : Option String) (default : Kind) : Kind :=
  match tag with
  | none => default
  | some tag => if tag = "!" then default else Kind.ofTag tag

/-- The kind of a scalar with a tag. -/
def scalarKind (tag : Option String) (text : String) (plain : Bool) : Kind :=
  match tag with
  | none => if plain then Kind.ofPlain text else .text
  | some tag => if tag = "!" then Kind.ofPlain text else Kind.ofTag tag

/-- The node where no content is written: an empty scalar if it has an anchor or a tag. -/
def nothing (anchor tag : Option String) : Compose Node := do
  if anchor.isNone ∧ tag.isNone then throw (.unexpected "a node")
  let node := Node.scalar (scalarKind tag "" true) ""
  define anchor node
  return node

/-- Gives a collection the name of its anchor, now that it is complete. -/
def finish (anchor : Option String) (node : Node) : Compose Node := do
  define anchor node
  return node

mutual

/-- Reads a node. In a block it may be a collection written by indentation; `indentless` allows a
sequence at the indentation of the mapping around it. The numbers of steps here and below are
bounds that are greater than the number of tokens requires. -/
def node (block indentless : Bool) : Nat → Compose Node
  | 0 => throw (.unexpected "the end")
  | fuel + 1 => do
    match ← peek with
    | some (.alias name) => do
      next
      match (← get).anchors.lookup name with
      | some node => return node
      | none => throw (.undefinedAlias name)
    | _ => do
      let (anchor, tag) ← properties
      let content ← peek
      if let some name := anchor then
        if ((← get).anchors.lookup name).isSome then throw (.duplicateAnchor name)
      match content with
      | some (.scalar text plain) => do
        next
        let node := Node.scalar (scalarKind tag text plain) text
        define anchor node
        return node
      | some .flowSequenceStart => do
        next
        define anchor (.enclosing false)
        let items ← flowItems true fuel
        finish anchor (.sequence (collectionKind tag .sequence) items)
      | some .flowMappingStart => do
        next
        define anchor (.enclosing true)
        let entries ← flowEntries true fuel
        finish anchor (.mapping (collectionKind tag .mapping) entries)
      | some token => do
        if indentless ∧ token = .blockEntry then
          define anchor (.enclosing false)
          let items ← indentlessItems fuel
          finish anchor (.sequence (collectionKind tag .sequence) items)
        else if block ∧ token = .blockSequenceStart then
          next
          define anchor (.enclosing false)
          let items ← blockItems fuel
          finish anchor (.sequence (collectionKind tag .sequence) items)
        else if block ∧ token = .blockMappingStart then
          next
          define anchor (.enclosing true)
          let entries ← blockEntries fuel
          finish anchor (.mapping (collectionKind tag .mapping) entries)
        else nothing anchor tag
      | none => nothing anchor tag
termination_by structural fuel => fuel

/-- The items of a sequence in a block, as far as its end. -/
def blockItems : Nat → Compose (List Node)
  | 0 => throw (.unexpected "the end")
  | fuel + 1 => do
    if ← take? .blockEntry then
      let item ← if ← atAny [.blockEntry, .blockEnd] then pure empty else node true false fuel
      return item :: (← blockItems fuel)
    else
      expect .blockEnd "the end of a sequence"
      return []
termination_by structural fuel => fuel

/-- The items of a sequence that is not indented. -/
def indentlessItems : Nat → Compose (List Node)
  | 0 => throw (.unexpected "the end")
  | fuel + 1 => do
    if ← take? .blockEntry then
      let item ← if ← atAny [.blockEntry, .key, .value, .blockEnd] then pure empty
        else node true false fuel
      return item :: (← indentlessItems fuel)
    else return []
termination_by structural fuel => fuel

/-- The entries of a mapping in a block, as far as its end. -/
def blockEntries : Nat → Compose (List (Node × Node))
  | 0 => throw (.unexpected "the end")
  | fuel + 1 => do
    if ← take? .key then
      let key ← if ← atAny [.key, .value, .blockEnd] then pure empty else node true true fuel
      let value ← blockValue fuel
      return (key, value) :: (← blockEntries fuel)
    else if ← take? .blockEnd then return []
    else throw (.unexpected "the end of a mapping")
termination_by structural fuel => fuel

/-- The value of an entry of a mapping in a block. -/
def blockValue : Nat → Compose Node
  | 0 => throw (.unexpected "the end")
  | fuel + 1 => do
    if ← take? .value then
      if ← atAny [.key, .value, .blockEnd] then return empty else node true true fuel
    else return empty
termination_by structural fuel => fuel

/-- The items of a sequence in brackets, as far as the closing one. -/
def flowItems (first : Bool) : Nat → Compose (List Node)
  | 0 => throw (.unexpected "the end")
  | fuel + 1 => do
    if ← take? .flowSequenceEnd then return []
    unless first do expect .flowEntry "a comma or a bracket"
    if ← take? .flowSequenceEnd then return []
    let item ←
      if ← take? .key then
        let key ← if ← atAny [.value, .flowEntry, .flowSequenceEnd] then pure empty
          else node false false fuel
        let value ← flowValue .flowSequenceEnd fuel
        pure (Node.mapping .mapping [(key, value)])
      else node false false fuel
    return item :: (← flowItems false fuel)
termination_by structural fuel => fuel

/-- The entries of a mapping in braces, as far as the closing one. -/
def flowEntries (first : Bool) : Nat → Compose (List (Node × Node))
  | 0 => throw (.unexpected "the end")
  | fuel + 1 => do
    if ← take? .flowMappingEnd then return []
    unless first do expect .flowEntry "a comma or a brace"
    if ← take? .flowMappingEnd then return []
    let entry ←
      if ← take? .key then
        let key ← if ← atAny [.value, .flowEntry, .flowMappingEnd] then pure empty
          else node false false fuel
        let value ← flowValue .flowMappingEnd fuel
        pure (key, value)
      else
        let key ← node false false fuel
        pure (key, empty)
    return entry :: (← flowEntries false fuel)
termination_by structural fuel => fuel

/-- The value of an entry in brackets or braces. -/
def flowValue (closing : Token) : Nat → Compose Node
  | 0 => throw (.unexpected "the end")
  | fuel + 1 => do
    if ← take? .value then
      if ← atAny [.flowEntry, closing] then return empty else node false false fuel
    else return empty
termination_by structural fuel => fuel

end

/-- Takes the directives at the head of the tokens into account; `seen` says whether the version
was given before. -/
def readDirectives (seen : Bool) (handles : List (String × String)) : List Token → Compose Unit
  | .directive d :: rest => do
    next
    match d with
    | .version major =>
      if seen ∨ major ≠ 1 then throw (.unexpected "one version directive")
      else readDirectives true handles rest
    | .handle handle lead =>
      if (handles.lookup handle).isSome then throw (.unexpected "other handles")
      else readDirectives seen ((handle, lead) :: handles) rest
    | .reserved => readDirectives seen handles rest
  | _ => modify fun c => { c with handles := handles ++ defaultHandles }

/-- Reads the head of a document with directives or a mark. -/
def head : Compose Unit := do
  readDirectives false [] (← get).tokens
  expect .documentStart "the beginning of a document"

/-- Drops the marks that end a document. -/
def dropEnds : Compose Unit :=
  modify fun c => { c with tokens := c.tokens.dropWhile (· == .documentEnd) }

/-- The document that the tokens hold, if any. A second one is refused when it begins. -/
def document? : Compose (Option Node) := do
  let fuel := 8 * (← get).tokens.length + 8
  match ← peek with
  | none => return none
  | some (.directive _) | some .documentStart => do
    head
    let root ← match ← peek with
      | none | some (.directive _) | some .documentStart | some .documentEnd => pure empty
      | _ => node true false fuel
    finishDocument root
  | _ => finishDocument (← node true false fuel)
where
  finishDocument (root : Node) : Compose (Option Node) := do
    dropEnds
    if (← peek).isSome then
      head
      throw .secondDocument
    return some root

end Compose

/-- The document that a text holds, if any. -/
def Node.ofText? (text : List Char) : Except Fault (Option Node) := do
  let (tokens, fault) := tokens text
  let handles := Compose.defaultHandles
  return (← Compose.document?.run { tokens, fault, handles }).1

end AccessPatch.Yaml
