import AccessPatch.Yaml.Node

/-!
# Values of a configuration text

A `Value` is what a node stands for, in as far as a configuration can use it: numbers, dates and
sets are told apart from texts and truth values, but not from each other by content. In a mapping
the last of several equal keys counts, at the place of the first.
-/

namespace AccessPatch.Yaml

inductive Value where
  | null
  | boolean (b : Bool)
  | number
  | text (s : String)
  | list (items : List Value)
  | mapping (entries : List (Value × Value))
  | set
  /-- A date, bytes, or a pair. -/
  | other
deriving Repr, Inhabited

namespace Value

/-- Whether the value may be a key. -/
def isHashable : Value → Bool
  | list _ | mapping _ | set => false
  | _ => true

def text? : Value → Option String
  | text s => some s
  | _ => none

/-- Puts a value under a key. Keys that are no texts are all kept. -/
def insert (entries : List (Value × Value)) (key value : Value) : List (Value × Value) :=
  match key.text? with
  | none => entries ++ [(key, value)]
  | some s =>
    if entries.any fun (k, _) => k.text? == some s then
      entries.map fun (k, v) => if k.text? == some s then (k, value) else (k, v)
    else entries ++ [(key, value)]

/-- The value of a scalar, and of any other node of a kind that scalars have: `text?` is the text
for which it stands, if it stands for one. -/
def ofScalar (kind : Kind) (text? : Option String) : Except Fault Value :=
  match kind, text? with
  | .merge, _ => .error (.unknownType "merge")
  | .value, _ => .error (.unknownType "value")
  | .unknown tag, _ => .error (.unknownType tag)
  | _, none => .error (.wrongKind "scalar")
  | .null, _ => .ok null
  | .boolean, some s => ((Kind.readBoolean s).map boolean).mapError .value
  | .integer, some s => ((Kind.checkInteger s).map fun _ => number).mapError .value
  | .float, some s => ((Kind.checkFloat s).map fun _ => number).mapError .value
  | .timestamp, some s => ((Kind.checkDate s).map fun _ => other).mapError .value
  | .binary, some s => if Kind.checkBytes s then .ok other else .error (.wrongKind "binary")
  | .text, some s => .ok (text s)
  | .sequence, _ | .mapping, _ | .set, _ | .orderedMapping, _ | .pairs, _ =>
    .error (.wrongKind "scalar")

/-- A collection of a kind before any of its nodes is read. -/
def begun? : Kind → Option Value
  | .sequence | .orderedMapping | .pairs => some (list [])
  | .mapping => some (mapping [])
  | .set => some set
  | _ => none

/-- The text for which a node stands: that of a scalar, or of what a mapping has under the key `=`;
`fuel` is not less than its depth. -/
def scalarText? : (fuel : Nat) → Node → Option String
  | _, .scalar _ s => some s
  | fuel + 1, .mapping _ entries =>
    match entries.find? fun (key, _) => key.kind == .value with
    | some (_, node) => scalarText? fuel node
    | none => none
  | _, _ => none

/-- The entries of a mapping after those that it merges from others; `fuel` is not less than its
depth. -/
def mergedEntries : (fuel : Nat) → List (Node × Node) → Except Fault (List (Node × Node))
  | 0, entries => .ok entries
  | fuel + 1, entries => do
    let merged ← entries.mapM fun (key, value) =>
      if key.kind ≠ .merge then .ok []
      else match value with
        | .mapping _ more => mergedEntries fuel more
        | .enclosing _ => .ok []
        | .sequence _ items => do
          let parts ← items.mapM fun item => match item with
            | .mapping _ more => mergedEntries fuel more
            | .enclosing true => .ok []
            | _ => .error .badMerge
          return parts.reverse.flatten
        | .scalar _ _ => .error .badMerge
    let own := entries.filter fun (key, _) => key.kind ≠ .merge
    return merged.flatten ++ own.map fun (key, value) => (key.asText, value)

/-- The entries of a mapping in their order; `valueOf` gives the values of its nodes. -/
def ofEntries (valueOf : Node → Except Fault Value) (entries : List (Node × Node)) :
    Except Fault (List (Value × Value)) :=
  entries.foldlM (fun done (key, value) => do
    let key ← valueOf key
    unless key.isHashable do throw .unhashableKey
    let value ← valueOf value
    return insert done key value) []

/-- The value of a node of which only the nodes down to a level are read: the collections at this
level are begun, and nothing deeper is looked at. `fuel` is not less than the depth of the node. -/
def ofNode (fuel : Nat) : (level : Nat) → Node → Except Fault Value
  | _, .enclosing isMapping => .ok (if isMapping then mapping [] else list [other])
  | level, node =>
    match begun? node.kind, level with
    | none, _ => ofScalar node.kind (scalarText? fuel node)
    | some value, 0 => .ok value
    | some _, level + 1 =>
      match node with
      | .sequence .sequence items => list <$> items.mapM (ofNode fuel level)
      | .sequence .orderedMapping items | .sequence .pairs items => do
        items.forM fun
          | .mapping _ [(key, value)] => do
            discard (ofNode fuel level key)
            discard (ofNode fuel level value)
          | _ => throw (.wrongKind "pairs")
        return list (items.map fun _ => other)
      | .mapping .mapping entries => do
        return mapping (← ofEntries (ofNode fuel level) (← mergedEntries fuel entries))
      | .mapping .set entries => do
        discard (ofEntries (ofNode fuel level) (← mergedEntries fuel entries))
        return set
      | _ => .error (.wrongKind "collection")

/-- The value of the root of a document. It is read level by level, so that of several faults the
one nearest to the root is found. -/
def ofRoot (root : Node) : Except Fault Value :=
  (List.range (root.depth + 1)).foldlM (fun _ level => ofNode root.depth level root) null

/-- The value that a text holds; without any document it is null. -/
def ofText (s : List Char) : Except Fault Value := do
  match ← Node.ofText? s with
  | none => return null
  | some root => ofRoot root

end Value

end AccessPatch.Yaml
