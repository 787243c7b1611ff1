import AccessPatch.Accessibility
import AccessPatch.Lines
import AccessPatch.Tag.Range

/-!
# Pairing

`trackedElements` pairs the tag ranges of a document with a stack and makes an `Element` of each
pair whose tag is tracked. An annotation marks the element it is a direct child of; in the answer
the elements stand in the order in which they start.
-/

namespace AccessPatch

/-- The tags that are tracked unless others are asked for. -/
def defaultTags : List String :=
  ["button", "label", "textField", "textView", "imageView", "switch", "slider", "stepper",
    "segmentedControl", "tableViewCell", "collectionViewCell", "view", "barButtonItem",
    "navigationItem", "navigationBar", "stackView", "tableView", "collectionView"]

namespace Pairing

/-- Why ranges cannot be tracked. -/
inductive Fault where
  /-- An end comes when no element is open. -/
  | unmatchedClose
  /-- The tags of a tracked element are out of order. -/
  | disordered (tag : String) (start openEnd closeStart stop : Int)
deriving DecidableEq, Repr

/-- An element that has started and not ended. -/
structure Unclosed where
  tag : String
  attributes : Attributes
  start : Int
  openEnd : Int
  annotated : Bool := false
  accessibility : Option Attributes := none
deriving DecidableEq, Repr

/-- The open elements, innermost first, and the tracked elements that have ended, last one first. -/
structure State where
  stack : List Unclosed := []
  ended : List Element := []
deriving DecidableEq, Repr

/-- Notes an annotation at the innermost open element. -/
def annotate (attributes : Attributes) : List Unclosed → List Unclosed
  | [] => []
  | parent :: rest => { parent with annotated := true, accessibility := some attributes } :: rest

/-- The element that `entry` opened and `range` closes. -/
def close (index : LineTable) (entry : Unclosed) (range : TagRange) : Except Fault Element :=
  match Extent.ofOffsets? entry.start entry.openEnd range.start range.stop with
  | none => .error (.disordered entry.tag entry.start entry.openEnd range.start range.stop)
  | some extent =>
    .ok {
      tag := entry.tag
      attributes := entry.attributes
      extent
      startLine := index.lineAt entry.start
      endLine := index.lineAt (max (range.stop - 1) entry.start)
      annotated := entry.annotated
      accessibility := entry.accessibility }

/-- Takes one range into account. -/
def step (index : LineTable) (tags : List String) (s : State) (range : TagRange) :
    Except Fault State :=
  match range.kind with
  | .opening =>
    let stack := if range.name = Accessibility.tag then annotate range.attributes s.stack
      else s.stack
    .ok
      { s with stack := ⟨range.name, range.attributes, range.start, range.stop, false, none⟩ ::
        stack }
  | .closing =>
    match s.stack with
    | [] => .error .unmatchedClose
    | entry :: rest =>
      if tags.contains entry.tag then do
        let element ← close index entry range
        .ok ⟨rest, element :: s.ended⟩
      else .ok { s with stack := rest }

end Pairing

/-- The tracked elements of a document with the given ranges, in the order in which they start;
those that start together, in the order in which they end. -/
def trackedElements (buffer : Bytes) (tags : List String) (ranges : List TagRange) :
    Except Pairing.Fault (List Element) := do
  let s ← ranges.foldlM (Pairing.step (.ofBytes buffer) tags) {}
  return s.ended.reverse.mergeSort fun e f => decide (e.extent.start ≤ f.extent.start)

end AccessPatch
