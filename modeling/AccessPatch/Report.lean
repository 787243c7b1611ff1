import AccessPatch.Patch.Apply
import AccessPatch.Text.Json

/-!
# Reports

What a run found in each document and did to it, as text and as JSON.
-/

namespace AccessPatch

/-- What happened to one document. Work that was done before an error stays in the report. -/
structure DocumentReport where
  path : Path
  elements : List Element := []
  ops : List Patch.Op := []
  outcome : Option Patch.Outcome := none
  /-- The bytes that were read. -/
  content : Bytes := []
  error : Option DocumentError := none
deriving DecidableEq, Repr

namespace DocumentReport

def succeeded (r : DocumentReport) : Bool :=
  r.error.isNone

/-- The number of operations carried out. -/
def applied (r : DocumentReport) : Nat :=
  r.outcome.elim 0 (·.applied)

/-- The number of elements that had an annotation before. -/
def annotated (r : DocumentReport) : Nat :=
  r.elements.countP (·.annotated)

protected def toString (r : DocumentReport) : String :=
  match r.error with
  | some e => "✗ " ++ toString r.path ++ ": " ++ e.message
  | none =>
    toString r.path ++ ": found " ++ toString r.elements.length ++
      " tracked elements; planned ops: " ++ toString r.ops.length

instance : ToString DocumentReport := ⟨DocumentReport.toString⟩

end DocumentReport

/-- The fields of an element that a report shows. -/
def Element.toJson (e : Element) : Json :=
  .object [("tag", .text e.tag), ("startLine", .number e.startLine), ("endLine", .number e.endLine),
    ("hasIdentifier", .boolean e.isNamed), ("hasAnnotation", .boolean e.annotated)]

/-- The fields of an operation that a report shows. -/
def Patch.Op.toJson (op : Patch.Op) : Json :=
  .object [("tag", .text op.source.tag), ("startLine", .number op.source.startLine),
    ("endLine", .number op.source.endLine), ("insertOffset", .number op.offset),
    ("text", .text (String.ofList (Text.trim op.display.toList)))]

/-- A path that there may be. -/
def Path.toJson? : Option Path → Json
  | none => .null
  | some path => .text (toString path)

def DocumentReport.toJson (r : DocumentReport) : Json :=
  match r.error with
  | some e => .object [("file", .text (toString r.path)), ("error", .text e.message)]
  | none =>
    .object ([("file", .text (toString r.path)), ("tracked", .number r.elements.length),
      ("annotated", .number r.annotated), ("ops", .array (r.ops.map Patch.Op.toJson)),
      ("applied", .number r.applied)] ++
      match r.outcome with
      | none => []
      | some outcome => [("backupPath", Path.toJson? outcome.backup),
          ("outPath", Path.toJson? outcome.out)])

/-- What happened to several documents, in order. -/
structure RunReport where
  files : List DocumentReport := []
deriving DecidableEq, Repr

namespace RunReport

def succeeded (b : RunReport) : List DocumentReport :=
  b.files.filter (·.succeeded)

def failed (b : RunReport) : List DocumentReport :=
  b.files.filter (! ·.succeeded)

/-- The number of operations planned. -/
def planned (b : RunReport) : Nat :=
  b.files.foldr (fun r n => r.ops.length + n) 0

/-- The number of operations carried out. -/
def applied (b : RunReport) : Nat :=
  b.files.foldr (fun r n => r.applied + n) 0

/-- A number of things, with the plural of their name unless there is one. -/
def counted (n : Nat) (noun : String) : String :=
  toString n ++ " " ++ noun ++ (if n = 1 then "" else "s")

protected def toString (b : RunReport) : String :=
  counted b.files.length "file" ++ ", " ++ counted b.planned "planned insertion" ++
    (if b.failed = [] then "" else ", " ++ toString b.failed.length ++ " failed")

instance : ToString RunReport := ⟨RunReport.toString⟩

def summary (b : RunReport) : Json :=
  .object [("files", .number b.files.length), ("failed", .number b.failed.length),
    ("planned", .number b.planned), ("applied", .number b.applied)]

def toJson (b : RunReport) : Json :=
  .object [("files", .array (b.files.map DocumentReport.toJson)), ("summary", b.summary)]

end RunReport

end AccessPatch
