import AccessPatch.Document
import AccessPatch.Xml.Namespace

/-!
# Applying a plan

`apply` carries out operations on a document, checks the result, and writes it, saving the
document first. Nothing is written in a dry run, without operations, or if the result is not
well-formed.
-/

namespace AccessPatch.Patch

/-- How operations are applied. -/
structure Application where
  /-- The path that the document was read from, as it was given. -/
  source : Option String := none
  /-- The path for the result, if it is not to replace the document. -/
  out : Option String := none
  dryRun : Bool := true
  backup : Bool := true
  verify : Bool := true
deriving DecidableEq, Repr

/-- The name of the document in messages. -/
def Application.identity (o : Application) : String :=
  ((o.source.toList ++ o.out.toList).find? (· ≠ "")).getD "<buffer>"

/-- What became of a document. -/
structure Outcome where
  /-- The number of operations carried out. -/
  applied : Nat
  patched : Bytes
  dryRun : Bool := true
  /-- Where the document was saved as it was. -/
  backup : Option Path := none
  /-- Where the result was written. -/
  out : Option Path := none
deriving DecidableEq, Repr

protected def Outcome.toString (r : Outcome) : String :=
  let noun := if r.applied = 1 then "annotation" else "annotations"
  if r.applied = 0 then "No changes"
  else match r.out with
    | none => "Would insert " ++ toString r.applied ++ " " ++ noun ++ " (dry run)"
    | some path => "Inserted " ++ toString r.applied ++ " " ++ noun ++ " into " ++ toString path

instance : ToString Outcome := ⟨Outcome.toString⟩

/-- Fails if a document is not well-formed. -/
def verifyResult (patched : Bytes) (identity : String) : Except Failure Unit :=
  (Xml.check patched).mapError fun diagnostic => .document (.unverified identity diagnostic)

/-- The document with the operations carried out, checked if so asked. -/
def prepare (buffer : Bytes) (ops : List Op) (o : Application) : Except Failure Bytes := do
  let patched ← (splice buffer ops).mapError .misfit
  if o.verify then verifyResult patched o.identity
  return patched

/-- Where the result goes. -/
def Application.target (o : Application) : Except Failure Path :=
  match o.out <|> o.source with
  | some path => .ok (Path.ofString path)
  | none => .error .noDestination

/-- Where the document goes as it was, if it is to be saved. -/
def Application.savePath (o : Application) : Except Failure (Option Path) :=
  match o.source with
  | some source =>
    if o.backup then
      match (Path.ofString source).backup? with
      | some path => .ok (some path)
      | none => .error (.namelessPath (Path.ofString source))
    else .ok none
  | none => .ok none

/-- Saves the document as it was, and says where. -/
def saveBackup (buffer : Bytes) (o : Application) : Run (Option Path) := do
  match ← Run.ofExcept id o.savePath with
  | none => return none
  | some path => do
    Run.writeFile path buffer
    Run.note (.savedBackup path)
    return some path

/-- Carries out operations on a document and writes the result unless the run is dry. -/
def apply (buffer : Bytes) (ops : List Op) (o : Application) : Run Outcome := do
  if ops.isEmpty then
    let identity := (o.source.filter (· ≠ "")).getD "<buffer>"
    Run.note (.nothingToApply identity)
    return { applied := 0, patched := buffer, dryRun := o.dryRun }
  else
    let patched ← Run.ofExcept id (prepare buffer ops o)
    if o.dryRun then return { applied := ops.length, patched }
    else
      let target ← Run.ofExcept id o.target
      let backup ← saveBackup buffer o
      Run.writeFile target patched
      Run.note (.wrote ops.length target)
      return { applied := ops.length, patched, dryRun := false, backup, out := some target }

end AccessPatch.Patch
