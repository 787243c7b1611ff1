import AccessPatch.Failure
import AccessPatch.Journal
import AccessPatch.Store.Write

/-!
# Runs

A `Run` reads and writes files of a store, keeps a journal, and ends with a value or with a
failure. Store and journal are kept in either case.
-/

namespace AccessPatch

/-- What a run has to do with. -/
structure Session where
  store : Store
  journal : Journal := []
deriving DecidableEq, Repr

abbrev Run := ExceptT Failure (StateM Session)

namespace Run

/-- The outcome of a run and what it leaves behind. -/
def exec (action : Run α) (s : Session) : Except Failure α × Session :=
  (ExceptT.run action).run s

/-- The value of a computation that may fail. -/
def ofExcept (f : ε → Failure) (x : Except ε α) : Run α :=
  match x with
  | .ok a => pure a
  | .error e => throw (f e)

def remark (r : Remark) : Run Unit :=
  modify fun s => { s with journal := s.journal ++ [r] }

def note (n : Note) : Run Unit :=
  remark (.note n)

/-- Prints a line. -/
def print (line : String) : Run Unit :=
  remark (.output (line ++ "\n"))

/-- Prints a line about an error. -/
def printError (line : String) : Run Unit :=
  remark (.error (line ++ "\n"))

/-- Fails if no file can have the path. -/
def checkUsable (path : Path) : Run Unit :=
  if path.parts.any fun part => part.toList.contains '\x00' then throw (.unusablePath path)
  else pure ()

/-- The failure of a document that cannot be read or written. -/
def inaccessible (path : Path) (fault : AccessFault) : Failure :=
  .document (.inaccessible path fault.message)

/-- The content of a document. -/
def contentOf (path : Path) : Run Bytes := do
  checkUsable path
  ofExcept (inaccessible path) ((← get).store.read path)

/-- Writes a file as a whole. -/
def writeFile (path : Path) (content : Bytes) : Run Unit := do
  checkUsable path
  let (result, store) := (← get).store.write path content
  modify fun s => { s with store }
  ofExcept (inaccessible path) result

/-- What an action makes of a document, or what is wrong with the document. -/
def catchDocument (action : Run α) : Run (Except DocumentError α) :=
  tryCatch (Except.ok <$> action) fun failure =>
    match failure with
    | .document e => pure (.error e)
    | failure => throw failure

end Run

end AccessPatch
