import AccessPatch.Store.Path
import AccessPatch.Text.Utf8

/-!
# The store

A `Store` holds the files and directories that a run may read and write, each under its
`Location`: the names that lead to it from the root. There are no links. A path is followed from
the working directory, or from the root if it is absolute; `read` gives the content of the file it
leads to.
-/

namespace AccessPatch

/-- Why a path cannot be used as asked. -/
inductive AccessFault where
  | missing
  | notDirectory
  | isDirectory
  | nameTooLong
  /-- The path ends in a name for a directory that cannot be replaced. -/
  | busy
deriving DecidableEq, Repr

def AccessFault.message : AccessFault → String
  | missing => "No such file or directory"
  | notDirectory => "Not a directory"
  | isDirectory => "Is a directory"
  | nameTooLong => "File name too long"
  | busy => "Device or resource busy"

/-- The names on the way from the root. -/
abbrev Location := List String

/-- What a location holds. -/
inductive Entry where
  | file (content : Bytes)
  | directory
deriving DecidableEq, Repr

/-- The entries by location, and the working directory. That and the root are directories and need
no entry. -/
structure Store where
  entries : List (Location × Entry) := []
  here : Location := []
deriving DecidableEq, Repr

namespace Store

def entry? (s : Store) (place : Location) : Option Entry :=
  if place = [] ∨ place = s.here then some .directory else s.entries.lookup place

/-- The store with `entry` at a location, whatever was there. -/
def put (s : Store) (place : Location) (entry : Entry) : Store :=
  { s with entries := (place, entry) :: s.entries.filter fun (p, _) => p ≠ place }

/-- The greatest size in bytes of a name. -/
def maxNameSize : Nat := 255

/-- The location to which components lead from another one. The last of them need not exist. -/
def follow (s : Store) (start : Location) : List String → Except AccessFault Location
  | [] => .ok start
  | part :: rest =>
    match s.entry? start with
    | none => .error .missing
    | some (.file _) => .error .notDirectory
    | some .directory =>
      if part = ".." then s.follow start.dropLast rest
      else if maxNameSize < part.utf8ByteSize then .error .nameTooLong
      else s.follow (start ++ [part]) rest

/-- The location to which a path leads. -/
def locate (s : Store) (path : Path) : Except AccessFault Location :=
  s.follow (if path.anchor = .relative then s.here else []) path.parts

/-- What a path leads to. -/
def find (s : Store) (path : Path) : Except AccessFault Entry := do
  match s.entry? (← s.locate path) with
  | none => .error .missing
  | some entry => .ok entry

/-- The content of a file. -/
def read (s : Store) (path : Path) : Except AccessFault Bytes := do
  match ← s.find path with
  | .directory => .error .isDirectory
  | .file content => .ok content

/-- The names in a directory. -/
def names (s : Store) (place : Location) : List String :=
  (s.entries.filter fun (p, _) => p ≠ [] ∧ p.dropLast = place).filterMap fun (p, _) => p.getLast?

end Store

end AccessPatch
