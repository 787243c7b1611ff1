import AccessPatch.Store.Basic

/-!
# Writing

A file is written as a whole: its content goes to a temporary file beside it, which then takes its
place. Where that is refused the temporary file is removed again.
-/

namespace AccessPatch

/-- What the name of a backup ends in. -/
def backupEnding : String := ".bak"

/-- Where a document is kept as it was before a write: beside it, under its name with a suffix. -/
def Path.backup? (path : Path) : Option Path :=
  path.appendSuffix? backupEnding

namespace Store

/-- The store without what a location holds. -/
def remove (s : Store) (place : Location) : Store :=
  { s with entries := s.entries.filter fun (p, _) => p ≠ place }

/-- A name for a temporary file beside the file `name`; the number tells it from others. -/
def temporaryName (name : String) (number : Nat) : String :=
  "." ++ name ++ "." ++ toString (10000000 + number) ++ ".tmp"

/-- The number of bytes by which the name of the temporary file is longer than that of the file. -/
def temporaryExtra : Nat := 14

/-- Where a temporary file goes: the first location with such a name that holds nothing. -/
def temporaryPlace (s : Store) (folder : Location) (name : String) : Location :=
  let free? := (List.range (s.entries.length + 2)).find? fun number =>
    (s.entry? (folder ++ [temporaryName name number])).isNone
  folder ++ [temporaryName name (free?.getD 0)]

/-- The directory for the temporary file of a write to `path`: it has to exist, and the name of
that file may not be too long. -/
def temporaryFolder (s : Store) (path : Path) : Except AccessFault Location := do
  let folder ← s.locate path.parent
  match s.entry? folder with
  | none => .error .missing
  | some (.file _) => .error .notDirectory
  | some .directory =>
    if maxNameSize < path.name.utf8ByteSize + temporaryExtra then .error .nameTooLong
    else .ok folder

/-- The store after the entry at `source` has taken the place of the file at `path`, which may not
be a directory. -/
def rename (s : Store) (source : Location) (path : Path) : Except AccessFault Store := do
  let folder ← s.locate path.parent
  match s.entry? source with
  | none => .error .missing
  | some entry =>
    if path.name = "" ∨ path.name = ".." then .error .busy
    else if s.entry? (folder ++ [path.name]) = some .directory then .error .isDirectory
    else .ok ((s.remove source).put (folder ++ [path.name]) entry)

/-- Writes `content` to `path`: whether that worked, and the store afterwards. -/
def write (s : Store) (path : Path) (content : Bytes) : Except AccessFault Unit × Store :=
  match s.temporaryFolder path with
  | .error fault => (.error fault, s)
  | .ok folder =>
    let temporary := s.temporaryPlace folder path.name
    let filled := s.put temporary (.file content)
    match filled.rename temporary path with
    | .ok done => (.ok (), done)
    | .error fault => (.error fault, filled.remove temporary)

end Store

end AccessPatch
