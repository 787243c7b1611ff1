import AccessPatch.Store.Write

/-!
# Changes

A run starts from a store that holds what its paths can reach, and `Store.changes` says what it
leaves to be written.
-/

namespace AccessPatch

namespace Path

/-- The location of a path as its text has it, `here` being the working directory. -/
def place (path : Path) (here : Location) : Location :=
  path.parts.foldl (fun place part => if part = ".." then place.dropLast else place ++ [part])
    (if path.anchor = .relative then here else [])

/-- The locations that matter to reading and writing a file at a path: its own, that of its
backup, and those of the directories around them. -/
def surroundings (path : Path) (here : Location) : List Location :=
  let place := path.place here
  (List.range (place.length + 1)).map place.take ++ (path.backup?.map (·.place here)).toList

end Path

namespace Store

/-- The files that a later store holds and this one does not, or not with that content. -/
def changes (before after : Store) : List (Location × Bytes) :=
  after.entries.filterMap fun (place, entry) =>
    match entry with
    | .file content => if before.entry? place = some (.file content) then none
        else some (place, content)
    | .directory => none

end Store

end AccessPatch
