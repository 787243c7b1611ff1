import AccessPatch.Command.Program
import AccessPatch.Store.Change

/-!
# The command line

`main` reads the files that a command line is about into a store, runs the command line on it, and
puts the files that have changed in their places.
-/

namespace AccessPatch.Command

/-- The location of an absolute path. -/
def locationOf (path : String) : Location :=
  (path.splitOn "/").filter (· ≠ "")

/-- The absolute path of a location. -/
def absolutePath (place : Location) : String :=
  "/" ++ "/".intercalate place

/-- What is at a location, and all that is below it if `deep` is set. -/
def entriesAt (deep : Bool) (place : Location) : IO (List (Location × Entry)) := do
  let path := (← IO.currentDir) / absolutePath place
  if ← path.isDir then
    if deep then
      let below ← path.walkDir
      let entries ← below.toList.mapM fun path => do
        let entry ← if ← path.isDir then pure .directory else .file <$> contentOf path.toString
        return (locationOf path.toString, entry)
      return (place, .directory) :: entries
    else return [(place, .directory)]
  else if ← path.pathExists then return [(place, .file (← contentOf path.toString))]
  else return []
where
  contentOf (path : String) : IO Bytes := do
    return (← IO.FS.readBinFile path).toList

/-- The store that a command line works on. -/
def storeFor (args : List String) : IO Store := do
  let here := locationOf (← IO.currentDir).toString
  let paths := match Program.readRequest args with
    | .ok request => request.paths
    | .error _ => []
  let around := (paths.flatMap (·.surroundings here)).eraseDups
  let deep := (paths.map (·.place here)).eraseDups
  let entries ← (around.filter (! deep.contains ·)).mapM (entriesAt false)
  let below ← deep.mapM (entriesAt true)
  return { entries := entries.flatten ++ below.flatten, here }

/-- Puts a file in its place in one step. -/
def replaceFile (place : Location) (content : Bytes) : IO Unit := do
  let path := absolutePath place
  let temporary := path ++ ".tmp"
  IO.FS.writeBinFile temporary ⟨content.toArray⟩
  IO.FS.rename temporary path

end AccessPatch.Command

open AccessPatch Command in
/-- Runs a command line. -/
def main (args : List String) : IO UInt32 := do
  let store ← storeFor args
  let done := Program.execute store args
  (store.changes done.store).forM fun (place, content) => replaceFile place content
  (← IO.getStdout).putStr done.output
  (← IO.getStderr).putStr done.errors
  if let some failure := done.failure then (← IO.getStderr).putStrLn failure.message
  return done.exit.code.toUInt32
