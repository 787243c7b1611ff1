import AccessPatch.Store.Basic
import AccessPatch.Store.Pattern

/-!
# Discovery

`Store.discover` lists the files below a directory that fit one of several patterns, in the order of
their paths and each once. A root that is a file itself is the only one found.
-/

namespace AccessPatch

/-- Why a search has no result. -/
inductive DiscoveryFault where
  | pattern (fault : Pattern.Fault)
  | access (fault : AccessFault)
deriving DecidableEq, Repr

namespace Store

/-- What a path leads to, if anything. A name that is too long for any file is a fault. -/
def probe (s : Store) (path : Path) : Except AccessFault (Option Entry) :=
  match s.find path with
  | .ok entry => .ok (some entry)
  | .error .nameTooLong => .error .nameTooLong
  | .error _ => .ok none

/-- Whether a path leads to a directory. -/
def isDirectory (s : Store) (path : Path) : Except AccessFault Bool :=
  (s.probe path).map (· == some .directory)

/-- Whether a path leads to a file. -/
def isFile (s : Store) (path : Path) : Except AccessFault Bool := do
  match ← s.probe path with
  | some (.file _) => return true
  | _ => return false

/-- The names that lead from a location to itself and to each directory below it. -/
def directoriesBelow (s : Store) (place : Location) : List (List String) :=
  [] :: (s.entries.filter fun (p, e) =>
    e == .directory && place.isPrefixOf p && decide (place.length < p.length)).map
      fun (p, _) => p.drop place.length

/-- The paths below `base` that fit the components of a pattern. -/
def select (s : Store) : List Pattern.Component → Path → Except AccessFault (List Path)
  | [], base => .ok [base]
  | component :: rest, base => do
    let place ← s.locate base
    match component with
    | .self => return [base]
    | .tree =>
      let found ← (s.directoriesBelow place).mapM fun parts =>
        s.select rest { base with parts := base.parts ++ parts }
      return found.flatten
    | .name name =>
      let path := base.child name
      match ← s.probe path with
      | none => return []
      | some entry =>
        if rest = [] ∨ entry = .directory then s.select rest path else return []
    | .form glyphs =>
      let fitting := (s.names place).filter fun name => Glyph.matchAll glyphs name.toList
      let found ← fitting.mapM fun name => do
        let path := base.child name
        if rest = [] || (← s.isDirectory path) then s.select rest path else return []
      return found.flatten

/-- The files below a directory that fit a pattern. -/
def filesMatching (s : Store) (root : Path) (pattern : String) :
    Except DiscoveryFault (List Path) := do
  let pattern ← (Pattern.ofString pattern).mapError .pattern
  if ← (s.isDirectory root).mapError .access then
    let found ← (s.select pattern.components root).mapError .access
    found.filterM fun path => (s.isFile path).mapError .access
  else return []

/-- The files that a run processes: `root` itself if it is a file, else the files below it that
fit one of the patterns. -/
def discover (s : Store) (root : Path) (patterns : List String) :
    Except DiscoveryFault (List Path) := do
  if ← (s.isFile root).mapError .access then return [root]
  let found ← patterns.mapM (s.filesMatching root)
  return (found.flatten.eraseDups).mergeSort Path.le

end Store

end AccessPatch
