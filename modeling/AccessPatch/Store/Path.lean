/-!
# Paths

A path is an anchor (relative, `/` or `//`) and a list of components; empty components and `.` do
not count, while `..` is kept, since it may lead across a link.
-/

namespace AccessPatch

/-- Where a path begins: at the working directory, or at a root written with one or two slashes. -/
inductive Path.Anchor where
  | relative
  | root
  | doubleRoot
deriving DecidableEq, Repr

/-- A path in its normal form. -/
structure Path where
  anchor : Path.Anchor := .relative
  parts : List String := []
deriving DecidableEq, Repr

namespace Path

def Anchor.text : Anchor → String
  | .relative => ""
  | .root => "/"
  | .doubleRoot => "//"

/-- The anchor that a text begins with: three or more slashes are one. -/
def Anchor.ofText (cs : List Char) : Anchor :=
  match (cs.takeWhile (· == '/')).length with
  | 0 => .relative
  | 2 => .doubleRoot
  | _ => .root

/-- The components of a text that count. -/
def components (cs : List Char) : List String :=
  ((cs.splitOn '/').map String.ofList).filter fun part => part ≠ "" ∧ part ≠ "."

def ofString (s : String) : Path where
  anchor := .ofText s.toList
  parts := components s.toList

protected def toString (p : Path) : String :=
  if p.anchor = .relative ∧ p.parts = [] then "."
  else p.anchor.text ++ "/".intercalate p.parts

instance : ToString Path := ⟨Path.toString⟩

/-- The last component, and the empty text if there is none. -/
def name (p : Path) : String :=
  p.parts.getLast?.getD ""

def parent (p : Path) : Path :=
  { p with parts := p.parts.dropLast }

/-- The path with another component after it. -/
def child (p : Path) (part : String) : Path :=
  { p with parts := p.parts ++ [part] }

/-- The path whose last component has `suffix` appended; a path without components has none. -/
def appendSuffix? (p : Path) (suffix : String) : Option Path :=
  match p.parts.getLast? with
  | none => none
  | some last => some { p with parts := p.parts.dropLast ++ [last ++ suffix] }

/-- Whether a path stands before another one: paths are ordered by their anchors, then component by
component. -/
def lt (p q : Path) : Bool :=
  (p.anchor.text :: p.parts).lex (q.anchor.text :: q.parts) fun a b => decide (a < b)

/-- Whether a path does not stand after another one. -/
def le (p q : Path) : Bool :=
  ! q.lt p

end Path

end AccessPatch
