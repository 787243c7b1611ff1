import AccessPatch.Store.Path

/-!
# Patterns

A `Pattern` describes paths below a directory, component by component: `**` is any number of
directories, a component with `*`, `?` or a set in brackets is any name of that form, and any other
component is the name itself. `Glyph.matchAll` says which names have a form.
-/

namespace AccessPatch

/-- One or two characters of a set in brackets: all that lie between two, ends included. -/
structure CharSpan where
  least : Char
  greatest : Char
deriving DecidableEq, Repr

/-- A part of the form of a name. -/
inductive Glyph where
  /-- Any characters. -/
  | star
  /-- Any one character. -/
  | any
  | char (c : Char)
  /-- One character that is in one of the spans, or, if it is `negated`, in none. -/
  | set (negated : Bool) (spans : List CharSpan)
deriving DecidableEq, Repr

namespace Glyph

/-- The spans written in brackets. A hyphen between two characters makes a span of them, which is
empty if they are in the wrong order. -/
def spans : List Char → List CharSpan
  | a :: '-' :: b :: rest => ⟨a, b⟩ :: spans rest
  | a :: rest => ⟨a, a⟩ :: spans rest
  | [] => []

/-- What stands in brackets, and what follows them. A bracket that closes right after the opening
one belongs to the set. None if no bracket closes. -/
def splitSet? (cs : List Char) : Option (Bool × List Char × List Char) :=
  let (negated, cs) := match cs with
    | '!' :: rest => (true, rest)
    | _ => (false, cs)
  let (lead, cs) := match cs with
    | ']' :: rest => ([']'], rest)
    | _ => ([], cs)
  match cs.span (· ≠ ']') with
  | (inner, _ :: rest) => some (negated, lead ++ inner, rest)
  | (_, []) => none

/-- Reads the form of a name; `fuel` is at least the number of characters. -/
def ofChars : Nat → List Char → List Glyph
  | 0, _ => []
  | _, [] => []
  | fuel + 1, '*' :: rest => star :: ofChars fuel rest
  | fuel + 1, '?' :: rest => any :: ofChars fuel rest
  | fuel + 1, '[' :: rest =>
    match splitSet? rest with
    | some (negated, inner, rest) => set negated (spans inner) :: ofChars fuel rest
    | none => char '[' :: ofChars fuel rest
  | fuel + 1, c :: rest => char c :: ofChars fuel rest

/-- Whether one character has the form; a star has none. -/
def admits (c : Char) : Glyph → Bool
  | star => false
  | any => true
  | char d => c == d
  | set negated spans => negated != spans.any fun s => decide (s.least ≤ c ∧ c ≤ s.greatest)

/-- Whether a name has the form. -/
def matchAll : List Glyph → List Char → Bool
  | [], cs => cs.isEmpty
  | star :: rest, [] => matchAll rest []
  | star :: rest, c :: cs => matchAll rest (c :: cs) || matchAll (star :: rest) cs
  | _ :: _, [] => false
  | g :: rest, c :: cs => g.admits c && matchAll rest cs
termination_by gs cs => (gs.length, cs.length)

end Glyph

/-- What a component of a pattern stands for. -/
inductive Pattern.Component where
  /-- A directory, or any directory below it. -/
  | tree
  /-- A name of a certain form. -/
  | form (glyphs : List Glyph)
  | name (name : String)
  /-- The directory itself, for a slash at the end. -/
  | self
deriving DecidableEq, Repr

/-- A description of paths below a directory. -/
structure Pattern where
  components : List Pattern.Component
deriving DecidableEq, Repr

namespace Pattern

/-- Why a text is no pattern. -/
inductive Fault where
  | empty
  | absolute
  /-- It has no component at all. -/
  | noComponent
  /-- It has no component, and a slash at the end. -/
  | onlySlash
  /-- Two stars are a part of a component only. -/
  | starsInName
deriving DecidableEq, Repr

def Fault.message : Fault → String
  | empty => "Unacceptable pattern: ''"
  | absolute => "Non-relative patterns are unsupported"
  | noComponent | onlySlash => "A pattern needs a component"
  | starsInName => "Invalid pattern: '**' can only be an entire path component"

/-- Whether two stars stand side by side. -/
def hasTwoStars : List Char → Bool
  | '*' :: '*' :: _ => true
  | _ :: rest => hasTwoStars rest
  | [] => false

def componentOf (part : String) : Except Fault Component :=
  let cs := part.toList
  if part = "**" then .ok .tree
  else if hasTwoStars cs then .error .starsInName
  else if cs.any fun c => c == '*' || c == '?' || c == '[' then
    .ok (.form (Glyph.ofChars cs.length cs))
  else .ok (.name part)

/-- Reads a pattern. -/
def ofString (s : String) : Except Fault Pattern := do
  let endsInSlash := s.toList.getLast? == some '/'
  if s = "" then throw .empty
  if Path.Anchor.ofText s.toList ≠ .relative then throw .absolute
  match Path.components s.toList with
  | [] => throw (if endsInSlash then .onlySlash else .noComponent)
  | parts =>
    let components ← parts.mapM componentOf
    return ⟨components ++ if endsInSlash then [.self] else []⟩

end Pattern

end AccessPatch
