import AccessPatch.Text.Blank

/-!
# Identifiers

An identifier is made of a short name for the element's tag and a seed in which only letters, digits
and `_ . : -` remain. `numberRepeats` numbers repeated identifiers.
-/

namespace AccessPatch.Identifier

/-- The short names of the tags. -/
def shortNames : List (String × String) :=
  [("button", "btn"), ("label", "lbl"), ("textField", "txt"), ("textView", "txtv"),
    ("imageView", "img"), ("switch", "swi"), ("slider", "sld"), ("stepper", "stp"),
    ("segmentedControl", "seg"), ("tableViewCell", "cell"), ("collectionViewCell", "ccell"),
    ("view", "view"), ("barButtonItem", "barbtn"), ("navigationItem", "navitem"),
    ("navigationBar", "navbar"), ("stackView", "stack"), ("tableView", "table"),
    ("collectionView", "collection")]

/-- The short name of a tag; tags without one share `el`. -/
def shortName (tag : String) : String :=
  (shortNames.lookup tag).getD "el"

/-- The characters of an identifier. -/
def isSafe (c : Char) : Bool :=
  c.isAlphanum || c == '_' || c == '.' || c == ':' || c == '-'

/-- The text with each run of white space replaced by one underscore. -/
def joinBlanks : List Char → List Char
  | [] => []
  | c :: rest =>
    if Text.isBlank c then
      match rest with
      | d :: _ => if Text.isBlank d then joinBlanks rest else '_' :: joinBlanks rest
      | [] => ['_']
    else c :: joinBlanks rest

/-- A seed as a part of an identifier: `noid` if it is absent or empty; else each run of white space
and each other character that is not safe becomes one underscore. -/
def sanitize (seed : Option String) : String :=
  match seed with
  | none => "noid"
  | some s =>
    if s = "" then "noid"
    else String.ofList ((joinBlanks s.toList).map fun c => if isSafe c then c else '_')

/-- The identifier of an element with the given tag and seed. A project's own lead comes first if
it is not empty. -/
def make (tag : String) (seed : Option String) (lead : String) : String :=
  let base := shortName tag ++ "_" ++ sanitize seed
  if lead = "" then base else sanitize (some lead) ++ "_" ++ base

/-- The identifier with an occurrence number. -/
def numbered (identifier : String) (n : Nat) : String :=
  identifier ++ "_" ++ toString n

/-- The least number from `n` on with which the identifier is not taken. One of the next
`taken.length + 1` numbers is free, since they give different identifiers. -/
def freeNumber (taken : List String) (identifier : String) (n : Nat) : Nat :=
  (((List.range (taken.length + 1)).map (n + ·)).find? fun k =>
    ! taken.contains (numbered identifier k)).getD n

/-- Goes on with numbering: `seen` holds the identifiers dealt with, and `taken` the names that
are not free. -/
def numberRepeatsFrom (seen taken : List String) : List String → List String
  | [] => []
  | x :: rest =>
    if seen.contains x then
      let name := numbered x (freeNumber taken x (seen.count x + 1))
      name :: numberRepeatsFrom (x :: seen) (name :: taken) rest
    else x :: numberRepeatsFrom (x :: seen) taken rest

/-- Makes identifiers different: the first occurrence of each stays, and a later one gets the least
number, from its count of occurrences on, that makes a new name. -/
def numberRepeats (identifiers : List String) : List String :=
  numberRepeatsFrom [] identifiers identifiers

end AccessPatch.Identifier
