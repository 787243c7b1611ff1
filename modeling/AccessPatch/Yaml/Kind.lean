import AccessPatch.Text.Blank
import AccessPatch.Text.Digit
import AccessPatch.Yaml.Fault

/-!
# Kinds of nodes

A node has a `Kind`: the one that its tag names, or, for a plain scalar without tag, the one whose
form its text has. `Kind.ofPlain` knows the forms, and `checkInteger`, `checkFloat` and
`checkDate` say whether a text is a value of a kind that a tag asks for.
-/

namespace AccessPatch.Yaml

inductive Kind where
  | null
  | boolean
  | integer
  | float
  | timestamp
  | binary
  | text
  /-- The key `<<`, which merges other mappings into its own. -/
  | merge
  /-- The key `=`, which gives the value of a mapping that stands for a scalar. -/
  | value
  | sequence
  | mapping
  | set
  | orderedMapping
  | pairs
  | unknown (tag : String)
deriving DecidableEq, Repr

namespace Kind

/-- What the tags of the known kinds begin with. -/
def tagLead : String := "tag:yaml.org,2002:"

/-- The known kinds by the last part of their tags. -/
def known : List (String × Kind) :=
  [("null", null), ("bool", boolean), ("int", integer), ("float", float), ("timestamp", timestamp),
   ("binary", binary), ("str", text), ("merge", merge), ("value", value), ("seq", sequence),
   ("map", mapping), ("set", set), ("omap", orderedMapping), ("pairs", pairs)]

def ofTag (tag : String) : Kind :=
  (known.find? fun (name, _) => tagLead ++ name == tag).elim (unknown tag) Prod.snd

/-! ## Forms of numbers -/

/-- A text without its sign. -/
def unsigned : List Char → List Char
  | '+' :: rest => rest
  | '-' :: rest => rest
  | cs => cs

/-- Whether the text is a run of digits, in which underscores do not count. -/
def isDigits (base : Nat) (cs : List Char) : Bool :=
  ! cs.isEmpty && cs.all fun c => c == '_' || (hexDigit? c).any (· < base)

/-- Whether the text is a number below sixty: one digit, or two of which the first is less than
six. -/
def isSixtieth : List Char → Bool
  | [a] => a.isDigit
  | [a, b] => '0' ≤ a && a ≤ '5' && b.isDigit
  | _ => false

/-- Whether the text begins with a digit and is made of digits and underscores. -/
def isDigitRun (cs : List Char) : Bool :=
  cs.head?.any Char.isDigit && isDigits 10 cs

/-- Whether the text is a number without leading zero, and numbers below sixty after colons. -/
def isSexagesimal (first : List Char → Bool) (cs : List Char) : Bool :=
  match cs.splitOn ':' with
  | head :: parts => first head && ! parts.isEmpty && parts.all isSixtieth
  | [] => false

/-- Whether the text is a run of digits that begins with no zero. -/
def isCounting (cs : List Char) : Bool :=
  cs.head? != some '0' && isDigitRun cs

def isIntegerForm (cs : List Char) : Bool :=
  match unsigned cs with
  | '0' :: 'b' :: rest => isDigits 2 rest
  | '0' :: 'x' :: rest => isDigits 16 rest
  | ['0'] => true
  | '0' :: rest => isDigits 8 rest
  | rest => isCounting rest || isSexagesimal isCounting rest

/-- Whether the text is an exponent with its sign, or nothing. -/
def isExponent : List Char → Bool
  | [] => true
  | e :: sign :: rest =>
    (e == 'e' || e == 'E') && (sign == '+' || sign == '-') && ! rest.isEmpty &&
      rest.all Char.isDigit
  | _ => false

/-- Whether the text is the part of a number after its point. -/
def isFraction (cs : List Char) : Bool :=
  isExponent (cs.dropWhile fun c => c.isDigit || c == '_')

def isFloatForm (cs : List Char) : Bool :=
  match unsigned cs with
  | '.' :: rest =>
    let word := String.ofList rest
    ["inf", "Inf", "INF"].contains word ||
      (unsigned cs = cs && (["nan", "NaN", "NAN"].contains word ||
        (rest.head?.any Char.isDigit && isFraction rest)))
  | rest =>
    match rest.span (· ≠ '.') with
    | (whole, '.' :: fraction) =>
      (isDigitRun whole && isFraction fraction) ||
        (isSexagesimal isDigitRun whole && fraction.all fun c => c.isDigit || c == '_')
    | _ => false

/-! ## Dates -/

/-- A date, and the time of day if there is one. -/
structure Date where
  year : Nat
  month : Nat
  day : Nat
  /-- Hour, minute and second. -/
  time : Option (Nat × Nat × Nat) := none
  /-- The distance from universal time in minutes. -/
  zone : Nat := 0
  /-- Whether month and day are written with two digits each. -/
  padded : Bool
deriving DecidableEq, Repr

/-- The number written by one or two digits at the beginning of a text, and what follows them. -/
def shortNumber? (cs : List Char) : Option (Nat × Bool × List Char) :=
  let digits := (cs.take 2).takeWhile Char.isDigit
  if digits = [] then none
  else some (ofDigits 10 digits, digits.length = 2, cs.drop digits.length)

/-- The number written by two digits after a mark, and what follows them. -/
def markedPair? (mark : Char) : List Char → Option (Nat × List Char)
  | m :: a :: b :: rest =>
    if m = mark ∧ a.isDigit ∧ b.isDigit then some (ofDigits 10 [a, b], rest) else none
  | _ => none

/-- The distance of a zone from universal time in minutes; the text ends after it. -/
def zone? (cs : List Char) : Option Nat :=
  match cs, cs.dropWhile fun c => c == ' ' || c == '\t' with
  | [], _ => some 0
  | _, ['Z'] => some 0
  | _, sign :: rest =>
    if sign = '+' ∨ sign = '-' then do
      let (hours, _, rest) ← shortNumber? rest
      if rest = [] then return hours * 60
      let (minutes, rest) ← markedPair? ':' rest
      if rest = [] then return hours * 60 + minutes else none
    else none
  | _, [] => none

def Date.ofChars? (cs : List Char) : Option Date := do
  let year := cs.take 4
  guard (year.length = 4 ∧ year.all Char.isDigit)
  let rest ← (cs.drop 4).head?.bind fun c => if c = '-' then some (cs.drop 5) else none
  let (month, monthPadded, rest) ← shortNumber? rest
  let rest ← rest.head?.bind fun c => if c = '-' then some (rest.drop 1) else none
  let (day, dayPadded, rest) ← shortNumber? rest
  let date : Date :=
    { year := ofDigits 10 year, month, day, padded := monthPadded && dayPadded }
  match rest with
  | [] => return date
  | c :: more =>
    let rest ← if c = 'T' ∨ c = 't' then some more
      else if c = ' ' ∨ c = '\t' then some (more.dropWhile fun c => c == ' ' || c == '\t')
      else none
    let (hour, _, rest) ← shortNumber? rest
    let (minute, rest) ← markedPair? ':' rest
    let (second, rest) ← markedPair? ':' rest
    let rest := match rest with
      | '.' :: more => more.dropWhile Char.isDigit
      | _ => rest
    let zone ← zone? rest
    return { date with time := some (hour, minute, second), zone }

/-- The number of days of a month. -/
def daysIn (year month : Nat) : Nat :=
  if month = 2 then
    if year % 4 = 0 ∧ (year % 100 ≠ 0 ∨ year % 400 = 0) then 29 else 28
  else if month = 4 ∨ month = 6 ∨ month = 9 ∨ month = 11 then 30
  else 31

/-- Whether there is such a date, and such a time of day. -/
def Date.exists (d : Date) : Bool :=
  decide (1 ≤ d.year ∧ 1 ≤ d.month ∧ d.month ≤ 12 ∧ 1 ≤ d.day ∧ d.day ≤ daysIn d.year d.month) &&
    d.time.all (fun (hour, minute, second) => decide (hour < 24 ∧ minute < 60 ∧ second < 60)) &&
    decide (d.zone < 24 * 60)

/-- Whether the text has the form of a date, or of a date with time of day. -/
def isDateForm (cs : List Char) : Bool :=
  (Date.ofChars? cs).any fun d => d.time.isSome || d.padded

/-! ## Plain scalars -/

/-- The words for true and false, in lower case. -/
def booleans : List (String × Bool) :=
  [("yes", true), ("no", false), ("true", true), ("false", false), ("on", true), ("off", false)]

/-- Whether a word is written in lower case, in upper case or with a capital. -/
def isCased (word : String) (s : String) : Bool :=
  s == word || s == word.map Char.toUpper || s == word.capitalize

/-- A text without a line feed at its end, which the forms leave open. -/
def withoutLineFeed (cs : List Char) : List Char :=
  if cs.getLast? = some '\n' then cs.dropLast else cs

/-- The kind of a plain scalar without tag. -/
def ofPlain (s : String) : Kind :=
  if s = "\n" then text else
  let cs := withoutLineFeed s.toList
  let s := String.ofList cs
  if booleans.any fun (word, _) => isCased word s then boolean
  else if isFloatForm cs then float
  else if isIntegerForm cs then integer
  else if s = "<<" then merge
  else if s = "" ∨ s = "~" ∨ isCased "null" s then null
  else if isDateForm cs then timestamp
  else if s = "=" then value
  else if s = "!" ∨ s = "&" ∨ s = "*" then unknown (tagLead ++ "yaml")
  else text

/-! ## Values of a kind that a tag asks for -/

/-- Whether the text is a number in a base, with blanks around it, a sign and the mark of the
base. -/
def isNumeral (base : Nat) (mark : Option Char) (cs : List Char) : Bool :=
  let digits := unsigned (Text.trim cs)
  let digits := match digits with
    | '0' :: m :: rest => if mark = some m ∨ mark = some m.toLower then rest else digits
    | _ => digits
  ! digits.isEmpty && digits.all fun c => (hexDigit? c).any (· < base)

/-- Whether the text is a decimal number, with blanks around it and a sign. -/
def isDecimal (cs : List Char) : Bool :=
  let cs := (unsigned (Text.trim cs)).map Char.toLower
  let (whole, rest) := cs.span Char.isDigit
  let (fraction, rest) := match rest with
    | '.' :: rest => rest.span Char.isDigit
    | _ => ([], rest)
  let exponent := match rest with
    | 'e' :: rest => ! (unsigned rest).isEmpty && (unsigned rest).all Char.isDigit
    | _ => rest.isEmpty
  ["inf", "infinity", "nan"].contains (String.ofList cs) ||
    (! (whole ++ fraction).isEmpty && exponent)

def checkInteger (s : String) : Except ValueFault Unit :=
  let digits := unsigned (s.toList.filter (· ≠ '_'))
  let valid := match digits with
    | '0' :: 'b' :: rest => isNumeral 2 (some 'b') rest
    | '0' :: 'x' :: rest => isNumeral 16 (some 'x') rest
    | ['0'] => true
    | '0' :: _ => isNumeral 8 (some 'o') digits
    | _ => (digits.splitOn ':').all (isNumeral 10 none)
  if digits = [] then .error .noDigits
  else if valid then .ok ()
  else .error (.notOfType s)

def checkFloat (s : String) : Except ValueFault Unit :=
  let all := s.toList.filter (· ≠ '_')
  let digits := unsigned all
  if all = [] then .error .noDigits
  else if [".inf", ".nan"].contains (String.ofList (digits.map Char.toLower)) ∨
      (digits.splitOn ':').all isDecimal then .ok ()
  else .error (.notOfType s)

def checkDate (s : String) : Except ValueFault Unit :=
  match Date.ofChars? (withoutLineFeed s.toList) with
  | none => .error (.notDate s)
  | some d => if d.exists then .ok () else .error (.notOfType s)

/-- Whether the text is bytes in base 64: groups of four digits, of which the last may be two or
three digits filled up with `=`, and what comes after that does not count. Nor do other
characters. `group` digits have been read of the group under way, and `marks` signs `=` after
them. -/
def isBase64 (group marks : Nat) : List Char → Bool
  | [] => group == 0
  | '=' :: rest =>
    if group < 2 then isBase64 group marks rest
    else 3 ≤ group + marks || isBase64 group (marks + 1) rest
  | c :: rest =>
    if c.isAlphanum || c == '+' || c == '/' then isBase64 ((group + 1) % 4) 0 rest
    else isBase64 group marks rest

/-- Accepts bytes. -/
def checkBytes (s : String) : Bool :=
  s.toList.all (fun c => c.toNat < 0x80) && isBase64 0 0 s.toList

/-- The truth value that a word stands for. -/
def readBoolean (s : String) : Except ValueFault Bool :=
  match booleans.lookup (s.map Char.toLower) with
  | some b => .ok b
  | none => .error (.notBoolean s)

end Kind

end AccessPatch.Yaml
