import AccessPatch.Yaml.Property
import AccessPatch.Yaml.Scalar

/-!
# Tokens of a configuration text

`tokens` cuts a text into indicators, properties and scalars. Collections written by indentation
get tokens for their beginnings and ends. Whether a node is a key shows only at the colon after
it, so the places at which a key may have begun are kept, one for each level of brackets, and the
token for the key is put there.
-/

namespace AccessPatch.Yaml

inductive Token where
  | directive (d : Directive)
  | documentStart
  | documentEnd
  | blockSequenceStart
  | blockMappingStart
  | blockEnd
  | flowSequenceStart
  | flowMappingStart
  | flowSequenceEnd
  | flowMappingEnd
  | blockEntry
  | flowEntry
  | key
  | value
  | alias (name : String)
  | anchor (name : String)
  | tag (handle : Option String) (suffix : String)
  | scalar (text : String) (plain : Bool)
deriving DecidableEq, Repr

/-- A place at which a key may have begun. -/
structure KeyStart where
  /-- The number of tokens before it. -/
  tokens : Nat
  /-- Whether nothing but a key can be there. -/
  required : Bool
  index : Nat
  line : Nat
  column : Nat
deriving DecidableEq, Repr

/-- A text that has been cut into tokens as far as a cursor. -/
structure Tokenizer where
  cursor : Cursor
  tokens : List Token := []
  /-- The number of open brackets. -/
  flowLevel : Nat := 0
  /-- The column of the innermost collection written by indentation. -/
  indent : Int := -1
  /-- The columns of those around it, innermost first. -/
  outer : List Int := []
  /-- Whether a key may begin here. -/
  allowKey : Bool := true
  /-- The places at which keys may have begun, by level. -/
  keys : List (Nat × KeyStart) := []
deriving DecidableEq, Repr

namespace Tokenizer

def add (t : Tokenizer) (token : Token) : Tokenizer :=
  { t with tokens := t.tokens ++ [token] }

def skip (t : Tokenizer) (n : Nat) : Tokenizer :=
  { t with cursor := t.cursor.skip n }

/-- The longest distance between the beginning of a key and its colon. -/
def maxKeySize : Nat := 1024

/-- Whether a key that began there can end here. -/
def isCurrent (t : Tokenizer) (key : KeyStart) : Bool :=
  key.line == t.cursor.line && decide (t.cursor.index - key.index ≤ maxKeySize)

/-- Forgets the places whose keys cannot end here any more. -/
def dropStale (t : Tokenizer) : Except Fault Tokenizer :=
  let (current, stale) := t.keys.partition fun (_, key) => t.isCurrent key
  if stale.any fun (_, key) => key.required then .error .keyNotEnded
  else .ok { t with keys := current }

/-- Forgets the place of this level. -/
def dropKey (t : Tokenizer) : Except Fault Tokenizer :=
  if (t.keys.lookup t.flowLevel).any (·.required) then .error .keyNotEnded
  else .ok { t with keys := t.keys.filter fun (level, _) => level ≠ t.flowLevel }

/-- Keeps this place as one at which a key may begin. -/
def saveKey (t : Tokenizer) : Except Fault Tokenizer :=
  if t.allowKey then do
    let t ← t.dropKey
    let key : KeyStart :=
      { tokens := t.tokens.length
        required := t.flowLevel == 0 && t.indent == (t.cursor.column : Int)
        index := t.cursor.index, line := t.cursor.line, column := t.cursor.column }
    return { t with keys := (t.flowLevel, key) :: t.keys }
  else .ok t

/-- Closes the collections that are indented more than `column`; `outer` holds the columns around.
-/
def unwindTo (column : Int) (t : Tokenizer) : List Int → Tokenizer
  | [] => { t with outer := [] }
  | indent :: outer =>
    if column < t.indent then unwindTo column { t.add .blockEnd with indent } outer
    else { t with outer := indent :: outer }

def unwind (t : Tokenizer) (column : Int) : Tokenizer :=
  if t.flowLevel = 0 then t.unwindTo column t.outer else t

/-- Opens a collection at a column unless one is open there. Its token becomes the one after the
first `before` tokens. -/
def openBlock (t : Tokenizer) (column before : Nat) (token : Token) : Tokenizer :=
  if t.flowLevel = 0 ∧ t.indent < column then
    { t with
      tokens := t.tokens.insertIdx before token
      outer := t.indent :: t.outer
      indent := column }
  else t

/-- Adds an indicator that begins a part of a collection written by indentation. -/
def addIndicator (t : Tokenizer) (token start : Token) (what : String) (allowKey : Bool) :
    Except Fault Tokenizer := do
  if t.flowLevel = 0 ∧ ! t.allowKey then throw (.notAllowed what)
  let t := t.openBlock t.cursor.column t.tokens.length start
  let t ← { t with allowKey }.dropKey
  return (t.add token).skip 1

/-- Adds the colon after a key. -/
def addValue (t : Tokenizer) : Except Fault Tokenizer :=
  match t.keys.lookup t.flowLevel with
  | some key =>
    let keys := t.keys.filter fun (level, _) => level ≠ t.flowLevel
    let t := { t with keys, tokens := t.tokens.insertIdx key.tokens .key }
    let t := t.openBlock key.column key.tokens .blockMappingStart
    .ok (({ t with allowKey := false }.add .value).skip 1)
  | none => t.addIndicator .value .blockMappingStart "mapping values" (t.flowLevel == 0)

/-- Adds a token that stands for itself and may be a key. -/
def addNode (t : Tokenizer) (scan : Scan Token) : Except Fault Tokenizer := do
  let t ← t.saveKey
  let (token, cursor) ← scan t.cursor
  return { t with cursor, allowKey := false }.add token

/-- Adds the bracket that begins a collection. -/
def openFlow (t : Tokenizer) (token : Token) : Except Fault Tokenizer := do
  let t ← t.saveKey
  return ({ t with flowLevel := t.flowLevel + 1, allowKey := true }.add token).skip 1

/-- Adds the bracket that ends a collection. -/
def closeFlow (t : Tokenizer) (token : Token) : Except Fault Tokenizer := do
  let t ← t.dropKey
  if t.flowLevel = 0 then throw (.unexpected "a node")
  return ({ t with flowLevel := t.flowLevel - 1, allowKey := false }.add token).skip 1

/-- Closes all collections before a line that belongs to no document. -/
def leaveDocument (t : Tokenizer) : Except Fault Tokenizer := do
  let t ← (t.unwind (-1)).dropKey
  return { t with allowKey := false }

/-- Adds a plain scalar, after which a key may begin if its line has ended. -/
def addPlain (t : Tokenizer) : Except Fault Tokenizer := do
  let t ← t.saveKey
  let ((text, lineEnded), cursor) ← Scalar.plain (t.flowLevel != 0) (t.indent + 1) t.cursor
  return { t with cursor, allowKey := lineEnded }.add (.scalar text true)

/-- Adds a scalar written as a block of lines. -/
def addBlock (t : Tokenizer) (folded : Bool) : Except Fault Tokenizer := do
  let t ← { t with allowKey := true }.dropKey
  let (text, cursor) ← Scalar.block folded t.indent t.cursor
  return { t with cursor }.add (.scalar text false)

/-- Skips blanks, comments and empty lines; `fuel` is greater than the number of characters left. -/
def skipBlanks : Nat → Tokenizer → Tokenizer
  | 0, t => t
  | fuel + 1, t =>
    let cursor := (t.cursor.dropWhile (· == ' ')).skipComment
    if cursor.peek.any isBreak then
      skipBlanks fuel { t with cursor := cursor.next, allowKey := t.allowKey || t.flowLevel == 0 }
    else { t with cursor }

/-- Whether a plain scalar begins with `c`, what follows it being `next`. -/
def startsPlain (inFlow : Bool) (c : Char) (next : Option Char) : Bool :=
  ! (c == '\t' || "-?:,[]\x7b\x7d#&*!|>'\"%@`".toList.contains c) ||
    (! endsWord next && (c == '-' || (! inFlow && (c == '?' || c == ':'))))

/-- Adds the token that begins with the character `c` here. -/
def addToken (t : Tokenizer) (c : Char) : Except Fault Tokenizer :=
  let next := t.cursor.look 1
  let inFlow := t.flowLevel != 0
  let isIndicator := inFlow || endsWord next
  if c = '%' ∧ t.cursor.column = 0 then do
    let t ← t.leaveDocument
    let (d, cursor) ← Scan.directive t.cursor
    return { t with cursor }.add (.directive d)
  else if t.cursor.column = 0 ∧ t.cursor.atMarker '-' then
    t.leaveDocument.map fun t => (t.add .documentStart).skip 3
  else if t.cursor.column = 0 ∧ t.cursor.atMarker '.' then
    t.leaveDocument.map fun t => (t.add .documentEnd).skip 3
  else if c = '[' then t.openFlow .flowSequenceStart
  else if c = '\x7b' then t.openFlow .flowMappingStart
  else if c = ']' then t.closeFlow .flowSequenceEnd
  else if c = '\x7d' then t.closeFlow .flowMappingEnd
  else if c = ',' then do
    let t ← { t with allowKey := true }.dropKey
    return (t.add .flowEntry).skip 1
  else if c = '-' ∧ endsWord next then
    t.addIndicator .blockEntry .blockSequenceStart "sequence entries" true
  else if c = '?' ∧ isIndicator then
    t.addIndicator .key .blockMappingStart "mapping keys" (! inFlow)
  else if c = ':' ∧ isIndicator then t.addValue
  else if c = '*' then t.addNode (Token.alias <$> Scan.anchor)
  else if c = '&' then t.addNode (Token.anchor <$> Scan.anchor)
  else if c = '!' then t.addNode ((fun (handle, suffix) => Token.tag handle suffix) <$> Scan.tag)
  else if c = '|' ∧ ! inFlow then t.addBlock false
  else if c = '>' ∧ ! inFlow then t.addBlock true
  else if c = '\'' then t.addNode ((Token.scalar · false) <$> Scalar.quoted false)
  else if c = '"' then t.addNode ((Token.scalar · false) <$> Scalar.quoted true)
  else if startsPlain inFlow c next then t.addPlain
  else .error (.noToken c)

/-- Adds the next token, or ends the text. The answer says whether there was a token. -/
def addNext (t : Tokenizer) : Except Fault (Tokenizer × Bool) := do
  let t ← (t.skipBlanks (t.cursor.rest.length + 1)).dropStale
  let t := t.unwind t.cursor.column
  match t.cursor.peek with
  | none => return (← (t.unwind (-1)).dropKey, false)
  | some c => return (← t.addToken c, true)

/-- The tokens before the first one that may still become a key. -/
def settled (t : Tokenizer) : List Token :=
  (t.keys.filter fun (_, key) => t.isCurrent key).foldl
    (fun tokens (_, key) => tokens.take key.tokens)
    t.tokens

/-- The tokens from here to the end; `fuel` is greater than the number of characters left. -/
def addAll : Nat → Tokenizer → List Token × Option Fault
  | 0, t => (t.tokens, none)
  | fuel + 1, t =>
    match t.addNext with
    | .ok (t, true) => addAll fuel t
    | .ok (t, false) => (t.tokens, none)
    | .error fault => (t.settled, some fault)

end Tokenizer

/-- Whether a character may stand in a text. -/
def isPrintable (c : Char) : Bool :=
  c == '\t' || c == '\n' || c == '\r' || c == '\x85' || ('\x20' ≤ c && c ≤ '\x7e') ||
    ('\u00a0' ≤ c && c ≤ '\ufffd') || '\uffff' < c

/-- Cuts a text into tokens, and says why they break off if they do. Tokens that may still become
keys when they break off are left out. A byte-order mark at the beginning does not count. -/
def tokens (text : List Char) : List Token × Option Fault :=
  match text.find? (! isPrintable ·) with
  | some c => ([], some (.unprintable c))
  | none =>
    let cursor : Cursor := { rest := text }
    let cursor := if cursor.peek = some '\uFEFF' then cursor.next else cursor
    Tokenizer.addAll (text.length + 1) { cursor }

end AccessPatch.Yaml
