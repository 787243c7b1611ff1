import AccessPatch.Xml.Dtd
import AccessPatch.Xml.Trivia

/-!
# Tokens inside the root element

Tags, references, sections of verbatim text, comments and instructions, read one symbol at a time.
Character data passes without a token. A start tag keeps its attribute values as they stand in the
document.
-/

namespace AccessPatch.Xml.Content

/-- An attribute as it stands in a start tag. -/
structure RawAttribute where
  name : String
  pos : Nat
  value : List Placed
deriving DecidableEq, Repr

/-- A start tag; while it is being read, its attributes stand in reverse. -/
structure StartTag where
  name : String
  attributes : List RawAttribute := []
deriving DecidableEq, Repr

/-- A piece of content that the reader has to act on. -/
inductive Token where
  | startTag (tag : StartTag) (empty : Bool)
  | endTag (name : String)
  | reference (r : Reference)
  | instruction (target : String)
deriving DecidableEq, Repr

/-- The part of a start tag after the element's name. Names and values are read in reverse. -/
inductive TagLexer where
  /-- White space has been read. -/
  | space
  /-- A slash has been read, so the tag ends next. -/
  | slash
  | attributeName (read : List Char) (pos : Nat)
  | equals (name : String) (pos : Nat)
  | quote (name : String) (pos : Nat)
  | value (name : String) (pos : Nat) (quote : Char) (read : List Placed)
  | valueReference (name : String) (pos : Nat) (quote : Char) (read : List Placed)
      (progress : Reference.Progress)
  /-- A value has been read to its closing quote. -/
  | valueEnd
deriving DecidableEq, Repr

/-- A token under way. In character data the number of brackets just read matters, since `]]>` may
not stand there, and in verbatim text, which it ends. The offset of a last CR is kept for reports.
-/
inductive Lexer where
  | text (brackets : Nat) (cr : Option Nat)
  | lessThan
  | bang
  | reference (progress : Reference.Progress)
  | tagName (read : List Char)
  | tag (tag : StartTag) (inner : TagLexer)
  | endTagOpen
  | endTagName (read : List Char)
  | endTagSpace (name : String)
  | comment (c : Comment)
  | instruction (i : Instruction)
  /-- The keyword of verbatim text: what is still to come of it, the offset of a character that is
  not as it should be, and the number of bytes until the keyword is over. -/
  | sectionOpen (rest : List Char) (bad : Option Nat) (bytes : Nat)
  /-- Verbatim text with the offsets of the brackets just read, last one first. -/
  | verbatim (brackets : List Nat) (cr : Option Nat)
deriving DecidableEq, Repr

/-- The state at the beginning of content. -/
def Lexer.idle : Lexer := .text 0 none

/-- What a symbol leads to: the next state, and the token that it completes. -/
structure Lexed where
  lexer : Lexer
  token : Option Token := none
deriving DecidableEq, Repr

namespace Lexer

def nameOf (read : List Char) : String :=
  String.ofList read.reverse

/-- Stays within a token. -/
def going (lexer : Lexer) : Except Flaw Lexed :=
  .ok { lexer }

/-- Ends a token. -/
def done (token : Token) : Except Flaw Lexed :=
  .ok { lexer := idle, token := some token }

def unfit : Except Flaw Lexed :=
  .error .unexpected

/-- Reads the character at `pos` in character data. -/
def inText (brackets : Nat) (pos : Nat) (c : Char) : Except Flaw Lexed :=
  match c with
  | '<' => going lessThan
  | '&' => going (reference .start)
  | ']' => going (text (min (brackets + 1) 2) none)
  | '>' => if brackets = 2 then unfit else going idle
  | '\r' => going (text 0 (some pos))
  | _ => going idle

/-- Reads the character at `pos` in verbatim text. -/
def inVerbatim (brackets : List Nat) (pos : Nat) (c : Char) : Except Flaw Lexed :=
  match c with
  | ']' => going (verbatim (pos :: brackets.take 1) none)
  | '>' => if brackets.length = 2 then going idle else going (verbatim [] none)
  | '\r' => going (verbatim [] (some pos))
  | _ => going (verbatim [] none)

/-- Reads the character at `pos` where a start tag may end, or go on if `name` says so. -/
def afterSpace (alphabet : Alphabet) (t : StartTag) (name : Bool) (pos : Nat) (c : Char) :
    Except Flaw Lexed :=
  if c = '>' then done (.startTag { t with attributes := t.attributes.reverse } false)
  else if c = '/' then going (tag t .slash)
  else if isSpace c then going (tag t .space)
  else if name ∧ alphabet.isNameStart c then going (tag t (.attributeName [c] pos))
  else unfit

/-- Reads the character at `pos` in a start tag after the element's name. -/
def inTag (alphabet : Alphabet) (t : StartTag) (inner : TagLexer) (pos : Nat) (c : Char) :
    Except Flaw Lexed :=
  match inner with
  | .space => afterSpace alphabet t true pos c
  | .valueEnd => afterSpace alphabet t false pos c
  | .slash =>
    if c = '>' then done (.startTag { t with attributes := t.attributes.reverse } true) else unfit
  | .attributeName read namePos =>
    if alphabet.isNameChar c then going (tag t (.attributeName (c :: read) namePos))
    else if isSpace c then going (tag t (.equals (nameOf read) namePos))
    else if c = '=' then going (tag t (.quote (nameOf read) namePos))
    else unfit
  | .equals name namePos =>
    if c = '=' then going (tag t (.quote name namePos))
    else if isSpace c then going (tag t inner)
    else unfit
  | .quote name namePos =>
    if c = '"' ∨ c = '\'' then going (tag t (.value name namePos c []))
    else if isSpace c then going (tag t inner)
    else unfit
  | .value name namePos quote read =>
    if c = quote then
      going (tag { t with attributes := ⟨name, namePos, read.reverse⟩ :: t.attributes } .valueEnd)
    else if c = '&'
      then going (tag t (.valueReference name namePos quote (⟨c, pos⟩ :: read) .start))
    else if c = '<' then unfit
    else going (tag t (.value name namePos quote (⟨c, pos⟩ :: read)))
  | .valueReference name namePos quote read progress =>
    match progress.step alphabet c with
    | .going progress =>
      going (tag t (.valueReference name namePos quote (⟨c, pos⟩ :: read) progress))
    | .done _ => going (tag t (.value name namePos quote (⟨c, pos⟩ :: read)))
    | .unfit => unfit

/-- Reads the character `c` at `pos`, where the smallest character takes `unit` bytes. -/
def readChar (alphabet : Alphabet) (unit pos : Nat) (lexer : Lexer) (c : Char) :
    Except Flaw Lexed :=
  match lexer with
  | text brackets _ => inText brackets pos c
  | lessThan =>
    if alphabet.isNameStart c then going (tagName [c])
    else if c = '!' then going bang
    else if c = '?' then going (instruction .opening)
    else if c = '/' then going endTagOpen
    else unfit
  | bang =>
    if c = '-' then going (comment .opening)
    else if c = '[' then going (sectionOpen "CDATA[".toList none (6 * unit))
    else unfit
  | reference progress =>
    match progress.step alphabet c with
    | .going progress => going (reference progress)
    | .done r => done (.reference r)
    | .unfit => unfit
  | tagName read =>
    if alphabet.isNameChar c then going (tagName (c :: read))
    else afterSpace alphabet ⟨nameOf read, []⟩ false pos c
  | tag t inner => inTag alphabet t inner pos c
  | endTagOpen => if alphabet.isNameStart c then going (endTagName [c]) else unfit
  | endTagName read =>
    if alphabet.isNameChar c then going (endTagName (c :: read))
    else if isSpace c then going (endTagSpace (nameOf read))
    else if c = '>' then done (.endTag (nameOf read))
    else unfit
  | endTagSpace name =>
    if isSpace c then going lexer else if c = '>' then done (.endTag name) else unfit
  | comment state =>
    match state.step c with
    | .ok none => going idle
    | .ok (some state) => going (comment state)
    | .error flaw => .error flaw
  | instruction state =>
    match state.step alphabet c with
    | .ok (.done target) => done (.instruction target)
    | .ok (.going state) => going (instruction state)
    | .error flaw => .error flaw
  | sectionOpen _ _ _ => unfit
  | verbatim brackets _ => inVerbatim brackets pos c

/-- Reads one symbol of the keyword of verbatim text. The keyword is judged only when it is over. -/
def inSectionOpen (rest : List Char) (bad : Option Nat) (bytes pos : Nat) (s : Symbol) :
    Except Flaw Lexed :=
  let wanted := (rest.head?.map Glyph.char).getD (.malformed false)
  let bad := if bad.isSome ∨ s.glyph = wanted then bad else some pos
  if s.width < bytes then going (sectionOpen rest.tail bad (bytes - s.width))
  else match bad with
    | some pos => .error ⟨.badToken, .offset pos⟩
    | none => going (verbatim [] none)

/-- The flaw of a symbol at `pos` that is no character. -/
def unreadable (lexer : Lexer) (pos : Nat) (cutOff : Bool) : Flaw :=
  match lexer with
  | text _ _ | verbatim _ _ => if cutOff then ⟨.partialCharacter, .offset pos⟩ else .unexpected
  | lessThan | tagName _ | endTagOpen | endTagName _ => .unreadable cutOff
  | tag _ .space | tag _ (.attributeName _ _) | tag _ (.value _ _ _ _) => .unreadable cutOff
  | tag _ (.valueReference _ _ _ _ progress) | reference progress =>
    if progress.inName then .unreadable cutOff else .unexpected
  | comment state => state.unreadable cutOff
  | instruction state => state.unreadable cutOff
  | _ => .unexpected

/-- Reads one symbol at `pos`. -/
def step (alphabet : Alphabet) (unit pos : Nat) (lexer : Lexer) (s : Symbol) : Except Flaw Lexed :=
  match lexer, s.glyph with
  | sectionOpen rest bad bytes, _ => inSectionOpen rest bad bytes pos s
  | lexer, .char c => readChar alphabet unit pos lexer c
  | lexer, g => .error (lexer.unreadable pos (g == .cutOff))

/-- Whether no token is under way, so that one may begin with the next symbol. -/
def isText : Lexer → Bool
  | text _ _ => true
  | _ => false

end Lexer

end AccessPatch.Xml.Content
