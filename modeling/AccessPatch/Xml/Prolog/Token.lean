import AccessPatch.Xml.Trivia

/-!
# Tokens outside the root element

The parts of declarations and what stands around them, read one symbol at a time. Some tokens end
only with the symbol after them, so one more symbol can complete two tokens.
-/

namespace AccessPatch.Xml.Prolog

/-- How often an item of a content model may occur. -/
inductive Quantity where
  | one
  | optional
  | any
  | atLeastOne
deriving DecidableEq, Repr

/-- A part of a declaration, or of what stands between declarations. -/
inductive Token where
  | space
  | instruction (target : String)
  | comment
  /-- The beginning of a declaration, with its keyword. -/
  | declarationOpen (keyword : String)
  | declarationClose
  /-- A conditional section begins or ends. -/
  | sectionMark
  | literal (text : List Placed)
  | percent
  | parameterReference
  | hashName (name : String)
  | name (name : String)
  | nameToken
  /-- A name with a mark of how often it may occur. -/
  | quantified (quantity : Quantity)
  | openBracket
  | closeBracket
  | openParen
  | closeParen (quantity : Quantity)
  | comma
  | bar
  /-- The `<` of the root element's tag. -/
  | rootOpen
deriving DecidableEq, Repr

/-- A token under way; names are read in reverse. -/
inductive Lexer where
  | idle
  | lessThan
  | bang
  | keyword (read : List Char)
  /-- A percent sign stands right after a keyword. -/
  | keywordPercent (read : List Char) (pos : Nat)
  | comment (c : Comment)
  | instruction (i : Instruction)
  | literal (quote : Char) (read : List Placed)
  | literalEnd (read : List Placed)
  | percent
  | parameterName
  | hash
  | hashName (read : List Char)
  /-- A name, or a name token if its first character begins no name. -/
  | name (proper : Bool) (read : List Char)
  | closeParen
  | closeBracket
  | twoBrackets (pos : Nat)
deriving DecidableEq, Repr

/-- The tokens that a symbol completes, each with the offset where it begins, and what comes next:
the token under way with the offset where it begins, or a flaw. -/
structure Lexed where
  tokens : List (Nat × Token) := []
  next : Except Flaw (Lexer × Nat)

namespace Lexed

/-- A symbol at `pos` that is a token by itself. -/
def single (pos : Nat) (token : Token) : Lexed :=
  { tokens := [(pos, token)], next := .ok (.idle, pos) }

/-- A token under way since `start`. -/
def going (lexer : Lexer) (start : Nat) : Lexed :=
  { next := .ok (lexer, start) }

/-- A symbol that ends the token that began at `start`. -/
def done (start : Nat) (token : Token) : Lexed :=
  { tokens := [(start, token)], next := .ok (.idle, start) }

def failed (flaw : Flaw) : Lexed :=
  { next := .error flaw }

/-- The same with a token before it. -/
def after (start : Nat) (token : Token) (l : Lexed) : Lexed :=
  { l with tokens := (start, token) :: l.tokens }

end Lexed

namespace Lexer

def nameOf (read : List Char) : String :=
  String.ofList read.reverse

/-- Reads the character at `pos` that begins a token. -/
def first (alphabet : Alphabet) (pos : Nat) (c : Char) : Lexed :=
  match c with
  | '"' | '\'' => .going (literal c []) pos
  | '<' => .going lessThan pos
  | '%' => .going percent pos
  | '#' => .going hash pos
  | ',' => .single pos .comma
  | '|' => .single pos .bar
  | '>' => .single pos .declarationClose
  | '[' => .single pos .openBracket
  | ']' => .going closeBracket pos
  | '(' => .single pos .openParen
  | ')' => .going closeParen pos
  | _ =>
    if isSpace c then .single pos .space
    else if alphabet.isNameStart c then .going (name true [c]) pos
    else if alphabet.isNameChar c then .going (name false [c]) pos
    else .failed .unexpected

/-- The token of a name that ends here. -/
def nameToken (proper : Bool) (read : List Char) : Token :=
  if proper then .name (nameOf read) else .nameToken

def quantity? : Char → Option Quantity
  | '?' => some .optional
  | '*' => some .any
  | '+' => some .atLeastOne
  | _ => none

/-- Reads the character at `pos` after `<`. -/
def afterLessThan (alphabet : Alphabet) (start : Nat) (c : Char) : Lexed :=
  match c with
  | '!' => .going bang start
  | '?' => .going (instruction .opening) start
  | _ =>
    if alphabet.isNameStart c ∨ 0x80 ≤ c.toNat then
      .done start .rootOpen
    else .failed .unexpected

/-- Reads the character at `pos` after `%`. -/
def afterPercent (alphabet : Alphabet) (start pos : Nat) (c : Char) : Lexed :=
  if alphabet.isNameStart c then .going parameterName start
  else if isSpace c ∨ c = '%' then .after start .percent (first alphabet pos c)
  else .failed .unexpected

/-- Reads the character `c` at `pos`, where the token under way began at `start`. -/
def readChar (alphabet : Alphabet) (start pos : Nat) (lexer : Lexer) (c : Char) : Lexed :=
  match lexer with
  | idle => first alphabet pos c
  | lessThan => afterLessThan alphabet start c
  | bang =>
    match c with
    | '-' => .going (comment .opening) start
    | '[' => .done start .sectionMark
    | _ => if alphabet.isKeywordChar c then .going (keyword [c]) start else .failed .unexpected
  | keyword read =>
    if alphabet.isKeywordChar c then .going (keyword (c :: read)) start
    else if isSpace c then .after start (.declarationOpen (nameOf read)) (first alphabet pos c)
    else if c = '%' then .going (keywordPercent read pos) start
    else .failed .unexpected
  | keywordPercent read percentPos =>
    if isSpace c ∨ c = '%' then .failed ⟨.badToken, .offset percentPos⟩
    else .after start (.declarationOpen (nameOf read)) (afterPercent alphabet percentPos pos c)
  | literal quote read =>
    if c = quote then .going (literalEnd read) start
    else .going (literal quote (⟨c, pos⟩ :: read)) start
  | literalEnd read =>
    if isSpace c ∨ c = '>' ∨ c = '%' ∨ c = '[' then
      .after start (.literal read.reverse) (first alphabet pos c)
    else .failed .unexpected
  | percent => afterPercent alphabet start pos c
  | parameterName =>
    if c = ';' then .done start .parameterReference
    else if alphabet.isNameChar c then .going parameterName start
    else .failed .unexpected
  | hash => if alphabet.isNameStart c then .going (hashName [c]) start else .failed .unexpected
  | hashName read =>
    if alphabet.isNameChar c then .going (hashName (c :: read)) start
    else if isSpace c ∨ c = ')' ∨ c = '>' ∨ c = '%' ∨ c = '|' then
      .after start (.hashName (nameOf read)) (first alphabet pos c)
    else .failed .unexpected
  | name proper read =>
    if alphabet.isNameChar c then .going (name proper (c :: read)) start
    else if isSpace c ∨ c = '>' ∨ c = ')' ∨ c = ',' ∨ c = '|' ∨ c = '[' ∨ c = '%' then
      .after start (nameToken proper read) (first alphabet pos c)
    else match quantity? c with
      | some quantity =>
        if proper then .done start (.quantified quantity)
        else .failed .unexpected
      | none => .failed .unexpected
  | closeParen =>
    match quantity? c with
    | some quantity => .done start (.closeParen quantity)
    | none =>
      if isSpace c ∨ c = '>' ∨ c = ',' ∨ c = '|' ∨ c = ')' then
        .after start (.closeParen .one) (first alphabet pos c)
      else .failed .unexpected
  | closeBracket =>
    if c = ']' then .going (twoBrackets pos) start
    else .after start .closeBracket (first alphabet pos c)
  | twoBrackets second =>
    if c = '>' then .done start .sectionMark
    else .after start .closeBracket (.after second .closeBracket (first alphabet pos c))
  | comment state =>
    match state.step c with
    | .ok none => .done start .comment
    | .ok (some state) => .going (comment state) start
    | .error flaw => .failed flaw
  | instruction state =>
    match state.step alphabet c with
    | .ok (.done target) => .done start (.instruction target)
    | .ok (.going state) => .going (instruction state) start
    | .error flaw => .failed flaw

/-- The tokens that the end of the document, or bytes that are no character, complete. -/
def ended (start : Nat) : Lexer → List (Nat × Token)
  | literalEnd read => [(start, .literal read.reverse)]
  | hashName read => [(start, .hashName (nameOf read))]
  | name proper read => [(start, nameToken proper read)]
  | closeParen => [(start, .closeParen .one)]
  | closeBracket => [(start, .closeBracket)]
  | _ => []

/-- The flaw of a symbol that is no character. -/
def unreadable (lexer : Lexer) (cutOff : Bool) : Flaw :=
  match lexer with
  | comment state => state.unreadable cutOff
  | instruction state => state.unreadable cutOff
  | literal _ _ | percent | parameterName | hash | hashName _ | name _ _ =>
    .unreadable cutOff
  | _ => .unexpected

/-- Reads one symbol at `pos`. -/
def step (alphabet : Alphabet) (start pos : Nat) (lexer : Lexer) (g : Glyph) : Lexed :=
  match g, lexer with
  | .char c, lexer => readChar alphabet start pos lexer c
  | g, closeBracket =>
    { tokens := [(start, .closeBracket)], next := .error (firstFlaw (g == .cutOff) pos) }
  | g, twoBrackets second =>
    { tokens := [(start, .closeBracket), (second, .closeBracket)]
      next := .error (firstFlaw (g == .cutOff) pos) }
  | g, idle => .failed (firstFlaw (g == .cutOff) pos)
  | .cutOff, lessThan => .done start .rootOpen
  | .malformed true, lessThan => { tokens := [(start, .rootOpen)], next := .error .unexpected }
  | g, lexer => .failed (lexer.unreadable (g == .cutOff))
where
  /-- The flaw of such a symbol where a token should begin. -/
  firstFlaw (cutOff : Bool) (pos : Nat) : Flaw :=
    if cutOff then ⟨.partialCharacter, .offset pos⟩ else .unexpected

/-- Whether the document may end here: a token that is over, or none. -/
def mayEnd (lexer : Lexer) : Bool :=
  match lexer with
  | idle => true
  | lexer => ! (lexer.ended 0).isEmpty

end Lexer

end AccessPatch.Xml.Prolog
