import AccessPatch.Xml.Content.Entity
import AccessPatch.Xml.Prolog.Declare

/-!
# Reading elements

A `Reader` goes through the symbols of a document and notes where each element starts and ends. It
stops at the first breach of the rules of markup and keeps what it has noted until then.
-/

namespace AccessPatch.Xml

/-- The part of the document that is being read. -/
inductive Phase where
  | prolog (state : Prolog.State) (lexer : Prolog.Lexer)
  | content (lexer : Content.Lexer)
deriving DecidableEq, Repr

/-- The state of reading: what is declared, the part of the document, the offset of the next
symbol and of the token under way, the names of the open elements, innermost first, and the
events, last one first. -/
structure Reader where
  /-- The number of bytes of the smallest character. -/
  unit : Nat := 1
  /-- Whether elements may come out of entities. -/
  admitsEntityTags : Bool := false
  context : Prolog.Context := {}
  phase : Phase := .prolog .beforeDoctype .idle
  offset : Nat := 0
  mark : Nat := 0
  stack : List String := []
  events : List Event := []
deriving DecidableEq, Repr

/-- A breach of the rules with its offset, and the events before it, last one first. -/
structure Stop where
  fault : Fault
  offset : Nat
  events : List Event
deriving DecidableEq, Repr

namespace Reader

/-- Stops at a flaw. -/
def fail (r : Reader) (flaw : Flaw) : Stop where
  fault := flaw.fault
  offset := match flaw.place with
    | .token => r.mark
    | .here => r.offset
    | .offset pos => pos
  events := r.events

/-- Goes on after the root element if no element is open. -/
def leave (r : Reader) : Reader :=
  if r.stack.isEmpty then { r with phase := .prolog .epilog .idle } else r

/-- Notes the element that a start tag begins; `stop` is the offset after the tag. -/
def openElement (r : Reader) (tag : Content.StartTag) (empty : Bool) (stop : Nat) :
    Except Stop Reader :=
  match tag.resolve r.context.dtd r.context.alphabet [] with
  | .error flaw => .error (r.fail flaw)
  | .ok attributes =>
    let opened := Event.opened tag.name attributes r.mark stop empty
    if empty then
      .ok ({ r with events := .closed tag.name stop :: opened :: r.events } : Reader).leave
    else .ok { r with events := opened :: r.events, stack := tag.name :: r.stack }

/-- Notes the end of the innermost element. -/
def closeElement (r : Reader) (name : String) : Except Stop Reader :=
  match r.stack with
  | [] => .error (r.fail ⟨.asynchronousEntity, .token⟩)
  | innermost :: outer =>
    if innermost = name then
      .ok ({ r with events := .closed name r.mark :: r.events, stack := outer } : Reader).leave
    else .error (r.fail ⟨.mismatchedTag, .offset (r.mark + 2 * r.unit)⟩)

/-- Acts on a piece of content that ends at `stop`. -/
def act (r : Reader) (token : Content.Token) (stop : Nat) : Except Stop Reader :=
  match token with
  | .startTag tag empty => r.openElement tag empty stop
  | .endTag name => r.closeElement name
  | .instruction target =>
    if target = Instruction.declarationTarget then .error (r.fail ⟨.misplacedDeclaration, .token⟩)
    else .ok { r with events := .instruction target :: r.events }
  | .reference reference =>
    let expansion : Content.Expansion :=
      ⟨r.context.dtd, r.context.alphabet.forEntityText, r.admitsEntityTags, r.mark⟩
    match expansion.ofTopReference reference with
    | .error fault => .error (r.fail ⟨fault, .token⟩)
    | .ok events => .ok { r with events := events ++ r.events }

/-- Reads a symbol of content. -/
def stepContent (r : Reader) (lexer : Content.Lexer) (s : Symbol) : Except Stop Reader :=
  let r := if lexer.isText then { r with mark := r.offset } else r
  match lexer.step r.context.alphabet r.unit r.offset s with
  | .error flaw => .error (r.fail flaw)
  | .ok lexed =>
    let r := { r with phase := .content lexed.lexer }
    match lexed.token with
    | none => .ok r
    | some token => r.act token (r.offset + s.width)

/-- The event that a token outside the root element makes, if it makes one. -/
def eventOf? : Prolog.Action → Option Event
  | .instruction target => some (.instruction target)
  | .entityName name | .parameterEntity name | .notationName name => some (.declared name)
  | _ => none

/-- Takes a token outside the root element into account. -/
def take (r : Reader) (start : Nat) (state : Prolog.State) (token : Prolog.Token) :
    Except Stop (Reader × Prolog.State × Prolog.Action) :=
  let r := { r with mark := start }
  match state.next? token with
  | none => .error (r.fail ⟨state.faultOf token, .token⟩)
  | some (state, action) =>
    match r.context.perform action with
    | .error flaw => .error (r.fail flaw)
    | .ok context =>
      .ok ({ r with context, events := (eventOf? action).toList ++ r.events }, state, action)

/-- Takes tokens outside the root element into account, one after the other. The last answer says
whether the root element begins. -/
def takeAll (r : Reader) (state : Prolog.State) (tokens : List (Nat × Prolog.Token)) :
    Except Stop (Reader × Prolog.State × Bool) :=
  tokens.foldlM (fun (r, state, root) (start, token) => do
    let (r, state, action) ← r.take start state token
    return (r, state, root || action = .root)) (r, state, false)

/-- Reads a symbol outside the root element. -/
def stepProlog (r : Reader) (state : Prolog.State) (lexer : Prolog.Lexer) (s : Symbol) :
    Except Stop Reader := do
  let start := if lexer = .idle then r.offset else r.mark
  let lexed := lexer.step r.context.alphabet start r.offset s.glyph
  let (r, state, root) ← r.takeAll state lexed.tokens
  if root then
    ({ r with mark := start } : Reader).stepContent .lessThan s
  else
    match lexed.next with
    | .error flaw => throw (({ r with mark := start } : Reader).fail flaw)
    | .ok (lexer, mark) => return { r with phase := .prolog state lexer, mark }

/-- Reads one symbol. -/
def step (r : Reader) (s : Symbol) : Except Stop Reader := do
  let next ← match r.phase with
    | .prolog state lexer => r.stepProlog state lexer s
    | .content lexer => r.stepContent lexer s
  return { next with offset := r.offset + s.width }

/-- Whether a token in some state is a value that is kept. -/
def keepsValue (r : Reader) (state : Prolog.State) (token : Prolog.Token) : Bool :=
  r.context.dtd.reading && match state.next? token with
    | some (_, .entityValue _) | some (_, .attributeDefault (some _)) => true
    | _ => false

/-- A token that takes in half a character at its end, so that its name is none that means
something. -/
def spoil : Prolog.Token → Prolog.Token
  | .name name => .name (name ++ "\ufffd")
  | .hashName name => .hashName (name ++ "\ufffd")
  | token => token

/-- Ends the document outside the root element; `ragged` says that a byte is left that makes no
symbol. A token that the end completes takes in that byte, which spoils a value to be kept. -/
def finishProlog (r : Reader) (ragged : Bool) (state : Prolog.State) (lexer : Prolog.Lexer) :
    Except Stop (List Event) := do
  if ! lexer.mayEnd then throw (r.fail ⟨.unclosedToken, .token⟩)
  let pending := (lexer.ended r.mark).map fun (start, token) =>
    (start, if ragged then spoil token else token)
  let (r, last, _) ← r.takeAll state pending
  if ragged then
    if pending.isEmpty then throw (r.fail ⟨.unclosedToken, .here⟩)
    if pending.any fun (_, token) => r.keepsValue state token then
      throw (r.fail ⟨.badToken, .offset (r.offset - r.unit)⟩)
  if last ≠ .epilog then throw (r.fail ⟨.noElement, .here⟩)
  return r.events.reverse

/-- The flaw of content that ends in a state: no document may end there. -/
def flawAtEnd (ragged : Bool) (lexer : Content.Lexer) : Flaw :=
  match lexer with
  | .text _ (some cr) => ⟨.noElement, .offset cr⟩
  | .text brackets none => ⟨if ragged ∧ brackets = 0 then .unclosedToken else .noElement, .here⟩
  | .verbatim brackets cr =>
    ⟨.unclosedCData, match brackets.getLast?, cr with
      | some pos, _ => .offset pos
      | none, some pos => .offset pos
      | none, none => .here⟩
  | _ => ⟨.unclosedToken, .token⟩

/-- Ends the document: its events in order, or the fault of ending here. -/
def finish (r : Reader) (ragged : Bool) : Except Stop (List Event) :=
  match r.phase with
  | .prolog state lexer => r.finishProlog ragged state lexer
  | .content lexer => .error (r.fail (flawAtEnd ragged lexer))

/-- Reads symbols up to the end of the document: its events, and what it declares. -/
def readAll (r : Reader) (symbols : List Symbol) (ragged : Bool) :
    Except Stop (List Event × Dtd) := do
  let last ← symbols.foldlM step r
  return (← last.finish ragged, last.context.dtd)

/-- Reads symbols up to the end of the document. -/
def run (r : Reader) (symbols : List Symbol) (ragged : Bool) : Except Stop (List Event) :=
  (r.readAll symbols ragged).map Prod.fst

end Reader

end AccessPatch.Xml
