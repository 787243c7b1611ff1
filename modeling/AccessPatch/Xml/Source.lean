import AccessPatch.Xml.Declaration
import AccessPatch.Xml.Encoding
import AccessPatch.Xml.Reader

/-!
# From bytes to events

A document is decoded by its byte-order mark, its first bytes and its declaration; then the reader
goes through it. `Xml.read` gives the events of a document up to its end or to its first fault.
-/

namespace AccessPatch.Xml

/-- Why a document cannot be read to its end. -/
inductive ReadError where
  /-- It breaks a rule of markup. The column is left out where only the line is known. -/
  | fault (fault : Fault) (line : Nat) (column : Option Nat)
  /-- It declares a character set that is not known. -/
  | unknownEncoding (name : String)
  /-- It declares a character set that cannot be read byte by byte. -/
  | multiByteEncoding (name : String)
deriving DecidableEq, Repr

def ReadError.message : ReadError → String
  | fault f _ _ => f.message
  | unknownEncoding name => "unknown encoding: " ++ name
  | multiByteEncoding name => "multi-byte encodings are not supported: " ++ name

/-- A fault at an offset of a document. -/
def ReadError.faultAt (symbols : List Symbol) (fault : Fault) (offset : Nat) : ReadError :=
  let position := Position.ofOffset symbols offset
  .fault fault position.line (some position.column)

/-- A decoded document. -/
structure Source where
  /-- All bytes as symbols of the encoding of the body, by which places are counted. -/
  symbols : List Symbol
  /-- The symbols after a byte-order mark and a declaration, which begin at `start`. -/
  body : List Symbol
  start : Nat
  /-- The encoding of the body. -/
  encoding : Encoding
  /-- Whether bytes are left after the last symbol. -/
  ragged : Bool
  /-- The declared version, if there is a declaration. -/
  version : Option String := none
  standalone : Bool := false
deriving DecidableEq, Repr

namespace Source

/-- The characters at the beginning of some symbols that start at `pos`. -/
def leadingChars (pos : Nat) : List Symbol → List Placed
  | ⟨.char c, width⟩ :: rest => ⟨c, pos⟩ :: leadingChars (pos + width) rest
  | _ => []

/-- Cuts characters at the first `?>`: what stands before it, and its offset. -/
def untilClose : List Placed → Option (List Placed × Nat)
  | ⟨'?', pos⟩ :: ⟨'>', _⟩ :: _ => some ([], pos)
  | c :: rest => (untilClose rest).map fun (body, pos) => (c :: body, pos)
  | [] => none

/-- What stands between the marks of a declaration at the beginning of the characters, with the
offset where it ends. -/
def declarationBody? (cs : List Placed) : Option (List Placed × Nat) :=
  if (cs.take 5).map Placed.char = "<?xml".toList then
    match cs.drop 5 with
    | ⟨'?', pos⟩ :: ⟨'>', _⟩ :: _ => some ([], pos)
    | c :: rest => if isSpace c.char then untilClose (c :: rest) else none
    | [] => none
  else none

/-- The encoding of the rest of a document that declares `name`, where `current` is the encoding
in which that was read. -/
def declaredEncoding (symbols : List Symbol) (current : Encoding) (name : String) (pos : Nat) :
    Except ReadError Encoding :=
  match current.named? name with
  | some encoding =>
    if encoding.unit ≠ current.unit ∨ (encoding.unit = 2 ∧ encoding ≠ current) then
      .error (.faultAt symbols .conflictingEncoding pos)
    else .ok encoding
  | none =>
    match (Charset.find? name).map Charset.form with
    | some (.singleByte rows gaps) => .ok (.singleByte (Charset.charsOf rows).toArray gaps)
    | some .multiByte => .error (.multiByteEncoding name)
    | some .conflicting => .error (.faultAt symbols .unsupportedEncoding pos)
    | none => .error (.unknownEncoding name)

/-- Decodes a document. -/
def ofBytes (bytes : Bytes) : Except ReadError Source := do
  match Encoding.sniff bytes with
  | none => throw (.faultAt [] .unclosedToken 0)
  | some (encoding, mark) =>
    let symbols := encoding.decode bytes
    let body := if mark = 0 then symbols else symbols.tail
    let plain : Source :=
      { symbols, body, start := mark, encoding,
        ragged := encoding.unit = 2 ∧ bytes.length % 2 = 1 }
    match declarationBody? (leadingChars mark body) with
    | none => return plain
    | some (declared, stop) =>
      match Declaration.ofBody stop declared with
      | .error pos => throw (.faultAt symbols .badDeclaration pos)
      | .ok declaration =>
        let start := stop + 2 * encoding.unit
        let final ← match declaration.encoding with
          | none => .ok encoding
          | some (name, pos) => declaredEncoding symbols encoding name pos
        return { symbols := final.decode bytes, body := final.decode (bytes.drop start), start,
                 encoding := final, ragged := final.unit = 2 ∧ bytes.length % 2 = 1,
                 version := some declaration.version, standalone := declaration.standalone }

/-- Where reading a decoded document begins. -/
def reader (s : Source) (alphabet : Alphabet) (admitsEntityTags : Bool) : Reader where
  unit := s.encoding.unit
  admitsEntityTags
  context := { alphabet, dtd := { standalone := s.standalone } }
  offset := s.start

end Source

/-- What reading a document yields: its events in order, and why they break off if they do. -/
structure Reading where
  events : List Event
  error : Option ReadError
  symbols : List Symbol
deriving DecidableEq, Repr

/-- The events of a document, up to its end or to its first fault. -/
def read (bytes : Bytes) : Reading :=
  match Source.ofBytes bytes with
  | .error e => ⟨[], some e, []⟩
  | .ok source =>
    match (source.reader source.encoding.alphabet false).run source.body source.ragged with
    | .ok events => ⟨events, none, source.symbols⟩
    | .error stop =>
      ⟨stop.events.reverse, some (.faultAt source.symbols stop.fault stop.offset), source.symbols⟩

end AccessPatch.Xml
