import AccessPatch.Tag.Range
import AccessPatch.Xml.Source

/-!
# The tag ranges of a document

`TagRange.ofDocument` reads a document and gives the ranges of its tags. A start tag ends with the
first `>` outside quotes, an element written as one tag has an empty range for its end, and any
other end tag goes up to the next `>`.
-/

namespace AccessPatch

/-- The offset after the first `>` that stands outside quotes; `quote` is the mark that ends the
quotation under way. -/
def unquotedEnd? (pos : Nat) (quote : Option UInt8) : Bytes → Option Nat
  | [] => none
  | b :: rest =>
    match quote with
    | some q => unquotedEnd? (pos + 1) (if b = q then none else some q) rest
    | none =>
      if b = 0x3E then some (pos + 1)
      else if b = 0x22 ∨ b = 0x27 then unquotedEnd? (pos + 1) (some b) rest
      else unquotedEnd? (pos + 1) none rest

/-- The offset after the start tag at `start`, if a tag begins there. -/
def tagEnd? (buffer : Bytes) (start : Nat) : Option Nat :=
  match buffer.drop start with
  | 0x3C :: rest => unquotedEnd? (start + 1) none rest
  | _ => none

/-- The offset after the first `>` from `start` on, and 0 if there is none. -/
def closeEnd (buffer : Bytes) (start : Nat) : Nat :=
  match (buffer.drop start).findIdx? (· == 0x3E) with
  | some i => start + i + 1
  | none => 0

namespace TagRange

/-- The ranges so far, last one first, and the start tags of the open elements. -/
structure Collector where
  ranges : List TagRange := []
  opened : List TagRange := []
deriving DecidableEq, Repr

/-- Adds the range of an event. -/
def Collector.add (buffer : Bytes) (symbols : List Xml.Symbol) (c : Collector) (e : Xml.Event) :
    Except Xml.ReadError Collector :=
  match e with
  | .opened name attributes start _ _ =>
    match tagEnd? buffer start with
    | none =>
      .error (.fault (.noTagEnd name) (Xml.Position.ofOffset symbols start).line none)
    | some stop =>
      let range : TagRange :=
        { kind := .opening, name, start, stop, attributes
          selfClosing := (buffer.take stop).drop (stop - 2) == [0x2F, 0x3E] }
      .ok ⟨range :: c.ranges, range :: c.opened⟩
  | .closed name start =>
    match c.opened with
    | [] => .ok c
    | opener :: rest =>
      let range : TagRange :=
        if opener.selfClosing then
          { kind := .closing, name, start := opener.stop, stop := opener.stop, selfClosing := true }
        else { kind := .closing, name, start, stop := closeEnd buffer start }
      .ok ⟨range :: c.ranges, rest⟩
  | .instruction _ | .declared _ => .ok c

/-- The error that reading ended with; an element out of sight has a line only. -/
def lineOnly : Xml.ReadError → Xml.ReadError
  | .fault (.noTagEnd name) line _ => .fault (.noTagEnd name) line none
  | e => e

/-- The tag ranges of a document, in the order of their events. -/
def ofDocument (buffer : Bytes) : Except Xml.ReadError (List TagRange) := do
  let reading := Xml.read buffer
  let c ← reading.events.foldlM (Collector.add buffer reading.symbols) {}
  match reading.error with
  | some e => throw (lineOnly e)
  | none => return c.ranges.reverse

end TagRange

end AccessPatch
