import AccessPatch.Xml.Fault
import AccessPatch.Xml.Name
import AccessPatch.Xml.Symbol

/-!
# Comments and instructions

The markup that may stand almost anywhere and says nothing about elements. Both are read one
character at a time, from the character after `<!-` or `<?` on.
-/

namespace AccessPatch.Xml

/-- A comment under way. -/
inductive Comment where
  /-- One hyphen has been read. -/
  | opening
  | body
  /-- A hyphen has been read that may end the comment. -/
  | hyphen
  | twoHyphens
deriving DecidableEq, Repr

namespace Comment

/-- Reads one character; no state is left after the last. -/
def step (c : Comment) (d : Char) : Except Flaw (Option Comment) :=
  match c, d with
  | opening, '-' => .ok body
  | opening, _ => .error .unexpected
  | twoHyphens, '>' => .ok none
  | twoHyphens, _ => .error .unexpected
  | hyphen, '-' => .ok twoHyphens
  | _, d => .ok (some (if d = '-' then hyphen else body))

/-- The flaw of a symbol that is no character. -/
def unreadable (c : Comment) (cutOff : Bool) : Flaw :=
  match c with
  | opening | twoHyphens => .unexpected
  | _ => .unreadable cutOff

end Comment

/-- An instruction under way. The target is read in reverse. -/
inductive Instruction where
  | opening
  | target (read : List Char)
  /-- A question mark stands right after the target. -/
  | targetMark (name : String)
  | body (name : String)
  /-- A question mark has been read that may end the instruction. -/
  | mark (name : String)
deriving DecidableEq, Repr

namespace Instruction

/-- The target that makes an instruction a declaration. -/
def declarationTarget : String := "xml"

/-- The target that has been read, unless it is that of a declaration in another case, which is
reserved. -/
def target? (read : List Char) : Option String :=
  let name := String.ofList read.reverse
  if name ≠ declarationTarget ∧ name.map Char.toLower = declarationTarget then none else some name

/-- The outcome of one more symbol. -/
inductive Step where
  | going (i : Instruction)
  /-- The instruction has ended. -/
  | done (name : String)
deriving DecidableEq, Repr

/-- Reads one character. -/
def step (alphabet : Alphabet) (i : Instruction) (c : Char) : Except Flaw Step :=
  match i with
  | opening => if alphabet.isNameStart c then .ok (.going (target [c])) else .error .unexpected
  | target read =>
    if alphabet.isNameChar c then .ok (.going (target (c :: read)))
    else if isSpace c || c == '?' then
      match target? read with
      | none => .error .unexpected
      | some name => .ok (.going (if c = '?' then targetMark name else body name))
    else .error .unexpected
  | targetMark name => if c = '>' then .ok (.done name) else .error .unexpected
  | body name => .ok (.going (if c = '?' then mark name else body name))
  | mark name =>
    if c = '>' then .ok (.done name)
    else .ok (.going (if c = '?' then mark name else body name))

/-- The flaw of a symbol that is no character. -/
def unreadable (i : Instruction) (cutOff : Bool) : Flaw :=
  match i with
  | targetMark _ => .unexpected
  | _ => .unreadable cutOff

end Instruction

end AccessPatch.Xml
