import AccessPatch.Proofs.Xml.Relocation
import AccessPatch.Xml.Prolog.Token

/-!
# Declarations at another place

Outside the root element too the state of reading holds offsets, for reports only:
`Lexer.relocate` sends each of them through a map, and what a character leads to goes along
(`Lexer.readChar_relocate`).
-/

namespace AccessPatch.Xml.Prolog

variable (f : Nat → Nat)

def Token.relocate : Token → Token
  | .literal text => .literal (text.map (Placed.relocate f))
  | token => token

def Lexer.relocate : Lexer → Lexer
  | .keywordPercent read pos => .keywordPercent read (f pos)
  | .literal mark read => .literal mark (read.map (Placed.relocate f))
  | .literalEnd read => .literalEnd (read.map (Placed.relocate f))
  | .twoBrackets second => .twoBrackets (f second)
  | lexer => lexer

namespace Lexed

def relocate (lexed : Lexed) : Lexed where
  tokens := lexed.tokens.map fun (start, token) => (f start, token.relocate f)
  next := lexed.next.map fun (lexer, mark) => (lexer.relocate f, f mark)

theorem relocate_after (start : Nat) (token : Token) (lexed : Lexed) :
    (lexed.after start token).relocate f = (lexed.relocate f).after (f start) (token.relocate f) :=
      rfl

end Lexed

namespace Lexer

variable (alphabet : Alphabet) (start pos : Nat) (c : Char)

theorem first_relocate : first alphabet (f pos) c = (first alphabet pos c).relocate f := by
  unfold first
  split <;> try rfl
  split
  · rfl
  · split
    · rfl
    · split <;> rfl

theorem afterLessThan_relocate :
    afterLessThan alphabet (f start) c = (afterLessThan alphabet start c).relocate f := by
  unfold afterLessThan
  split <;> try rfl
  split <;> rfl

theorem afterPercent_relocate :
    afterPercent alphabet (f start) (f pos) c = (afterPercent alphabet start pos c).relocate f := by
  unfold afterPercent
  split
  · rfl
  · split
    · rw [first_relocate]
      rfl
    · rfl

theorem nameToken_relocate (proper : Bool) (read : List Char) :
    (nameToken proper read).relocate f = nameToken proper read := by
  cases proper <;> rfl

/-- A character that is read at one place is read at any other. -/
theorem readChar_relocate {lexer : Lexer} {next : Lexer × Nat}
    (h : (readChar alphabet start pos lexer c).next = .ok next) :
    readChar alphabet (f start) (f pos) (lexer.relocate f) c =
      (readChar alphabet start pos lexer c).relocate f := by
  have hfirst := first_relocate f alphabet pos c
  cases lexer with
  | idle => exact hfirst
  | lessThan => exact afterLessThan_relocate f alphabet start c
  | bang =>
    simp only [Lexer.relocate, readChar]
    split <;> try rfl
    split <;> rfl
  | keyword read =>
    simp only [Lexer.relocate, readChar, hfirst]
    split
    · rfl
    · split
      · rfl
      · split <;> rfl
  | keywordPercent read percentPos =>
    simp only [Lexer.relocate, readChar, afterPercent_relocate] at h ⊢
    split at h
    · cases h
    · rename_i hspace
      rw [if_neg hspace, if_neg hspace]
      rfl
  | comment state =>
    simp only [Lexer.relocate, readChar]
    split <;> rfl
  | instruction state =>
    simp only [Lexer.relocate, readChar]
    split <;> rfl
  | literal mark read =>
    simp only [Lexer.relocate, readChar]
    split <;> rfl
  | literalEnd read =>
    simp only [Lexer.relocate, readChar, hfirst, ← List.map_reverse]
    split <;> rfl
  | percent => exact afterPercent_relocate f alphabet start pos c
  | parameterName =>
    simp only [Lexer.relocate, readChar]
    split
    · rfl
    · split <;> rfl
  | hash =>
    simp only [Lexer.relocate, readChar]
    split <;> rfl
  | hashName read =>
    simp only [Lexer.relocate, readChar, hfirst]
    split
    · rfl
    · split <;> rfl
  | name proper read =>
    simp only [Lexer.relocate, readChar, hfirst]
    split
    · rfl
    · split
      · rw [Lexed.relocate_after, nameToken_relocate]
      · split
        · split <;> rfl
        · rfl
  | closeParen =>
    simp only [Lexer.relocate, readChar, hfirst]
    split
    · rfl
    · split <;> rfl
  | closeBracket =>
    simp only [Lexer.relocate, readChar, hfirst]
    split <;> rfl
  | twoBrackets second =>
    simp only [Lexer.relocate, readChar, hfirst]
    split <;> rfl

end Lexer

end AccessPatch.Xml.Prolog
