import AccessPatch.Proofs.Outcome
import AccessPatch.Xml.Content.Entity

/-!
# Content at another place

The state of reading content holds offsets, for reports only. `Lexer.relocate` sends each of them
through a map, and reading goes on as before:

* `Lexer.step_relocate`: a symbol that is read at one place is read at any other.
* `StartTag.resolve_relocate`: the attributes of a tag do not depend on where it stands.
* `Expansion.ofTopReference_elsewhere`: where elements may not come out of entities, a reference
  brings in instructions only, and the same ones at any place.
-/

namespace AccessPatch.Xml

/-- A character with its offset sent through `f`. -/
def Placed.relocate (f : Nat → Nat) (c : Placed) : Placed :=
  { c with pos := f c.pos }

namespace Content

variable (f : Nat → Nat)

/-! ## Offsets in the state of reading -/

def RawAttribute.relocate (a : RawAttribute) : RawAttribute :=
  { a with pos := f a.pos, value := a.value.map (Placed.relocate f) }

def StartTag.relocate (t : StartTag) : StartTag :=
  { t with attributes := t.attributes.map (RawAttribute.relocate f) }

def Token.relocate : Token → Token
  | .startTag tag empty => .startTag (tag.relocate f) empty
  | token => token

def TagLexer.relocate : TagLexer → TagLexer
  | .attributeName read pos => .attributeName read (f pos)
  | .equals name pos => .equals name (f pos)
  | .quote name pos => .quote name (f pos)
  | .value name pos mark read => .value name (f pos) mark (read.map (Placed.relocate f))
  | .valueReference name pos mark read progress =>
    .valueReference name (f pos) mark (read.map (Placed.relocate f)) progress
  | lexer => lexer

def Lexer.relocate : Lexer → Lexer
  | .text brackets cr => .text brackets (cr.map f)
  | .tag t inner => .tag (t.relocate f) (inner.relocate f)
  | .sectionOpen rest bad bytes => .sectionOpen rest (bad.map f) bytes
  | .verbatim brackets cr => .verbatim (brackets.map f) (cr.map f)
  | lexer => lexer

def Lexed.relocate (lexed : Lexed) : Lexed where
  lexer := lexed.lexer.relocate f
  token := lexed.token.map (Token.relocate f)

/-! ## Reading content at another place -/

namespace Lexer

theorem inText_relocate (brackets pos : Nat) (c : Char) :
    inText brackets (f pos) c = (inText brackets pos c).map (Lexed.relocate f) := by
  unfold inText
  split <;> try rfl
  split <;> rfl

theorem inVerbatim_relocate (brackets : List Nat) (pos : Nat) (c : Char) :
    inVerbatim (brackets.map f) (f pos) c = (inVerbatim brackets pos c).map (Lexed.relocate f) := by
  unfold inVerbatim
  split
  · rw [← List.map_take]
    rfl
  · rw [List.length_map]
    split <;> rfl
  · rfl
  · rfl

theorem reverse_relocate (t : StartTag) :
    ({ t.relocate f with attributes := (t.relocate f).attributes.reverse } : StartTag) =
      StartTag.relocate f { t with attributes := t.attributes.reverse } := by
  simp only [StartTag.relocate, List.map_reverse]

theorem afterSpace_relocate (alphabet : Alphabet) (t : StartTag) (name : Bool) (pos : Nat)
    (c : Char) :
    afterSpace alphabet (t.relocate f) name (f pos) c =
      (afterSpace alphabet t name pos c).map (Lexed.relocate f) := by
  unfold afterSpace
  split
  · rw [reverse_relocate]
    rfl
  · split
    · rfl
    · split
      · rfl
      · split <;> rfl

theorem inTag_relocate (alphabet : Alphabet) (t : StartTag) (inner : TagLexer) (pos : Nat)
    (c : Char) :
    inTag alphabet (t.relocate f) (inner.relocate f) (f pos) c =
      (inTag alphabet t inner pos c).map (Lexed.relocate f) := by
  cases inner with
  | space => exact afterSpace_relocate f alphabet t true pos c
  | valueEnd => exact afterSpace_relocate f alphabet t false pos c
  | slash =>
    simp only [TagLexer.relocate, inTag]
    split
    · rw [reverse_relocate]
      rfl
    · rfl
  | attributeName read namePos =>
    simp only [TagLexer.relocate, inTag]
    split
    · rfl
    · split
      · rfl
      · split <;> rfl
  | equals name namePos =>
    simp only [TagLexer.relocate, inTag]
    split
    · rfl
    · split <;> rfl
  | quote name namePos =>
    simp only [TagLexer.relocate, inTag]
    split
    · rfl
    · split <;> rfl
  | value name namePos quote read =>
    simp only [TagLexer.relocate, inTag]
    split
    · rw [← List.map_reverse]
      rfl
    · split
      · rfl
      · split <;> rfl
  | valueReference name namePos quote read progress =>
    simp only [TagLexer.relocate, inTag]
    split <;> rfl

theorem readChar_relocate (alphabet : Alphabet) (unit pos : Nat) (lexer : Lexer) (c : Char) :
    readChar alphabet unit (f pos) (lexer.relocate f) c =
      (readChar alphabet unit pos lexer c).map (Lexed.relocate f) := by
  cases lexer with
  | text brackets cr => exact inText_relocate f brackets pos c
  | lessThan =>
    simp only [Lexer.relocate, readChar]
    split
    · rfl
    · split
      · rfl
      · split
        · rfl
        · split <;> rfl
  | bang =>
    simp only [Lexer.relocate, readChar]
    split
    · rfl
    · split <;> rfl
  | reference progress =>
    simp only [Lexer.relocate, readChar]
    split <;> rfl
  | tagName read =>
    simp only [Lexer.relocate, readChar]
    split
    · rfl
    · exact afterSpace_relocate f alphabet ⟨nameOf read, []⟩ false pos c
  | tag t inner => exact inTag_relocate f alphabet t inner pos c
  | endTagOpen =>
    simp only [Lexer.relocate, readChar]
    split <;> rfl
  | endTagName read =>
    simp only [Lexer.relocate, readChar]
    split
    · rfl
    · split
      · rfl
      · split <;> rfl
  | endTagSpace name =>
    simp only [Lexer.relocate, readChar]
    split
    · rfl
    · split <;> rfl
  | comment state =>
    simp only [Lexer.relocate, readChar]
    split <;> rfl
  | instruction state =>
    simp only [Lexer.relocate, readChar]
    split <;> rfl
  | sectionOpen rest bad bytes => rfl
  | verbatim brackets cr => exact inVerbatim_relocate f brackets pos c

theorem inSectionOpen_relocate {rest : List Char} {bad : Option Nat} {bytes pos : Nat} {s : Symbol}
    {lexed : Lexed} (h : inSectionOpen rest bad bytes pos s = .ok lexed) :
    inSectionOpen rest (bad.map f) bytes (f pos) s = .ok (lexed.relocate f) := by
  unfold inSectionOpen at h ⊢
  simp only [Option.isSome_map] at h ⊢
  by_cases hfits : bad.isSome = true ∨
      s.glyph = (rest.head?.map Glyph.char).getD (.malformed false)
  · rw [if_pos hfits] at h ⊢
    split at h
    · cases h
      exact if_pos ‹_›
    · rw [if_neg ‹_›]
      cases bad with
      | none => cases h; rfl
      | some p => cases h
  · rw [if_neg hfits] at h ⊢
    split at h
    · cases h
      exact if_pos ‹_›
    · cases h

/-- A symbol that is read at one place is read at any other. -/
theorem step_relocate {alphabet : Alphabet} {unit pos : Nat} {lexer : Lexer} {s : Symbol}
    {lexed : Lexed} (h : lexer.step alphabet unit pos s = .ok lexed) :
    (lexer.relocate f).step alphabet unit (f pos) s = .ok (lexed.relocate f) := by
  cases hlexer : lexer with
  | sectionOpen rest bad bytes =>
    rw [hlexer] at h
    exact inSectionOpen_relocate f h
  | _ =>
    obtain ⟨glyph, width⟩ := s
    rw [hlexer] at h
    cases glyph with
    | char c =>
      have hread : readChar alphabet unit pos lexer c = .ok lexed := by
        rw [hlexer]
        exact h
      have hmoved := readChar_relocate f alphabet unit pos lexer c
      rw [hread, hlexer] at hmoved
      exact hmoved
    | _ => cases h

@[simp] theorem isText_relocate (lexer : Lexer) : (lexer.relocate f).isText = lexer.isText := by
  cases lexer <;> rfl

end Lexer

end Content

/-! ## Attribute values at another place -/

variable (f : Nat → Nat)

def ValueState.relocate (s : ValueState) : ValueState :=
  { s with reference := s.reference.map fun (progress, pos) => (progress, f pos) }

theorem ValueState.step_relocate {alphabet : Alphabet} {anyText : Bool}
    {expand : List Char → Nat → String → Except Flaw (List Char)}
    (hexpand : ∀ read pos pos' name out, expand read pos name = .ok out →
      expand read pos' name = .ok out)
    {s s' : ValueState} {c : Placed} (h : step alphabet anyText expand s c = .ok s') :
    step alphabet anyText expand (s.relocate f) (c.relocate f) = .ok (s'.relocate f) := by
  obtain ⟨read, reference, afterCr⟩ := s
  cases reference with
  | some reference =>
    obtain ⟨progress, pos⟩ := reference
    simp only [step, relocate, Option.map_some, Placed.relocate] at h ⊢
    cases hstep : progress.step alphabet c.char with
    | going progress =>
      rw [hstep] at h
      cases h
      rfl
    | unfit =>
      rw [hstep] at h
      cases h
    | done r =>
      rw [hstep] at h
      cases r with
      | character n =>
        simp only at h ⊢
        split at h
        · cases h
        · cases h
          rfl
        · cases h
          rfl
      | entity name =>
        simp only at h ⊢
        split at h
        · cases h
          rfl
        · cases hout : expand read pos name with
          | error flaw =>
            rw [hout] at h
            cases h
          | ok out =>
            rw [hout] at h
            cases h
            rw [hexpand read pos (f pos) name out hout]
            rfl
  | none =>
    simp only [step, relocate, Option.map_none, Placed.relocate] at h ⊢
    split at h <;> cases h <;> rfl

theorem ValueState.finish_relocate {s : ValueState} {read : List Char} (h : s.finish = .ok read) :
    (s.relocate f).finish = .ok read := by
  obtain ⟨cs, reference, afterCr⟩ := s
  cases reference with
  | some r => cases h
  | none => exact h

theorem Dtd.expandEntity_any_place {dtd : Dtd} {needed : Bool} {opened : List String}
    {enter : String → List Char → List Placed → Except Flaw (List Char)} {read out : List Char}
    {pos : Nat} {name : String} (h : dtd.expandEntity needed opened enter read pos name = .ok out)
    (pos' : Nat) : dtd.expandEntity needed opened enter read pos' name = .ok out := by
  unfold expandEntity at h ⊢
  split at h
  · cases h
  · cases h
  · exact h
  · split at h
    · cases h
    · exact h

namespace Dtd

variable {dtd : Dtd} {alphabet : Alphabet} {anyText : Bool} {opened : List String}

theorem readValue_relocate {needed : Bool} {depth : Nat} {read out : List Char} {text : List Placed}
    (h : dtd.readValue alphabet anyText needed depth opened read text = .ok out) :
    dtd.readValue alphabet anyText needed depth opened read (text.map (Placed.relocate f)) =
      .ok out := by
  rw [readValue.eq_def] at h ⊢
  obtain ⟨last, hlast, hfinish⟩ := bind_eq_ok_iff.mp h
  refine bind_eq_ok_iff.mpr ⟨last.relocate f, ?_, ValueState.finish_relocate f hfinish⟩
  refine foldlM_map_eq_ok (g := ValueState.relocate f) (k := Placed.relocate f) ?_ hlast
  intro s c s' hstep
  refine ValueState.step_relocate f ?_ hstep
  intro read pos pos' name out hout
  exact expandEntity_any_place hout pos'

theorem expandValue_relocate {text : List Placed} {value : String}
    (h : dtd.expandValue alphabet anyText opened text = .ok value) :
    dtd.expandValue alphabet anyText opened (text.map (Placed.relocate f)) = .ok value := by
  obtain ⟨read, hread, hvalue⟩ := bind_eq_ok_iff.mp h
  exact bind_eq_ok_iff.mpr ⟨read, readValue_relocate f hread, hvalue⟩

end Dtd

namespace Content

/-- The attributes of a tag do not depend on where it stands. -/
theorem StartTag.resolve_relocate {tag : StartTag} {dtd : Dtd} {alphabet : Alphabet}
    {opened : List String} {attributes : List (String × String)}
    (h : tag.resolve dtd alphabet opened = .ok attributes) :
    (tag.relocate f).resolve dtd alphabet opened = .ok attributes := by
  obtain ⟨given, hgiven, hall⟩ := bind_eq_ok_iff.mp h
  refine bind_eq_ok_iff.mpr ⟨given, ?_, hall⟩
  refine foldlM_map_eq_ok (g := id) (fun given a given' hstep => ?_) hgiven
  simp only [id_eq, RawAttribute.relocate] at hstep ⊢
  split at hstep
  · cases hstep
  · rename_i hnew
    refine (if_neg hnew).trans ?_
    obtain ⟨value, hvalue, hgiven'⟩ := bind_eq_ok_iff.mp hstep
    exact bind_eq_ok_iff.mpr ⟨value, Dtd.expandValue_relocate f hvalue, hgiven'⟩

/-! ## References that bring in no elements -/

/-- The events name targets of instructions and no elements. -/
def OnlyInstructions (events : List Event) : Prop :=
  ∀ e ∈ events, ∃ target, e = .instruction target

theorem OnlyInstructions.append {es es' : List Event} (h : OnlyInstructions es)
    (h' : OnlyInstructions es') : OnlyInstructions (es ++ es') :=
  fun e he => (List.mem_append.mp he).elim (h e) (h' e)

theorem onlyInstructions_nil : OnlyInstructions [] := by
  intro e he
  cases he

namespace Expansion

/-- Another place, and another rule about elements. -/
def elsewhere (x : Expansion) (pos : Nat) (admitsTags : Bool) : Expansion :=
  { x with pos, admitsTags }

/-- No element is open in the text of an entity, and none has been. -/
structure Flat (s : State) : Prop where
  stack : s.stack = []
  events : OnlyInstructions s.events

variable {x : Expansion} {opened : List String}
  {read read' : String → List Char → Except Fault (List Event)}

theorem ofReference_elsewhere (pos : Nat) (admitsTags : Bool)
    (hread : ∀ name text es, read name text = .ok es → OnlyInstructions es ∧
      read' name text = .ok es)
    {r : Reference} {es : List Event} (h : x.ofReference opened read r = .ok es) :
    OnlyInstructions es ∧ (x.elsewhere pos admitsTags).ofReference opened read' r = .ok es := by
  cases r with
  | character n =>
    simp only [ofReference] at h ⊢
    split at h
    · rw [if_pos ‹_›]
      cases h
      exact ⟨onlyInstructions_nil, rfl⟩
    · cases h
  | entity name =>
    simp only [ofReference, elsewhere] at h ⊢
    split at h
    · rw [if_pos ‹_›]
      cases h
      exact ⟨onlyInstructions_nil, rfl⟩
    · rename_i hname
      rw [if_neg hname]
      split at h
      · cases h
      · cases h
        exact ⟨onlyInstructions_nil, rfl⟩
      · split at h
        · cases h
          exact ⟨onlyInstructions_nil, rfl⟩
        · exact hread _ _ _ h

theorem act_elsewhere (hx : x.admitsTags = false) (pos : Nat) (admitsTags : Bool)
    (hread : ∀ name text es, read name text = .ok es → OnlyInstructions es ∧
      read' name text = .ok es)
    {s s' : State} {token : Token} (hs : Flat s) (h : x.act opened read s token = .ok s') :
    Flat s' ∧ (x.elsewhere pos admitsTags).act opened read' s token = .ok s' := by
  cases token with
  | startTag tag empty =>
    simp only [act] at h
    split at h
    · cases h
    · simp [openElement, hx] at h
  | endTag name =>
    simp [act, closeElement, hs.stack] at h
  | instruction target =>
    simp only [act] at h ⊢
    split at h
    · cases h
    · rename_i htarget
      rw [if_neg htarget]
      cases h
      refine ⟨⟨hs.stack, fun e he => ?_⟩, rfl⟩
      rcases List.mem_cons.mp he with rfl | he
      · exact ⟨target, rfl⟩
      · exact hs.events e he
  | reference r =>
    obtain ⟨es, hes, rfl⟩ := map_eq_ok_iff.mp h
    obtain ⟨honly, helse⟩ := ofReference_elsewhere pos admitsTags hread hes
    exact ⟨⟨hs.stack, honly.append hs.events⟩, map_eq_ok_iff.mpr ⟨es, helse, rfl⟩⟩

theorem finish_flat {s : State} (hs : Flat s) {es : List Event} (h : finish s = .ok es) :
    OnlyInstructions es := by
  unfold finish at h
  split at h
  · cases h
  · split at h
    · cases h
      exact hs.events
    · cases h

/-- Reads one symbol of the text of an entity. -/
def readSymbol (x : Expansion) (opened : List String)
    (read : String → List Char → Except Fault (List Event)) (s : State) (symbol : Symbol) :
    Except Fault State :=
  match s.lexer.step x.alphabet 1 0 symbol with
  | .error flaw => .error flaw.fault
  | .ok lexed =>
    match lexed.token with
    | none => .ok { s with lexer := lexed.lexer }
    | some token => x.act opened read { s with lexer := lexed.lexer } token

/-- What is read for an entity that is opened in the text of others, `depth` deep at most. -/
def readInner (x : Expansion) (depth : Nat) (opened : List String) (name : String)
    (text : List Char) :
    Except Fault (List Event) :=
  match depth with
  | 0 => .error .recursiveEntity
  | depth + 1 => x.readText depth (name :: opened) text

theorem readText_eq (x : Expansion) (depth : Nat) (opened : List String) (text : List Char) :
    x.readText depth opened text =
      (symbolsOf text).foldlM (x.readSymbol opened (x.readInner depth opened)) {} >>= finish := by
  rw [readText.eq_def]
  rfl

theorem readSymbol_elsewhere (hx : x.admitsTags = false) (pos : Nat) (admitsTags : Bool)
    (hread : ∀ name text es, read name text = .ok es → OnlyInstructions es ∧
      read' name text = .ok es)
    {s s' : State} {symbol : Symbol} (hs : Flat s)
    (h : x.readSymbol opened read s symbol = .ok s') :
    Flat s' ∧ (x.elsewhere pos admitsTags).readSymbol opened read' s symbol = .ok s' := by
  unfold readSymbol at h ⊢
  simp only [elsewhere] at h ⊢
  split at h
  · cases h
  · split at h
    · cases h
      exact ⟨⟨hs.stack, hs.events⟩, rfl⟩
    · exact act_elsewhere hx pos admitsTags hread ⟨hs.stack, hs.events⟩ h

/-- The text of an entity, given what may be opened in it. -/
theorem readText_elsewhere_of_inner (hx : x.admitsTags = false) (pos : Nat) (admitsTags : Bool)
    {depth : Nat} (hinner : ∀ name text es, x.readInner depth opened name text = .ok es →
      OnlyInstructions es ∧ (x.elsewhere pos admitsTags).readInner depth opened name text = .ok es)
    {text : List Char} {es : List Event} (h : x.readText depth opened text = .ok es) :
    OnlyInstructions es ∧ (x.elsewhere pos admitsTags).readText depth opened text = .ok es := by
  rw [readText_eq] at h ⊢
  obtain ⟨last, hlast, hfinish⟩ := bind_eq_ok_iff.mp h
  obtain ⟨last', hlast', hflat, rfl⟩ := foldlM_simulates (k := id)
    (f := (x.elsewhere pos admitsTags).readSymbol opened
      ((x.elsewhere pos admitsTags).readInner depth opened))
    (R := fun s t => Flat s ∧ t = s)
    (by
      rintro s _ symbol s' ⟨hs, rfl⟩ hstep
      obtain ⟨hflat, hstep'⟩ := readSymbol_elsewhere hx pos admitsTags hinner hs hstep
      exact ⟨s', hstep', hflat, rfl⟩)
    hlast ⟨⟨rfl, onlyInstructions_nil⟩, rfl⟩
  rw [List.map_id] at hlast'
  exact ⟨finish_flat hflat hfinish, bind_eq_ok_iff.mpr ⟨last', hlast', hfinish⟩⟩

theorem readText_elsewhere (hx : x.admitsTags = false) (pos : Nat) (admitsTags : Bool) {depth : Nat}
    {opened : List String} {text : List Char} {es : List Event}
    (h : x.readText depth opened text = .ok es) :
    OnlyInstructions es ∧ (x.elsewhere pos admitsTags).readText depth opened text = .ok es := by
  -- The induction is on how deep entities may still be opened.
  induction depth generalizing opened text es with
  | zero =>
    refine readText_elsewhere_of_inner hx pos admitsTags ?_ h
    intro name text es hes
    cases hes
  | succ depth ih =>
    refine readText_elsewhere_of_inner hx pos admitsTags ?_ h
    intro name text es hes
    exact ih hes

/-- Where elements may not come out of entities, a reference brings in instructions only, and the
same ones at another place and under another rule. -/
theorem ofTopReference_elsewhere (hx : x.admitsTags = false) (pos : Nat) (admitsTags : Bool)
    {r : Reference} {es : List Event} (h : x.ofTopReference r = .ok es) :
    OnlyInstructions es ∧ (x.elsewhere pos admitsTags).ofTopReference r = .ok es :=
  ofReference_elsewhere pos admitsTags (fun _ _ _ hes => readText_elsewhere hx pos admitsTags hes) h

end Expansion

end Content

end AccessPatch.Xml
