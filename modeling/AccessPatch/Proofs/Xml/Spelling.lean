import AccessPatch.Xml.Content.Token

/-!
# How tags are spelled

A tag that a reader accepts begins with `<`, ends with `>`, and has its name right after the
beginning. `Spells` ties the state within a tag to what has been read of it, and `spells_step`
keeps it over one character and says what a complete tag looks like:

* `StartSpelled`: no `>` stands in a start tag outside quotes but the last one, and a slash stands
  before that in an empty-element tag only.
* `EndSpelled`: an end tag is its name and white space between the marks.

`loose_step` is the counterpart for the states outside tags.
-/

namespace AccessPatch.Xml

/-! ## Names -/

/-- A name: a character that begins one, and characters of a name after it. -/
def IsName (alphabet : Alphabet) (cs : List Char) : Prop :=
  ∃ c rest, cs = c :: rest ∧ alphabet.isNameStart c = true ∧
    ∀ d ∈ rest, alphabet.isNameChar d = true

theorem isNameChar_of_isNameStart {alphabet : Alphabet} {c : Char}
    (h : alphabet.isNameStart c = true) : alphabet.isNameChar c = true := by
  simp [Alphabet.isNameChar, h]

theorem isName_singleton {alphabet : Alphabet} {c : Char} (h : alphabet.isNameStart c = true) :
    IsName alphabet [c] :=
  ⟨c, [], rfl, h, by simp⟩

theorem IsName.concat {alphabet : Alphabet} {cs : List Char} {c : Char} (h : IsName alphabet cs)
    (hc : alphabet.isNameChar c = true) : IsName alphabet (cs ++ [c]) := by
  obtain ⟨d, rest, rfl, hd, hrest⟩ := h
  refine ⟨d, rest ++ [c], rfl, hd, ?_⟩
  intro e he
  rcases List.mem_append.mp he with he | he
  · exact hrest e he
  · rw [List.mem_singleton.mp he]
    exact hc

theorem IsName.ne_nil {alphabet : Alphabet} {cs : List Char} (h : IsName alphabet cs) :
    cs ≠ [] := by
  obtain ⟨c, rest, rfl, -⟩ := h
  simp

theorem IsName.isNameChar {alphabet : Alphabet} {cs : List Char} (h : IsName alphabet cs) {c : Char}
    (hc : c ∈ cs) : alphabet.isNameChar c = true := by
  obtain ⟨d, rest, rfl, hd, hrest⟩ := h
  rcases List.mem_cons.mp hc with rfl | hc
  · exact isNameChar_of_isNameStart hd
  · exact hrest c hc

theorem not_isNameChar_of_isSpace {alphabet : Alphabet} {c : Char} (h : isSpace c = true) :
    alphabet.isNameChar c = false := by
  cases hc : alphabet.isNameChar c with
  | false => rfl
  | true =>
    simp only [isSpace, Bool.or_eq_true, beq_iff_eq] at h
    rcases h with ((rfl | rfl) | rfl) | rfl <;> cases hc

/-! ## Quotes -/

/-- A mark that begins a quotation in a tag. -/
def IsMark (c : Char) : Prop := c = '"' ∨ c = '\''

/-- The quotation under way after one more character of a tag, by the mark that ends it; none if the
tag ends. -/
def quoteAfter (quote : Option Char) (c : Char) : Option (Option Char) :=
  match quote with
  | some mark => some (if c = mark then none else some mark)
  | none => if c = '>' then none else if c = '"' ∨ c = '\'' then some (some c) else some none

/-- The quotation under way after some characters of a tag. -/
def quotesAfter (quote : Option Char) (cs : List Char) : Option (Option Char) :=
  cs.foldlM quoteAfter quote

theorem quotesAfter_append {quote next : Option Char} {cs ds : List Char}
    (h : quotesAfter quote cs = some next) :
    quotesAfter quote (cs ++ ds) = quotesAfter next ds := by
  rw [quotesAfter, List.foldlM_append]
  exact congrArg (· >>= fun q => quotesAfter q ds) h

theorem quotesAfter_concat {quote next next' : Option Char} {cs : List Char} {c : Char}
    (h : quotesAfter quote cs = some next) (hc : quoteAfter next c = some next') :
    quotesAfter quote (cs ++ [c]) = some next' := by
  rw [quotesAfter_append h, quotesAfter, List.foldlM_cons, hc]
  rfl

/-- A character that neither ends a tag nor begins a quotation. -/
def IsPlain (c : Char) : Prop := c ≠ '>' ∧ c ≠ '"' ∧ c ≠ '\''

theorem IsPlain.quoteAfter {c : Char} (h : IsPlain c) : quoteAfter none c = some none := by
  simp [Xml.quoteAfter, h.1, h.2.1, h.2.2]

theorem quotesAfter_plain {cs : List Char} (h : ∀ c ∈ cs, IsPlain c) :
    quotesAfter none cs = some none := by
  induction cs with
  | nil => rfl
  | cons c cs ih =>
    rw [quotesAfter, List.foldlM_cons, (h c List.mem_cons_self).quoteAfter]
    exact ih fun d hd => h d (List.mem_cons_of_mem _ hd)

theorem isPlain_of_isNameChar {alphabet : Alphabet} {c : Char} (h : alphabet.isNameChar c = true) :
    IsPlain c := by
  refine ⟨?_, ?_, ?_⟩
  all_goals
    rintro rfl
    cases h

theorem isPlain_of_progress {alphabet : Alphabet} {progress : Reference.Progress} {c : Char}
    (h : progress.step alphabet c ≠ .unfit) : IsPlain c := by
  refine ⟨?_, ?_, ?_⟩
  all_goals
    rintro rfl
    exact h (by cases progress <;> rfl)

theorem ne_slash_of_isNameChar {alphabet : Alphabet} {c : Char} (h : alphabet.isNameChar c = true) :
    c ≠ '/' := by
  rintro rfl
  cases h

theorem isPlain_of_isSpace {c : Char} (h : isSpace c = true) : IsPlain c := by
  refine ⟨?_, ?_, ?_⟩
  all_goals
    rintro rfl
    cases h

theorem ne_slash_of_isSpace {c : Char} (h : isSpace c = true) : c ≠ '/' := by
  rintro rfl
  cases h

/-! ## Complete tags -/

/-- The text of a start tag. -/
structure StartSpelled (alphabet : Alphabet) (name : String) (empty : Bool)
    (text : List Char) : Prop where
  named : IsName alphabet name.toList
  rest : ∃ more, text = '<' :: (name.toList ++ more) ++ ['>'] ∧ quotesAfter none more = some none ∧
    (empty = true ↔ more.getLast? = some '/')

/-- The text of an end tag. -/
structure EndSpelled (alphabet : Alphabet) (name : String) (text : List Char) : Prop where
  named : IsName alphabet name.toList
  rest : ∃ space, text = '<' :: '/' :: (name.toList ++ space) ++ ['>'] ∧
    ∀ c ∈ space, isSpace c = true

namespace Content

/-! ## Tags under way -/

/-- The quotation in which the part of a start tag under way stands. -/
def TagLexer.quotation : TagLexer → Option Char
  | .value _ _ mark _ | .valueReference _ _ mark _ _ => some mark
  | _ => none

/-- The text of a start tag so far. A slash that may end an empty-element tag is the last
character. -/
structure SpellsTag (alphabet : Alphabet) (t : StartTag) (inner : TagLexer)
    (text : List Char) : Prop where
  named : IsName alphabet t.name.toList
  rest : ∃ more, text = '<' :: (t.name.toList ++ more) ∧
    quotesAfter none more = some inner.quotation ∧
    (inner = .slash → more.getLast? = some '/') ∧
    (inner = .space ∨ inner = .valueEnd → more.getLast? ≠ some '/')
  mark : ∀ mark, inner.quotation = some mark → IsMark mark

/-- What has been read of a tag, by the state within it. -/
def Spells (alphabet : Alphabet) : Lexer → List Char → Prop
  | .lessThan, text => text = ['<']
  | .tagName read, text => IsName alphabet read.reverse ∧ text = '<' :: read.reverse
  | .tag t inner, text => SpellsTag alphabet t inner text
  | .endTagOpen, text => text = ['<', '/']
  | .endTagName read, text => IsName alphabet read.reverse ∧ text = '<' :: '/' :: read.reverse
  | .endTagSpace name, text => IsName alphabet name.toList ∧
      ∃ space, text = '<' :: '/' :: (name.toList ++ space) ∧ ∀ c ∈ space, isSpace c = true
  | _, _ => False

/-- No tag is under way. -/
def Lexer.isLoose : Lexer → Bool
  | .text _ _ | .bang | .reference _ | .comment _ | .instruction _ | .sectionOpen _ _ _
  | .verbatim _ _ => true
  | _ => false

/-- What one more character of a tag leads to from a state, where `text` is the tag with that
character. An empty-element tag ends after a slash only. -/
inductive Outcome (alphabet : Alphabet) (lexer : Lexer) (text : List Char)
    (lexed : Lexed) : Prop where
  | going (token : lexed.token = none) (spells : Spells alphabet lexed.lexer text)
  /-- What begins with `<` is no tag. -/
  | loose (token : lexed.token = none) (lexer : lexed.lexer.isLoose = true)
  | startTag (tag : StartTag) (empty : Bool)
      (lexed_eq : lexed = ⟨.idle, some (.startTag tag empty)⟩)
      (spelled : StartSpelled alphabet tag.name empty text)
      (slash : empty = true → ∃ t, lexer = .tag t .slash ∧
        tag = { t with attributes := t.attributes.reverse })
  | endTag (name : String) (lexed_eq : lexed = ⟨.idle, some (.endTag name)⟩)
      (spelled : EndSpelled alphabet name text)

variable {alphabet : Alphabet} {unit pos : Nat} {c : Char} {lexed : Lexed}

theorem afterSpace_outcome {lexer : Lexer} {t : StartTag} {name : Bool} {more : List Char}
    (hname : IsName alphabet t.name.toList) (hquotes : quotesAfter none more = some none)
    (hlast : more.getLast? ≠ some '/')
    (h : Lexer.afterSpace alphabet t name pos c = .ok lexed) :
    Outcome alphabet lexer ('<' :: (t.name.toList ++ more) ++ [c]) lexed := by
  have hgoing : ∀ inner, IsPlain c → inner.quotation = none → (inner = .slash → c = '/') →
      (inner = .space ∨ inner = .valueEnd → c ≠ '/') →
      SpellsTag alphabet t inner ('<' :: (t.name.toList ++ more) ++ [c]) := by
    intro inner hplain hquotation hslash hother
    refine ⟨hname, ⟨more ++ [c], by simp, ?_, ?_, ?_⟩, by simp [hquotation]⟩
    · rw [hquotation]
      exact quotesAfter_concat hquotes hplain.quoteAfter
    · intro hinner
      simp [hslash hinner]
    · intro hinner
      simpa using hother hinner
  unfold Lexer.afterSpace at h
  split at h
  · rename_i hc
    cases h
    refine .startTag _ _ rfl ⟨hname, more, by simp [hc], hquotes, ?_⟩ (by simp)
    simpa using hlast
  · split at h
    · rename_i hc
      cases h
      refine .going rfl (hgoing .slash ?_ rfl (fun _ => hc) (by simp))
      rw [hc]
      exact ⟨by decide, by decide, by decide⟩
    · split at h
      · rename_i hc
        cases h
        exact .going rfl (hgoing .space (isPlain_of_isSpace hc) rfl (by simp)
          fun _ => ne_slash_of_isSpace hc)
      · split at h
        · rename_i hc
          cases h
          refine .going rfl (hgoing _ ?_ rfl (by simp) (by simp))
          exact isPlain_of_isNameChar (isNameChar_of_isNameStart hc.2)
        · cases h

/-- One more character after which the tag may not end. -/
theorem SpellsTag.going {t t' : StartTag} {inner next : TagLexer} {text : List Char}
    (hspells : SpellsTag alphabet t inner text) (hnames : t'.name = t.name)
    (hquote : quoteAfter inner.quotation c = some next.quotation) (hnoSlash : next ≠ .slash)
    (hnoSpace : next ≠ .space) (hend : next = .valueEnd → c ≠ '/')
    (hmark : ∀ mark, next.quotation = some mark → IsMark mark) :
    Outcome alphabet (.tag t inner) (text ++ [c]) ⟨.tag t' next, none⟩ := by
  obtain ⟨hname, ⟨more, rfl, hquotes, -, -⟩, -⟩ := hspells
  refine .going rfl ⟨hnames ▸ hname, ⟨more ++ [c], by simp [hnames], ?_, ?_, ?_⟩, hmark⟩
  · exact quotesAfter_concat hquotes hquote
  · exact fun hnext => absurd hnext hnoSlash
  · rintro (hnext | hnext)
    · exact absurd hnext hnoSpace
    · simpa using hend hnext

/-- One more character of an attribute's name or of what stands between it and its value. -/
theorem SpellsTag.going_plain {t : StartTag} {inner next : TagLexer} {text : List Char}
    (hspells : SpellsTag alphabet t inner text) (hinner : inner.quotation = none) (hc : IsPlain c)
    (hnext : next.quotation = none) (hother : next ≠ .slash ∧ next ≠ .space ∧ next ≠ .valueEnd) :
    Outcome alphabet (.tag t inner) (text ++ [c]) ⟨.tag t next, none⟩ := by
  refine hspells.going rfl ?_ hother.1 hother.2.1 (fun hend => absurd hend hother.2.2) ?_
  · rw [hinner, hnext, hc.quoteAfter]
  · rw [hnext]
    rintro mark ⟨⟩

/-- One more character of an attribute's value, which goes on after it. -/
theorem SpellsTag.going_quoted {t : StartTag} {inner next : TagLexer} {text : List Char}
    {mark : Char} (hspells : SpellsTag alphabet t inner text) (hinner : inner.quotation = some mark)
    (hc : c ≠ mark) (hnext : next.quotation = some mark) :
    Outcome alphabet (.tag t inner) (text ++ [c]) ⟨.tag t next, none⟩ := by
  have hother : next ≠ .slash ∧ next ≠ .space ∧ next ≠ .valueEnd := by
    refine ⟨?_, ?_, ?_⟩ <;> rintro rfl <;> cases hnext
  refine hspells.going rfl ?_ hother.1 hother.2.1 (fun hend => absurd hend hother.2.2) ?_
  · rw [hinner, hnext, quoteAfter, if_neg hc]
  · rw [hnext, ← hinner]
    exact hspells.mark

theorem isPlain_equals : IsPlain '=' := by
  unfold IsPlain
  decide

theorem inTag_outcome {t : StartTag} {inner : TagLexer} {text : List Char}
    (hspells : SpellsTag alphabet t inner text)
    (h : Lexer.inTag alphabet t inner pos c = .ok lexed) :
    Outcome alphabet (.tag t inner) (text ++ [c]) lexed := by
  cases inner with
  | space =>
    obtain ⟨hname, ⟨more, rfl, hquotes, -, hlast⟩, -⟩ := hspells
    exact afterSpace_outcome hname hquotes (hlast (.inl rfl)) h
  | valueEnd =>
    obtain ⟨hname, ⟨more, rfl, hquotes, -, hlast⟩, -⟩ := hspells
    exact afterSpace_outcome hname hquotes (hlast (.inr rfl)) h
  | slash =>
    obtain ⟨hname, ⟨more, rfl, hquotes, hslash, -⟩, -⟩ := hspells
    simp only [Lexer.inTag] at h
    split at h
    · rename_i hc
      cases h
      exact .startTag _ _ rfl ⟨hname, more, by simp [hc], hquotes, by simp [hslash rfl]⟩
        fun _ => ⟨t, rfl, rfl⟩
    · cases h
  | attributeName read namePos =>
    simp only [Lexer.inTag] at h
    split at h
    · rename_i hc
      cases h
      exact hspells.going_plain rfl (isPlain_of_isNameChar hc) rfl (by simp)
    · split at h
      · rename_i hc
        cases h
        exact hspells.going_plain rfl (isPlain_of_isSpace hc) rfl (by simp)
      · split at h
        · rename_i hc
          cases h
          exact hspells.going_plain rfl (hc ▸ isPlain_equals) rfl (by simp)
        · cases h
  | equals name namePos =>
    simp only [Lexer.inTag] at h
    split at h
    · rename_i hc
      cases h
      exact hspells.going_plain rfl (hc ▸ isPlain_equals) rfl (by simp)
    · split at h
      · rename_i hc
        cases h
        exact hspells.going_plain rfl (isPlain_of_isSpace hc) rfl (by simp)
      · cases h
  | quote name namePos =>
    simp only [Lexer.inTag] at h
    split at h
    · rename_i hc
      cases h
      refine hspells.going rfl ?_ (by simp) (by simp) (by simp) ?_
      · rcases hc with rfl | rfl <;> rfl
      · intro mark hmark
        cases hmark
        exact hc
    · split at h
      · rename_i hc
        cases h
        exact hspells.going_plain rfl (isPlain_of_isSpace hc) rfl (by simp)
      · cases h
  | value name namePos mark read =>
    simp only [Lexer.inTag] at h
    split at h
    · rename_i hc
      cases h
      refine hspells.going rfl ?_ (by simp) (by simp) (fun _ => ?_) (by rintro mark ⟨⟩)
      · rw [TagLexer.quotation, quoteAfter, if_pos hc]
        rfl
      · rcases hspells.mark mark rfl with hm | hm <;> simp [hc, hm]
    · rename_i hc
      split at h
      · cases h
        exact hspells.going_quoted rfl hc rfl
      · split at h
        · cases h
        · cases h
          exact hspells.going_quoted rfl hc rfl
  | valueReference name namePos mark read progress =>
    have hne : progress.step alphabet c ≠ .unfit → c ≠ mark := by
      intro hstep hc
      obtain ⟨-, hdouble, hsingle⟩ := isPlain_of_progress hstep
      rcases hspells.mark mark rfl with hm | hm
      · exact hdouble (hc.trans hm)
      · exact hsingle (hc.trans hm)
    simp only [Lexer.inTag] at h
    split at h
    · rename_i hstep
      cases h
      exact hspells.going_quoted rfl (hne (by simp [hstep])) rfl
    · rename_i hstep
      cases h
      exact hspells.going_quoted rfl (hne (by simp [hstep])) rfl
    · cases h

/-- One more character of a tag. -/
theorem spells_step {lexer : Lexer} {text : List Char} (hspells : Spells alphabet lexer text)
    (h : Lexer.readChar alphabet unit pos lexer c = .ok lexed) :
    Outcome alphabet lexer (text ++ [c]) lexed := by
  cases lexer with
  | lessThan =>
    obtain rfl : text = ['<'] := hspells
    simp only [Lexer.readChar] at h
    split at h
    · rename_i hc
      cases h
      exact .going rfl ⟨isName_singleton hc, rfl⟩
    · split at h
      · cases h
        exact .loose rfl rfl
      · split at h
        · cases h
          exact .loose rfl rfl
        · split at h
          · rename_i hc
            cases h
            exact .going rfl (hc ▸ rfl)
          · cases h
  | tagName read =>
    obtain ⟨hname, rfl⟩ := hspells
    simp only [Lexer.readChar] at h
    split at h
    · rename_i hc
      cases h
      refine .going rfl ⟨?_, by simp⟩
      rw [List.reverse_cons]
      exact hname.concat hc
    · have hname' : IsName alphabet (Lexer.nameOf read).toList := by
        simpa [Lexer.nameOf] using hname
      have hempty : ([] : List Char).getLast? ≠ some '/' := by simp
      simpa [Lexer.nameOf] using
        afterSpace_outcome (t := ⟨Lexer.nameOf read, []⟩) hname' rfl hempty h
  | tag t inner => exact inTag_outcome hspells h
  | endTagOpen =>
    obtain rfl : text = ['<', '/'] := hspells
    simp only [Lexer.readChar] at h
    split at h
    · rename_i hc
      cases h
      exact .going rfl ⟨isName_singleton hc, rfl⟩
    · cases h
  | endTagName read =>
    obtain ⟨hname, rfl⟩ := hspells
    have hname' : IsName alphabet (Lexer.nameOf read).toList := by simpa [Lexer.nameOf] using hname
    simp only [Lexer.readChar] at h
    split at h
    · rename_i hc
      cases h
      refine .going rfl ⟨?_, by simp⟩
      rw [List.reverse_cons]
      exact hname.concat hc
    · split at h
      · rename_i hc
        cases h
        exact .going rfl ⟨hname', [c], by simp [Lexer.nameOf], by simpa using hc⟩
      · split at h
        · rename_i hc
          cases h
          exact .endTag _ rfl ⟨hname', [], by simp [Lexer.nameOf, hc], by simp⟩
        · cases h
  | endTagSpace name =>
    obtain ⟨hname, space, rfl, hspace⟩ := hspells
    simp only [Lexer.readChar] at h
    split at h
    · rename_i hc
      cases h
      refine .going rfl ⟨hname, space ++ [c], by simp, ?_⟩
      intro d hd
      rcases List.mem_append.mp hd with hd | hd
      · exact hspace d hd
      · rw [List.mem_singleton.mp hd]
        exact hc
    · split at h
      · rename_i hc
        cases h
        exact .endTag _ rfl ⟨hname, space, by simp [hc], hspace⟩
      · cases h
  | _ => exact hspells.elim

/-! ## Outside tags -/

/-- A token that begins or ends no element. -/
def Token.isQuiet : Token → Bool
  | .reference _ | .instruction _ => true
  | _ => false

theorem quiet_none {lexer : Lexer} :
    ∀ token, (⟨lexer, none⟩ : Lexed).token = some token → token.isQuiet = true := by
  intro token htoken
  cases htoken

theorem inSectionOpen_loose {rest : List Char} {bad : Option Nat} {bytes : Nat} {s : Symbol}
    (h : Lexer.inSectionOpen rest bad bytes pos s = .ok lexed) :
    lexed.lexer.isLoose = true ∧ ∀ token, lexed.token = some token → token.isQuiet = true := by
  simp only [Lexer.inSectionOpen] at h
  by_cases hwidth : s.width < bytes
  · rw [if_pos hwidth] at h
    cases h
    exact ⟨rfl, quiet_none⟩
  · rw [if_neg hwidth] at h
    split at h
    · cases h
    · cases h
      exact ⟨rfl, quiet_none⟩

theorem inText_loose {brackets : Nat} (h : Lexer.inText brackets pos c = .ok lexed) :
    (c = '<' ∧ lexed = ⟨.lessThan, none⟩) ∨
      (lexed.lexer.isLoose = true ∧ ∀ token, lexed.token = some token → token.isQuiet = true) := by
  unfold Lexer.inText at h
  split at h
  · cases h
    exact .inl ⟨rfl, rfl⟩
  · cases h
    exact .inr ⟨rfl, quiet_none⟩
  · cases h
    exact .inr ⟨rfl, quiet_none⟩
  · split at h
    · cases h
    · cases h
      exact .inr ⟨rfl, quiet_none⟩
  · cases h
    exact .inr ⟨rfl, quiet_none⟩
  · cases h
    exact .inr ⟨rfl, quiet_none⟩

theorem inVerbatim_loose {brackets : List Nat} (h : Lexer.inVerbatim brackets pos c = .ok lexed) :
    lexed.lexer.isLoose = true ∧ ∀ token, lexed.token = some token → token.isQuiet = true := by
  unfold Lexer.inVerbatim at h
  split at h
  · cases h
    exact ⟨rfl, quiet_none⟩
  · split at h
    · cases h
      exact ⟨rfl, quiet_none⟩
    · cases h
      exact ⟨rfl, quiet_none⟩
  · cases h
    exact ⟨rfl, quiet_none⟩
  · cases h
    exact ⟨rfl, quiet_none⟩

theorem readChar_loose {lexer : Lexer} (hloose : lexer.isLoose = true)
    (h : Lexer.readChar alphabet unit pos lexer c = .ok lexed) :
    (lexer.isText = true ∧ c = '<' ∧ lexed = ⟨.lessThan, none⟩) ∨
      (lexed.lexer.isLoose = true ∧ ∀ token, lexed.token = some token → token.isQuiet = true) := by
  cases lexer with
  | text brackets cr => exact (inText_loose h).imp (fun hlt => ⟨rfl, hlt⟩) id
  | verbatim brackets cr => exact .inr (inVerbatim_loose h)
  | sectionOpen rest bad bytes => cases h
  | bang =>
    right
    simp only [Lexer.readChar] at h
    split at h
    · cases h
      exact ⟨rfl, quiet_none⟩
    · split at h
      · cases h
        exact ⟨rfl, quiet_none⟩
      · cases h
  | reference progress =>
    right
    simp only [Lexer.readChar] at h
    split at h
    · cases h
      exact ⟨rfl, quiet_none⟩
    · cases h
      exact ⟨rfl, fun token htoken => by cases htoken; rfl⟩
    · cases h
  | comment state =>
    right
    simp only [Lexer.readChar] at h
    split at h
    · cases h
      exact ⟨rfl, quiet_none⟩
    · cases h
      exact ⟨rfl, quiet_none⟩
    · cases h
  | instruction state =>
    right
    simp only [Lexer.readChar] at h
    split at h
    · cases h
      exact ⟨rfl, fun token htoken => by cases htoken; rfl⟩
    · cases h
      exact ⟨rfl, quiet_none⟩
    · cases h
  | _ => cases hloose

/-- One more symbol outside tags: a tag may begin in character data only. -/
theorem loose_step {lexer : Lexer} {s : Symbol} (hloose : lexer.isLoose = true)
    (h : lexer.step alphabet unit pos s = .ok lexed) :
    (lexer.isText = true ∧ s.glyph = .char '<' ∧ lexed = ⟨.lessThan, none⟩) ∨
      (lexed.lexer.isLoose = true ∧ ∀ token, lexed.token = some token → token.isQuiet = true) := by
  unfold Lexer.step at h
  split at h
  · exact .inr (inSectionOpen_loose h)
  · rename_i lexer c _ hc
    refine (readChar_loose hloose h).imp (fun hlt => ⟨hlt.1, ?_, hlt.2.2⟩) id
    rw [hc, hlt.2.1]
  · cases h

/-! ## Slashes -/

/-- Where a slash may end a start tag as that of an empty element, the tag may end without it. -/
theorem readChar_of_slash {lexer : Lexer} {t : StartTag}
    (h : Lexer.readChar alphabet unit pos lexer '/' = .ok ⟨.tag t .slash, none⟩)
    (unit' pos' : Nat) :
    Lexer.readChar alphabet unit' pos' lexer '>' =
      .ok ⟨.idle, some (.startTag { t with attributes := t.attributes.reverse } false)⟩ := by
  cases lexer with
  | tagName read =>
    cases h
    rfl
  | tag t' inner =>
    cases inner with
    | space =>
      cases h
      rfl
    | valueEnd =>
      cases h
      rfl
    | value name namePos mark read =>
      simp only [Lexer.readChar, Lexer.inTag] at h
      split at h
      · cases h
      · cases h
    | valueReference name namePos mark read progress =>
      cases progress <;> cases h
    | _ => cases h
  | reference progress => cases progress <;> cases h
  | comment state => cases state <;> cases h
  | instruction state => cases state <;> cases h
  | _ => cases h

end Content

end AccessPatch.Xml
