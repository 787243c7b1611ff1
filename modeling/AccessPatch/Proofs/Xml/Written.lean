import AccessPatch.Proofs.Xml.Quoted
import Mathlib.Data.List.Forall2

/-!
# What a writer puts between tags

A program that adds to a document writes white space and tags. Here it is shown that these are
read as they are meant, wherever they stand:

* `passesGap_of_spaces`: white space alone is a gap.
* `passes_of_endSpelled`: an end tag needs nothing but its spelling.
* `sound_written`: an empty-element tag has the attributes that its values denote;
  `sound_emptyTag` is the case of values that are plain.
* `Stretch.Passes.afterGap`: what passes without a gap passes after any other.

`Within` follows a reader through a part of a tag.
-/

namespace AccessPatch.Xml

open Content (Spells Lexer Lexed TagLexer StartTag RawAttribute)

variable {alphabet : Alphabet}

/-! ## What is written -/

/-- A value that may stand in double quotes as it is. -/
def IsPlainValue (value : List Char) : Prop :=
  ∀ c ∈ value, c ≠ '"' ∧ c ≠ '&' ∧ c ≠ '<' ∧ isSpace c = false

/-- An attribute as it is written. -/
def attributeChars (a : String × String) : List Char :=
  ' ' :: (a.1.toList ++ '=' :: '"' :: (a.2.toList ++ ['"']))

/-- An empty-element tag as it is written. -/
def emptyTagChars (name : String) (attributes : List (String × String)) : List Char :=
  '<' :: (name.toList ++ attributes.flatMap attributeChars ++ ['/', '>'])

/-- Attributes that may be written as they are. -/
structure Writable (alphabet : Alphabet) (attributes : List (String × String)) : Prop where
  names : ∀ a ∈ attributes, IsName alphabet a.1.toList
  values : ∀ a ∈ attributes, IsPlainValue a.2.toList
  distinct : (attributes.map Prod.fst).Nodup

/-- What is written for an attribute: its name, and a text that denotes its value. -/
structure Writes (alphabet : Alphabet) (w a : String × String) : Prop where
  name : w.1 = a.1
  named : IsName alphabet w.1.toList
  value : Denotes alphabet w.2.toList a.2.toList

theorem denotes_plain {value : List Char} (h : IsPlainValue value) :
    Denotes alphabet value value := by
  induction value with
  | nil => exact .nil
  | cons c value ih =>
    obtain ⟨hquote, hand, hless, hspace⟩ := h c List.mem_cons_self
    refine .literal ⟨hquote, hand, hless, fun hc => ?_⟩
      (ih fun d hd => h d (List.mem_cons_of_mem _ hd))
    rw [hspace] at hc
    cases hc

theorem Writable.writes {attributes : List (String × String)} (h : Writable alphabet attributes) :
    List.Forall₂ (Writes alphabet) attributes attributes :=
  List.forall₂_same.mpr fun a ha => ⟨rfl, h.names a ha, denotes_plain (h.values a ha)⟩

/-- What has been read of an attribute is what was written. -/
structure Says (raw : RawAttribute) (a : String × String) : Prop where
  name : raw.name = a.1
  value : raw.value.map Placed.char = a.2.toList

/-- The start tag so far may end, or go on with an attribute. -/
def Awaits (alphabet : Alphabet) (lexer : Lexer) (t : StartTag) : Prop :=
  ∀ unit pos, Lexer.readChar alphabet unit pos lexer ' ' = .ok ⟨.tag t .space, none⟩ ∧
    Lexer.readChar alphabet unit pos lexer '/' = .ok ⟨.tag t .slash, none⟩

theorem awaits_tagName (read : List Char) :
    Awaits alphabet (.tagName read) ⟨Lexer.nameOf read, []⟩ := by
  intro unit pos
  have hspace : alphabet.isNameChar ' ' = false := rfl
  have hslash : alphabet.isNameChar '/' = false := rfl
  simp only [Lexer.readChar, hspace, hslash]
  exact ⟨rfl, rfl⟩

theorem awaits_valueEnd {t : StartTag} : Awaits alphabet (.tag t .valueEnd) t :=
  fun _ _ => ⟨rfl, rfl⟩

/-- The attributes of an element whose tag has some: those, and the declared defaults of others. -/
def Dtd.completed (dtd : Dtd) (name : String) (attributes : List (String × String)) :
    List (String × String) :=
  attributes ++ dtd.defaultsBeside name (attributes.map Prod.fst)

theorem Dtd.completed_of_rules {dtd : Dtd} (hrules : dtd.rules = []) (name : String)
    (attributes : List (String × String)) : dtd.completed name attributes = attributes := by
  simp [Dtd.completed, Dtd.defaultsBeside, hrules]

/-- The spaces in a value are kept, if there are any. -/
def Dtd.Keeps (dtd : Dtd) (name : String) (a : String × String) : Prop :=
  dtd.isAnyText name a.1 = true ∨ ' ' ∉ a.2.toList

theorem Dtd.keeps_of_rules {dtd : Dtd} (hrules : dtd.rules = []) (name : String)
    (a : String × String) :
    dtd.Keeps name a := by
  refine .inl ?_
  rw [Dtd.isAnyText, hrules]
  rfl

theorem Dtd.keeps_of_isPlainValue {dtd : Dtd} {a : String × String} (h : IsPlainValue a.2.toList)
    (name : String) : dtd.Keeps name a := by
  refine .inr fun hmem => ?_
  cases (h ' ' hmem).2.2.2

/-- The attributes of a written tag. -/
theorem resolve_written {dtd : Dtd} {name : String} {written attributes : List (String × String)}
    {raws : List RawAttribute} (h : List.Forall₂ (Writes alphabet) written attributes)
    (hdistinct : (attributes.map Prod.fst).Nodup) (hkeeps : ∀ a ∈ attributes, dtd.Keeps name a)
    (hraws : List.Forall₂ Says raws written) :
    StartTag.resolve ⟨name, raws⟩ dtd alphabet [] = .ok (dtd.completed name attributes) := by
  -- The attributes before the one that is resolved have other names.
  have hfold : ∀ {raws : List RawAttribute} {written attributes : List (String × String)}
      (given : List (String × String)), List.Forall₂ Says raws written →
      List.Forall₂ (Writes alphabet) written attributes → (∀ a ∈ attributes, dtd.Keeps name a) →
      ((given ++ attributes).map Prod.fst).Nodup →
      raws.foldlM (fun given a => do
        if (given.lookup a.name).isSome then throw ⟨.duplicateAttribute, .offset a.pos⟩
        let value ← dtd.expandValue alphabet (dtd.isAnyText name a.name) [] a.value
        return given ++ [(a.name, value)]) given = (.ok (given ++ attributes) : Except Flaw _) := by
    intro raws written attributes given hraws
    induction hraws generalizing given attributes with
    | nil =>
      intro hwrites hkeeps hdistinct
      cases hwrites
      rw [List.append_nil]
      rfl
    | @cons raw w raws written hraw hrest ih =>
      intro hwrites hkeeps hdistinct
      obtain ⟨a, attributes, hw, hothers, rfl⟩ := List.forall₂_cons_left_iff.mp hwrites
      have hnew : given.lookup a.1 = none := by
        rw [List.lookup_eq_none_iff]
        intro b hb
        rw [List.map_append, List.nodup_append] at hdistinct
        have hne := hdistinct.2.2 b.1 (List.mem_map_of_mem hb) a.1 List.mem_cons_self
        exact bne_iff_ne.mpr (Ne.symm hne)
      have hvalue : dtd.expandValue alphabet (dtd.isAnyText name a.1) [] raw.value = .ok a.2 :=
        expandValue_of_denotes hw.value (hkeeps a List.mem_cons_self) hraw.value
      have hrest := ih (given ++ [a]) hothers (fun b hb => hkeeps b (List.mem_cons_of_mem _ hb))
        (by simpa using hdistinct)
      rw [List.append_assoc, List.singleton_append] at hrest
      refine foldlM_cons_eq_ok_iff.mpr ⟨given ++ [a], ?_, hrest⟩
      simp only [hraw.name.trans hw.name, hnew, hvalue]
      rfl
  have hall := hfold [] hraws h hkeeps hdistinct
  simp only [StartTag.resolve, hall]
  rfl

theorem emptyTagChars_eq (name : String) (attributes : List (String × String)) :
    emptyTagChars name attributes =
      '<' :: (name.toList ++ attributes.flatMap attributeChars ++ ['/']) ++ ['>'] := by
  simp [emptyTagChars]

variable [Code]

/-! ## Inside a tag -/

/-- Reading `cs` inside a tag, from `pos` on, leads from one state to another. -/
inductive Within (alphabet : Alphabet) : Nat → Lexer → List Char → Lexer → Prop where
  | nil {pos : Nat} {lexer : Lexer} : Within alphabet pos lexer [] lexer
  | cons {pos : Nat} {lexer next last : Lexer} {c : Char} {cs : List Char}
      (read : Lexer.readChar alphabet 1 pos lexer c = .ok ⟨next, none⟩) (tag : next.isLoose = false)
      (rest : Within alphabet (pos + (Symbol.ofChar c).width) next cs last) :
      Within alphabet pos lexer (c :: cs) last

theorem within_singleton {pos : Nat} {lexer next : Lexer} {c : Char}
    (h : Lexer.readChar alphabet 1 pos lexer c = .ok ⟨next, none⟩) (htag : next.isLoose = false) :
    Within alphabet pos lexer [c] next :=
  .cons h htag .nil

theorem Within.append {pos : Nat} {lexer middle last : Lexer} {cs ds : List Char}
    (h : Within alphabet pos lexer cs middle)
    (h' : Within alphabet (pos + (inCode cs).length) middle ds last) :
    Within alphabet pos lexer (cs ++ ds) last := by
  induction h with
  | nil => exact h'
  | @cons pos lexer next last c cs read tag _ ih =>
    refine .cons read tag (ih ?_)
    have hlength := length_write c
    rw [inCode_cons, List.length_append, hlength, ← Nat.add_assoc] at h'
    exact h'

theorem Within.spells {pos : Nat} {lexer last : Lexer} {text cs : List Char}
    (hspells : Spells alphabet lexer text) (h : Within alphabet pos lexer cs last) :
    Spells alphabet last (text ++ cs) := by
  induction h generalizing text with
  | nil => rwa [List.append_nil]
  | @cons pos lexer next last c cs read tag _ ih =>
    have hnext : Spells alphabet next (text ++ [c]) := by
      cases Content.spells_step hspells read with
      | going token spells => exact spells
      | loose token loose => exact absurd loose (by simp [tag])
      | startTag t empty eq spelled slash => cases eq
      | endTag name eq spelled => cases eq
    have hall := ih hnext
    rwa [List.append_assoc, List.singleton_append] at hall

namespace Reader

theorem quiet_of_within {r : Reader} {lexer last : Lexer} {cs : List Char}
    (hphase : r.phase = .content lexer) (hunit : r.unit = 1) (hadmits : r.admitsEntityTags = false)
    (htext : lexer.isText = false) (h : Within r.context.alphabet r.offset lexer cs last) :
    ∃ r', Quiet r cs [] r' ∧ r'.phase = .content last ∧ r'.mark = r.mark := by
  generalize hpos : r.offset = pos at h
  generalize halphabet : r.context.alphabet = alphabet at h
  induction h generalizing r with
  | nil => exact ⟨r, quiet_nil r, hphase, rfl⟩
  | @cons pos lexer next last c cs read tag _ ih =>
    subst hpos halphabet
    rw [← hunit] at read
    have hlexed := step_of_readChar read
    have hstep := step_eq_actOn hphase hlexed
    simp only [actOn, Except.map] at hstep
    obtain ⟨notes, hquiet, hnone, hphase', hmark⟩ :=
      quiet_step hadmits hphase hlexed Content.quiet_none hstep
    obtain rfl : notes = [] := hnone rfl
    have htext' : next.isText = false := by
      cases next with
      | text brackets cr => cases tag
      | _ => rfl
    obtain ⟨r', hrest, hlast, hmark'⟩ :=
      ih hphase' hunit hadmits htext' rfl rfl
    refine ⟨r', hquiet.append hrest, hlast, ?_⟩
    rw [hmark', hmark, markAt, htext, if_neg (by simp)]

/-! ## Gaps -/

/-- White space in character data. -/
theorem step_space {r : Reader} {brackets : Nat} {cr : Option Nat} {c : Char}
    (hphase : r.phase = .content (.text brackets cr)) (hc : isSpace c = true) :
    ∃ cr', r.step (.ofChar c) = .ok { r with
      phase := .content (.text 0 cr')
      mark := r.offset
      offset := r.offset + (Symbol.ofChar c).width } := by
  obtain ⟨cr', hlexed⟩ : ∃ cr', (Lexer.text brackets cr).step r.context.alphabet r.unit r.offset
      (.ofChar c) = .ok ⟨.text 0 cr', none⟩ := by
    simp only [isSpace, Bool.or_eq_true, beq_iff_eq] at hc
    rcases hc with ((rfl | rfl) | rfl) | rfl <;> exact ⟨_, rfl⟩
  refine ⟨cr', ?_⟩
  rw [step_eq_actOn hphase hlexed]
  rfl

theorem feed_spaces {r : Reader} {brackets : Nat} {cr : Option Nat} {cs : List Char}
    (hphase : r.phase = .content (.text brackets cr)) (hcs : ∀ c ∈ cs, isSpace c = true) :
    ∃ mark brackets cr, r.feed cs = .ok { r with
      phase := .content (.text brackets cr)
      mark
      offset := r.offset + (inCode cs).length } := by
  induction cs generalizing r brackets cr with
  | nil =>
    refine ⟨r.mark, brackets, cr, ?_⟩
    rw [feed_nil, ← hphase]
    rfl
  | cons c cs ih =>
    obtain ⟨cr', hstep⟩ := step_space hphase (hcs c List.mem_cons_self)
    obtain ⟨mark, brackets', cr'', hrest⟩ := ih (r := { r with
      phase := .content (.text 0 cr')
      mark := r.offset
      offset := r.offset + (Symbol.ofChar c).width }) rfl fun d hd =>
        hcs d (List.mem_cons_of_mem _ hd)
    refine ⟨mark, brackets', cr'', feed_cons_eq_ok_iff.mpr ⟨_, hstep, hrest.trans ?_⟩⟩
    rw [inCode_cons, List.length_append, length_write, Nat.add_assoc]

theorem passesGap_of_spaces {context : Prolog.Context} {cs : List Char}
    (hcs : ∀ c ∈ cs, isSpace c = true) : Stretch.PassesGap context cs [] :=
  fun _ hr _ _ => feed_spaces hr hcs

/-- The mark that begins a tag, in character data. -/
theorem step_lessThan {r : Reader} {brackets : Nat} {cr : Option Nat}
    (hphase : r.phase = .content (.text brackets cr)) : r.step (.ofChar '<') = .ok { r with
      phase := .content .lessThan
      mark := r.offset
      offset := r.offset + 1 } := by
  have hlexed : (Lexer.text brackets cr).step r.context.alphabet r.unit r.offset (.ofChar '<') =
      .ok ⟨.lessThan, none⟩ := rfl
  rw [step_eq_actOn hphase hlexed, ofChar_of_lt (by decide)]
  rfl

end Reader

/-- What passes without a gap passes after each gap that does. -/
theorem Stretch.Passes.afterGap {context : Prolog.Context} {gap : List Char} {notes : List Event}
    {form : Form} {name : String} {attributes : List (String × String)} {text : List Char}
    (hgap : PassesGap context gap notes)
    (h : Passes context ⟨[], [], form, name, attributes, '<' :: text⟩) :
    Passes context ⟨gap, notes, form, name, attributes, '<' :: text⟩ := by
  intro r stack hr hunit hcontext hstack
  obtain ⟨mark, brackets, cr, hfeed⟩ := hgap r hr hunit hcontext
  obtain ⟨mark', htag⟩ := h { r with
    phase := .content .idle
    mark
    offset := r.offset + (inCode gap).length
    events := notes ++ r.events } stack rfl hunit hcontext hstack
  refine ⟨mark', Reader.feed_append_eq_ok_iff.mpr ⟨_, hfeed, ?_⟩⟩
  -- The mark is the first character of the tag, and it does not matter what stands before it.
  have hsame := fun brackets' cr' => Reader.step_lessThan (r := { r with
    phase := .content (.text brackets' cr')
    mark
    offset := r.offset + (inCode gap).length
    events := notes ++ r.events }) rfl
  have hchars : Stretch.chars ⟨[], [], form, name, attributes, '<' :: text⟩ = '<' :: text := rfl
  rw [hchars, Reader.feed_cons, Lexer.idle, hsame 0 none] at htag
  rw [Reader.feed_cons, hsame brackets cr]
  refine htag.trans ?_
  simp only [Reader.between, Stretch.events, Stretch.size, Stretch.chars, inCode_append, inCode_nil,
    List.nil_append, List.length_append, List.length_nil, Nat.add_zero, List.append_assoc,
    Nat.add_assoc]
  rfl

/-! ## End tags -/

section Loop

variable {f : List Char → Lexer} {P : Char → Prop}

/-- A state in which characters of one kind are gathered. -/
theorem within_loop (hread : ∀ read pos c, P c →
      Lexer.readChar alphabet 1 pos (f read) c = .ok ⟨f (c :: read), none⟩)
    (htag : ∀ read, (f read).isLoose = false) {cs : List Char} (hcs : ∀ c ∈ cs, P c)
    (read : List Char) (pos : Nat) : Within alphabet pos (f read) cs (f (cs.reverse ++ read)) := by
  induction cs generalizing read pos with
  | nil => exact .nil
  | cons c cs ih =>
    rw [List.reverse_cons, List.append_assoc, List.singleton_append]
    exact .cons (hread read pos c (hcs c List.mem_cons_self)) (htag _)
      (ih (fun d hd => hcs d (List.mem_cons_of_mem _ hd)) _ _)

end Loop

/-- The name and the space of an end tag; the mark at its end completes it. -/
theorem within_endTag {name space : List Char} (hname : IsName alphabet name)
    (hspace : ∀ c ∈ space, isSpace c = true) (pos : Nat) :
    ∃ last, Within alphabet pos .endTagOpen (name ++ space) last ∧ ∀ unit pos,
      Lexer.readChar alphabet unit pos last '>' =
        .ok ⟨.idle, some (.endTag (String.ofList name))⟩ := by
  obtain ⟨c, rest, rfl, hc, hrest⟩ := hname
  have hopen : Within alphabet pos .endTagOpen (c :: rest) (.endTagName (rest.reverse ++ [c])) :=
    .cons (if_pos hc) rfl (within_loop (f := Lexer.endTagName) (fun read pos d hd => if_pos hd)
      (fun _ => rfl) hrest _ _)
  have hnameOf : Lexer.nameOf (rest.reverse ++ [c]) = String.ofList (c :: rest) := by
    simp [Lexer.nameOf]
  cases space with
  | nil =>
    refine ⟨.endTagName (rest.reverse ++ [c]), hopen.append .nil, fun unit pos => ?_⟩
    have hmark : alphabet.isNameChar '>' = false := rfl
    rw [← hnameOf]
    simp only [Lexer.readChar, hmark]
    rfl
  | cons d space =>
    have hd := hspace d List.mem_cons_self
    let last : Lexer := .endTagSpace (Lexer.nameOf (rest.reverse ++ [c]))
    have hspaces : ∀ pos, Within alphabet pos last space last := fun pos =>
      within_loop (f := fun _ => last) (P := fun e => isSpace e = true)
        (fun read pos e he => if_pos he)
        (fun _ => rfl) (fun e he => hspace e (List.mem_cons_of_mem _ he)) [] pos
    refine ⟨last, hopen.append (.cons ?_ rfl (hspaces _)), fun unit pos => ?_⟩
    · simp only [Lexer.readChar, not_isNameChar_of_isSpace hd, hd, if_true,
        Bool.false_eq_true, if_false]
      rfl
    · simp only [last, hnameOf]
      rfl

namespace Reader

/-- A reader goes through the part of a tag. -/
theorem quiet_tag {context : Prolog.Context} {cs : List Char} {last : Lexer}
    (h : Within context.alphabet 1 .lessThan cs last) :
    ∃ r, Quiet { context, phase := .content .idle } ('<' :: cs) [] r ∧ r.phase = .content last ∧
      r.mark = 0 := by
  have hstep := step_lessThan (r := { context, phase := .content .idle }) rfl
  obtain ⟨notes, hquiet, hnone, hphase, hmark⟩ := quiet_step rfl rfl rfl Content.quiet_none hstep
  obtain rfl : notes = [] := hnone rfl
  obtain ⟨r, hrest, hlast, hmark'⟩ := quiet_of_within hphase rfl rfl rfl h
  exact ⟨r, hquiet.append hrest, hlast, hmark'⟩

/-- An end tag passes. -/
theorem passes_of_endSpelled {context : Prolog.Context} {name : String} {text : List Char}
    (h : EndSpelled context.alphabet name text) :
    Stretch.Passes context ⟨[], [], .closing, name, [], text⟩ := by
  obtain ⟨space, rfl, hspace⟩ := h.rest
  obtain ⟨last, hwithin, hend⟩ := within_endTag h.named hspace (1 + (Symbol.ofChar '/').width)
  have htag : Within context.alphabet 1 .lessThan ('/' :: (name.toList ++ space)) last :=
    .cons rfl rfl hwithin
  obtain ⟨r, hquiet, hphase, hmark⟩ := quiet_tag htag
  have hmark' : Spells context.alphabet .lessThan ['<'] := rfl
  have htext := isText_of_spells (htag.spells hmark')
  have hcontext : r.context = context := hquiet.context
  have hlexed := step_of_readChar (hend r.unit r.offset)
  rw [String.ofList_toList, ← hcontext] at hlexed
  exact passes_endTag rfl rfl (quiet_nil _) hquiet hphase htext hmark hlexed

end Reader

/-! ## Empty-element tags -/

section Value

variable {t : StartTag} {name : String} {namePos : Nat}

theorem within_completes {progress : Reference.Progress} {cs : List Char} {r : Reference}
    (h : Reference.Completes alphabet progress cs r) (read : List Placed) (pos : Nat) :
    ∃ read', read'.map Placed.char = cs.reverse ++ read.map Placed.char ∧
      Within alphabet pos (.tag t (.valueReference name namePos '"' read progress)) cs
        (.tag t (.value name namePos '"' read')) := by
  induction h generalizing read pos with
  | @done progress c r step =>
    refine ⟨⟨c, pos⟩ :: read, rfl, within_singleton ?_ rfl⟩
    simp only [Lexer.readChar, Lexer.inTag, step]
    rfl
  | @going progress next c cs r step _ ih =>
    obtain ⟨read', hread', hwithin⟩ := ih (⟨c, pos⟩ :: read) (pos + (Symbol.ofChar c).width)
    refine ⟨read', by simpa using hread', .cons ?_ rfl hwithin⟩
    simp only [Lexer.readChar, Lexer.inTag, step]
    rfl

theorem within_value {written value : List Char} (h : Denotes alphabet written value)
    (read : List Placed) (pos : Nat) :
    ∃ read', read'.map Placed.char = written.reverse ++ read.map Placed.char ∧
      Within alphabet pos (.tag t (.value name namePos '"' read)) written
        (.tag t (.value name namePos '"' read')) := by
  induction h generalizing read pos with
  | nil => exact ⟨read, rfl, .nil⟩
  | @literal c written value literal _ ih =>
    obtain ⟨read', hread', hwithin⟩ := ih (⟨c, pos⟩ :: read) (pos + (Symbol.ofChar c).width)
    refine ⟨read', by simpa using hread', .cons ?_ rfl hwithin⟩
    simp only [Lexer.readChar, Lexer.inTag, literal.quote, literal.ampersand,
      literal.lessThan, if_false]
    rfl
  | @reference cs written value r d completes _ _ ih =>
    have hmark : Lexer.readChar alphabet 1 pos (.tag t (.value name namePos '"' read)) '&' =
        .ok ⟨.tag t (.valueReference name namePos '"' (⟨'&', pos⟩ :: read) .start), none⟩ := rfl
    let afterMark := pos + (Symbol.ofChar '&').width
    obtain ⟨read₁, hread₁, hfirst⟩ : ∃ read₁ : List Placed,
        read₁.map Placed.char = cs.reverse ++ '&' :: read.map Placed.char ∧
        Within alphabet afterMark
          (.tag t (.valueReference name namePos '"' (⟨'&', pos⟩ :: read) .start)) cs
          (.tag t (.value name namePos '"' read₁)) :=
      within_completes completes (⟨'&', pos⟩ :: read) afterMark
    obtain ⟨read₂, hread₂, hrest⟩ := ih read₁ (afterMark + (inCode cs).length)
    refine ⟨read₂, ?_, .cons hmark rfl (hfirst.append hrest)⟩
    rw [hread₂, hread₁]
    simp

end Value

theorem within_attribute {lexer : Lexer} {t : StartTag} {w a : String × String}
    (hawaits : Awaits alphabet lexer t) (h : Writes alphabet w a) (pos : Nat) :
    ∃ raw, Says raw w ∧ Within alphabet pos lexer (attributeChars w)
      (.tag { t with attributes := raw :: t.attributes } .valueEnd) := by
  obtain ⟨name, value⟩ := w
  obtain ⟨c, rest, heq, hc, hrest⟩ := h.named
  obtain rfl : name = String.ofList (c :: rest) := by rw [← heq, String.ofList_toList]
  have hstart : Within alphabet pos lexer [' '] (.tag t .space) :=
    within_singleton (hawaits 1 pos).1 rfl
  -- The name, from its first character to the equals sign.
  have hplain := isPlain_of_isNameChar (isNameChar_of_isNameStart hc)
  have hslash := ne_slash_of_isNameChar (isNameChar_of_isNameStart hc)
  have hspace : isSpace c = false := by
    cases hspace : isSpace c with
    | false => rfl
    | true =>
      have hno : alphabet.isNameChar c = false := not_isNameChar_of_isSpace hspace
      rw [isNameChar_of_isNameStart hc] at hno
      cases hno
  have hfirst : ∀ pos,
      Within alphabet pos (.tag t .space) [c] (.tag t (.attributeName [c] pos)) := by
    intro pos
    refine within_singleton ?_ rfl
    simp only [Lexer.readChar, Lexer.inTag, Lexer.afterSpace, hplain.1, hslash, hspace,
      hc, if_false, Bool.false_eq_true, and_self, if_true]
    rfl
  have hname : ∀ pos namePos, Within alphabet pos (.tag t (.attributeName [c] namePos)) rest
      (.tag t (.attributeName (rest.reverse ++ [c]) namePos)) := fun pos namePos =>
    within_loop (f := fun read => .tag t (.attributeName read namePos))
      (fun read pos d hd => if_pos hd)
      (fun _ => rfl) hrest _ _
  have hequals : ∀ pos read namePos,
      Within alphabet pos (.tag t (.attributeName read namePos)) ['=', '"']
      (.tag t (.value (Lexer.nameOf read) namePos '"' [])) := fun pos read namePos =>
    .cons rfl rfl (within_singleton rfl rfl)
  let valuePos := pos + (inCode [' ']).length + (inCode [c]).length + (inCode rest).length +
    (inCode ['=', '"']).length
  let inValue (read : List Placed) : Lexer :=
    .tag t (.value (Lexer.nameOf (rest.reverse ++ [c])) (pos + (inCode [' ']).length) '"' read)
  obtain ⟨read, hread, hinside⟩ : ∃ read, read.map Placed.char = value.toList.reverse ++ [] ∧
      Within alphabet valuePos (inValue []) value.toList (inValue read) :=
    within_value h.value [] valuePos
  have hend : ∀ pos namePos name, Within alphabet pos (.tag t (.value name namePos '"' read)) ['"']
      (.tag { t with attributes := ⟨name, namePos, read.reverse⟩ :: t.attributes } .valueEnd) :=
    fun pos namePos name => within_singleton rfl rfl
  refine ⟨⟨Lexer.nameOf (rest.reverse ++ [c]), pos + (inCode [' ']).length, read.reverse⟩,
    ⟨?_, ?_⟩, ?_⟩
  · simp [Lexer.nameOf]
  · rw [List.map_reverse, hread]
    simp
  · rw [attributeChars, heq]
    exact hstart.append ((hfirst _).append ((hname _ _).append ((hequals _ _ _).append
      (hinside.append (hend _ _ _)))))

theorem within_attributes {lexer : Lexer} {t : StartTag}
    {written attributes : List (String × String)} (hawaits : Awaits alphabet lexer t)
    (h : List.Forall₂ (Writes alphabet) written attributes) (pos : Nat) :
    ∃ last raws, List.Forall₂ Says raws written ∧
      Within alphabet pos lexer (written.flatMap attributeChars) last ∧
      Awaits alphabet last { t with attributes := raws.reverse ++ t.attributes } := by
  induction h generalizing lexer t pos with
  | nil => exact ⟨lexer, [], .nil, .nil, hawaits⟩
  | @cons w a written attributes hw _ ih =>
    obtain ⟨raw, hraw, hfirst⟩ := within_attribute hawaits hw pos
    obtain ⟨last, raws, hraws, hrest, hlast⟩ :=
      ih awaits_valueEnd (pos + (inCode (attributeChars w)).length)
    refine ⟨last, raw :: raws, .cons hraw hraws, hfirst.append hrest, ?_⟩
    rw [List.reverse_cons, List.append_assoc, List.singleton_append]
    exact hlast

/-- The part of a written tag before its end, after which either end completes the tag. -/
theorem within_startTag {name : String} {written attributes : List (String × String)}
    (hname : IsName alphabet name.toList) (h : List.Forall₂ (Writes alphabet) written attributes) :
    ∃ raws last, List.Forall₂ Says raws written ∧
      Within alphabet 1 .lessThan (name.toList ++ written.flatMap attributeChars) last ∧
      Awaits alphabet last ⟨name, raws.reverse⟩ := by
  obtain ⟨c, rest, heq, hc, hrest⟩ := hname
  obtain rfl : name = String.ofList (c :: rest) := by rw [← heq, String.ofList_toList]
  have hopen : Within alphabet 1 .lessThan (c :: rest) (.tagName (rest.reverse ++ [c])) :=
    .cons (if_pos hc) rfl (within_loop (f := Lexer.tagName) (fun read pos d hd => if_pos hd)
      (fun _ => rfl) hrest _ _)
  obtain ⟨last, raws, hraws, hattributes, hlast⟩ :=
    within_attributes (awaits_tagName (rest.reverse ++ [c])) h (1 + (inCode (c :: rest)).length)
  have hnameOf : Lexer.nameOf (rest.reverse ++ [c]) = String.ofList (c :: rest) := by
    simp [Lexer.nameOf]
  rw [hnameOf, List.append_nil] at hlast
  refine ⟨raws, last, hraws, ?_, hlast⟩
  rw [heq]
  exact hopen.append hattributes

/-- A tag passes if its text, up to the mark that completes it, is read within the tag. -/
theorem passes_within {context : Prolog.Context} {tag : StartTag} {empty : Bool} {inner : List Char}
    {last : Lexer} {attributes : List (String × String)}
    (hwithin : Within context.alphabet 1 .lessThan inner last)
    (hend : ∀ unit pos, Lexer.readChar context.alphabet unit pos last '>' =
      .ok ⟨.idle, some (.startTag tag empty)⟩)
    (hattributes : tag.resolve context.dtd context.alphabet [] = .ok attributes) :
    Stretch.Passes context
        ⟨[], [], Reader.formOfStart empty, tag.name, attributes, '<' :: inner ++ ['>']⟩ ∧
      StartSpelled context.alphabet tag.name empty ('<' :: inner ++ ['>']) := by
  obtain ⟨r, hquiet, hphase, hmark⟩ := Reader.quiet_tag hwithin
  have hstart : Spells context.alphabet .lessThan ['<'] := rfl
  have hspells := hwithin.spells hstart
  have hcontext : r.context = context := hquiet.context
  have hlexed := Reader.step_of_readChar (hend r.unit r.offset)
  constructor
  · rw [← hcontext] at hlexed hattributes
    exact Reader.passes_startTag rfl rfl (Reader.quiet_nil _) hquiet hphase
      (Reader.isText_of_spells hspells) hmark hlexed hattributes
  · cases Content.spells_step hspells (hend 1 0) with
    | going token spells => cases token
    | loose token loose => cases token
    | startTag tag empty eq spelled slash =>
      cases eq
      exact spelled
    | endTag name eq spelled => cases eq

/-- A written tag is read as what its values denote, also where it is opened up. -/
theorem sound_written {context : Prolog.Context} {name : String}
    {written attributes : List (String × String)} (hname : IsName context.alphabet name.toList)
    (h : List.Forall₂ (Writes context.alphabet) written attributes)
    (hdistinct : (attributes.map Prod.fst).Nodup)
    (hkeeps : ∀ a ∈ attributes, context.dtd.Keeps name a) :
    Stretch.Sound context
      ⟨[], [], .empty, name, context.dtd.completed name attributes,
        emptyTagChars name written⟩ := by
  obtain ⟨raws, last, hraws, hwithin, hlast⟩ := within_startTag hname h
  have hattributes : StartTag.resolve ⟨name, raws⟩ context.dtd context.alphabet [] =
      .ok (context.dtd.completed name attributes) := resolve_written h hdistinct hkeeps hraws
  have hslash : ∀ pos, Within context.alphabet pos last ['/'] (.tag ⟨name, raws.reverse⟩ .slash) :=
    fun pos => within_singleton (hlast 1 pos).2 rfl
  have hend : ∀ unit pos,
      Lexer.readChar context.alphabet unit pos (.tag ⟨name, raws.reverse⟩ .slash) '>' =
      .ok ⟨.idle, some (.startTag ⟨name, raws⟩ true)⟩ := by
    intro unit pos
    simp [Lexer.readChar, Lexer.inTag, Lexer.done]
  obtain ⟨hpasses, hspelled⟩ := passes_within (hwithin.append (hslash _)) hend hattributes
  have hopened : ∀ unit pos, Lexer.readChar context.alphabet unit pos last '>' =
      .ok ⟨.idle, some (.startTag ⟨name, raws⟩ false)⟩ := by
    intro unit pos
    have hread := Content.readChar_of_slash (hlast 1 0).2 unit pos
    rwa [List.reverse_reverse] at hread
  have hopenUp := passes_within hwithin hopened hattributes
  rw [emptyTagChars_eq]
  refine ⟨hspelled, hpasses, Content.onlyInstructions_nil, Reader.passesGap_of_spaces (by simp),
    fun _ => ?_⟩
  have hfront :
      ('<' :: (name.toList ++ written.flatMap attributeChars ++ ['/']) ++ ['>']).dropLast.dropLast =
        '<' :: (name.toList ++ written.flatMap attributeChars) := by
    rw [List.dropLast_concat, ← List.cons_append, List.dropLast_concat]
  simp only [Stretch.openUp, hfront]
  exact hopenUp

/-- A tag whose values are plain is read as what was written, also where it is opened up. -/
theorem sound_emptyTag {context : Prolog.Context} {name : String}
    {attributes : List (String × String)} (hname : IsName context.alphabet name.toList)
    (h : Writable context.alphabet attributes) : Stretch.Sound context
      ⟨[], [], .empty, name, context.dtd.completed name attributes,
        emptyTagChars name attributes⟩ :=
  sound_written hname h.writes h.distinct fun a ha => Dtd.keeps_of_isPlainValue (h.values a ha) name

end AccessPatch.Xml
