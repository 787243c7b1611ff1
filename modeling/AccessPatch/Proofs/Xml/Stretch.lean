import AccessPatch.Proofs.Xml.Quiet

/-!
# Stretches of a document

A `Stretch` is a tag with what stands between it and the tag before it. `Sound` says that a
stretch is read as one in any place: `exists_stretch` cuts the first stretch off a document that a
reader goes through, and the stretch is sound, so it may be moved and its neighbours may be
changed.

The invariant behind this is `Midway`: what has been read since the last tag falls into a gap,
which is over, and the part of a tag that is under way.
-/

namespace AccessPatch.Xml

variable [Code]

/-- How a tag stands to its element. -/
inductive Form where
  | opening
  | empty
  | closing
deriving DecidableEq, Repr

/-- A tag with the gap before it. -/
structure Stretch where
  gap : List Char
  /-- The events in the gap, last one first. -/
  notes : List Event
  form : Form
  name : String
  attributes : List (String × String)
  /-- The tag itself. -/
  text : List Char
deriving Repr

namespace Stretch

/-- All characters of a stretch. -/
def chars (st : Stretch) : List Char :=
  st.gap ++ st.text

/-- The number of bytes of a stretch. -/
def size (st : Stretch) : Nat :=
  (inCode st.chars).length

/-- The elements that are open after the tag, innermost first; none if it ends an element that is
not the innermost. -/
def stackAfter? (st : Stretch) (stack : List String) : Option (List String) :=
  match st.form, stack with
  | .opening, stack => some (st.name :: stack)
  | .empty, stack => some stack
  | .closing, [] => none
  | .closing, innermost :: outer => if innermost = st.name then some outer else none

/-- The events of the tag where it begins at `start`, last one first. -/
def tagEvents (st : Stretch) (start : Nat) : List Event :=
  let stop := start + (inCode st.text).length
  match st.form with
  | .opening => [.opened st.name st.attributes start stop false]
  | .empty => [.closed st.name stop, .opened st.name st.attributes start stop true]
  | .closing => [.closed st.name start]

/-- The events of a stretch that begins at `pos`, last one first. -/
def events (st : Stretch) (pos : Nat) : List Event :=
  st.tagEvents (pos + (inCode st.gap).length) ++ st.notes

/-- The tag is spelled as its form asks for. -/
def Spelled (alphabet : Alphabet) (st : Stretch) : Prop :=
  match st.form with
  | .opening => StartSpelled alphabet st.name false st.text
  | .empty => StartSpelled alphabet st.name true st.text
  | .closing => EndSpelled alphabet st.name st.text

/-- A reader in content goes through the gap before a tag wherever that stands, and comes to
character data. -/
def PassesGap (context : Prolog.Context) (gap : List Char) (notes : List Event) : Prop :=
  ∀ r : Reader, r.phase = .content .idle → r.unit = 1 → r.context = context →
    ∃ mark brackets cr, r.feed gap = .ok { r with
      phase := .content (.text brackets cr)
      mark
      offset := r.offset + (inCode gap).length
      events := notes ++ r.events }

/-- A reader in content goes through the stretch wherever that stands, as long as an end tag finds
its element open. -/
def Passes (context : Prolog.Context) (st : Stretch) : Prop :=
  ∀ (r : Reader) (stack : List String), r.phase = .content .idle → r.unit = 1 →
    r.context = context →
    st.stackAfter? r.stack = some stack → ∃ mark,
      r.feed st.chars =
        .ok (r.between mark stack (st.events r.offset ++ r.events) (r.offset + st.size))

/-- The stretch with its empty-element tag made into a start tag. -/
def openUp (st : Stretch) : Stretch :=
  { st with form := .opening, text := st.text.dropLast.dropLast ++ ['>'] }

/-- A stretch that is read as one anywhere. -/
structure Sound (context : Prolog.Context) (st : Stretch) : Prop where
  spelled : st.Spelled context.alphabet
  passes : st.Passes context
  only : Content.OnlyInstructions st.notes
  gap : PassesGap context st.gap st.notes
  openUp : st.form = .empty → st.openUp.Passes context ∧ st.openUp.Spelled context.alphabet

end Stretch

namespace Reader

open Content (Spells Outcome OnlyInstructions)

/-- What a reader has read since it was in `r₀` between two tags: a gap, or a gap and the part of
a tag that is under way. -/
inductive Midway (r₀ : Reader) : List Char → Reader → Prop where
  | gap {cs : List Char} {notes : List Event} {r : Reader} {lexer : Content.Lexer}
      (run : Quiet r₀ cs notes r) (phase : r.phase = .content lexer)
      (loose : lexer.isLoose = true) :
      Midway r₀ cs r
  | tag {gap text : List Char} {notes : List Event} {m r : Reader} {lexer : Content.Lexer}
      (run : Quiet r₀ gap notes m) (data : ∃ brackets cr, m.phase = .content (.text brackets cr))
      (tag : Quiet m text [] r) (phase : r.phase = .content lexer)
      (mark : r.mark = m.offset) (spells : Spells r₀.context.alphabet lexer text)
      (slash : ∀ t, lexer = .tag t .slash → ∃ before m' lexer', text = before ++ ['/'] ∧
        Quiet m before [] m' ∧ m'.phase = .content lexer' ∧ m'.mark = m.offset ∧
        Spells r₀.context.alphabet lexer' before ∧
        ∀ unit pos, Content.Lexer.readChar r₀.context.alphabet unit pos lexer' '>' =
          .ok ⟨.idle, some (.startTag { t with attributes := t.attributes.reverse } false)⟩) :
      Midway r₀ (gap ++ text) r

omit [Code] in
theorem between_congr {r q : Reader} (hunit : r.unit = q.unit) (hcontext : r.context = q.context)
    (hadmits : r.admitsEntityTags = q.admitsEntityTags) (mark : Nat) (stack : List String)
    (events : List Event) (offset : Nat) :
    r.between mark stack events offset = q.between mark stack events offset := by
  simp only [between, hunit, hcontext, hadmits]

omit [Code] in
theorem relocate_eq {r q : Reader} {start : Nat} (hr : r.phase = .content .idle)
    (hq : q.phase = .content .idle) (hunit : r.unit = q.unit) (hcontext : r.context = q.context)
    (hstart : moving r.offset start r.offset = q.offset) :
    r.relocate (moving r.offset start) q.admitsEntityTags q.stack q.events =
      { q with mark := moving r.offset start r.mark } := by
  obtain ⟨unit, admits, context, phase, offset, mark, stack, events⟩ := q
  simp only at hq hunit hcontext hstart
  subst hq hunit hcontext hstart
  simp only [relocate, hr]
  rfl

/-- A gap passes anywhere if it has passed once. -/
theorem passesGap_of_quiet {r₀ m : Reader} {gap : List Char} {notes : List Event} {brackets : Nat}
    {cr : Option Nat} (hr₀ : r₀.phase = .content .idle) (hunit : r₀.unit = 1)
    (run : Quiet r₀ gap notes m) (hphase : m.phase = .content (.text brackets cr)) :
    Stretch.PassesGap r₀.context gap notes := by
  intro q hq hqunit hqcontext
  let f := moving r₀.offset q.offset
  have hf : Moves f r₀.offset := moves_moving _ _
  have hstart : f r₀.offset = q.offset := by
    simp only [f, moving]
    omega
  have hgap := run.anywhere f q.admitsEntityTags q.stack q.events hf
  rw [relocate_eq hr₀ hq (hunit.trans hqunit.symm) hqcontext.symm hstart] at hgap
  have hm : f m.offset = q.offset + (inCode gap).length := by
    rw [run.offset, hf _ _ (Nat.le_refl _), hstart]
  have hrelocate : m.relocate f q.admitsEntityTags q.stack (notes ++ q.events) = { q with
      phase := .content (.text brackets (cr.map f))
      mark := f m.mark
      offset := q.offset + (inCode gap).length
      events := notes ++ q.events } := by
    simp only [relocate, hphase, hm, run.unit, run.context, hunit, hqunit, hqcontext]
    rfl
  by_cases hempty : gap = []
  · subst hempty
    have hnotes : notes = [] := by
      have hevents := run.events
      cases run.feed
      exact List.self_eq_append_left.mp hevents
    subst hnotes
    refine ⟨q.mark, 0, none, ?_⟩
    rw [feed_nil]
    obtain ⟨unit, admits, context, phase, offset, mark, stack, events⟩ := q
    obtain rfl : phase = .content .idle := hq
    rfl
  · refine ⟨f m.mark, brackets, cr.map f, ?_⟩
    rw [← hrelocate, ← hgap]
    exact (feed_of_text_mark hq rfl _ hempty).symm

/-- A stretch passes anywhere if it has passed once, up to the last character, and that character
ends its tag anywhere. -/
theorem passes_of_last {r₀ m r : Reader} {st : Stretch} {text : List Char} {lexer : Content.Lexer}
    {c : Char} (hr₀ : r₀.phase = .content .idle) (hunit : r₀.unit = 1)
    (run : Quiet r₀ st.gap st.notes m) (tag : Quiet m text [] r) (hphase : r.phase = .content lexer)
    (hmark : r.mark = m.offset) (htext : st.text = text ++ [c])
    (hlast : ∀ (q : Reader) (f : Nat → Nat) (stack : List String),
      q.phase = .content (lexer.relocate f) → q.unit = r.unit → q.context = r.context →
      q.offset = f r.offset → q.offset = q.mark + (inCode text).length →
      st.stackAfter? q.stack = some stack →
      q.step (.ofChar c) = .ok (q.between q.mark stack (st.tagEvents q.mark ++ q.events)
        (q.offset + (Symbol.ofChar c).width))) :
    st.Passes r₀.context := by
  intro q stack hq hqunit hqcontext hstack
  let f := moving r₀.offset q.offset
  have hf : Moves f r₀.offset := moves_moving _ _
  have hstart : f r₀.offset = q.offset := by
    simp only [f, moving]
    omega
  have hchars : st.chars = st.gap ++ (text ++ [c]) := by
    rw [Stretch.chars, htext]
  have hq' : q.feed st.chars =
      (r₀.relocate f q.admitsEntityTags q.stack q.events).feed st.chars := by
    rw [relocate_eq hr₀ hq (hunit.trans hqunit.symm) hqcontext.symm hstart]
    exact (feed_of_text_mark hq rfl _ (by simp [hchars])).symm
  have hm : f m.offset = q.offset + (inCode st.gap).length := by
    rw [run.offset, hf _ _ (Nat.le_refl _), hstart]
  have hr : f r.offset = f m.offset + (inCode text).length := by
    have hle : r₀.offset ≤ m.offset := by
      rw [run.offset]
      omega
    rw [tag.offset, hf _ _ hle]
  have hgap := run.anywhere f q.admitsEntityTags q.stack q.events hf
  have htag := tag.anywhere f q.admitsEntityTags q.stack (st.notes ++ q.events)
    (hf.mono (by rw [run.offset]; omega))
  have hstep := hlast (r.relocate f q.admitsEntityTags q.stack (st.notes ++ q.events)) f stack
    (by simp only [relocate, hphase]) rfl rfl rfl (by simp only [relocate, hmark, hr]) hstack
  refine ⟨f r.mark, ?_⟩
  rw [hq', hchars]
  refine feed_append_eq_ok_iff.mpr ⟨_, hgap, feed_append_eq_ok_iff.mpr ⟨_, htag, ?_⟩⟩
  have hbetween :=
    between_congr (r := r.relocate f q.admitsEntityTags q.stack (st.notes ++ q.events))
    (q := q) (tag.unit.trans (run.unit.trans (hunit.trans hqunit.symm)))
    (tag.context.trans (run.context.trans hqcontext.symm)) rfl
  rw [List.nil_append, feed_singleton, hstep, hbetween]
  have hsize :
      st.size = (inCode st.gap).length + ((inCode text).length + (Symbol.ofChar c).width) := by
    rw [Stretch.size, hchars, inCode_append, inCode_append, List.length_append, List.length_append,
      inCode_cons, inCode_nil, List.append_nil, length_write]
  have hoffset : f r.offset + (Symbol.ofChar c).width = q.offset + st.size := by
    omega
  simp only [relocate, Stretch.events, hmark, hm, hoffset, List.append_assoc]

theorem length_inCode_concat (text : List Char) (c : Char) :
    (inCode (text ++ [c])).length = (inCode text).length + (Symbol.ofChar c).width := by
  rw [inCode_append, List.length_append, inCode_cons, inCode_nil, List.append_nil,
    length_write]

/-- The form of a start tag. -/
def formOfStart (empty : Bool) : Form :=
  if empty then .empty else .opening

theorem passes_startTag {r₀ m r : Reader} {gap text : List Char} {notes : List Event}
    {lexer : Content.Lexer} {c : Char} {tag : Content.StartTag} {empty : Bool}
    {attributes : List (String × String)} (hr₀ : r₀.phase = .content .idle) (hunit : r₀.unit = 1)
    (run : Quiet r₀ gap notes m) (under : Quiet m text [] r) (hphase : r.phase = .content lexer)
    (htext : lexer.isText = false) (hmark : r.mark = m.offset)
    (hlexed : lexer.step r.context.alphabet r.unit r.offset (.ofChar c) =
      .ok ⟨.idle, some (.startTag tag empty)⟩)
    (hattributes : tag.resolve r.context.dtd r.context.alphabet [] = .ok attributes) :
    Stretch.Passes r₀.context ⟨gap, notes, formOfStart empty, tag.name, attributes,
      text ++ [c]⟩ := by
  refine passes_of_last hr₀ hunit run under hphase hmark rfl ?_
  intro q f stack hq hqunit hqcontext hoffset hstop hstack
  have hlexed' := Content.Lexer.step_relocate f hlexed
  rw [← hqcontext, ← hqunit, ← hoffset] at hlexed'
  have hattributes' := Content.StartTag.resolve_relocate f hattributes
  rw [← hqcontext] at hattributes'
  have htext' : (lexer.relocate f).isText = false := by rw [Content.Lexer.isText_relocate, htext]
  rw [step_startTag hq htext' hlexed' hattributes']
  have hend : q.mark + (inCode (text ++ [c])).length = q.offset + (Symbol.ofChar c).width := by
    rw [length_inCode_concat]
    omega
  cases empty with
  | false =>
    cases hstack
    simp only [Stretch.tagEvents, formOfStart, eventsOfStart, hend]
    rfl
  | true =>
    cases hstack
    simp only [Stretch.tagEvents, formOfStart, eventsOfStart, hend]
    rfl

theorem passes_endTag {r₀ m r : Reader} {gap text : List Char} {notes : List Event}
    {lexer : Content.Lexer} {c : Char} {name : String} (hr₀ : r₀.phase = .content .idle)
    (hunit : r₀.unit = 1) (run : Quiet r₀ gap notes m) (under : Quiet m text [] r)
    (hphase : r.phase = .content lexer) (htext : lexer.isText = false) (hmark : r.mark = m.offset)
    (hlexed : lexer.step r.context.alphabet r.unit r.offset (.ofChar c) =
      .ok ⟨.idle, some (.endTag name)⟩) :
    Stretch.Passes r₀.context ⟨gap, notes, .closing, name, [], text ++ [c]⟩ := by
  refine passes_of_last hr₀ hunit run under hphase hmark rfl ?_
  intro q f stack hq hqunit hqcontext hoffset hstop hstack
  have hlexed' := Content.Lexer.step_relocate f hlexed
  rw [← hqcontext, ← hqunit, ← hoffset] at hlexed'
  have htext' : (lexer.relocate f).isText = false := by rw [Content.Lexer.isText_relocate, htext]
  cases hopen : q.stack with
  | nil =>
    rw [hopen] at hstack
    cases hstack
  | cons innermost outer =>
    rw [hopen] at hstack
    simp only [Stretch.stackAfter?] at hstack
    split at hstack
    · rename_i hname
      cases hstack
      rw [step_endTag hq htext' hlexed' (hname ▸ hopen)]
      rfl
    · cases hstack

/-! ## Cutting off a stretch -/

section Cut

variable {r₀ r r' : Reader} {cs : List Char} {c : Char}

omit [Code] in
theorem isText_of_spells {alphabet : Alphabet} {lexer : Content.Lexer} {text : List Char}
    (h : Spells alphabet lexer text) : lexer.isText = false := by
  cases lexer with
  | text brackets cr => exact h.elim
  | _ => rfl

theorem readChar_of_spells {alphabet : Alphabet} {unit pos : Nat} {lexer : Content.Lexer}
    {text : List Char} (h : Spells alphabet lexer text) (c : Char) :
    lexer.step alphabet unit pos (.ofChar c) =
      Content.Lexer.readChar alphabet unit pos lexer c := by
  cases lexer with
  | sectionOpen rest bad bytes => exact h.elim
  | _ => rfl

theorem step_of_readChar {alphabet : Alphabet} {unit pos : Nat} {lexer : Content.Lexer}
    {lexed : Content.Lexed} (h : Content.Lexer.readChar alphabet unit pos lexer c = .ok lexed) :
    lexer.step alphabet unit pos (.ofChar c) = .ok lexed := by
  cases lexer with
  | sectionOpen rest bad bytes => cases h
  | _ => exact h

omit [Code] in
theorem getLast?_of_slash {alphabet : Alphabet} {t : Content.StartTag} {text : List Char}
    (h : Spells alphabet (.tag t .slash) text) : text.getLast? = some '/' := by
  obtain ⟨-, ⟨more, rfl, -, hslash, -⟩, -⟩ := h
  have hlast := hslash rfl
  rw [← List.cons_append, List.getLast?_append, hlast]
  rfl

/-- Where a slash may end an empty-element tag, the tag may end without it. -/
theorem midway_slash {m r : Reader} {before : List Char} {lexer next : Content.Lexer}
    {alphabet : Alphabet} {unit pos : Nat} (run : Quiet m before [] r)
    (hphase : r.phase = .content lexer) (hmark : r.mark = m.offset)
    (hspells : Spells alphabet lexer before)
    (hnext : Spells alphabet next (before ++ [c]))
    (hread : Content.Lexer.readChar alphabet unit pos lexer c = .ok ⟨next, none⟩) :
    ∀ t, next = .tag t .slash → ∃ front m' lexer', before ++ [c] = front ++ ['/'] ∧
      Quiet m front [] m' ∧ m'.phase = .content lexer' ∧ m'.mark = m.offset ∧
      Spells alphabet lexer' front ∧
      ∀ unit pos, Content.Lexer.readChar alphabet unit pos lexer' '>' =
        .ok ⟨.idle, some (.startTag { t with attributes := t.attributes.reverse } false)⟩ := by
  rintro t rfl
  have hc : c = '/' := by
    have hlast := getLast?_of_slash hnext
    rw [List.getLast?_concat] at hlast
    exact Option.some.inj hlast
  subst hc
  exact ⟨before, r, lexer, rfl, run, hphase, hmark, hspells, Content.readChar_of_slash hread⟩

/-- One more character of a gap. -/
theorem midway_step_gap {notes : List Event} {lexer : Content.Lexer}
    (hadmits : r₀.admitsEntityTags = false) (run : Quiet r₀ cs notes r)
    (hphase : r.phase = .content lexer) (hloose : lexer.isLoose = true)
    (hstep : r.step (.ofChar c) = .ok r') : Midway r₀ (cs ++ [c]) r' := by
  obtain ⟨lexed, hlexed⟩ := exists_lexed hphase hstep
  rcases Content.loose_step hloose hlexed with ⟨htext, hc, rfl⟩ | ⟨hloose', hquiet⟩
  · obtain ⟨notes', run', hnone, hphase', hmark⟩ :=
      quiet_step (run.admits.trans hadmits) hphase hlexed Content.quiet_none hstep
    obtain rfl : notes' = [] := hnone rfl
    obtain rfl : c = '<' := Glyph.char.inj hc
    have hdata : ∃ brackets cr, r.phase = .content (.text brackets cr) := by
      cases lexer with
      | text brackets cr => exact ⟨brackets, cr, hphase⟩
      | _ => cases htext
    refine .tag run hdata run' hphase' ?_ rfl (by simp)
    rw [hmark, markAt, htext, if_pos rfl]
  · obtain ⟨notes', run', -, hphase', -⟩ :=
      quiet_step (run.admits.trans hadmits) hphase hlexed hquiet hstep
    exact .gap (run.append run') hphase' hloose'

/-- A reader has read a gap since it was in `r₀`, up to `m`, and the part `text` of a tag. -/
structure UnderTag (r₀ : Reader) (gap : List Char) (notes : List Event) (m : Reader)
    (text : List Char) (r : Reader) (lexer : Content.Lexer) : Prop where
  run : Quiet r₀ gap notes m
  under : Quiet m text [] r
  phase : r.phase = .content lexer
  mark : r.mark = m.offset
  spells : Spells r₀.context.alphabet lexer text

section UnderTag

variable {m : Reader} {gap text : List Char} {notes : List Event} {lexer : Content.Lexer}

theorem UnderTag.context (h : UnderTag r₀ gap notes m text r lexer) : r.context = r₀.context :=
  h.under.context.trans h.run.context

theorem UnderTag.passes_startTag (hr₀ : r₀.phase = .content .idle) (hunit : r₀.unit = 1)
    (h : UnderTag r₀ gap notes m text r lexer) {tag : Content.StartTag} {empty : Bool}
    {attributes : List (String × String)}
    (hread : ∀ unit pos, Content.Lexer.readChar r₀.context.alphabet unit pos lexer c =
      .ok ⟨.idle, some (.startTag tag empty)⟩)
    (hattributes : tag.resolve r₀.context.dtd r₀.context.alphabet [] = .ok attributes) :
    Stretch.Passes r₀.context ⟨gap, notes, formOfStart empty, tag.name, attributes,
      text ++ [c]⟩ := by
  rw [← h.context] at hread hattributes
  exact Reader.passes_startTag hr₀ hunit h.run h.under h.phase (isText_of_spells h.spells) h.mark
    (step_of_readChar (hread _ _)) hattributes

/-- Where a slash may end an empty-element tag, the stretch with a start tag in its place passes
as well. -/
theorem UnderTag.passes_openUp (hr₀ : r₀.phase = .content .idle) (hunit : r₀.unit = 1)
    {t : Content.StartTag} {attributes : List (String × String)}
    (h : UnderTag r₀ gap notes m text r lexer)
    (hread : ∀ unit pos, Content.Lexer.readChar r₀.context.alphabet unit pos lexer '>' =
      .ok ⟨.idle, some (.startTag { t with attributes := t.attributes.reverse } false)⟩)
    (hattributes : ({ t with attributes := t.attributes.reverse } : Content.StartTag).resolve
      r₀.context.dtd r₀.context.alphabet [] = .ok attributes) :
    let st : Stretch := ⟨gap, notes, .opening, t.name, attributes, text ++ ['>']⟩
    st.Passes r₀.context ∧ st.Spelled r₀.context.alphabet := by
  refine ⟨h.passes_startTag hr₀ hunit hread hattributes, ?_⟩
  cases Content.spells_step h.spells (hread 1 0) with
  | going token spells => cases token
  | loose token loose => cases token
  | startTag tag empty eq spelled slash =>
    cases eq
    exact spelled
  | endTag name eq spelled => cases eq

end UnderTag

/-- After one more character the reader is still between two tags, or it has gone through a
stretch. -/
theorem midway_step (hr₀ : r₀.phase = .content .idle) (hunit : r₀.unit = 1)
    (hadmits : r₀.admitsEntityTags = false) (h : Midway r₀ cs r)
    (hstep : r.step (.ofChar c) = .ok r') :
    Midway r₀ (cs ++ [c]) r' ∨
      ∃ st : Stretch, st.chars = cs ++ [c] ∧ st.Sound r₀.context ∧
        ∃ stack, st.stackAfter? r₀.stack = some stack := by
  cases h with
  | @gap cs notes r lexer run hphase hloose =>
    exact .inl (midway_step_gap hadmits run hphase hloose hstep)
  | @tag gap text notes m r lexer run hdata under hphase hmark hspells hslash =>
    have htag : UnderTag r₀ gap notes m text r lexer := ⟨run, under, hphase, hmark, hspells⟩
    obtain ⟨brackets, cr, hdata'⟩ := hdata
    have hgap := passesGap_of_quiet hr₀ hunit run hdata'
    obtain ⟨lexed, hlexed⟩ := exists_lexed hphase hstep
    have hcontext : r.context = r₀.context := htag.context
    have hadmits' : r.admitsEntityTags = false := (under.admits.trans run.admits).trans hadmits
    have htext := isText_of_spells hspells
    have hread := hlexed
    rw [hcontext, readChar_of_spells hspells] at hread
    rw [List.append_assoc]
    rcases Content.spells_step hspells hread with ⟨htoken, hspells'⟩ | ⟨htoken, hloose⟩ |
      ⟨tag, empty, rfl, hspelled, hempty⟩ | ⟨name, rfl, hspelled⟩
    · left
      obtain ⟨next, token⟩ := lexed
      obtain rfl : token = none := htoken
      obtain ⟨notes', run', hnone, hphase', hmark'⟩ :=
        quiet_step hadmits' hphase hlexed Content.quiet_none hstep
      obtain rfl : notes' = [] := hnone rfl
      rw [markAt, htext, if_neg (by simp), hmark] at hmark'
      exact .tag run ⟨brackets, cr, hdata'⟩ (under.append run') hphase' hmark' hspells'
        (midway_slash under hphase hmark hspells hspells' hread)
    · left
      obtain ⟨next, token⟩ := lexed
      obtain rfl : token = none := htoken
      obtain ⟨notes', run', -, hphase', -⟩ :=
        quiet_step hadmits' hphase hlexed Content.quiet_none hstep
      rw [← List.append_assoc]
      exact .gap ((run.append under).append run') hphase' hloose
    · right
      obtain ⟨attributes, hattributes⟩ := step_startTag_inv hphase hlexed hstep
      refine ⟨⟨gap, notes, formOfStart empty, tag.name, attributes, text ++ [c]⟩, rfl,
        ⟨?_, ?_, run.only, hgap, ?_⟩, ?_⟩
      · cases empty
        · exact hspelled
        · exact hspelled
      · exact passes_startTag hr₀ hunit run under hphase htext hmark hlexed hattributes
      · intro hform
        obtain rfl : empty = true := by
          cases empty
          · cases hform
          · rfl
        obtain ⟨t, rfl, rfl⟩ := hempty rfl
        obtain ⟨front, m', lexer', rfl, under', hphase', hmark', hspells', hread'⟩ := hslash t rfl
        have htag' : UnderTag r₀ gap notes m front m' lexer' :=
          ⟨run, under', hphase', hmark', hspells'⟩
        have hfront : (front ++ ['/'] ++ [c]).dropLast.dropLast = front := by simp
        simp only [Stretch.openUp, hfront]
        exact htag'.passes_openUp hr₀ hunit hread' (hcontext ▸ hattributes)
      · cases empty
        · exact ⟨_, rfl⟩
        · exact ⟨_, rfl⟩
    · right
      obtain ⟨outer, hstack⟩ := step_endTag_inv hphase hlexed hstep
      refine ⟨⟨gap, notes, .closing, name, [], text ++ [c]⟩, rfl,
        ⟨hspelled, ?_, run.only, hgap, by simp⟩, outer, ?_⟩
      · exact passes_endTag hr₀ hunit run under hphase htext hmark hlexed
      · rw [under.stack, run.stack] at hstack
        simp [Stretch.stackAfter?, hstack]

/-- **The first stretch.** A reader that is between two tags and comes to the end of the root
element goes through a stretch first. -/
theorem exists_stretch {last : Reader} (hr₀ : r₀.phase = .content .idle) (hunit : r₀.unit = 1)
    (hadmits : r₀.admitsEntityTags = false) (h : r₀.feed cs = .ok last)
    (hlast : ∀ lexer, last.phase ≠ .content lexer) :
    ∃ (st : Stretch) (rest : List Char) (stack : List String), cs = st.chars ++ rest ∧
      st.Sound r₀.context ∧ st.stackAfter? r₀.stack = some stack := by
  have hmidway : ∀ (ds : List Char) {cs : List Char} {r : Reader}, Midway r₀ cs r →
      r.feed ds = .ok last → ∃ (st : Stretch) (rest : List Char) (stack : List String),
        cs ++ ds = st.chars ++ rest ∧ st.Sound r₀.context ∧
        st.stackAfter? r₀.stack = some stack := by
    intro ds
    induction ds with
    | nil =>
      intro cs r hr hfeed
      cases hfeed
      cases hr with
      | gap run hphase hloose => exact absurd hphase (hlast _)
      | tag run hdata under hphase hmark hspells hslash => exact absurd hphase (hlast _)
    | cons c ds ih =>
      intro cs r hr hfeed
      obtain ⟨r', hstep, hrest⟩ := feed_cons_eq_ok_iff.mp hfeed
      rcases midway_step hr₀ hunit hadmits hr hstep with hr' | ⟨st, hchars, hsound, stack, hstack⟩
      · obtain ⟨st, rest, stack, hcs, hst⟩ := ih hr' hrest
        refine ⟨st, rest, stack, ?_, hst⟩
        rw [← hcs, List.append_assoc, List.singleton_append]
      · refine ⟨st, ds, stack, ?_, hsound, hstack⟩
        rw [hchars, List.append_assoc, List.singleton_append]
  exact hmidway cs (.gap (quiet_nil r₀) hr₀ rfl) h

end Cut

end Reader

end AccessPatch.Xml
