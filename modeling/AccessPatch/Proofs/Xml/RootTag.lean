import AccessPatch.Proofs.Xml.Readable
import AccessPatch.Xml.Source

/-!
# The tag of the root element

A document that is read to its end has a start tag, and that begins where the document has a `<`.
This is so in every encoding, since it hangs on the symbols only: `Marked` says of a reader that
the tag under way begins at such a place and that a tag has been noted as soon as an element is
open or the root element has ended. `Marked.step` keeps it over one symbol, and
`exists_opened_of_run` is what comes of it at the end.
-/

namespace AccessPatch.Xml

/-- One `<` is not followed by the beginning of another token. -/
theorem Prolog.Lexer.next_afterLessThan_ne {alphabet : Alphabet} {start mark : Nat} {c : Char} :
    (Prolog.Lexer.afterLessThan alphabet start c).next ≠ .ok (.lessThan, mark) := by
  intro h
  unfold Prolog.Lexer.afterLessThan at h
  repeat' split at h
  all_goals cases h

/-- Each `<` among symbols that begin at `pos` has an offset with the property. -/
def LessThanAt (P : Nat → Prop) : Nat → List Symbol → Prop
  | _, [] => True
  | pos, s :: rest => (s.glyph = .char '<' → P pos) ∧ LessThanAt P (pos + s.width) rest

/-- A start tag at an offset with the property is among the events. -/
def HasTagAt (P : Nat → Prop) (events : List Event) : Prop :=
  ∃ name attributes start stop empty, .opened name attributes start stop empty ∈ events ∧ P start

theorem HasTagAt.append_left {P : Nat → Prop} {events : List Event} (h : HasTagAt P events)
    (more : List Event) : HasTagAt P (more ++ events) := by
  obtain ⟨name, attributes, start, stop, empty, hevent, hstart⟩ := h
  exact ⟨name, attributes, start, stop, empty, List.mem_append_right more hevent, hstart⟩

namespace Reader

open Prolog (State)

variable {P : Nat → Prop} {r r' : Reader} {s : Symbol}

/-- A tag under way begins at an offset with the property, and a start tag at such an offset has
been noted where an element is open or the root element has ended. -/
structure Marked (P : Nat → Prop) (r : Reader) : Prop where
  content : ∀ lexer, r.phase = .content lexer → lexer.isLoose = false → P r.mark
  root : ∀ state, r.phase = .prolog state .lessThan → P r.mark
  opened : r.stack ≠ [] → HasTagAt P r.events
  ended : ∀ lexer, r.phase = .prolog .epilog lexer → HasTagAt P r.events

/-- Where reading a document begins. -/
theorem marked_reader (P : Nat → Prop) (source : Source) (alphabet : Alphabet) (admits : Bool) :
    (source.reader alphabet admits).Marked P where
  content lexer h := by cases h
  root state h := by cases h
  opened h := absurd rfl h
  ended lexer h := by cases h

/-! ## Content -/

namespace Marked

theorem note (hr : r.Marked P) (notes : List Event) :
    ({ r with events := notes ++ r.events } : Reader).Marked P where
  content := hr.content
  root := hr.root
  opened h := (hr.opened h).append_left notes
  ended lexer h := (hr.ended lexer h).append_left notes

/-- With a start tag noted, any elements may be open. -/
theorem withStack (hr : r.Marked P) (htag : HasTagAt P r.events) (stack : List String) :
    ({ r with stack } : Reader).Marked P where
  content := hr.content
  root := hr.root
  opened _ := htag
  ended _ _ := htag

theorem leave (hr : r.Marked P) (htag : HasTagAt P r.events) : r.leave.Marked P := by
  unfold Reader.leave
  split
  · refine ⟨fun lexer hphase => ?_, fun state hphase => ?_, fun _ => htag, fun _ _ => htag⟩
    · cases hphase
    · cases hphase
  · exact hr

/-- What the reader does about a token; a start tag is the one under way. -/
theorem act (hr : r.Marked P) {token : Content.Token} {stop : Nat}
    (hmark : ∀ tag empty, token = .startTag tag empty → P r.mark) (h : r.act token stop = .ok r') :
    r'.Marked P := by
  cases token with
  | startTag tag empty =>
    simp only [Reader.act, openElement] at h
    split at h
    · cases h
    · rename_i attributes hattributes
      have hevent : ∀ notes, HasTagAt P
          (notes ++ .opened tag.name attributes r.mark stop empty :: r.events) := fun notes =>
        ⟨_, _, _, _, _, List.mem_append_right notes List.mem_cons_self, hmark tag empty rfl⟩
      split at h
      · cases h
        exact (hr.note [.closed tag.name stop, .opened tag.name attributes r.mark stop empty]).leave
          (hevent [.closed tag.name stop])
      · cases h
        exact (hr.note [.opened tag.name attributes r.mark stop empty]).withStack (hevent []) _
  | endTag name =>
    simp only [Reader.act, closeElement] at h
    split at h
    · cases h
    · rename_i innermost outer hstack
      split at h
      · cases h
        have htag : HasTagAt P (.closed name r.mark :: r.events) :=
          (hr.opened (by simp [hstack])).append_left [.closed name r.mark]
        exact ((hr.note [.closed name r.mark]).withStack htag outer).leave htag
      · cases h
  | instruction target =>
    simp only [Reader.act] at h
    split at h
    · cases h
    · cases h
      exact hr.note [.instruction target]
  | reference reference =>
    simp only [Reader.act] at h
    split at h
    · cases h
    · rename_i events _
      cases h
      exact hr.note events

/-- A symbol of content begins a tag or goes on with one. -/
theorem readTo (hr : r.Marked P) {lexer : Content.Lexer} {lexed : Content.Lexed}
    (hphase : r.phase = .content lexer) (hs : s.glyph = .char '<' → P r.offset)
    (hlexed : lexer.step r.context.alphabet r.unit r.offset s = .ok lexed) :
    (r.readTo lexer lexed.lexer).Marked P ∧
      ∀ tag empty, lexed.token = some (.startTag tag empty) → P (r.markAt lexer) := by
  have hmark : (lexed.lexer.isLoose = false → P (r.markAt lexer)) ∧
      ∀ tag empty, lexed.token = some (.startTag tag empty) → P (r.markAt lexer) := by
    cases hloose : lexer.isLoose with
    | true =>
      rcases Content.loose_step hloose hlexed with ⟨htext, hglyph, rfl⟩ | ⟨hloose', hquiet⟩
      · refine ⟨fun _ => ?_, fun _ _ htoken => (by cases htoken)⟩
        rw [markAt, if_pos htext]
        exact hs hglyph
      · refine ⟨fun htag => ?_, fun tag empty htoken => ?_⟩
        · rw [hloose'] at htag
          cases htag
        · cases hquiet _ htoken
    | false =>
      have htext : lexer.isText = false := by
        cases lexer with
        | text brackets cr => cases hloose
        | _ => rfl
      have hunder : P (r.markAt lexer) := by
        rw [markAt, htext]
        exact hr.content lexer hphase hloose
      exact ⟨fun _ => hunder, fun _ _ _ => hunder⟩
  refine ⟨⟨fun lexer' hlexer' => ?_, fun state hstate => ?_, hr.opened, fun _ hend => ?_⟩, hmark.2⟩
  · cases hlexer'
    exact hmark.1
  · cases hstate
  · cases hend

theorem step_content (hr : r.Marked P) {lexer : Content.Lexer} (hphase : r.phase = .content lexer)
    (hs : s.glyph = .char '<' → P r.offset) (h : r.step s = .ok r') : r'.Marked P := by
  obtain ⟨lexed, hlexed⟩ := exists_lexed hphase h
  rw [step_eq_actOn hphase hlexed] at h
  obtain ⟨next, hnext, rfl⟩ := map_eq_ok_iff.mp h
  obtain ⟨hq, htag⟩ := hr.readTo hphase hs hlexed
  have hmarked : next.Marked P := by
    cases htoken : lexed.token with
    | none =>
      rw [htoken] at hnext
      cases hnext
      exact hq
    | some token =>
      rw [htoken] at hnext
      exact hq.act (fun tag empty heq => htag tag empty (heq ▸ htoken)) hnext
  exact ⟨hmarked.content, hmarked.root, hmarked.opened, hmarked.ended⟩

/-! ## Outside the root element -/

theorem step_prolog (hr : r.Marked P) {state : State} {lexer : Prolog.Lexer}
    (hphase : r.phase = .prolog state lexer) (hs : s.glyph = .char '<' → P r.offset)
    (h : r.step s = .ok r') : r'.Marked P := by
  obtain ⟨c, hglyph⟩ := exists_char_of_step_prolog hphase h
  obtain ⟨r₁, state₁, root, htake, hrest⟩ := (step_prolog_eq_ok_iff hphase).mp h
  rw [hglyph] at htake hrest hs
  have htaken := taken_of_takeAll htake
  obtain ⟨notes, -, hevents⟩ := htaken.events
  have hopened : r₁.stack ≠ [] → HasTagAt P r₁.events := by
    rw [htaken.stack, hevents]
    exact fun hstack => (hr.opened hstack).append_left notes
  have hapart := fun hlexer : lexer ≠ .lessThan =>
    Prolog.Lexer.readChar_apart r.context.alphabet (r.startAt lexer) r.offset c hlexer
  cases root with
  | true =>
    have hlexer : lexer = .lessThan := by
      by_contra hlexer
      cases root_eq_false htake (hapart hlexer).noRoot
    subst hlexer
    obtain ⟨next, hnext, rfl⟩ := hrest
    let q : Reader := { r₁ with phase := .content .lessThan, mark := r.mark }
    have hq : q.Marked P := by
      refine ⟨fun _ _ _ => hr.root state hphase, fun _ hstate => ?_, hopened, fun _ hend => ?_⟩
      · cases hstate
      · cases hend
    have hs' : s.glyph = .char '<' → P q.offset := by
      rw [show q.offset = r.offset from htaken.offset, hglyph]
      exact hs
    have hmarked := hq.step_content rfl hs' (step_of_stepContent_lessThan hnext)
    exact ⟨hmarked.content, hmarked.root, hmarked.opened, hmarked.ended⟩
  | false =>
    obtain ⟨lexer', mark, hnext, rfl⟩ := hrest
    refine ⟨fun _ hcontent => ?_, fun state' hstate => ?_, hopened, fun lexer'' hend => ?_⟩
    · cases hcontent
    · cases hstate
      by_cases hlexer : lexer = .lessThan
      · subst hlexer
        exact absurd hnext Prolog.Lexer.next_afterLessThan_ne
      · obtain ⟨rfl, rfl⟩ := (hapart hlexer).lessThan mark hnext
        exact hs rfl
    · cases hend
      obtain ⟨rfl, -⟩ := htaken.outer rfl
      show HasTagAt P r₁.events
      rw [hevents]
      exact (hr.ended lexer hphase).append_left notes

/-- One symbol, in content or outside the root element. -/
theorem step (hr : r.Marked P) (hs : s.glyph = .char '<' → P r.offset) (h : r.step s = .ok r') :
    r'.Marked P := by
  cases hphase : r.phase with
  | prolog state lexer => exact hr.step_prolog hphase hs h
  | content lexer => exact hr.step_content hphase hs h

theorem foldlM {symbols : List Symbol} (hr : r.Marked P) (hsymbols : LessThanAt P r.offset symbols)
    (h : symbols.foldlM Reader.step r = .ok r') : r'.Marked P := by
  induction symbols generalizing r with
  | nil =>
    cases h
    exact hr
  | cons s symbols ih =>
    obtain ⟨hs, hsymbols⟩ := hsymbols
    obtain ⟨m, hm, hrest⟩ := foldlM_cons_eq_ok_iff.mp h
    rw [← step_offset hm] at hsymbols
    exact ih (hr.step hs hm) hsymbols hrest

end Marked

/-- **The root element has a tag.** A document that is read to its end has a start tag where it
has a `<`. -/
theorem exists_opened_of_run {symbols : List Symbol} {ragged : Bool} {events : List Event}
    (hr : r.Marked P) (hsymbols : LessThanAt P r.offset symbols)
    (h : r.run symbols ragged = .ok events) : HasTagAt P events := by
  obtain ⟨⟨events', dtd⟩, hread, rfl⟩ := map_eq_ok_iff.mp h
  obtain ⟨last, hlast, hread⟩ := bind_eq_ok_iff.mp hread
  obtain ⟨events'', hend, heq⟩ := bind_eq_ok_iff.mp hread
  cases heq
  obtain ⟨-, hphase, rfl⟩ := finish_eq_ok_iff.mp hend
  obtain ⟨name, attributes, start, stop, empty, hevent, hstart⟩ :=
    (hr.foldlM hsymbols hlast).ended .idle hphase
  exact ⟨name, attributes, start, stop, empty, List.mem_reverse.mpr hevent, hstart⟩

end Reader

end AccessPatch.Xml
