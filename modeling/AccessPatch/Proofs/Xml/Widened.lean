import AccessPatch.Proofs.Xml.Letters

/-!
# Reading with more letters

A document that is read to its end is read in the same way where more characters make names
(`Reader.feed_widened`), if it declares no type. In content this is so of every step
(`step_content_widened`). Outside the root element a document type could begin, in which more
letters make other tokens; so a reader there either does what it does with more letters, or goes
astray, to what has a place in a document type only, and then ends no document.
-/

namespace AccessPatch.Xml

namespace Reader

/-- The same reader with more letters, and with elements from entities. -/
def widened (r : Reader) (alphabet : Alphabet) : Reader :=
  { r with admitsEntityTags := true, context.alphabet := alphabet }

section Widened

variable {b : Alphabet} {r r' : Reader}

theorem leave_widened (r : Reader) : (r.widened b).leave = r.leave.widened b := by
  have hstack : (r.widened b).stack = r.stack := rfl
  unfold leave
  rw [hstack]
  split <;> rfl

theorem openElement_widened (h : r.context.alphabet.Within b) (hplain : r.context.dtd.entities = [])
    {tag : Content.StartTag} {empty : Bool} {stop : Nat}
    (hok : r.openElement tag empty stop = .ok r') :
    (r.widened b).openElement tag empty stop = .ok (r'.widened b) := by
  unfold openElement at hok ⊢
  cases hresolve : tag.resolve r.context.dtd r.context.alphabet [] with
  | error flaw =>
    rw [hresolve] at hok
    cases hok
  | ok attributes =>
    rw [hresolve] at hok
    have hresolve' : tag.resolve (r.widened b).context.dtd (r.widened b).context.alphabet [] =
        .ok attributes :=
      resolve_within h hplain hresolve
    rw [hresolve']
    cases empty with
    | false =>
      cases hok
      rfl
    | true =>
      cases hok
      exact congrArg Except.ok (leave_widened { r with
        events :=
          .closed tag.name stop :: .opened tag.name attributes r.mark stop true :: r.events })

theorem closeElement_widened {name : String} (hok : r.closeElement name = .ok r') :
    (r.widened b).closeElement name = .ok (r'.widened b) := by
  have hstack : (r.widened b).stack = r.stack := rfl
  simp only [closeElement, hstack] at hok ⊢
  split at hok
  · cases hok
  · rename_i innermost outer _
    split at hok
    · rename_i hname
      cases hok
      rw [if_pos hname]
      exact congrArg Except.ok
        (leave_widened { r with events := .closed name r.mark :: r.events, stack := outer })
    · cases hok

theorem act_widened (h : r.context.alphabet.Within b) (hplain : r.context.dtd.entities = [])
    {token : Content.Token} {stop : Nat} (hok : r.act token stop = .ok r') :
    (r.widened b).act token stop = .ok (r'.widened b) := by
  cases token with
  | startTag tag empty => exact openElement_widened h hplain hok
  | endTag name => exact closeElement_widened hok
  | instruction target =>
    simp only [act] at hok ⊢
    split at hok
    · cases hok
    · rename_i htarget
      cases hok
      rw [if_neg htarget]
      rfl
  | reference reference =>
    have hexpand :=
      ofTopReference_plain (a := r.context.alphabet.forEntityText) (b := b.forEntityText)
      hplain r.admitsEntityTags true r.mark r.mark reference
    simp only [act] at hok ⊢
    cases hevents : (⟨r.context.dtd, r.context.alphabet.forEntityText, r.admitsEntityTags, r.mark⟩ :
        Content.Expansion).ofTopReference reference with
    | error fault =>
      rw [hevents] at hok
      cases hok
    | ok events =>
      rw [hevents] at hok hexpand
      cases hok
      have hexpand' : (⟨(r.widened b).context.dtd, (r.widened b).context.alphabet.forEntityText,
          (r.widened b).admitsEntityTags, (r.widened b).mark⟩ : Content.Expansion).ofTopReference
            reference =
            .ok events := hexpand.symm
      rw [hexpand']
      rfl

theorem leave_context (r : Reader) : r.leave.context = r.context := by
  unfold leave
  split <;> rfl

theorem act_context {token : Content.Token} {stop : Nat} (hok : r.act token stop = .ok r') :
    r'.context = r.context := by
  cases token with
  | startTag tag empty =>
    simp only [act, openElement] at hok
    split at hok
    · cases hok
    · split at hok
      · cases hok
        exact leave_context _
      · cases hok
        rfl
  | endTag name =>
    simp only [act, closeElement] at hok
    split at hok
    · cases hok
    · split at hok
      · cases hok
        exact leave_context _
      · cases hok
  | instruction target =>
    simp only [act] at hok
    split at hok
    · cases hok
    · cases hok
      rfl
  | reference reference =>
    simp only [act] at hok
    split at hok
    · cases hok
    · cases hok
      rfl

/-- Content is read with more letters as with fewer. -/
theorem step_content_widened {lexer : Content.Lexer} {s : Symbol}
    (hphase : r.phase = .content lexer) (h : r.context.alphabet.Within b)
    (hplain : r.context.dtd.entities = []) (hok : r.step s = .ok r') :
    (r.widened b).step s = .ok (r'.widened b) ∧ r'.context = r.context ∧
      ((∃ lexer', r'.phase = .content lexer') ∨ r'.phase = .prolog .epilog .idle) := by
  obtain ⟨lexed, hlexed⟩ := exists_lexed hphase hok
  have hlexed' :
      lexer.step (r.widened b).context.alphabet (r.widened b).unit (r.widened b).offset s =
      .ok lexed := Content.Lexer.step_within h hlexed
  have hphase' : (r.widened b).phase = .content lexer := hphase
  rw [step_eq_actOn hphase hlexed] at hok
  obtain ⟨next, hnext, rfl⟩ := map_eq_ok_iff.mp hok
  rw [step_eq_actOn hphase' hlexed']
  have hread : (r.widened b).readTo lexer lexed.lexer = (r.readTo lexer lexed.lexer).widened b :=
    rfl
  rw [hread]
  cases htoken : lexed.token with
  | none =>
    rw [htoken] at hnext
    cases hnext
    exact ⟨rfl, rfl, .inl ⟨_, rfl⟩⟩
  | some token =>
    rw [htoken] at hnext
    have hact := act_widened (b := b) (r := r.readTo lexer lexed.lexer) h hplain hnext
    have hcontext : next.context = r.context := act_context (r := r.readTo lexer lexed.lexer) hnext
    refine ⟨map_eq_ok_iff.mpr ⟨_, hact, rfl⟩, hcontext, ?_⟩
    rcases (act_phase hnext).2 with hphase | hphase
    · exact .inl ⟨_, hphase⟩
    · exact .inr hphase

end Widened

end Reader

/-! ## Outside the root element -/

namespace Prolog

/-- Where a symbol leads that cannot be a part of a document without type: to more of what has no
place there, or to a token that has none. -/
inductive Lexed.Astray (lexed : Lexed) : Prop where
  | going (tokens : lexed.tokens = [])
      (next : ∀ lexer mark, lexed.next = .ok (lexer, mark) → lexer.isLive = false)
  | done (start : Nat) (token : Token) (rest : List (Nat × Token))
      (tokens : lexed.tokens = (start, token) :: rest) (refused : token.isPlain = false)

namespace Lexed

variable {start : Nat}

theorem astray_going {lexer : Lexer} (h : lexer.isLive = false) : (going lexer start).Astray :=
  .going rfl fun _ _ hnext => by cases hnext; exact h

theorem astray_failed {flaw : Flaw} : (failed flaw).Astray :=
  .going rfl fun _ _ hnext => by cases hnext

theorem astray_done {token : Token} (h : token.isPlain = false) : (done start token).Astray :=
  .done _ _ _ rfl h

theorem astray_after {token : Token} (h : token.isPlain = false) (lexed : Lexed) :
    (lexed.after start token).Astray :=
  .done _ _ _ rfl h

end Lexed

namespace Lexer

open Lexed

variable {a b : Alphabet} {c : Char} {start pos : Nat} {lexer : Lexer}

theorem afterPercent_astray : (afterPercent a start pos c).Astray := by
  unfold afterPercent
  split
  · exact astray_going rfl
  · split
    · exact astray_after rfl _
    · exact astray_failed

/-- What has no place in a document without type leads to nothing that has. -/
theorem Leads.astray {lexed : Lexed} (h : Leads a pos c start lexer lexed)
    (hlive : lexer.isLive = false) :
    lexed.Astray := by
  cases h with
  | first => cases hlive
  | percent => exact afterPercent_astray
  | failed flaw => exact astray_failed
  | going apart live => exact astray_going (live hlive)
  | done apart plain => exact astray_done (plain hlive)
  | after plain rest => exact astray_after plain _

theorem readChar_astray (h : lexer.isLive = false) : (readChar a start pos lexer c).Astray := by
  have hne : lexer ≠ .lessThan := by
    rintro rfl
    cases h
  exact (readChar_leads a start pos c hne).astray h

theorem readChar_lessThan (h : a.Within b) :
    readChar b start pos .lessThan c = readChar a start pos .lessThan c := by
  simp only [readChar, afterLessThan]
  split
  · rfl
  · rfl
  · by_cases hc : c.toNat < 0x80
    · rw [(h.ascii c hc).1]
    · rw [if_pos (.inr (Nat.le_of_not_lt hc)), if_pos (.inr (Nat.le_of_not_lt hc))]

/-- What has a place there is read with more letters as with fewer, or leads to what has none. -/
theorem readChar_live (h : a.Within b) (hlive : lexer.isLive = true) :
    readChar b start pos lexer c = readChar a start pos lexer c ∨
      lexer ≠ .lessThan ∧ (readChar a start pos lexer c).Astray := by
  cases lexer with
  | idle =>
    simp only [readChar, first]
    split
    case h_13 =>
      split
      · exact .inl rfl
      · refine .inr ⟨by rintro ⟨⟩, ?_⟩
        split
        · exact astray_going rfl
        · split
          · exact astray_going rfl
          · exact astray_failed
    all_goals exact .inl rfl
  | lessThan => exact .inl (readChar_lessThan h)
  | bang =>
    simp only [readChar]
    split
    · exact .inl rfl
    · exact .inl rfl
    · refine .inr ⟨by rintro ⟨⟩, ?_⟩
      split
      · exact astray_going rfl
      · exact astray_failed
  | comment state => exact .inl rfl
  | instruction i =>
    cases hstep : i.step a c with
    | error flaw =>
      refine .inr ⟨by rintro ⟨⟩, ?_⟩
      simp only [readChar, hstep]
      exact astray_failed
    | ok next =>
      left
      simp only [readChar, hstep, Instruction.step_within h hstep]
  | _ => cases hlive

end Lexer

end Prolog

namespace Reader

open Prolog (State Token Lexer)
open Prolog.State (Plain)

section Outside

variable {b : Alphabet} {r r' : Reader}

/-- Tokens that leave the reader outside a document type say the same with more letters. -/
theorem foldlM_takeNext_widened {tokens : List (Nat × Token)} {s s' : Reader × State × Bool}
    (h : tokens.foldlM takeNext s = .ok s') (houter : s'.2.1.isOuter = true) :
    s.2.1 = s'.2.1 ∧ s'.1.context = s.1.context ∧
      tokens.foldlM takeNext (s.1.widened b, s.2) = .ok (s'.1.widened b, s'.2) := by
  induction tokens generalizing s with
  | nil =>
    cases h
    exact ⟨rfl, rfl, rfl⟩
  | cons token tokens ih =>
    obtain ⟨m, hm, hrest⟩ := foldlM_cons_eq_ok_iff.mp h
    obtain ⟨hstate, hcontext, hrest'⟩ := ih hrest
    obtain ⟨action, htake, hroot⟩ := takeNext_eq_ok_iff.mp hm
    obtain ⟨hnext, context, hperform, hr⟩ := take_eq_ok_iff.mp htake
    rw [← hstate] at houter
    obtain ⟨hsame, hplain⟩ := State.next?_outer hnext (.inr houter) (by
      intro hname
      rw [hname] at houter
      cases houter)
    rw [perform_of_plain hplain] at hperform
    cases hperform
    refine ⟨hsame.symm.trans hstate, hcontext.trans (by rw [hr]),
      foldlM_cons_eq_ok_iff.mpr ⟨_, ?_, hrest'⟩⟩
    refine takeNext_eq_ok_iff.mpr
      ⟨action, take_eq_ok_iff.mpr ⟨hnext, _, perform_of_plain hplain _, ?_⟩, hroot⟩
    rw [hr]
    rfl

/-- A token without a place in a document without type begins a document type, or is refused. -/
theorem takeAll_refused {state state' : State} {start : Nat} {token : Token}
    {rest : List (Nat × Token)} {root : Bool} (houter : state.isOuter = true)
    (hrefused : token.isPlain = false)
    (h : r.takeAll state ((start, token) :: rest) = .ok (r', state', root)) :
    state'.isOuter = false := by
  by_contra houter'
  rw [Bool.not_eq_false] at houter'
  rw [takeAll_eq] at h
  obtain ⟨m, hm, hrest⟩ := foldlM_cons_eq_ok_iff.mp h
  obtain ⟨hstate, -⟩ := foldlM_takeNext_widened (b := {}) hrest houter'
  obtain ⟨action, htake, -⟩ := takeNext_eq_ok_iff.mp hm
  obtain ⟨hnext, -⟩ := take_eq_ok_iff.mp htake
  have hname : m.2.1 ≠ .doctypeName := by
    intro hname
    obtain rfl : state' = .doctypeName := hstate.symm.trans hname
    cases houter'
  obtain ⟨-, hplain⟩ := State.next?_outer hnext (.inl houter) hname
  cases hplain <;> cases hrefused

/-- What is under way has no place in a document without type. -/
def IsAstray (r : Reader) : Prop :=
  ∃ state lexer, r.phase = .prolog state lexer ∧ state.isOuter = true ∧ lexer.isLive = false

/-- A reader that has gone astray ends no document. -/
theorem not_isAstray_of_finish {events : List Event} (h : r.finish false = .ok events) :
    ¬ r.IsAstray := by
  rintro ⟨state, lexer, hphase, -, hlive⟩
  rw [(finish_eq_ok_iff.mp h).2.1] at hphase
  cases hphase
  cases hlive

/-- Where the reader may go on in a document without type, whether its alphabet is wide or not. -/
structure Ready (b : Alphabet) (r : Reader) : Prop where
  within : r.context.alphabet.Within b
  plain : r.context.dtd.entities = []
  phase : (∃ lexer, r.phase = .content lexer) ∨
    ∃ state lexer, r.phase = .prolog state lexer ∧ state.isOuter = true ∧ lexer.isLive = true

theorem Ready.of_context (h : r.Ready b) (hcontext : r'.context = r.context)
    (hphase : (∃ lexer, r'.phase = .content lexer) ∨
      ∃ state lexer, r'.phase = .prolog state lexer ∧ state.isOuter = true ∧ lexer.isLive = true) :
    r'.Ready b :=
  ⟨hcontext ▸ h.within, hcontext ▸ h.plain, hphase⟩

/-- The root element begins with the character after a `<`. -/
theorem eq_lessThan_of_root {r₁ : Reader} {state state₁ : State} {lexer : Lexer} {c : Char}
    (htake : r.takeAll state
      (Lexer.readChar r.context.alphabet (r.startAt lexer) r.offset lexer c).tokens =
      .ok (r₁, state₁, true)) :
    lexer = .lessThan ∧
      (Lexer.readChar r.context.alphabet (r.startAt lexer) r.offset lexer c).tokens ≠ [] := by
  constructor
  · by_contra hlexer
    have hapart := Lexer.readChar_apart r.context.alphabet (r.startAt lexer) r.offset c hlexer
    cases root_eq_false htake hapart.noRoot
  · intro hnil
    rw [hnil] at htake
    cases htake

variable [Code] {c : Char} {state : State} {lexer : Lexer}

theorem isAstray_of_astray (hphase : r.phase = .prolog state lexer) (houter : state.isOuter = true)
    (hlexer : lexer ≠ .lessThan)
    (hastray : (Lexer.readChar r.context.alphabet (r.startAt lexer) r.offset lexer c).Astray)
    (hok : r.step (.ofChar c) = .ok r') : r'.phase.inType = true ∨ r'.IsAstray := by
  obtain ⟨r₁, state₁, root, htake, hrest⟩ := (step_prolog_eq_ok_iff hphase).mp hok
  have hapart := Lexer.readChar_apart r.context.alphabet (r.startAt lexer) r.offset c hlexer
  obtain rfl : root = false := root_eq_false htake hapart.noRoot
  obtain ⟨lexer', mark, hnext, rfl⟩ := hrest
  change r.takeAll state (Lexer.readChar _ _ _ _ c).tokens = _ at htake
  change (Lexer.readChar _ _ _ _ c).next = _ at hnext
  cases hastray with
  | going tokens next =>
    rw [tokens] at htake
    cases htake
    exact .inr ⟨state, lexer', rfl, houter, next _ _ hnext⟩
  | done start token rest tokens refused =>
    rw [tokens] at htake
    have hinner := takeAll_refused houter refused htake
    left
    show (! state₁.isOuter) = true
    rw [hinner]
    rfl

theorem isAstray_step (h : r.IsAstray) (hok : r.step (.ofChar c) = .ok r') :
    r'.phase.inType = true ∨ r'.IsAstray := by
  obtain ⟨state, lexer, hphase, houter, hlive⟩ := h
  have hlexer : lexer ≠ .lessThan := by
    rintro rfl
    cases hlive
  exact isAstray_of_astray hphase houter hlexer (Lexer.readChar_astray hlive) hok

/-- The root element begins with more letters as with fewer. -/
theorem step_root_widened (h : r.Ready b) (hphase : r.phase = .prolog state .lessThan)
    (hroot : (Lexer.readChar r.context.alphabet r.mark r.offset .lessThan c).tokens ≠ [])
    (hok : r.step (.ofChar c) = .ok r') :
    (r.widened b).step (.ofChar c) = .ok (r'.widened b) ∧ r'.context = r.context ∧ r'.Ready b := by
  have hc : Lexer.afterLessThan r.context.alphabet r.mark c = .done r.mark .rootOpen :=
    afterLessThan_of_tokens hroot
  have hsame : Lexer.readChar b r.mark r.offset .lessThan c =
      Lexer.readChar r.context.alphabet r.mark r.offset .lessThan c :=
        Lexer.readChar_lessThan h.within
  have hc' : Lexer.afterLessThan (r.widened b).context.alphabet (r.widened b).mark c =
      .done (r.widened b).mark .rootOpen := hsame.trans hc
  have hstate : state = .beforeDoctype ∨ state = .afterDoctype := by
    obtain ⟨r₁, state₁, root, htake, -⟩ := (step_prolog_eq_ok_iff hphase).mp hok
    have htokens : (Lexer.step r.context.alphabet (r.startAt .lessThan) r.offset .lessThan
        (Symbol.ofChar c).glyph).tokens = [(r.mark, .rootOpen)] := congrArg Prolog.Lexed.tokens hc
    rw [htokens] at htake
    obtain ⟨action, htake, -⟩ := takeAll_singleton htake
    obtain ⟨hnext, -⟩ := take_eq_ok_iff.mp htake
    simp only [State.next?] at hnext
    split at hnext
    · assumption
    · cases hnext
  obtain ⟨hstep, hcontext, hphase'⟩ :=
    step_content_widened (b := b) (r := { r with phase := .content .lessThan }) rfl h.within h.plain
      ((step_root hphase hstate hc).mp hok)
  refine ⟨(step_root (r := r.widened b) hphase hstate hc').mpr hstep, hcontext,
    h.of_context hcontext ?_⟩
  exact hphase'.imp_right fun hphase' => ⟨_, _, hphase', rfl, rfl⟩

/-- What stands outside the root element goes on with more letters where these make the same
tokens. -/
theorem step_outer_widened (h : r.Ready b) (hphase : r.phase = .prolog state lexer)
    (hsame : Lexer.readChar b (r.startAt lexer) r.offset lexer c =
      Lexer.readChar r.context.alphabet (r.startAt lexer) r.offset lexer c)
    {r₁ : Reader} {state₁ : State} {lexer' : Lexer} {mark : Nat}
    (htake : r.takeAll state
      (Lexer.readChar r.context.alphabet (r.startAt lexer) r.offset lexer c).tokens =
      .ok (r₁, state₁, false))
    (hnext : (Lexer.readChar r.context.alphabet (r.startAt lexer) r.offset lexer c).next =
      .ok (lexer', mark))
    (hr' : r' = { r₁ with
      phase := .prolog state₁ lexer', mark, offset := r.offset + (Symbol.ofChar c).width }) :
    r'.phase.inType = true ∨ r'.IsAstray ∨
      (r.widened b).step (.ofChar c) = .ok (r'.widened b) ∧ r'.context = r.context ∧
      r'.Ready b := by
  subst hr'
  cases houter : state₁.isOuter with
  | false =>
    left
    show (! state₁.isOuter) = true
    rw [houter]
    rfl
  | true =>
    right
    obtain ⟨-, hcontext, htake'⟩ := foldlM_takeNext_widened (b := b) htake houter
    simp only at hcontext htake'
    cases hlive : lexer'.isLive with
    | false => exact .inl ⟨state₁, lexer', rfl, houter, hlive⟩
    | true =>
      refine .inr ⟨?_, hcontext, h.of_context hcontext (.inr ⟨state₁, lexer', rfl, houter, hlive⟩)⟩
      refine (step_prolog_eq_ok_iff (r := r.widened b) hphase).mpr
        ⟨r₁.widened b, state₁, false, ?_, lexer', mark, ?_, rfl⟩
      · exact (congrArg (fun lexed => takeAll _ _ (Prolog.Lexed.tokens lexed)) hsame).trans htake'
      · exact (congrArg Prolog.Lexed.next hsame).trans hnext

/-- One character of a document without type. -/
theorem step_widened (h : r.Ready b) (hok : r.step (.ofChar c) = .ok r') :
    r'.phase.inType = true ∨ r'.IsAstray ∨
      (r.widened b).step (.ofChar c) = .ok (r'.widened b) ∧ r'.context = r.context ∧
      r'.Ready b := by
  rcases h.phase with ⟨lexer, hphase⟩ | ⟨state, lexer, hphase, houter, hlive⟩
  · obtain ⟨hstep, hcontext, hphase'⟩ := step_content_widened hphase h.within h.plain hok
    refine .inr (.inr ⟨hstep, hcontext, h.of_context hcontext ?_⟩)
    exact hphase'.imp_right fun hphase' => ⟨_, _, hphase', rfl, rfl⟩
  · have hread : Lexer.readChar b (r.startAt lexer) r.offset lexer c =
        Lexer.readChar r.context.alphabet (r.startAt lexer) r.offset lexer c ∨
          lexer ≠ .lessThan ∧
          (Lexer.readChar r.context.alphabet (r.startAt lexer) r.offset lexer c).Astray :=
      Lexer.readChar_live h.within hlive
    rcases hread with hsame | ⟨hlexer, hastray⟩
    · obtain ⟨r₁, state₁, root, htake, hrest⟩ := (step_prolog_eq_ok_iff hphase).mp hok
      cases root with
      | true =>
        obtain ⟨rfl, hroot⟩ := eq_lessThan_of_root htake
        exact .inr (.inr (step_root_widened h hphase hroot hok))
      | false =>
        obtain ⟨lexer', mark, hnext, hr'⟩ := hrest
        exact step_outer_widened h hphase hsame htake hnext hr'
    · exact (isAstray_of_astray hphase houter hlexer hastray hok).imp_right .inl

/-- A reader that has gone astray stays so, up to the end or to a document type. -/
theorem isAstray_feed {cs rest : List Char} (h : r.IsAstray)
    (hnone : r.declaresType ((cs ++ rest).map Symbol.ofChar) = false) (hok : r.feed cs = .ok r') :
    r'.IsAstray := by
  induction cs generalizing r with
  | nil =>
    cases hok
    exact h
  | cons c cs ih =>
    obtain ⟨m, hm, hrest⟩ := feed_cons_eq_ok_iff.mp hok
    simp only [List.cons_append, List.map_cons, declaresType, hm, Bool.or_eq_false_iff] at hnone
    refine ih ((isAstray_step h hm).resolve_left ?_) hnone.2 hrest
    rw [hnone.1]
    simp

/-- **More letters.** A document without type that is read to its end is read in the same way
where more characters make names and elements may come out of entities, and nothing has been
declared in it. -/
theorem feed_widened {cs : List Char} {last : Reader} {events : List Event} (h : r.Ready b)
    (hnone : r.declaresType (cs.map Symbol.ofChar) = false) (hok : r.feed cs = .ok last)
    (hend : last.finish false = .ok events) :
    (r.widened b).feed cs = .ok (last.widened b) ∧ last.context = r.context := by
  induction cs generalizing r with
  | nil =>
    cases hok
    exact ⟨rfl, rfl⟩
  | cons c cs ih =>
    obtain ⟨m, hm, hrest⟩ := feed_cons_eq_ok_iff.mp hok
    simp only [List.map_cons, declaresType, hm, Bool.or_eq_false_iff] at hnone
    rcases step_widened h hm with htype | hastray | ⟨hstep, hcontext, hready⟩
    · rw [hnone.1] at htype
      cases htype
    · have hnone' : m.declaresType ((cs ++ []).map Symbol.ofChar) = false := by
        rw [List.append_nil]; exact hnone.2
      exact absurd (isAstray_feed hastray hnone' hrest) (not_isAstray_of_finish hend)
    · obtain ⟨hfeed, hcontext'⟩ := ih hready hnone.2 hrest
      exact ⟨feed_cons_eq_ok_iff.mpr ⟨_, hstep, hfeed⟩, hcontext'.trans hcontext⟩

end Outside

end Reader

end AccessPatch.Xml
