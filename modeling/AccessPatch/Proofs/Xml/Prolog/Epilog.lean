import AccessPatch.Proofs.Xml.Readable

/-!
# After the root element

What follows the root element is white space, comments and instructions. A reader goes through it
without a tag, and so goes through it in any place (`quiet_epilog`). From the root element on no
document type is declared any more (`declaresType_of_pastProlog`).
-/

namespace AccessPatch.Xml

namespace Prolog

/-- After the root element nothing but plain tokens is read, and those hold no offsets. -/
theorem State.next?_epilog {s : State} {token : Token} {action : Action}
    (h : State.epilog.next? token = some (s, action)) :
    s = .epilog ∧ Plain .epilog token action ∧ action ≠ .root ∧ ∀ f, token.relocate f = token := by
  have hname : s ≠ .doctypeName := by
    rintro rfl
    unfold next? at h
    split at h
    case h_5 =>
      obtain ⟨s₁, hs₁, hresult⟩ := Option.map_eq_some_iff.mp h
      simp [ofKeyword?] at hs₁
    case h_8 =>
      split at h
      · rename_i result hfound
        cases h
        cases (inDeclaration?_inner hfound).1
      · obtain ⟨s₁, hs₁, hresult⟩ := Option.map_eq_some_iff.mp h
        cases (inModel?_inner hs₁).1
    all_goals
      first
        | cases h
        | (split at h <;> cases h)
  obtain ⟨rfl, hplain⟩ := next?_outer h (.inl rfl) hname
  refine ⟨rfl, hplain, ?_, ?_⟩
  · rintro rfl
    rcases (next?_root h).2 with hstate | hstate <;> cases hstate
  · intro f
    cases hplain <;> rfl

end Prolog

namespace Reader

open Prolog (State Token Action Lexer)
open Prolog.State (Plain)
open Content (OnlyInstructions)

/-- Tokens after the root element, here and in another place. -/
theorem takeAll_epilog {tokens : List (Nat × Token)} {r r' : Reader} {state : State} {root : Bool}
    (h : r.takeAll .epilog tokens = .ok (r', state, root)) :
    state = .epilog ∧ root = false ∧ ∃ notes mark, OnlyInstructions notes ∧
      r' = { r with mark, events := notes ++ r.events } ∧
      ∀ f admits stack events, (r.relocate f admits stack events).takeAll .epilog
        (tokens.map fun t => (f t.1, t.2.relocate f)) =
          .ok (r'.relocate f admits stack (notes ++ events), .epilog, false) := by
  simp only [takeAll_eq] at h ⊢
  induction tokens generalizing r with
  | nil =>
    cases h
    exact ⟨rfl, rfl, [], _, Content.onlyInstructions_nil, rfl, fun _ _ _ _ => rfl⟩
  | cons t tokens ih =>
    obtain ⟨start, token⟩ := t
    obtain ⟨⟨r₁, s₁, root₁⟩, hfirst, hrest⟩ := foldlM_cons_eq_ok_iff.mp h
    obtain ⟨action, htake, hroot⟩ := takeNext_eq_ok_iff.mp hfirst
    obtain ⟨hnext, context, hperform, hr₁⟩ := take_eq_ok_iff.mp htake
    obtain ⟨hs₁, hplain, haction, hrelocate⟩ := State.next?_epilog hnext
    simp only at hroot hr₁ hs₁ hnext
    subst hs₁
    obtain rfl : root₁ = false := by simp [hroot, haction]
    rw [perform_of_plain hplain] at hperform
    cases hperform
    obtain ⟨hstate, hroot', notes, mark, honly, hr', hanywhere⟩ := ih hrest
    refine ⟨hstate, hroot', notes ++ (eventOf? action).toList, mark, ?_, ?_, ?_⟩
    · refine honly.append ?_
      intro e he
      cases hplain with
      | instruction target htarget =>
        rw [Option.mem_toList] at he
        cases he
        exact ⟨target, rfl⟩
      | space | comment | rootOpen _ => cases he
    · rw [hr', hr₁, List.append_assoc]
    · intro f admits stack events
      rw [List.map_cons, hrelocate f]
      refine foldlM_cons_eq_ok_iff.mpr
        ⟨(r₁.relocate f admits stack ((eventOf? action).toList ++ events), .epilog, false), ?_, ?_⟩
      · refine takeNext_eq_ok_iff.mpr ⟨action, take_eq_ok_iff.mpr ⟨hnext, r.context, ?_, ?_⟩, ?_⟩
        · exact perform_of_plain hplain _
        · rw [hr₁]
          rfl
        · simp [haction]
      · rw [List.append_assoc]
        exact hanywhere f admits stack _

theorem startAt_relocate {r : Reader} {lexer : Lexer} (f : Nat → Nat) (admits : Bool)
    (stack : List String) (events : List Event) :
    (r.relocate f admits stack events).startAt (lexer.relocate f) = f (r.startAt lexer) := by
  cases lexer <;> rfl

/-- Between two tokens the mark of the last one does not matter. -/
theorem step_of_idle_mark {r r' : Reader} {state : State} {s : Symbol}
    (hphase : r.phase = .prolog state .idle) (h : r.step s = .ok r') (mark : Nat) :
    ({ r with mark } : Reader).step s = .ok r' := by
  obtain ⟨r₁, state₁, root, htake, hrest⟩ := (step_prolog_eq_ok_iff hphase).mp h
  refine (step_prolog_eq_ok_iff (r := { r with mark }) hphase).mpr ?_
  cases htokens :
    (Lexer.step r.context.alphabet (r.startAt .idle) r.offset .idle s.glyph).tokens with
  | nil =>
    rw [htokens] at htake
    cases htake
    exact ⟨{ r with mark }, state, false, (congrArg (takeAll _ _) htokens).trans rfl, hrest⟩
  | cons t tokens =>
    have hmark : ({ r with mark } : Reader).takeAll state (t :: tokens) =
        r.takeAll state (t :: tokens) := rfl
    rw [htokens, ← hmark] at htake
    exact ⟨r₁, state₁, root, (congrArg (takeAll _ _) htokens).trans htake, hrest⟩

variable [Code]

/-- A character after the root element. -/
theorem quiet_step_epilog {r r' : Reader} {lexer : Lexer} {c : Char}
    (hphase : r.phase = .prolog .epilog lexer) (h : r.step (.ofChar c) = .ok r') :
    ∃ notes lexer', Quiet r [c] notes r' ∧ r'.phase = .prolog .epilog lexer' := by
  obtain ⟨r₁, state, root, htake, hrest⟩ := (step_prolog_eq_ok_iff hphase).mp h
  obtain ⟨rfl, rfl, notes, mark₁, honly, hr₁, hanywhere⟩ := takeAll_epilog htake
  obtain ⟨lexer', mark, hnext, rfl⟩ := hrest
  refine ⟨notes, lexer', ?_, rfl⟩
  refine ⟨by rw [feed_singleton, h], ?_, ?_, ?_, ?_, ?_, honly, ?_⟩
  iterate 5 rw [hr₁]
  intro f admits stack events hf
  have hphase' : (r.relocate f admits stack events).phase = .prolog .epilog (lexer.relocate f) := by
    simp only [relocate, hphase]
  have hlexed : Lexer.step r.context.alphabet (f (r.startAt lexer)) (f r.offset) (lexer.relocate f)
      (Symbol.ofChar c).glyph = (Lexer.step r.context.alphabet (r.startAt lexer) r.offset lexer
        (Symbol.ofChar c).glyph).relocate f :=
    Lexer.readChar_relocate f r.context.alphabet (r.startAt lexer) r.offset c hnext
  rw [feed_singleton]
  refine (step_prolog_eq_ok_iff hphase').mpr
    ⟨r₁.relocate f admits stack (notes ++ events), .epilog, false, ?_, lexer'.relocate f,
      f mark, ?_, ?_⟩
  · rw [startAt_relocate]
    exact (congrArg (takeAll _ _) (congrArg Prolog.Lexed.tokens hlexed)).trans
      (hanywhere f admits stack events)
  · rw [startAt_relocate]
    refine (congrArg Prolog.Lexed.next hlexed).trans ?_
    simp only [Prolog.Lexed.relocate, hnext]
    rfl
  · simp only [relocate, hf r.offset (Symbol.ofChar c).width (Nat.le_refl _)]

/-- **After the root element.** What a reader goes through there holds no tag, and may stand in
any place. -/
theorem quiet_epilog {cs : List Char} {r r' : Reader} {lexer : Lexer}
    (hphase : r.phase = .prolog .epilog lexer) (h : r.feed cs = .ok r') :
    ∃ notes lexer', Quiet r cs notes r' ∧ r'.phase = .prolog .epilog lexer' := by
  induction cs generalizing r lexer with
  | nil =>
    cases h
    exact ⟨[], lexer, quiet_nil _, hphase⟩
  | cons c cs ih =>
    obtain ⟨m, hm, hrest⟩ := feed_cons_eq_ok_iff.mp h
    obtain ⟨notes, lexer₁, hquiet, hphase₁⟩ := quiet_step_epilog hphase hm
    obtain ⟨notes', lexer', hquiet', hphase'⟩ := ih hphase₁ hrest
    exact ⟨notes' ++ notes, lexer', hquiet.append hquiet', hphase'⟩

/-- What may stand after one root element may stand after any other. -/
theorem finish_after_root {b b' last : Reader} {cs : List Char} {notes : List Event}
    (hb : b.phase = .prolog .epilog .idle) (hquiet : Quiet b cs notes last)
    (hlast : last.phase = .prolog .epilog .idle) (hb' : b'.phase = .prolog .epilog .idle)
    (hunit : b'.unit = b.unit) (hcontext : b'.context = b.context) :
    ∃ last', b'.feed cs = .ok last' ∧ last'.finish false = .ok (notes ++ b'.events).reverse := by
  have hmoved := hquiet.anywhere (moving b.offset b'.offset) b'.admitsEntityTags b'.stack b'.events
    (moves_moving _ _)
  have hrelocate : b.relocate (moving b.offset b'.offset) b'.admitsEntityTags b'.stack b'.events =
      { b' with mark := moving b.offset b'.offset b.mark } := by
    obtain ⟨unit, admits, context, phase, offset, mark, stack, events⟩ := b'
    simp only at hb' hunit hcontext
    subst hb' hunit hcontext
    simp only [relocate, hb, moving, Nat.sub_self, Nat.zero_add]
    rfl
  rw [hrelocate] at hmoved
  cases cs with
  | nil =>
    cases hquiet.feed
    have hnotes : notes = [] := List.self_eq_append_left.mp hquiet.events
    exact ⟨b', rfl, finish_eq_ok_iff.mpr ⟨rfl, hb', by rw [hnotes, List.nil_append]⟩⟩
  | cons c cs =>
    obtain ⟨m, hm, hrest⟩ := feed_cons_eq_ok_iff.mp hmoved
    have hstep :=
      step_of_idle_mark (r := { b' with mark := moving b.offset b'.offset b.mark }) hb' hm
      b'.mark
    refine ⟨_, feed_cons_eq_ok_iff.mpr ⟨m, hstep, hrest⟩, finish_eq_ok_iff.mpr ⟨rfl, ?_, rfl⟩⟩
    simp only [relocate, hlast]
    rfl

/-! ## No document type any more -/

/-- The reader is in the root element, or after it. -/
def IsPastProlog (r : Reader) : Prop :=
  (∃ lexer, r.phase = .content lexer) ∨ ∃ lexer, r.phase = .prolog .epilog lexer

omit [Code] in
theorem inType_of_pastProlog {r : Reader} (h : r.IsPastProlog) : r.phase.inType = false := by
  rcases h with ⟨lexer, hphase⟩ | ⟨lexer, hphase⟩ <;> rw [hphase] <;> rfl

theorem isPastProlog_step {r r' : Reader} {c : Char} (h : r.IsPastProlog)
    (hok : r.step (.ofChar c) = .ok r') :
    r'.IsPastProlog := by
  rcases h with ⟨lexer, hphase⟩ | ⟨lexer, hphase⟩
  · obtain ⟨lexed, hlexed⟩ := exists_lexed hphase hok
    rw [step_eq_actOn hphase hlexed] at hok
    obtain ⟨next, hnext, rfl⟩ := map_eq_ok_iff.mp hok
    rcases (actOn_phase hnext).2 with hphase' | ⟨-, hphase'⟩
    · exact .inl ⟨lexed.lexer, hphase'⟩
    · exact .inr ⟨.idle, hphase'⟩
  · obtain ⟨-, lexer', -, hphase'⟩ := quiet_step_epilog hphase hok
    exact .inr ⟨lexer', hphase'⟩

theorem isPastProlog_feed {cs : List Char} {r r' : Reader} (h : r.IsPastProlog)
    (hok : r.feed cs = .ok r') :
    r'.IsPastProlog := by
  induction cs generalizing r with
  | nil =>
    cases hok
    exact h
  | cons c cs ih =>
    obtain ⟨m, hm, hrest⟩ := feed_cons_eq_ok_iff.mp hok
    exact ih (isPastProlog_step h hm) hrest

theorem declaresType_of_pastProlog {cs : List Char} {r : Reader} (h : r.IsPastProlog) :
    r.declaresType (cs.map Symbol.ofChar) = false := by
  induction cs generalizing r with
  | nil => rfl
  | cons c cs ih =>
    rw [List.map_cons, declaresType]
    cases hstep : r.step (.ofChar c) with
    | error stop => rfl
    | ok next =>
      have hnext := isPastProlog_step h hstep
      simp only [inType_of_pastProlog hnext, ih hnext, Bool.or_self]

theorem declaresType_append {cs : List Char} {r m : Reader} (hm : r.feed cs = .ok m)
    (ds : List Char) :
    r.declaresType ((cs ++ ds).map Symbol.ofChar) =
      (r.declaresType (cs.map Symbol.ofChar) || m.declaresType (ds.map Symbol.ofChar)) := by
  induction cs generalizing r with
  | nil =>
    cases hm
    rfl
  | cons c cs ih =>
    obtain ⟨next, hnext, hrest⟩ := feed_cons_eq_ok_iff.mp hm
    simp only [List.cons_append, List.map_cons, declaresType, hnext, ih hrest, Bool.or_assoc]

/-- Whether a document type is declared is decided where the root element begins. -/
theorem Entry.declaresType_eq {r₀ enter last : Reader} {head more : List Char} {c : Char}
    (h : Entry r₀ head c enter) (hadmits : r₀.admitsEntityTags = false)
    (hok : r₀.feed (head ++ ['<', c] ++ more) = .ok last) (ds : List Char) :
    r₀.declaresType ((head ++ ['<', c] ++ ds).map Symbol.ofChar) =
      r₀.declaresType ((head ++ ['<', c]).map Symbol.ofChar) := by
  obtain ⟨m, hm, -⟩ := feed_append_eq_ok_iff.mp hok
  have hsame : r₀.admitting false = r₀ := by
    rw [← hadmits]
    rfl
  have henter : (enter.admitting false).feed ['<', c] = .ok m :=
    (h.feed false [] m).mp (by rw [hsame]; exact hm)
  have hpast : m.IsPastProlog :=
    isPastProlog_feed (r := enter.admitting false) (.inl ⟨.idle, h.phase⟩) henter
  rw [declaresType_append hm, declaresType_of_pastProlog hpast, Bool.or_false]

end Reader

end AccessPatch.Xml
