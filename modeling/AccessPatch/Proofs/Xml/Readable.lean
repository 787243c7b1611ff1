import AccessPatch.Proofs.Xml.Prolog.Root

/-!
# Readable documents are texts

Bytes that are no character are symbols too, and a reader refuses the document where it meets one.
The only place where it goes on for a while is the keyword of verbatim text, which is judged as a
whole: a reader that has met such a symbol there is lost (`Lexer.isLost`). So all symbols of a
document that is read to its end are characters (`chars_of_finish`).
-/

namespace AccessPatch.Xml

/-! ## The keyword of verbatim text -/

namespace Content.Lexer

/-- The keyword of verbatim text is not as it should be. -/
def isLost : Lexer → Bool
  | .sectionOpen _ (some _) _ => true
  | _ => false

/-- The keyword of verbatim text takes no more bytes than characters are still to come of it. -/
def Fits : Lexer → Prop
  | .sectionOpen rest none bytes => 0 < bytes ∧ bytes ≤ rest.length
  | _ => True

variable {alphabet : Alphabet} {pos : Nat} {lexer : Lexer} {lexed : Lexed}

theorem fits_afterSpace {t : StartTag} {name : Bool} {c : Char}
    (h : afterSpace alphabet t name pos c = .ok lexed) : lexed.lexer.Fits := by
  unfold afterSpace at h
  repeat' split at h
  all_goals
    cases h
    try trivial

theorem fits_inTag {t : StartTag} {inner : TagLexer} {c : Char}
    (h : inTag alphabet t inner pos c = .ok lexed) : lexed.lexer.Fits := by
  unfold inTag at h
  split at h
  · exact fits_afterSpace h
  · exact fits_afterSpace h
  all_goals
    repeat' split at h
    all_goals
      cases h
      try trivial

theorem fits_readChar {c : Char} (h : readChar alphabet 1 pos lexer c = .ok lexed) :
    lexed.lexer.Fits := by
  cases lexer with
  | text brackets cr =>
    simp only [readChar, inText] at h
    repeat' split at h
    all_goals
      cases h
      try trivial
  | tagName read =>
    simp only [readChar] at h
    split at h
    · cases h
      trivial
    · exact fits_afterSpace h
  | tag t inner => exact fits_inTag h
  | bang =>
    simp only [readChar] at h
    repeat' split at h
    · cases h
      trivial
    · cases h
      exact ⟨by simp, by decide⟩
    · cases h
  | verbatim brackets cr =>
    simp only [readChar, inVerbatim] at h
    repeat' split at h
    all_goals
      cases h
      try trivial
  | _ =>
    simp only [readChar] at h
    repeat' split at h
    all_goals
      cases h
      try trivial

/-- A symbol that is no character leads into a keyword that has gone wrong, if anywhere. -/
theorem isLost_of_step {s : Symbol} (hfits : lexer.Fits) (hs : ∀ c, s.glyph ≠ .char c)
    (h : lexer.step alphabet 1 pos s = .ok lexed) :
    lexed.lexer.isLost = true ∧ lexed.token = none := by
  obtain ⟨glyph, width⟩ := s
  cases lexer with
  | sectionOpen rest bad bytes =>
    have hbad : ∃ p,
        (if bad.isSome ∨ glyph = (rest.head?.map Glyph.char).getD (.malformed false) then bad
        else some pos) = some p := by
      cases bad with
      | some p => exact ⟨p, by simp⟩
      | none =>
        obtain ⟨hpos, hle⟩ := hfits
        cases rest with
        | nil =>
          simp only [List.length_nil] at hle
          omega
        | cons d rest =>
          refine ⟨pos, if_neg ?_⟩
          simpa using hs d
    obtain ⟨p, hp⟩ := hbad
    simp only [step, inSectionOpen, hp] at h
    split at h
    · cases h
      exact ⟨rfl, rfl⟩
    · cases h
  | _ =>
    cases glyph with
    | char c => exact absurd rfl (hs c)
    | malformed begun => cases h
    | cutOff => cases h

theorem isLost_step {s : Symbol} (hlost : lexer.isLost = true)
    (h : lexer.step alphabet 1 pos s = .ok lexed) :
    lexed.lexer.isLost = true ∧ lexed.token = none := by
  unfold isLost at hlost
  split at hlost
  · rename_i rest p bytes
    simp only [step, inSectionOpen, Option.isSome_some, true_or, if_true] at h
    split at h
    · cases h
      exact ⟨rfl, rfl⟩
    · cases h
  · cases hlost

theorem fits_step {s : Symbol} (hfits : lexer.Fits) (hwidth : 0 < s.width)
    (h : lexer.step alphabet 1 pos s = .ok lexed) : lexed.lexer.Fits := by
  unfold step at h
  split at h
  · rename_i rest bad bytes
    simp only [inSectionOpen] at h
    cases bad with
    | some p =>
      simp only [Option.isSome_some, true_or, if_true] at h
      split at h
      · cases h
        trivial
      · cases h
    | none =>
      obtain ⟨hpos, hle⟩ := hfits
      split at h
      · rename_i hless
        cases h
        split
        · show 0 < bytes - s.width ∧ bytes - s.width ≤ rest.tail.length
          rw [List.length_tail]
          omega
        · trivial
      · split at h
        · cases h
        · cases h
          trivial
  · exact fits_readChar h
  · cases h

end Content.Lexer

/-! ## A reader that has met such a symbol -/

namespace Reader

variable {r r' last : Reader} {s : Symbol}

/-- The reader is in verbatim text's keyword, and that has gone wrong. -/
def IsLost (r : Reader) : Prop :=
  ∃ lexer, r.phase = .content lexer ∧ lexer.isLost = true

/-- Characters are one byte wide at least, and the keyword under way, if there is one, is. -/
structure Fits (r : Reader) : Prop where
  unit : r.unit = 1
  lexer : ∀ lexer, r.phase = .content lexer → lexer.Fits

theorem act_phase {token : Content.Token} {stop : Nat} (h : r.act token stop = .ok r') :
    r'.unit = r.unit ∧ (r'.phase = r.phase ∨ r'.phase = .prolog .epilog .idle) := by
  have hleave : ∀ q : Reader, q.leave.unit = q.unit ∧
      (q.leave.phase = q.phase ∨ q.leave.phase = .prolog .epilog .idle) := by
    intro q
    unfold leave
    split
    · exact ⟨rfl, .inr rfl⟩
    · exact ⟨rfl, .inl rfl⟩
  unfold act at h
  split at h
  · unfold openElement at h
    split at h
    · cases h
    · split at h
      · cases h
        exact hleave _
      · cases h
        exact ⟨rfl, .inl rfl⟩
  · unfold closeElement at h
    split at h
    · cases h
    · split at h
      · cases h
        exact hleave _
      · cases h
  · split at h
    · cases h
    · cases h
      exact ⟨rfl, .inl rfl⟩
  · simp only at h
    split at h
    · cases h
    · cases h
      exact ⟨rfl, .inl rfl⟩

theorem actOn_phase {token : Option Content.Token} {stop : Nat} (h : r.actOn token stop = .ok r') :
    r'.unit = r.unit ∧ (r'.phase = r.phase ∨ token ≠ none ∧ r'.phase = .prolog .epilog .idle) := by
  cases token with
  | none =>
    cases h
    exact ⟨rfl, .inl rfl⟩
  | some token =>
    obtain ⟨hunit, hphase⟩ := act_phase h
    exact ⟨hunit, hphase.imp_right fun hphase => ⟨by simp, hphase⟩⟩

/-- A symbol in content. -/
theorem step_content_fits {lexer : Content.Lexer} (hr : r.Fits) (hphase : r.phase = .content lexer)
    (hwidth : 0 < s.width) (h : r.step s = .ok r') :
    r'.Fits ∧ (lexer.isLost = true ∨ (∀ c, s.glyph ≠ .char c) → r'.IsLost) := by
  obtain ⟨lexed, hlexed⟩ := exists_lexed hphase h
  rw [step_eq_actOn hphase hlexed] at h
  obtain ⟨next, hnext, rfl⟩ := map_eq_ok_iff.mp h
  obtain ⟨hunit, hphase'⟩ := actOn_phase hnext
  rw [hr.unit] at hlexed
  refine ⟨⟨hunit.trans hr.unit, ?_⟩, ?_⟩
  · rintro lexer' hlexer'
    rcases hphase' with hphase' | ⟨-, hphase'⟩
    · cases hphase'.symm.trans hlexer'
      exact Content.Lexer.fits_step (hr.lexer lexer hphase) hwidth hlexed
    · cases hphase'.symm.trans hlexer'
  · intro hlost
    have hlexed' : lexed.lexer.isLost = true ∧ lexed.token = none := by
      rcases hlost with hlost | hs
      · exact Content.Lexer.isLost_step hlost hlexed
      · exact Content.Lexer.isLost_of_step (hr.lexer lexer hphase) hs hlexed
    rcases hphase' with hphase' | ⟨htoken, -⟩
    · exact ⟨lexed.lexer, hphase', hlexed'.1⟩
    · exact absurd hlexed'.2 htoken

/-- Outside content nothing but characters is read. -/
theorem exists_char_of_step_prolog {state : Prolog.State} {lexer : Prolog.Lexer}
    (hphase : r.phase = .prolog state lexer) (h : r.step s = .ok r') : ∃ c, s.glyph = .char c := by
  obtain ⟨r₁, state₁, root, htake, hrest⟩ := (step_prolog_eq_ok_iff hphase).mp h
  cases root with
  | true =>
    obtain ⟨next, hnext, rfl⟩ := hrest
    obtain ⟨lexed, hlexed⟩ := exists_lexed rfl (step_of_stepContent_lessThan hnext)
    cases hglyph : s.glyph with
    | char c => exact ⟨c, rfl⟩
    | malformed begun =>
      simp only [Content.Lexer.step, hglyph] at hlexed
      cases hlexed
    | cutOff =>
      simp only [Content.Lexer.step, hglyph] at hlexed
      cases hlexed
  | false =>
    obtain ⟨lexer', mark, hnext, rfl⟩ := hrest
    cases hglyph : s.glyph with
    | char c => exact ⟨c, rfl⟩
    | malformed begun =>
      exfalso
      rw [hglyph] at hnext
      cases lexer <;> cases begun <;> cases hnext
    | cutOff =>
      exfalso
      rw [hglyph] at hnext htake
      cases lexer with
      | lessThan =>
        obtain ⟨action, htake, haction⟩ := takeAll_singleton htake
        obtain ⟨hstate, -⟩ := take_eq_ok_iff.mp htake
        simp only [Prolog.State.next?] at hstate
        split at hstate
        · cases hstate
          cases haction
        · cases hstate
      | _ => cases hnext

/-- A symbol outside content. -/
theorem step_prolog_fits {state : Prolog.State} {lexer : Prolog.Lexer} (hr : r.Fits)
    (hphase : r.phase = .prolog state lexer) (hwidth : 0 < s.width) (h : r.step s = .ok r') :
    r'.Fits := by
  obtain ⟨r₁, state₁, root, htake, hrest⟩ := (step_prolog_eq_ok_iff hphase).mp h
  have hunit := (taken_of_takeAll htake).unit.trans hr.unit
  cases root with
  | true =>
    obtain ⟨next, hnext, rfl⟩ := hrest
    let q : Reader := { r₁ with phase := .content .lessThan, mark := r.startAt lexer }
    have hq : q.Fits := by
      refine ⟨hunit, ?_⟩
      intro lexer' hlexer'
      cases hlexer'
      trivial
    have hfits := (step_content_fits hq rfl hwidth (step_of_stepContent_lessThan hnext)).1
    exact ⟨hfits.unit, hfits.lexer⟩
  | false =>
    obtain ⟨lexer', mark, hnext, rfl⟩ := hrest
    exact ⟨hunit, fun _ hlexer => (by cases hlexer)⟩

/-- A reader that is lost, or meets a symbol that is no character, is lost after it. -/
theorem step_fits (hr : r.Fits) (hwidth : 0 < s.width) (h : r.step s = .ok r') :
    r'.Fits ∧ (r.IsLost ∨ (∀ c, s.glyph ≠ .char c) → r'.IsLost) := by
  cases hphase : r.phase with
  | prolog state lexer =>
    obtain ⟨c, hc⟩ := exists_char_of_step_prolog hphase h
    refine ⟨step_prolog_fits hr hphase hwidth h, ?_⟩
    rintro (⟨lexer, hlexer, -⟩ | hs)
    · rw [hphase] at hlexer
      cases hlexer
    · exact absurd hc (hs c)
  | content lexer =>
    obtain ⟨hfits, hlost⟩ := step_content_fits hr hphase hwidth h
    refine ⟨hfits, fun hs => hlost (hs.imp_left ?_)⟩
    rintro ⟨lexer', hlexer', hlost'⟩
    rw [hphase] at hlexer'
    cases hlexer'
    exact hlost'

theorem isLost_foldlM {symbols : List Symbol} (hr : r.Fits) (hlost : r.IsLost)
    (hwidth : ∀ s ∈ symbols, 0 < s.width) (h : symbols.foldlM step r = .ok last) : last.IsLost := by
  induction symbols generalizing r with
  | nil =>
    cases h
    exact hlost
  | cons s symbols ih =>
    obtain ⟨m, hm, hrest⟩ := foldlM_cons_eq_ok_iff.mp h
    obtain ⟨hfits, hlost'⟩ := step_fits hr (hwidth s List.mem_cons_self) hm
    exact ih hfits (hlost' (.inl hlost)) (fun s hs => hwidth s (List.mem_cons_of_mem _ hs)) hrest

/-- **Texts only.** All symbols of a document that is read to its end are characters. -/
theorem chars_of_finish {symbols : List Symbol} {events : List Event} (hr : r.Fits)
    (hwidth : ∀ s ∈ symbols, 0 < s.width) (h : symbols.foldlM step r = .ok last)
    (hend : last.finish false = .ok events) : ∀ s ∈ symbols, ∃ c, s.glyph = .char c := by
  induction symbols generalizing r with
  | nil => simp
  | cons s symbols ih =>
    obtain ⟨m, hm, hrest⟩ := foldlM_cons_eq_ok_iff.mp h
    have hwidth' : ∀ s ∈ symbols, 0 < s.width := fun s hs => hwidth s (List.mem_cons_of_mem _ hs)
    obtain ⟨hfits, hlost⟩ := step_fits hr (hwidth s List.mem_cons_self) hm
    refine List.forall_mem_cons.mpr ⟨?_, ih hfits hwidth' hrest⟩
    by_contra hs
    obtain ⟨lexer, hlexer, -⟩ :=
      isLost_foldlM hfits (hlost (.inr fun c hc => hs ⟨c, hc⟩)) hwidth' hrest
    rw [(finish_eq_ok_iff.mp hend).2.1] at hlexer
    cases hlexer

end Reader

end AccessPatch.Xml
