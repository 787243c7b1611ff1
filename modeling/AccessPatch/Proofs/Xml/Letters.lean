import AccessPatch.Proofs.Xml.Readable

/-!
# More letters

The checks of a document do not agree on the characters that make a name: one takes the letters of
the fourth edition, another those of the fifth. `Alphabet.Within` compares two alphabets, and
`within_broad` says that the first of these is within the second. What is read with fewer letters
is read with more, for references, instructions, tags and values (`Content.Lexer.step_within`,
`resolve_within`): beyond ASCII, a character has a part in these only where a letter is asked for.
-/

namespace AccessPatch.Xml

/-! ## Alphabets -/

namespace Alphabet

/-- `b` has all the letters of `a`, and in ASCII no others. -/
structure Within (a b : Alphabet) : Prop where
  nameStart : ∀ c, a.isNameStart c = true → b.isNameStart c = true
  nameChar : ∀ c, a.isNameChar c = true → b.isNameChar c = true
  ascii : ∀ c : Char, c.toNat < 0x80 → b.isNameStart c = a.isNameStart c ∧
    b.isNameChar c = a.isNameChar c

theorem inRanges_of_covered {ranges wide : List (Nat × Nat)}
    (h : ranges.all (fun r => wide.any fun s => s.1 ≤ r.1 && r.2 ≤ s.2) = true) {n : Nat}
    (hn : inRanges ranges n = true) : inRanges wide n = true := by
  obtain ⟨r, hr, hbounds⟩ := List.any_eq_true.mp hn
  obtain ⟨s, hs, hcover⟩ := List.any_eq_true.mp (List.all_eq_true.mp h r hr)
  simp only [Bool.and_eq_true, decide_eq_true_eq] at hbounds hcover
  refine List.any_eq_true.mpr ⟨s, hs, ?_⟩
  simp only [Bool.and_eq_true, decide_eq_true_eq]
  omega

/-- The letters of the fourth edition are name characters in the fifth. -/
theorem within_broad : Within {} { broad := true } := by
  have hletters :
      letterRanges.all (fun r => broadLetterRanges.any fun s => s.1 ≤ r.1 && r.2 ≤ s.2) = true := by
    decide
  have hextensions : extensionRanges.all (fun r => (broadLetterRanges ++ broadExtensionRanges).any
      fun s => s.1 ≤ r.1 && r.2 ≤ s.2) = true := by
    decide
  have hstart : ∀ c, ({} : Alphabet).isNameStart c = true →
      ({ broad := true } : Alphabet).isNameStart c = true := by
    intro c hc
    simp only [isNameStart, isLetter, Bool.or_eq_true, Bool.and_eq_true, Bool.false_and,
      Bool.false_eq_true, or_false, if_false, if_true] at hc ⊢
    rcases hc with hc | ⟨hwide, hc⟩
    · exact .inl hc
    · exact .inr ⟨hwide, inRanges_of_covered hletters hc⟩
  refine ⟨hstart, ?_, ?_⟩
  · intro c hc
    simp only [isNameChar, Bool.or_eq_true, Bool.and_eq_true] at hc ⊢
    rcases hc with (((hc | hc) | hc) | hc) | ⟨hwide, hc⟩
    · exact .inl (.inl (.inl (.inl (hstart c hc))))
    · exact .inl (.inl (.inl (.inr hc)))
    · exact .inl (.inl (.inr hc))
    · exact .inl (.inr hc)
    · have hcover := inRanges_of_covered hextensions hc
      rw [inRanges, List.any_append, Bool.or_eq_true] at hcover
      rcases hcover with hcover | hcover
      · refine .inl (.inl (.inl (.inl ?_)))
        simp only [isNameStart, isLetter, Bool.or_eq_true, Bool.and_eq_true, if_true]
        exact .inr ⟨hwide, .inl hcover⟩
      · exact .inr ⟨hwide, hcover⟩
  · intro c hc
    have hnarrow : decide (0x80 ≤ c.toNat) = false := decide_eq_false (by omega)
    simp only [isNameStart, isNameChar, hnarrow, Bool.false_and, Bool.or_false, and_self]

end Alphabet

/-- A character beyond ASCII. -/
def IsWide (c : Char) : Prop := 0x80 ≤ c.toNat

theorem IsWide.ne {c d : Char} (h : IsWide c) (hd : d.toNat < 0x80) : c ≠ d := by
  rintro rfl
  exact absurd hd (Nat.not_lt_of_le h)

theorem IsWide.isSpace_eq {c : Char} (h : IsWide c) : isSpace c = false := by
  simp [isSpace, h.ne (d := ' ') (by decide), h.ne (d := '\t') (by decide),
    h.ne (d := '\r') (by decide), h.ne (d := '\n') (by decide)]

section Within

variable {a b : Alphabet} {c : Char}

theorem Reference.Progress.step_within (h : a.Within b) {p : Reference.Progress}
    (hok : p.step a c ≠ .unfit) : p.step b c = p.step a c := by
  by_cases hc : c.toNat < 0x80
  · obtain ⟨hstart, hchar⟩ := h.ascii c hc
    cases p <;> simp only [step, hstart, hchar]
  · have hwide : IsWide c := Nat.le_of_not_lt hc
    cases p with
    | start =>
      have hhash : c ≠ '#' := hwide.ne (by decide)
      have ha : a.isNameStart c = true := by
        by_contra ha
        exact hok (by simp [step, hhash, ha])
      simp only [step, ha, h.nameStart c ha]
    | name read =>
      have hend : c ≠ ';' := hwide.ne (by decide)
      have ha : a.isNameChar c = true := by
        by_contra ha
        exact hok (by simp [step, hend, ha])
      simp only [step, ha, h.nameChar c ha]
    | _ => rfl

theorem Instruction.step_within (h : a.Within b) {i : Instruction} {next : Instruction.Step}
    (hok : i.step a c = .ok next) : i.step b c = .ok next := by
  rw [← hok]
  by_cases hc : c.toNat < 0x80
  · obtain ⟨hstart, hchar⟩ := h.ascii c hc
    cases i <;> simp only [step, hstart, hchar]
  · have hwide : IsWide c := Nat.le_of_not_lt hc
    cases i with
    | opening =>
      have ha : a.isNameStart c = true := by
        by_contra ha
        simp [step, ha] at hok
      simp only [step, ha, h.nameStart c ha]
    | target read =>
      have hmark : c ≠ '?' := hwide.ne (by decide)
      have ha : a.isNameChar c = true := by
        by_contra ha
        simp [step, ha, hmark, hwide.isSpace_eq] at hok
      simp only [step, ha, h.nameChar c ha]
    | _ => rfl

namespace Content.Lexer

variable {unit pos : Nat} {lexer : Lexer} {lexed : Lexed}

theorem readChar_ascii (h : a.Within b) (hc : c.toNat < 0x80) :
    readChar b unit pos lexer c = readChar a unit pos lexer c := by
  obtain ⟨hstart, hchar⟩ := h.ascii c hc
  cases lexer with
  | tag t inner =>
    cases inner <;> simp only [readChar, inTag, afterSpace, hstart, hchar, Reference.Progress.step]
  | instruction i => cases i <;> simp only [readChar, Instruction.step, hstart, hchar]
  | reference p => cases p <;> simp only [readChar, Reference.Progress.step, hstart, hchar]
  | _ => simp only [readChar, afterSpace, hstart, hchar]

theorem afterSpace_wide {t : StartTag} {name : Bool} (hc : IsWide c) :
    afterSpace a t name pos c =
      if name ∧ a.isNameStart c then going (tag t (.attributeName [c] pos)) else unfit := by
  rw [afterSpace, if_neg (hc.ne (by decide)), if_neg (hc.ne (by decide)),
    if_neg (by simp [hc.isSpace_eq])]

/-- A wide character that is accepted is one of a name, or it is no matter whether it is. -/
theorem readChar_wide (h : a.Within b) (hwide : IsWide c)
    (hok : readChar a unit pos lexer c = .ok lexed) :
    readChar b unit pos lexer c = readChar a unit pos lexer c := by
  have hspace := hwide.isSpace_eq
  -- Only what makes a name is accepted where a name is asked for.
  have hname : ∀ {p : Prop} [Decidable p] {x : Except Flaw Lexed},
      (if p then x else unfit) = .ok lexed → p := by
    intro p _ x hif
    by_contra hp
    rw [if_neg hp] at hif
    cases hif
  cases lexer with
  | lessThan =>
    simp only [readChar, if_neg (hwide.ne (d := '!') (by decide)),
      if_neg (hwide.ne (d := '?') (by decide)), if_neg (hwide.ne (d := '/') (by decide))] at hok ⊢
    rw [hname hok, h.nameStart c (hname hok)]
  | reference p =>
    have hfit : p.step a c ≠ .unfit := by
      intro hunfit
      rw [readChar, hunfit] at hok
      cases hok
    simp only [readChar, Reference.Progress.step_within h hfit]
  | tagName read =>
    simp only [readChar, afterSpace_wide hwide, Bool.false_eq_true, false_and, if_false] at hok ⊢
    rw [hname hok, h.nameChar c (hname hok)]
  | tag t inner =>
    cases inner with
    | space =>
      simp only [readChar, inTag, afterSpace_wide hwide, true_and] at hok ⊢
      rw [hname hok, h.nameStart c (hname hok)]
    | attributeName read namePos =>
      simp only [readChar, inTag, hspace, Bool.false_eq_true, if_false,
        if_neg (hwide.ne (d := '=') (by decide))] at hok ⊢
      rw [hname hok, h.nameChar c (hname hok)]
    | valueReference name namePos quote read p =>
      have hfit : p.step a c ≠ .unfit := by
        intro hunfit
        rw [readChar, inTag, hunfit] at hok
        cases hok
      simp only [readChar, inTag, Reference.Progress.step_within h hfit]
    | valueEnd =>
      simp only [readChar, inTag, afterSpace_wide hwide, Bool.false_eq_true, false_and, if_false]
    | _ => rfl
  | endTagOpen =>
    simp only [readChar] at hok ⊢
    rw [hname hok, h.nameStart c (hname hok)]
  | endTagName read =>
    simp only [readChar, hspace, Bool.false_eq_true, if_false,
      if_neg (hwide.ne (d := '>') (by decide))] at hok ⊢
    rw [hname hok, h.nameChar c (hname hok)]
  | instruction i =>
    cases hstep : i.step a c with
    | error flaw =>
      rw [readChar, hstep] at hok
      cases hok
    | ok next => simp only [readChar, hstep, Instruction.step_within h hstep]
  | _ => rfl

theorem readChar_within (h : a.Within b) (hok : readChar a unit pos lexer c = .ok lexed) :
    readChar b unit pos lexer c = .ok lexed := by
  rw [← hok]
  by_cases hc : c.toNat < 0x80
  · exact readChar_ascii h hc
  · exact readChar_wide h (Nat.le_of_not_lt hc) hok

/-- What is read with fewer letters is read with more. -/
theorem step_within (h : a.Within b) {s : Symbol} (hok : step a unit pos lexer s = .ok lexed) :
    step b unit pos lexer s = .ok lexed := by
  obtain ⟨glyph, width⟩ := s
  cases glyph with
  | char c =>
    cases lexer with
    | sectionOpen rest bad bytes => exact hok
    | _ =>
      simp only [step] at hok ⊢
      exact readChar_within h hok
  | _ =>
    cases lexer with
    | sectionOpen rest bad bytes => exact hok
    | _ => cases hok

end Content.Lexer

/-! ## Without declared entities -/

section Plain

variable {dtd : Dtd}

theorem expandEntity_plain (hplain : dtd.entities = []) {needed : Bool}
    {opened opened' : List String}
    (enter enter' : String → List Char → List Placed → Except Flaw (List Char)) (read : List Char)
    (pos : Nat) (name : String) :
    dtd.expandEntity needed opened enter read pos name =
      dtd.expandEntity needed opened' enter' read pos name := by
  cases needed <;> simp [Dtd.expandEntity, Dtd.entityText?, hplain]

theorem ValueState.step_within (h : a.Within b) {anyText : Bool}
    {expand expand' : List Char → Nat → String → Except Flaw (List Char)}
    (hexpand : expand' = expand) {s s' : ValueState} {d : Placed}
    (hok : step a anyText expand s d = .ok s') :
    step b anyText expand' s d = .ok s' := by
  subst hexpand
  rw [← hok]
  unfold step at hok ⊢
  cases hreference : s.reference with
  | none => rfl
  | some reference =>
    obtain ⟨p, pos⟩ := reference
    rw [hreference] at hok
    have hfit : p.step a d.char ≠ .unfit := by
      intro hunfit
      simp only [hunfit] at hok
      cases hok
    simp only [Reference.Progress.step_within h hfit]

/-- A fold that succeeds goes the same way with steps that succeed as often. -/
theorem foldlM_mono {σ α ε : Type} {f g : σ → α → Except ε σ}
    (h : ∀ s x s', f s x = .ok s' → g s x = .ok s') {xs : List α} {s s' : σ}
    (hok : xs.foldlM f s = .ok s') :
    xs.foldlM g s = .ok s' := by
  simpa using foldlM_map_eq_ok (g := id) (k := id) h hok

theorem expandValue_within (h : a.Within b) (hplain : dtd.entities = []) {anyText : Bool}
    {text : List Placed} {value : String} (hok : dtd.expandValue a anyText [] text = .ok value) :
    dtd.expandValue b anyText [] text = .ok value := by
  obtain ⟨read, hread, hvalue⟩ := bind_eq_ok_iff.mp hok
  refine bind_eq_ok_iff.mpr ⟨read, ?_, hvalue⟩
  rw [Dtd.readValue.eq_def] at hread ⊢
  obtain ⟨last, hlast, hend⟩ := bind_eq_ok_iff.mp hread
  refine bind_eq_ok_iff.mpr ⟨last, foldlM_mono (fun s d s' hstep => ?_) hlast, hend⟩
  exact ValueState.step_within h
    (by funext read pos name; exact expandEntity_plain hplain _ _ _ _ _) hstep

theorem resolve_within (h : a.Within b) (hplain : dtd.entities = []) {tag : Content.StartTag}
    {attributes : List (String × String)} (hok : tag.resolve dtd a [] = .ok attributes) :
    tag.resolve dtd b [] = .ok attributes := by
  obtain ⟨given, hgiven, hattributes⟩ := bind_eq_ok_iff.mp hok
  refine bind_eq_ok_iff.mpr ⟨given, foldlM_mono (fun given x given' hstep => ?_) hgiven,
    hattributes⟩
  cases hnew : (given.lookup x.name).isSome with
  | true =>
    simp only [hnew, if_true] at hstep
    cases hstep
  | false =>
    simp only [hnew, Bool.false_eq_true, if_false] at hstep ⊢
    obtain ⟨value, hvalue, hgiven'⟩ := bind_eq_ok_iff.mp hstep
    exact bind_eq_ok_iff.mpr ⟨value, expandValue_within h hplain hvalue, hgiven'⟩

theorem ofTopReference_plain (hplain : dtd.entities = []) (admits admits' : Bool) (pos pos' : Nat)
    (r : Reference) :
    (⟨dtd, a, admits, pos⟩ : Content.Expansion).ofTopReference r =
      (⟨dtd, b, admits', pos'⟩ : Content.Expansion).ofTopReference r := by
  cases r with
  | character n => rfl
  | entity name =>
    simp only [Content.Expansion.ofTopReference, Content.Expansion.ofReference,
      Dtd.entityText?, hplain, List.lookup_nil]
    cases dtd.demandsEntities <;> rfl

end Plain

end Within

end AccessPatch.Xml
