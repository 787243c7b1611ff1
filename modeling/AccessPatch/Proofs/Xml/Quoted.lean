import AccessPatch.Proofs.Xml.Trail

/-!
# What a text in double quotes denotes

A value may be written in more than one way, since references stand for characters: `Denotes` is
the relation between what is written and what is meant. It has a constructor for a character that
stands for itself and one for a reference to a character, by its number or by a name that every
document has.

Main result: `expandValue_of_denotes`. The final form of an attribute value is what it denotes.
Spaces are kept where the value may be any text; elsewhere they would be collapsed, and so there
must be none.
-/

namespace AccessPatch.Xml

variable {alphabet : Alphabet}

/-! ## References -/

namespace Reference

/-- The character that a reference stands for in every document. -/
def standsFor? : Reference → Option Char
  | .character n => character? n
  | .entity name => predefined.lookup name

/-- A reference under way goes on with some characters, and the last of them completes it. -/
inductive Completes (alphabet : Alphabet) : Progress → List Char → Reference → Prop where
  | done {progress : Progress} {c : Char} {r : Reference}
      (step : progress.step alphabet c = .done r) :
      Completes alphabet progress [c] r
  | going {progress next : Progress} {c : Char} {cs : List Char} {r : Reference}
      (step : progress.step alphabet c = .going next) (rest : Completes alphabet next cs r) :
      Completes alphabet progress (c :: cs) r

/-- A name and a semicolon make a reference. -/
theorem completes_name {name : List Char} (h : IsName alphabet name) :
    Completes alphabet .start (name ++ [';']) (.entity (String.ofList name)) := by
  obtain ⟨c, rest, rfl, hc, hrest⟩ := h
  have hname : ∀ read : List Char, Completes alphabet (.name read) (rest ++ [';'])
      (.entity (String.ofList (read.reverse ++ rest))) := by
    clear hc
    induction rest with
    | nil =>
      intro read
      rw [List.append_nil]
      exact .done rfl
    | cons d rest ih =>
      intro read
      have hd := hrest d List.mem_cons_self
      have hmark : d ≠ ';' := by
        rintro rfl
        cases hd
      have ih := ih (fun d hd => hrest d (List.mem_cons_of_mem _ hd)) (d :: read)
      rw [List.reverse_cons, List.append_assoc, List.singleton_append] at ih
      refine .going ?_ ih
      simp only [Progress.step, if_neg hmark, hd, if_true]
  have hnumber : c ≠ '#' := by
    rintro rfl
    cases hc
  refine .going ?_ (hname [c])
  simp only [Progress.step, if_neg hnumber, hc, if_true]

end Reference

open Reference (Completes)

/-! ## Values -/

/-- A character that may stand in double quotes and is kept as it is. -/
structure IsLiteral (c : Char) : Prop where
  quote : c ≠ '"'
  ampersand : c ≠ '&'
  lessThan : c ≠ '<'
  space : isSpace c = true → c = ' '

/-- A text that may stand in double quotes, and the value that it denotes. -/
inductive Denotes (alphabet : Alphabet) : (written value : List Char) → Prop where
  | nil : Denotes alphabet [] []
  | literal {c : Char} {written value : List Char} (literal : IsLiteral c)
      (rest : Denotes alphabet written value) : Denotes alphabet (c :: written) (c :: value)
  | reference {cs written value : List Char} {r : Reference} {c : Char}
      (completes : Completes alphabet .start cs r) (standsFor : r.standsFor? = some c)
      (rest : Denotes alphabet written value) :
      Denotes alphabet ('&' :: (cs ++ written)) (c :: value)

theorem Denotes.append {written written' value value' : List Char}
    (h : Denotes alphabet written value) (h' : Denotes alphabet written' value') :
    Denotes alphabet (written ++ written') (value ++ value') := by
  induction h with
  | nil => exact h'
  | literal literal _ ih => exact .literal literal ih
  | reference completes standsFor _ ih =>
    rw [List.cons_append, List.append_assoc]
    exact .reference completes standsFor ih

/-- Each character may be written in a way of its own. -/
theorem denotes_flatMap {f : Char → List Char} {value : List Char}
    (h : ∀ c ∈ value, Denotes alphabet (f c) [c]) : Denotes alphabet (value.flatMap f) value := by
  induction value with
  | nil => exact .nil
  | cons c value ih =>
    rw [List.flatMap_cons]
    exact (h c List.mem_cons_self).append (ih fun d hd => h d (List.mem_cons_of_mem _ hd))

/-! ## The final form of a value -/

section Value

variable {anyText : Bool} {expand : List Char → Nat → String → Except Flaw (List Char)}

theorem addSpace_of_keeps {c : Char} (hkeeps : anyText = true ∨ c ≠ ' ') (hc : c = ' ')
    (read : List Char) :
    ValueState.addSpace anyText read = c :: read := by
  subst hc
  rcases hkeeps with rfl | hne
  · rfl
  · exact absurd rfl hne

theorem step_literal {read : List Char} {c : Placed} (h : IsLiteral c.char)
    (hkeeps : anyText = true ∨ c.char ≠ ' ') :
    ValueState.step alphabet anyText expand { read } c = .ok { read := c.char :: read } := by
  by_cases hblank : c.char = ' '
  · simp only [ValueState.step]
    rw [← addSpace_of_keeps hkeeps hblank read]
    simp only [hblank]
  · have hspace : isSpace c.char = false := by
      cases hspace : isSpace c.char with
      | false => rfl
      | true => exact absurd (h.space hspace) hblank
    have hand := h.ampersand
    have hless := h.lessThan
    simp only [isSpace, Bool.or_eq_false_iff, beq_eq_false_iff_ne] at hspace
    obtain ⟨⟨⟨-, htab⟩, hcr⟩, hlf⟩ := hspace
    simp only [ValueState.step]

theorem foldlM_completes {progress : Reference.Progress} {cs : List Char} {r : Reference} {d : Char}
    (h : Completes alphabet progress cs r) (hstands : r.standsFor? = some d)
    (hkeeps : anyText = true ∨ d ≠ ' ') {raw : List Placed} (hraw : raw.map Placed.char = cs)
    (read : List Char) (pos : Nat) :
    raw.foldlM (ValueState.step alphabet anyText expand) ⟨read, some (progress, pos), false⟩ =
      .ok ⟨d :: read, none, false⟩ := by
  induction h generalizing raw with
  | @done progress c r step =>
    obtain ⟨c, rfl, rfl⟩ := List.map_eq_singleton_iff.mp hraw
    refine foldlM_cons_eq_ok_iff.mpr ⟨_, ?_, rfl⟩
    cases r with
    | entity name =>
      have hlookup : Reference.predefined.lookup name = some d := hstands
      simp only [ValueState.step, step, hlookup]
    | character n =>
      have hnumber : Reference.character? n = some d := hstands
      simp only [ValueState.step, step, hnumber]
      split
      · rename_i hnone
        cases hnone
      · rename_i hblank
        rw [addSpace_of_keeps hkeeps (Option.some.inj hblank)]
      · rename_i hsome
        rw [Option.some.inj hsome]
  | @going progress next c cs r step rest ih =>
    obtain ⟨c, raw, rfl, rfl, hrest⟩ := List.map_eq_cons_iff.mp hraw
    refine foldlM_cons_eq_ok_iff.mpr ⟨⟨read, some (next, pos), false⟩, ?_, ih hstands hrest⟩
    simp only [ValueState.step, step]

theorem foldlM_denotes {written value : List Char} (h : Denotes alphabet written value)
    (hkeeps : anyText = true ∨ ' ' ∉ value) {raw : List Placed}
    (hraw : raw.map Placed.char = written) (read : List Char) :
    raw.foldlM (ValueState.step alphabet anyText expand) { read } =
      .ok { read := value.reverse ++ read } := by
  -- What holds of all characters of a value holds of the first one and of the others.
  have hsplit : ∀ {c : Char} {value : List Char}, (anyText = true ∨ ' ' ∉ c :: value) →
      (anyText = true ∨ c ≠ ' ') ∧ (anyText = true ∨ ' ' ∉ value) := by
    intro c value hkeeps
    rcases hkeeps with h | h
    · exact ⟨.inl h, .inl h⟩
    · exact ⟨.inr fun hc => h (by simp [hc]), .inr fun hmem => h (List.mem_cons_of_mem _ hmem)⟩
  induction h generalizing raw read with
  | nil =>
    rw [List.map_eq_nil_iff.mp hraw]
    rfl
  | @literal c written value literal _ ih =>
    obtain ⟨c, raw, rfl, rfl, hrest⟩ := List.map_eq_cons_iff.mp hraw
    obtain ⟨hfirst, hkeeps⟩ := hsplit hkeeps
    refine foldlM_cons_eq_ok_iff.mpr ⟨_, step_literal literal hfirst, ?_⟩
    rw [ih hkeeps hrest, List.reverse_cons, List.append_assoc, List.singleton_append]
  | @reference cs written value r d completes standsFor _ ih =>
    obtain ⟨mark, raw, rfl, hmark, hraw⟩ := List.map_eq_cons_iff.mp hraw
    obtain ⟨raw₁, raw₂, rfl, hfirst, hrest⟩ := List.map_eq_append_iff.mp hraw
    obtain ⟨hd, hkeeps⟩ := hsplit hkeeps
    have hand : ValueState.step alphabet anyText expand { read } mark =
        .ok ⟨read, some (.start, mark.pos), false⟩ := by
      simp only [ValueState.step, hmark]
    refine foldlM_cons_eq_ok_iff.mpr ⟨_, hand, foldlM_append_eq_ok_iff.mpr
      ⟨_, foldlM_completes completes standsFor hd hfirst read mark.pos, ?_⟩⟩
    rw [ih hkeeps hrest, List.reverse_cons, List.append_assoc, List.singleton_append]

/-- **Values are what they denote.** -/
theorem expandValue_of_denotes {dtd : Dtd} {written : List Char} {value : String}
    {raw : List Placed} (h : Denotes alphabet written value.toList)
    (hkeeps : anyText = true ∨ ' ' ∉ value.toList) (hraw : raw.map Placed.char = written) :
    dtd.expandValue alphabet anyText [] raw = .ok value := by
  have hread : dtd.readValue alphabet anyText dtd.demandsEntities dtd.entities.length [] [] raw =
      .ok (value.toList.reverse) := by
    rw [Dtd.readValue]
    refine bind_eq_ok_iff.mpr ⟨_, foldlM_denotes h hkeeps hraw [], ?_⟩
    rw [List.append_nil]
    rfl
  simp only [Dtd.expandValue, hread]
  refine congrArg Except.ok (Eq.trans (congrArg String.ofList ?_) String.ofList_toList)
  split
  · rename_i rest heq
    -- No space stands at the end of a value that is not any text.
    have hmem : ' ' ∈ value.toList := by
      rw [← List.mem_reverse, heq]
      exact List.mem_cons_self
    exact absurd hmem (hkeeps.resolve_left Bool.false_ne_true)
  · exact List.reverse_reverse _

end Value

end AccessPatch.Xml
