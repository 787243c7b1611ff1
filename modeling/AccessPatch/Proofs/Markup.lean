import AccessPatch.Document
import AccessPatch.Proofs.Identifier
import AccessPatch.Proofs.Xml.Alone

/-!
# Annotations are read back

An identifier may be any text that a document may hold, and so it may look like markup. It is
escaped character by character, and the value that is written denotes it (`denotes_escape`). So
the markup of an annotation is one empty-element tag, whatever the identifier is.

Main result: `tokenize_markup`. White space other than the blank is left out, since it would come
back as a blank.
-/

namespace AccessPatch.Accessibility

open Xml

/-- The characters of the markup standard, but for tab, LF and CR. -/
def IsKept (c : Char) : Prop :=
  (0x20 ≤ c.toNat ∧ c.toNat ≤ 0xD7FF) ∨ (0xE000 ≤ c.toNat ∧ c.toNat ≤ 0xFFFD) ∨
    (0x10000 ≤ c.toNat ∧ c.toNat ≤ 0x10FFFF)

instance (c : Char) : Decidable (IsKept c) :=
  inferInstanceAs (Decidable (_ ∨ _))

instance (s : String) : Decidable (∀ c ∈ s.toList, IsKept c) :=
  List.decidableBAll IsKept s.toList

/-! ## Escaping -/

theorem isAllowed_of_isKept {c : Char} (h : IsKept c) : isAllowed c.toNat = true := by
  simp only [isAllowed, Bool.or_eq_true, Bool.and_eq_true, decide_eq_true_eq,
    beq_iff_eq, bne_iff_ne]
  unfold IsKept at h
  omega

theorem eq_blank_of_isSpace {c : Char} (h : IsKept c) (hspace : isSpace c = true) : c = ' ' := by
  simp only [isSpace, Bool.or_eq_true, beq_iff_eq] at hspace
  rcases hspace with ((hc | hc) | hc) | hc
  · exact hc
  all_goals
    subst hc
    exact absurd h (by decide)

/-- A reference to one of the entities that every document has. -/
theorem denotes_entity {alphabet : Alphabet} (name : List Char) {c : Char} (hne : name ≠ [])
    (hname : name.all Char.isAlpha = true)
    (hlookup : Reference.predefined.lookup (String.ofList name) = some c) :
    Denotes alphabet ('&' :: (name ++ [';'] ++ [])) [c] :=
  .reference (Reference.completes_name (isName_of_isAlpha hne hname)) hlookup .nil

theorem denotes_apostrophe (alphabet : Alphabet) :
    Denotes alphabet ('&' :: ("#x27;".toList ++ [])) ['\''] := by
  have hcompletes : Reference.Completes alphabet .start "#x27;".toList (.character 0x27) :=
    .going rfl (.going rfl (.going rfl (.going rfl (.done rfl))))
  exact .reference hcompletes rfl .nil

theorem denotes_escapeChar (alphabet : Alphabet) {c : Char} (h : IsKept c) :
    Denotes alphabet (escapeChar c) [c] := by
  unfold escapeChar
  split
  · exact denotes_entity "amp".toList (by decide) (by decide) rfl
  · exact denotes_entity "lt".toList (by decide) (by decide) rfl
  · exact denotes_entity "gt".toList (by decide) (by decide) rfl
  · exact denotes_entity "quot".toList (by decide) (by decide) rfl
  · exact denotes_apostrophe alphabet
  · rename_i hand hless _ hquote _
    exact .literal ⟨hquote, hand, hless, eq_blank_of_isSpace h⟩ .nil

theorem denotes_escape (alphabet : Alphabet) {s : String} (h : ∀ c ∈ s.toList, IsKept c) :
    Denotes alphabet (escape s).toList s.toList := by
  rw [escape, String.toList_ofList]
  exact denotes_flatMap fun c hc => denotes_escapeChar alphabet (h c hc)

/-- What stands for a character is that character or a reference. -/
theorem escapeChar_cases (c : Char) : escapeChar c = [c] ∨ IsCommon (escapeChar c) := by
  unfold escapeChar
  split
  case h_6 => exact .inl rfl
  all_goals exact .inr (by decide)

theorem isAllowed_of_mem_escapeChar {c d : Char} (hd : IsKept d) (h : c ∈ escapeChar d) :
    isAllowed c.toNat = true := by
  rcases escapeChar_cases d with heq | hascii
  · rw [heq, List.mem_singleton] at h
    rw [h]
    exact isAllowed_of_isKept hd
  · exact (hascii c h).2

/-! ## Reading back -/

theorem writes_attributes (alphabet : Alphabet) {s : String} (h : ∀ c ∈ s.toList, IsKept c) :
    List.Forall₂ (Writes alphabet) (attributes (escape s)) (attributes s) := by
  have hnames := isName_attributes alphabet (escape s)
  have hsafe : Identifier.Safe key := by decide
  have hkey : Writes alphabet ("key", key) ("key", key) :=
    ⟨rfl, hnames _ (by simp [attributes]), denotes_plain (isPlainValue_of_safe hsafe)⟩
  have hvalue : ∀ name, (name, escape s) ∈ attributes (escape s) →
      Writes alphabet (name, escape s) (name, s) := fun name hname =>
    ⟨rfl, hnames _ hname, denotes_escape alphabet h⟩
  exact .cons hkey (.cons (hvalue _ (by simp [attributes]))
    (.cons (hvalue _ (by simp [attributes])) .nil))

/-- The annotation for an identifier, as a stretch of a document. -/
def stretch (s : String) : Stretch :=
  ⟨[], [], .empty, tag, attributes s, emptyTagChars tag (attributes (escape s))⟩

theorem sound_stretch [Code] {context : Prolog.Context} {s : String}
    (hrules : context.dtd.rules = []) (h : ∀ c ∈ s.toList, IsKept c) :
    (stretch s).Sound context := by
  have hsound :=
    sound_written (isName_tag _) (writes_attributes context.alphabet h) (nodup_attributes s)
    fun a _ => Dtd.keeps_of_rules hrules tag a
  rwa [Dtd.completed_of_rules hrules] at hsound

theorem isAllowed_stretch {s : String} (h : ∀ c ∈ s.toList, IsKept c) :
    ∀ c ∈ (stretch s).chars, isAllowed c.toNat = true := by
  have hfixed : IsCommon (emptyTagChars tag (attributes "")) := by decide
  intro c hc
  rcases mem_markup hc with hc | hc
  · exact (hfixed c hc).2
  · rw [escape, String.toList_ofList] at hc
    obtain ⟨d, hd, hc⟩ := List.mem_flatMap.mp hc
    exact isAllowed_of_mem_escapeChar (h d hd) hc

theorem ofDocument_markup {s : String} (h : ∀ c ∈ s.toList, IsKept c) :
    TagRange.ofDocument (Utf8.encode (markup s)) = .ok
      [{ kind := .opening, name := tag, start := 0, stop := (Utf8.encode (markup s)).length
         selfClosing := true, attributes := attributes s },
        { kind := .closing, name := tag, start := (Utf8.encode (markup s)).length
          stop := (Utf8.encode (markup s)).length, selfClosing := true }] := by
  let _ := Code.utf8
  have hchars : trailChars [stretch s] = (markup s).toList := by
    rw [markup_eq_escape]
    exact List.append_nil _
  have hbytes : Utf8.encode (markup s) = inCode (trailChars [stretch s]) := by
    rw [hchars, ← bytesOf_of_utf8 rfl]
    rfl
  have htext : IsText (trailChars [stretch s]) := by
    rw [trailChars_cons, trailChars_nil, List.append_nil]
    exact isAllowed_stretch h
  have hranges : TagRange.ofDocument (inCode (trailChars [stretch s])) =
      .ok (trailRanges 0 [stretch s]) :=
    TagRange.ofDocument_alone (c := 'a') rfl rfl rfl ⟨[], rfl, rfl⟩
      (List.forall_mem_singleton.mpr (sound_stretch rfl h)) htext
  rw [hbytes, hranges]
  simp [trailRanges, Stretch.ranges, stretch, trailChars, Stretch.chars]

/-- **Annotations are read back.** A document that is nothing but an annotation is one
empty-element tag with the identifier as it was, and so the annotations of different identifiers
are read as different. -/
theorem tokenize_markup {s : String} (h : ∀ c ∈ s.toList, IsKept c) (identity : String) :
    tokenize (Utf8.encode (markup s)) identity = .ok
        [{ kind := .opening, name := "accessibility", start := 0
           stop := (Utf8.encode (markup s)).length, selfClosing := true
           attributes := [("key", "accessibilityConfiguration"), ("identifier", s), ("label", s)] },
          { kind := .closing, name := "accessibility", start := (Utf8.encode (markup s)).length
            stop := (Utf8.encode (markup s)).length, selfClosing := true }] ∧
      ∀ t : String, (∀ c ∈ t.toList, IsKept c) →
        tokenize (Utf8.encode (markup t)) identity = tokenize (Utf8.encode (markup s)) identity →
        t = s := by
  have hread : ∀ {s : String}, (∀ c ∈ s.toList, IsKept c) →
      tokenize (Utf8.encode (markup s)) identity = .ok
        [{ kind := .opening, name := tag, start := 0, stop := (Utf8.encode (markup s)).length
           selfClosing := true, attributes := attributes s },
          { kind := .closing, name := tag, start := (Utf8.encode (markup s)).length
            stop := (Utf8.encode (markup s)).length, selfClosing := true }] := by
    intro s h
    rw [tokenize, ofDocument_markup h]
    rfl
  refine ⟨hread h, fun t ht hsame => ?_⟩
  rw [hread h, hread ht] at hsame
  have hattributes : attributes t = attributes s := by
    simp only [Except.ok.injEq, List.cons.injEq, TagRange.mk.injEq] at hsame
    exact hsame.1.2.2.2.2.2
  simpa [attributes] using hattributes

/-- An identifier that looks like the end of its value, another tag, a reference and the end of a
section. -/
def tagLike : String := "\"/><a b='&lt;'/>]]> \u00E9"

theorem tokenize_markup_tagLike : (∀ c ∈ tagLike.toList, IsKept c) ∧
    tokenize (Utf8.encode (markup tagLike)) "sample" = .ok
      [{ kind := .opening, name := "accessibility", start := 0
         stop := (Utf8.encode (markup tagLike)).length, selfClosing := true
         attributes :=
           [("key", "accessibilityConfiguration"), ("identifier", tagLike), ("label", tagLike)] },
        { kind := .closing, name := "accessibility", start := (Utf8.encode (markup tagLike)).length
          stop := (Utf8.encode (markup tagLike)).length, selfClosing := true }] := by
  have hkept : ∀ c ∈ tagLike.toList, IsKept c := by decide
  exact ⟨hkept, (tokenize_markup hkept "sample").1⟩

end AccessPatch.Accessibility
