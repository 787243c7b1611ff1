import AccessPatch.Patch.Plan
import AccessPatch.Proofs.Xml.Written

/-!
# Identifiers in markup

Generated identifiers hold safe characters only (`safe_identifiers`), so they stand in an
annotation as they are, and the markup of the annotation is a written tag with three attributes
(`markup_eq`). Of any other text that holds of its escaped form (`markup_eq_escape`).
-/

namespace AccessPatch

namespace Identifier

theorem toNat_of_isSafe {c : Char} (h : isSafe c = true) : 0x2D ≤ c.toNat ∧ c.toNat ≤ 0x7A := by
  have hranges : (decide (c.val ≥ 'A'.val ∧ c.val ≤ 'Z'.val) ||
      (decide (c.val ≥ 'a'.val) && decide (c.val ≤ 'z'.val)) ||
      (decide (c.val ≥ '0'.val) && decide (c.val ≤ '9'.val)) ||
      c == '_' || c == '.' || c == ':' || c == '-') = true := h
  simp only [Bool.or_eq_true, Bool.and_eq_true, decide_eq_true_eq, beq_iff_eq, ge_iff_le,
    UInt32.le_iff_toNat_le, ← Char.toNat_inj] at hranges
  change ((((((0x41 ≤ c.toNat ∧ c.toNat ≤ 0x5A) ∨ (0x61 ≤ c.toNat ∧ c.toNat ≤ 0x7A)) ∨
    (0x30 ≤ c.toNat ∧ c.toNat ≤ 0x39)) ∨ c.toNat = 0x5F) ∨ c.toNat = 0x2E) ∨ c.toNat = 0x3A) ∨
    c.toNat = 0x2D at hranges
  omega

/-- All characters are those of an identifier. -/
def Safe (s : String) : Prop := ∀ c ∈ s.toList, isSafe c = true

instance (s : String) : Decidable (Safe s) :=
  List.decidableBAll (fun c => isSafe c = true) s.toList

theorem Safe.append {s t : String} (hs : Safe s) (ht : Safe t) : Safe (s ++ t) := by
  intro c hc
  rw [String.toList_append] at hc
  exact (List.mem_append.mp hc).elim (hs c) (ht c)

theorem safe_shortName (tag : String) : Safe (shortName tag) := by
  have hall : ∀ p ∈ shortNames, Safe p.2 := by decide
  cases hlookup : shortNames.lookup tag with
  | none =>
    rw [shortName, hlookup]
    decide
  | some name =>
    rw [shortName, hlookup]
    obtain ⟨before, after, hsplit, -⟩ := List.lookup_eq_some_iff.mp hlookup
    exact hall (tag, name) (by rw [hsplit]; simp)

theorem safe_sanitize (seed : Option String) : Safe (sanitize seed) := by
  have hnone : Safe "noid" := by decide
  cases seed with
  | none => exact hnone
  | some s =>
    simp only [sanitize]
    split
    · exact hnone
    · intro c hc
      rw [String.toList_ofList] at hc
      obtain ⟨d, -, rfl⟩ := List.mem_map.mp hc
      by_cases hd : isSafe d = true
      · rw [if_pos hd, hd]
      · rw [if_neg hd]
        decide

theorem safe_make (tag : String) (seed : Option String) (lead : String) :
    Safe (make tag seed lead) := by
  have hmark : Safe "_" := by decide
  have hbase := ((safe_shortName tag).append hmark).append (safe_sanitize seed)
  simp only [make]
  split
  · exact hbase
  · exact ((safe_sanitize (some lead)).append hmark).append hbase

theorem safe_numbered {identifier : String} (h : Safe identifier) (n : Nat) :
    Safe (numbered identifier n) := by
  have hmark : Safe "_" := by decide
  refine (h.append hmark).append fun c hc => ?_
  rw [Nat.toString_eq_repr, Nat.toList_repr] at hc
  have hdigit := Nat.isDigit_of_mem_toDigits (by decide) (by decide) hc
  simp [isSafe, Char.isAlphanum, hdigit]

/-- Numbering keeps what holds of the identifiers and of each of them with a number. -/
theorem forall_numberRepeatsFrom {P : String → Prop} (hnumbered : ∀ s n, P s → P (numbered s n))
    {identifiers : List String} (h : ∀ s ∈ identifiers, P s) (seen taken : List String) :
    ∀ s ∈ numberRepeatsFrom seen taken identifiers, P s := by
  induction identifiers generalizing seen taken with
  | nil => simp [numberRepeatsFrom]
  | cons x rest ih =>
    have hx := h x List.mem_cons_self
    have ih := ih fun s hs => h s (List.mem_cons_of_mem _ hs)
    rw [numberRepeatsFrom]
    split
    · exact List.forall_mem_cons.mpr ⟨hnumbered _ _ hx, ih _ _⟩
    · exact List.forall_mem_cons.mpr ⟨hx, ih _ _⟩

theorem length_numberRepeatsFrom (identifiers seen taken : List String) :
    (numberRepeatsFrom seen taken identifiers).length = identifiers.length := by
  induction identifiers generalizing seen taken with
  | nil => rfl
  | cons x rest ih =>
    rw [numberRepeatsFrom]
    split
    · rw [List.length_cons, List.length_cons, ih]
    · rw [List.length_cons, List.length_cons, ih]

end Identifier

open Identifier (Safe)

namespace Patch

/-- What holds of each identifier that is made, also with a number, holds of the generated ones. -/
theorem forall_identifiers {P : String → Prop} {naming : Naming} (hchoose : naming.choose = none)
    (hmake : ∀ tag seed, P (Identifier.make tag seed naming.lead))
    (hnumbered : ∀ s n, P s → P (Identifier.numbered s n)) (elements : List Element) :
    ∀ s ∈ naming.identifiers elements, P s := by
  have hmade : ∀ s ∈ elements.map fun e => Identifier.make e.tag (some e.seed) naming.lead,
      P s := by
    intro s hs
    obtain ⟨e, -, rfl⟩ := List.mem_map.mp hs
    exact hmake _ _
  simp only [Naming.identifiers, hchoose]
  split
  · exact Identifier.forall_numberRepeatsFrom hnumbered hmade _ _
  · exact hmade

/-- Generated identifiers hold safe characters only. -/
theorem safe_identifiers {naming : Naming} (hchoose : naming.choose = none)
    (elements : List Element) :
    ∀ s ∈ naming.identifiers elements, Safe s :=
  forall_identifiers hchoose (fun _ _ => Identifier.safe_make _ _ _)
    (fun _ n h => Identifier.safe_numbered h n) elements

theorem length_identifiers (naming : Naming) (elements : List Element) :
    (naming.identifiers elements).length = elements.length := by
  simp only [Naming.identifiers]
  cases naming.choose with
  | none =>
    split
    · exact (Identifier.length_numberRepeatsFrom _ _ _).trans (List.length_map _)
    · exact List.length_map _
  | some choose =>
    split
    · exact (Identifier.length_numberRepeatsFrom _ _ _).trans List.length_mapIdx
    · exact List.length_mapIdx

end Patch

/-! ## Markup -/

namespace Accessibility

open Xml

/-- The attributes of the annotation for an identifier. -/
def attributes (identifier : String) : Attributes :=
  [("key", key), ("identifier", identifier), ("label", identifier)]

theorem escapeChar_of_isSafe {c : Char} (h : Identifier.isSafe c = true) : escapeChar c = [c] := by
  unfold escapeChar
  split
  all_goals first
    | cases h
    | rfl

theorem escape_of_safe {s : String} (h : Safe s) : escape s = s := by
  have hflat : ∀ cs : List Char, (∀ c ∈ cs, Identifier.isSafe c = true) →
      cs.flatMap escapeChar = cs := by
    intro cs hcs
    induction cs with
    | nil => rfl
    | cons c cs ih =>
      rw [List.flatMap_cons, escapeChar_of_isSafe (hcs c List.mem_cons_self),
        ih fun d hd => hcs d (List.mem_cons_of_mem _ hd)]
      rfl
  rw [escape, hflat _ h, String.ofList_toList]

/-- The markup of an annotation is a written tag, with the identifier as it is escaped. -/
theorem markup_eq_escape (identifier : String) :
    (markup identifier).toList = emptyTagChars tag (attributes (escape identifier)) := by
  simp only [markup, String.toList_append, emptyTagChars, attributes, attributeChars,
    List.flatMap_cons, List.flatMap_nil, List.append_nil]
  simp [tag, key]

/-- A generated identifier stands in the markup as it is. -/
theorem markup_eq {identifier : String} (h : Safe identifier) :
    (markup identifier).toList = emptyTagChars tag (attributes identifier) := by
  rw [markup_eq_escape, escape_of_safe h]

theorem isPlainValue_of_safe {identifier : String} (h : Safe identifier) :
    IsPlainValue identifier.toList := by
  intro c hc
  have hsafe := h c hc
  refine ⟨?_, ?_, ?_, ?_⟩
  · rintro rfl
    cases hsafe
  · rintro rfl
    cases hsafe
  · rintro rfl
    cases hsafe
  · cases hspace : isSpace c with
    | false => rfl
    | true =>
      simp only [isSpace, Bool.or_eq_true, beq_iff_eq] at hspace
      rcases hspace with ((rfl | rfl) | rfl) | rfl <;> cases hsafe

theorem isName_of_isAlpha {alphabet : Alphabet} {name : List Char} (hne : name ≠ [])
    (h : name.all Char.isAlpha = true) : IsName alphabet name := by
  have hstart : ∀ c ∈ name, alphabet.isNameStart c = true := by
    intro c hc
    simp [Alphabet.isNameStart, List.all_eq_true.mp h c hc]
  obtain ⟨c, rest, rfl⟩ := List.exists_cons_of_ne_nil hne
  exact ⟨c, rest, rfl, hstart c List.mem_cons_self,
    fun d hd => isNameChar_of_isNameStart (hstart d (List.mem_cons_of_mem _ hd))⟩

theorem isName_tag (alphabet : Alphabet) : IsName alphabet tag.toList :=
  isName_of_isAlpha (by decide) (by decide)

theorem isName_attributes (alphabet : Alphabet) (identifier : String) :
    ∀ a ∈ attributes identifier, IsName alphabet a.1.toList := by
  intro a ha
  have hnames : ∀ name ∈ (attributes identifier).map Prod.fst,
      name.toList ≠ [] ∧ name.toList.all Char.isAlpha = true := by
    show ∀ name ∈ ["key", "identifier", "label"], _
    decide
  obtain ⟨hne, halpha⟩ := hnames a.1 (List.mem_map_of_mem ha)
  exact isName_of_isAlpha hne halpha

theorem nodup_attributes (identifier : String) : ((attributes identifier).map Prod.fst).Nodup := by
  show ["key", "identifier", "label"].Nodup
  decide

theorem writable_attributes {identifier : String} (alphabet : Alphabet) (h : Safe identifier) :
    Writable alphabet (attributes identifier) where
  names := isName_attributes alphabet identifier
  values a ha := by
    have hkey : Safe key := by decide
    simp only [attributes, List.mem_cons, List.not_mem_nil, or_false] at ha
    rcases ha with rfl | rfl | rfl
    · exact isPlainValue_of_safe hkey
    · exact isPlainValue_of_safe h
    · exact isPlainValue_of_safe h
  distinct := nodup_attributes identifier

theorem isCommon_of_safe {identifier : String} (h : Safe identifier) :
    IsCommon identifier.toList := by
  intro c hc
  have hbounds := Identifier.toNat_of_isSafe (h c hc)
  refine ⟨by omega, ?_⟩
  simp only [isAllowed, Bool.or_eq_true, Bool.and_eq_true, decide_eq_true_eq,
    beq_iff_eq, bne_iff_ne]
  omega

/-- A character of an annotation's markup is one that every annotation has, or one of the
identifier. -/
theorem mem_markup {identifier : String} {c : Char}
    (h : c ∈ emptyTagChars tag (attributes identifier)) :
    c ∈ emptyTagChars tag (attributes "") ∨ c ∈ identifier.toList := by
  simp only [emptyTagChars, attributes, attributeChars, List.flatMap_cons, List.flatMap_nil,
    List.mem_cons, List.mem_append] at h ⊢
  grind

theorem isCommon_markup {identifier : String} (h : Safe identifier) :
    IsCommon (emptyTagChars tag (attributes identifier)) := by
  have hfixed : IsCommon (emptyTagChars tag (attributes "")) := by decide
  exact fun c hc => (mem_markup hc).elim (hfixed c) (isCommon_of_safe h c)

end Accessibility

end AccessPatch
