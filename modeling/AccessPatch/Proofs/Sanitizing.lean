import AccessPatch.Proofs.Markup

/-!
# Generated identifiers

A seed may be any text, and so may the lead of a project. `sanitize` goes through it twice: first
it joins white space, then it replaces what is not safe. Here this is compared with one pass,
`cleaned`: the underscores of the first pass are safe, so the second one leaves them, and what
stands next to a run stays apart from it (`sanitize_eq_sanitized`).

Main result: `generated_standsAsIs`. Whatever the attributes of a document say, a generated
identifier is a word of safe characters that needs no escaping, and the annotation that holds it
is in ASCII.
-/

namespace AccessPatch

namespace Identifier

open Text (isBlank)

/-! ## One pass -/

/-- The characters of identifiers. -/
def IsIdentifierChar (c : Char) : Prop :=
  ('A' ≤ c ∧ c ≤ 'Z') ∨ ('a' ≤ c ∧ c ≤ 'z') ∨ ('0' ≤ c ∧ c ≤ '9') ∨ c ∈ ['_', '.', ':', '-']

instance (c : Char) : Decidable (IsIdentifierChar c) :=
  inferInstanceAs (Decidable (_ ∨ _))

/-- A run of white space gives one underscore, and so does each other character that is none of an
identifier. `inRun` tells whether the character before is white space, so that the underscore of
its run is there already. -/
def cleaned (inRun : Bool) : List Char → List Char
  | [] => []
  | c :: rest =>
    if isBlank c then if inRun then cleaned true rest else '_' :: cleaned true rest
    else (if IsIdentifierChar c then c else '_') :: cleaned false rest

/-- A seed as a part of an identifier, in one pass. -/
def sanitized : Option String → String
  | none => "noid"
  | some s => if s = "" then "noid" else String.ofList (cleaned false s.toList)

theorem isSafe_iff (c : Char) : isSafe c = true ↔ IsIdentifierChar c := by
  have hsafe : isSafe c = (decide ('A' ≤ c ∧ c ≤ 'Z') || (decide ('a' ≤ c) && decide (c ≤ 'z')) ||
      (decide ('0' ≤ c) && decide (c ≤ '9')) || c == '_' || c == '.' || c == ':' || c == '-') := rfl
  simp only [hsafe, IsIdentifierChar, Bool.or_eq_true, Bool.and_eq_true,
    decide_eq_true_eq, beq_iff_eq, List.mem_cons, List.not_mem_nil, or_false, or_assoc]

theorem isBlank_of_isSafe {c : Char} (h : isSafe c = true) : isBlank c = false := by
  have hbounds := toNat_of_isSafe h
  simp only [isBlank, Bool.or_eq_false_iff, Bool.and_eq_false_iff, decide_eq_false_iff_not,
    beq_eq_false_iff_ne]
  omega

/-! ## Two passes -/

theorem joinBlanks_cons {c : Char} (h : isBlank c = false) (rest : List Char) :
    joinBlanks (c :: rest) = c :: joinBlanks rest := by
  cases rest <;> simp [joinBlanks, h]

/-- Two passes do what one does. A run gets its underscore from the first pass where it ends and
from `cleaned` where it begins, so the induction has to know the text after a white-space
character as well. -/
theorem map_joinBlanks (cs : List Char) :
    (joinBlanks cs).map (fun c => if isSafe c then c else '_') = cleaned false cs ∧
    ∀ b, isBlank b = true →
      (joinBlanks (b :: cs)).map (fun c => if isSafe c then c else '_') =
        '_' :: cleaned true cs := by
  have hmark : isSafe '_' = true := rfl
  induction cs with
  | nil =>
    refine ⟨rfl, fun b hb => ?_⟩
    simp [joinBlanks, hb, cleaned]
  | cons d cs ih =>
    obtain ⟨houtside, hinside⟩ := ih
    cases hd : isBlank d with
    | true =>
      refine ⟨?_, fun b hb => ?_⟩
      · rw [hinside d hd, cleaned, if_pos hd, if_neg Bool.false_ne_true]
      · rw [joinBlanks, if_pos hb, if_pos hd, hinside d hd, cleaned, if_pos hd, if_pos rfl]
    | false =>
      have hd' : ¬ isBlank d = true := by simp [hd]
      have hfirst : (joinBlanks (d :: cs)).map (fun c => if isSafe c then c else '_') =
          (if IsIdentifierChar d then d else '_') :: cleaned false cs := by
        rw [joinBlanks_cons hd, List.map_cons, houtside]
        simp only [isSafe_iff]
      refine ⟨?_, fun b hb => ?_⟩
      · rw [hfirst, cleaned, if_neg hd']
      · rw [joinBlanks, if_pos hb, if_neg hd', List.map_cons, hfirst, if_pos hmark,
          cleaned, if_neg hd']

theorem sanitize_eq_sanitized (seed : Option String) : sanitize seed = sanitized seed := by
  cases seed with
  | none => rfl
  | some s => simp only [sanitize, sanitized, (map_joinBlanks s.toList).1]

example : sanitized (some " Sign in \t(main)") = "_Sign_in__main_" := by
  decide

/-! ## Words -/

/-- A word of safe characters. -/
structure IsWord (s : String) : Prop where
  safe : Safe s
  nonempty : s ≠ ""

theorem cleaned_of_safe {cs : List Char} (h : ∀ c ∈ cs, isSafe c = true) :
    cleaned false cs = cs := by
  induction cs with
  | nil => rfl
  | cons c cs ih =>
    obtain ⟨hc, hcs⟩ := List.forall_mem_cons.mp h
    rw [cleaned, if_neg (by simp [isBlank_of_isSafe hc]), if_pos ((isSafe_iff c).mp hc), ih hcs]

theorem cleaned_ne_nil {cs : List Char} (h : cs ≠ []) : cleaned false cs ≠ [] := by
  obtain ⟨c, rest, rfl⟩ := List.exists_cons_of_ne_nil h
  rw [cleaned]
  split <;> exact List.cons_ne_nil _ _

/-- A word stays as it is. -/
theorem IsWord.sanitize_eq {s : String} (h : IsWord s) : sanitize (some s) = s := by
  rw [sanitize_eq_sanitized, sanitized, if_neg h.nonempty, cleaned_of_safe h.safe,
    String.ofList_toList]

theorem isWord_sanitize (seed : Option String) : IsWord (sanitize seed) := by
  refine ⟨safe_sanitize seed, ?_⟩
  rw [sanitize_eq_sanitized]
  cases seed with
  | none => decide
  | some s =>
    rw [sanitized]
    split
    · decide
    · rename_i hne
      exact mt String.ofList_eq_empty_iff.mp (cleaned_ne_nil (mt String.toList_eq_nil_iff.mp hne))

theorem IsWord.append {s t : String} (hs : Safe s) (ht : IsWord t) : IsWord (s ++ t) :=
  ⟨hs.append ht.safe, fun h => ht.nonempty (String.append_eq_empty_iff.mp h).2⟩

theorem isWord_make (tag : String) (seed : Option String) (lead : String) :
    IsWord (make tag seed lead) := by
  have hmark : Safe "_" := by decide
  have hbase : IsWord (shortName tag ++ "_" ++ sanitize seed) :=
    .append ((safe_shortName tag).append hmark) (isWord_sanitize seed)
  simp only [make]
  split
  · exact hbase
  · exact .append ((safe_sanitize (some lead)).append hmark) hbase

theorem IsWord.numbered {s : String} (h : IsWord s) (n : Nat) : IsWord (numbered s n) :=
  ⟨safe_numbered h.safe n, fun heq =>
    h.nonempty (String.append_eq_empty_iff.mp (String.append_eq_empty_iff.mp heq).1).1⟩

end Identifier

/-! ## In an annotation -/

namespace Accessibility

open Identifier
open Xml (Code bytesOf_of_utf8 inCode_of_isCommon)

/-- The identifier is a word over its alphabet and stands in an annotation as it is: nothing in it
is escaped, the markup is in ASCII, and both values are read back as the identifier. -/
structure StandsAsIs (identifier : String) : Prop where
  nonempty : identifier ≠ ""
  alphabet : ∀ c ∈ identifier.toList, IsIdentifierChar c
  escaped : escape identifier = identifier
  markup : markup identifier = "<accessibility key=\"accessibilityConfiguration\" identifier=\"" ++
    identifier ++ "\" label=\"" ++ identifier ++ "\"/>"
  ascii : ∀ b ∈ Utf8.encode (Accessibility.markup identifier), b < 0x80
  read : ∀ name, tokenize (Utf8.encode (Accessibility.markup identifier)) name = .ok
    [{ kind := .opening, name := "accessibility", start := 0
       stop := (Utf8.encode (Accessibility.markup identifier)).length, selfClosing := true
       attributes := [("key", "accessibilityConfiguration"), ("identifier", identifier),
         ("label", identifier)] },
      { kind := .closing, name := "accessibility"
        start := (Utf8.encode (Accessibility.markup identifier)).length
        stop := (Utf8.encode (Accessibility.markup identifier)).length, selfClosing := true }]

theorem isKept_of_safe {identifier : String} (h : Safe identifier) :
    ∀ c ∈ identifier.toList, IsKept c := by
  intro c hc
  have hbounds := toNat_of_isSafe (h c hc)
  exact .inl ⟨by omega, by omega⟩

theorem lt_of_mem_encode_markup {identifier : String} (h : Safe identifier) :
    ∀ b ∈ Utf8.encode (markup identifier), b < 0x80 := by
  let _ := Code.utf8
  have hcommon := isCommon_markup h
  intro b hb
  have hbytes : Utf8.encode (markup identifier) = Xml.bytesOf (markup identifier).toList := rfl
  rw [hbytes, markup_eq h, bytesOf_of_utf8 rfl, inCode_of_isCommon hcommon] at hb
  obtain ⟨c, hc, rfl⟩ := List.mem_map.mp hb
  have hlt := hcommon.lt hc
  rw [UInt8.lt_iff_toNat_lt, Xml.Encoding.toNat_ofNat_of_lt (by omega)]
  exact hlt

theorem standsAsIs_of_isWord {identifier : String} (h : IsWord identifier) :
    StandsAsIs identifier where
  nonempty := h.nonempty
  alphabet c hc := (isSafe_iff c).mp (h.safe c hc)
  escaped := escape_of_safe h.safe
  markup := by
    have hfront : "<" ++ tag ++ " key=\"" ++ key ++ "\" identifier=\"" =
        "<accessibility key=\"accessibilityConfiguration\" identifier=\"" := by decide
    rw [Accessibility.markup, escape_of_safe h.safe, hfront]
  ascii := lt_of_mem_encode_markup h.safe
  read name := (tokenize_markup (isKept_of_safe h.safe) name).1

/-- **Generated identifiers.** For each seed two passes do what one does, and doing it again
changes nothing. Each identifier that is made of a tag, a seed and a lead stands in its annotation
as it is, and so do those that are generated for the elements of a document, with or without
numbers. -/
theorem generated_standsAsIs (tag : String) (seed : Option String) (lead : String) :
    sanitize seed = sanitized seed ∧ sanitize (some (sanitize seed)) = sanitize seed ∧
      StandsAsIs (make tag seed lead) ∧
      ∀ (unique : Bool) (elements : List Element),
        ∀ s ∈ ({ lead, unique } : Patch.Naming).identifiers elements, StandsAsIs s := by
  refine ⟨sanitize_eq_sanitized seed, (isWord_sanitize seed).sanitize_eq,
    standsAsIs_of_isWord (isWord_make tag seed lead), fun unique elements s hs =>
      standsAsIs_of_isWord ?_⟩
  exact Patch.forall_identifiers rfl (fun _ _ => isWord_make _ _ _) (fun _ n h => h.numbered n)
    elements s hs

end Accessibility

end AccessPatch
