import AccessPatch.Proofs.Annotated
import AccessPatch.Proofs.Respelled
import AccessPatch.Proofs.Run
import AccessPatch.Proofs.Tag.BigEndian

/-!
# Documents in any encoding

A plan writes tags and annotations in ASCII whatever the document is written in. In an encoding
that agrees with ASCII they are read as they are meant, so what `apply` returns has the elements
of the document, and all of them are annotated (`elementsOf_of_apply`). UTF-16 is no such
encoding. With the high byte first no tag is found in the document; with the low byte first there
may be a plan, but the new bytes are read two by two, as text, and the result can still be
well-formed (`not_annotated_wideDocument`).
-/

namespace AccessPatch.Patch

open Pairing (endedWith)
open Run (Returns)
open Xml

theorem unit_eq_one {encoding : Encoding} (h : ∀ bigEndian, encoding ≠ .utf16 bigEndian) :
    encoding.unit = 1 := by
  cases encoding with
  | utf16 bigEndian => exact absurd rfl (h bigEndian)
  | _ => rfl

/-- A document with elements, if it is in UTF-16, has the low byte first. -/
theorem unit_eq_one_of_elementsOf {buffer : Bytes} {source : Source} {identity : String}
    {tags : List String} {elements : List Element} (hsource : Source.ofBytes buffer = .ok source)
    (hcode : source.encoding ≠ .utf16 false)
    (helements : elementsOf buffer identity tags = .ok elements) :
    source.encoding.unit = 1 := by
  refine unit_eq_one fun bigEndian hencoding => ?_
  cases bigEndian with
  | false => exact hcode hencoding
  | true =>
    obtain ⟨ranges, htokenize, -⟩ := bind_eq_ok_iff.mp helements
    exact TagRange.ofDocument_ne_ok_of_bigEndian hsource hencoding ranges
      (mapError_eq_ok_iff.mp htokenize)

/-- An element with a tag that is due is annotated afterwards. -/
theorem annotated_of_annotates {dtd : Dtd} {ops : List Op} {identify : Int → String}
    {due : List String} {es es' : List Element} (htracked : ∀ e ∈ es, due.contains e.tag = true)
    (h : List.Forall₂ (Annotates dtd ops identify due) es es') :
    es'.map (·.tag) = es.map (·.tag) ∧ ∀ e' ∈ es', e'.annotated = true := by
  induction h with
  | nil => exact ⟨rfl, by simp⟩
  | @cons e e' es es' he _ ih =>
    obtain ⟨hdue, htracked⟩ := List.forall_mem_cons.mp htracked
    obtain ⟨htags, hannotated⟩ := ih htracked
    refine ⟨?_, List.forall_mem_cons.mpr ⟨?_, hannotated⟩⟩
    · rw [List.map_cons, List.map_cons, he.tag, htags]
    · rw [he.annotated, hdue, Bool.or_true]

/-- With the operations planned for tags in ASCII, a document that is written as its code writes
it has the same elements, all of them annotated. The operations leave its declaration alone. -/
theorem exists_splice_of_isWritten {buffer : Bytes} {source : Source} {identity : String}
    {tags : List String} {naming : Naming} {elements : List Element}
    (hsource : Source.ofBytes buffer = .ok source) (hwritten : source.IsWritten buffer)
    (hcommon : ∀ tag ∈ tags, IsCommon tag.toList) (hno : tags.contains Accessibility.tag = false)
    (hchoose : naming.choose = none) (helements : elementsOf buffer identity tags = .ok elements) :
    (∀ op ∈ planDetected buffer elements naming, source.start ≤ op.offset) ∧
    ∃ patched elements', splice buffer (planDetected buffer elements naming) = .ok patched ∧
      elementsOf patched identity tags = .ok elements' ∧
      elements'.map (·.tag) = elements.map (·.tag) ∧ ∀ e ∈ elements', e.annotated = true := by
  obtain ⟨code, l, context, ps, -, rfl, hlead, hl, -, -, hspelled, hpaired, rfl⟩ :=
    exists_paired hsource hwritten helements
  have hagrees := agrees_of_isCommon hcommon
  constructor
  · obtain ⟨identify, -, hlegible, hplan⟩ :=
      exists_plan_eq_opsOf l.bytes hspelled hagrees hpaired hchoose
    intro op hop
    rw [hplan] at hop
    have hwithin := (opsOf_within l.bytes hspelled hlegible hpaired op hop).1
    rw [Layout.rootStart] at hwithin
    omega
  · obtain ⟨l', identify, -, -, hpatched, hsame, -⟩ :=
      exists_fulfils hl hno hagrees hchoose helements
    obtain ⟨elements, elements', helements₀, helements', hannotates⟩ := hsame tags hno
    obtain rfl := Except.ok.inj (helements.symm.trans helements₀)
    have htracked : ∀ e ∈ byStart (endedWith ps), tags.contains e.tag = true :=
      fun e he => hpaired.tracked e ((byStart_perm _).mem_iff.mp he)
    exact ⟨l'.bytes, elements', hpatched, helements', annotated_of_annotates htracked hannotates⟩

/-- So it is with every document that is not in UTF-16. -/
theorem exists_splice_planDetected {buffer : Bytes} {source : Source} {identity : String}
    {tags : List String} {naming : Naming} {elements : List Element}
    (hsource : Source.ofBytes buffer = .ok source) (hunit : source.encoding.unit = 1)
    (hcommon : ∀ tag ∈ tags, IsCommon tag.toList) (hno : tags.contains Accessibility.tag = false)
    (hchoose : naming.choose = none) (helements : elementsOf buffer identity tags = .ok elements) :
    ∃ patched elements', splice buffer (planDetected buffer elements naming) = .ok patched ∧
      elementsOf patched identity tags = .ok elements' ∧
      elements'.map (·.tag) = elements.map (·.tag) ∧ ∀ e ∈ elements', e.annotated = true := by
  by_cases hutf8 : source.encoding = .utf8
  · exact (exists_splice_of_isWritten hsource (Source.isWritten_of_utf8 hutf8 _) hcommon hno hchoose
      helements).2
  · obtain ⟨code, lead, bs, rfl, hlead⟩ := Source.exists_declared hsource hunit hutf8
    obtain ⟨written, source', hrespelled, hsource', hstart, hwritten⟩ :=
      Source.exists_written hlead bs
    obtain ⟨hafter, patched', elements', hsplice, helements', hresult⟩ :=
      exists_splice_of_isWritten hsource' hwritten hcommon hno hchoose
        (hrespelled.elementsOf hlead helements)
    rw [← hrespelled.planDetected, hstart] at hafter
    rw [← hrespelled.planDetected] at hsplice
    obtain ⟨patched, hpatched, hsame⟩ := hrespelled.symm.splice hafter hsplice
    exact ⟨patched, elements', hpatched, hsame.elementsOf hlead helements', hresult⟩

/-- **What is applied is annotated.** If a plan for the default tags is applied to a document,
with or without a check of the result, the elements of the result are those of the document, and
all of them are annotated. UTF-16 with the low byte first is left out, unless nothing is planned
there. -/
theorem elementsOf_of_apply {buffer : Bytes} {source : Source} {identity : String}
    {elements : List Element} {o : Application} {outcome : Outcome} {s s' : Session}
    (hsource : Source.ofBytes buffer = .ok source)
    (hcode : source.encoding = .utf16 false → planDetected buffer elements {} = [])
    (helements : elementsOf buffer identity defaultTags = .ok elements)
    (happly : (apply buffer (planDetected buffer elements {}) o).exec s = (.ok outcome, s')) :
    ∃ elements', elementsOf outcome.patched identity defaultTags = .ok elements' ∧
      elements'.map (·.tag) = elements.map (·.tag) ∧ ∀ e ∈ elements', e.annotated = true := by
  have hpatched := splice_of_apply happly
  by_cases hwide : source.encoding = .utf16 false
  · have hnone := hcode hwide
    rw [hnone, splice_nil] at hpatched
    obtain rfl := Except.ok.inj hpatched
    exact ⟨elements, helements, rfl, plan_eq_nil_iff.mp hnone⟩
  · have hcommon : ∀ tag ∈ defaultTags, IsCommon tag.toList := by decide
    have hno : defaultTags.contains Accessibility.tag = false := by decide
    have hchoose : ({} : Naming).choose = none := rfl
    have hunit := unit_eq_one_of_elementsOf hsource hwide helements
    obtain ⟨patched, elements', hsplice, hresult⟩ :=
      exists_splice_planDetected hsource hunit hcommon hno hchoose helements
    obtain rfl := Except.ok.inj (hsplice.symm.trans hpatched)
    exact ⟨elements', hresult⟩

/-- A document in ISO-8859-1. -/
def latinDocument : Bytes :=
  Utf8.encode "<?xml version='1.0' encoding='ISO-8859-1'?>\n<p>\n  <button title='" ++ [0xE9] ++
    Utf8.encode "'/>\n</p>"

theorem elementsOf_of_apply_latinDocument : ∃ source elements outcome s s',
    Source.ofBytes latinDocument = .ok source ∧ source.encoding = .latin1 ∧
    elementsOf latinDocument "sample" defaultTags = .ok elements ∧
    (apply latinDocument (planDetected latinDocument elements {}) {}).exec s = (.ok outcome, s') ∧
    outcome.applied = 1 ∧
    ∃ elements', elementsOf outcome.patched "sample" defaultTags = .ok elements' ∧
      elements'.map (·.tag) = elements.map (·.tag) ∧ ∀ e ∈ elements', e.annotated = true := by
  have hread : (Source.ofBytes latinDocument).map Source.encoding = .ok .latin1 := by decide +kernel
  have hrun : (elementsOf latinDocument "sample" defaultTags >>= fun elements =>
      (prepare latinDocument (planDetected latinDocument elements {}) {}).map fun _ =>
        (planDetected latinDocument elements {}).length) = .ok 1 := by
    decide +kernel
  obtain ⟨source, hsource, hencoding⟩ := map_eq_ok_iff.mp hread
  obtain ⟨elements, helements, hprepare⟩ := bind_eq_ok_iff.mp hrun
  obtain ⟨patched, hprepare, hlength⟩ := map_eq_ok_iff.mp hprepare
  obtain ⟨outcome, hreturns, -, happlied⟩ := returns_apply rfl hprepare
  obtain ⟨s', happly, -⟩ := hreturns ⟨{}, []⟩
  have hcode : source.encoding = .utf16 false → planDetected latinDocument elements {} = [] := by
    simp [hencoding]
  exact ⟨source, elements, outcome, _, s', hsource, hencoding, helements, happly,
    happlied.trans hlength, elementsOf_of_apply hsource hcode helements happly⟩

/-- A document in UTF-16: a `view` that holds U+0A05 and a space, whose bytes are taken for a line
break and an indentation. -/
def wideDocument : Bytes :=
  [0xFF, 0xFE, 0x3C, 0x00, 0x76, 0x00, 0x69, 0x00, 0x65, 0x00, 0x77, 0x00, 0x3E, 0x00, 0x05, 0x0A,
    0x20, 0x00, 0x3C, 0x00, 0x2F, 0x00, 0x76, 0x00, 0x69, 0x00, 0x65, 0x00, 0x77, 0x00, 0x3E, 0x00]

/-- In UTF-16 the annotation becomes text, and the check finds nothing wrong with that. -/
theorem not_annotated_wideDocument : ∃ elements outcome elements',
    elementsOf wideDocument "sample" defaultTags = .ok elements ∧
    Returns
      (apply wideDocument (planDetected wideDocument elements {}) { verify := true }) outcome ∧
    outcome.applied = 1 ∧ elementsOf outcome.patched "sample" defaultTags = .ok elements' ∧
    ¬ ∀ e ∈ elements', e.annotated = true := by
  have hrun : (elementsOf wideDocument "sample" defaultTags >>= fun elements =>
      prepare wideDocument (planDetected wideDocument elements {}) { verify := true } >>=
        fun patched =>
      (elementsOf patched "sample" defaultTags).map fun elements' =>
        ((planDetected wideDocument elements {}).length, elements'.map (·.annotated))) =
      .ok (1, [false]) := by
    decide +kernel
  obtain ⟨elements, helements, hrest⟩ := bind_eq_ok_iff.mp hrun
  obtain ⟨patched, hprepare, hrest⟩ := bind_eq_ok_iff.mp hrest
  obtain ⟨elements', helements', hresult⟩ := map_eq_ok_iff.mp hrest
  obtain ⟨hlength, hannotated⟩ := Prod.mk.inj hresult
  obtain ⟨outcome, hreturns, rfl, happlied⟩ := returns_apply rfl hprepare
  refine ⟨elements, outcome, elements', helements, hreturns, happlied.trans hlength, helements', ?_⟩
  obtain ⟨e, rfl⟩ := List.length_eq_one_iff.mp (by simpa using congrArg List.length hannotated)
  simpa using hannotated

end AccessPatch.Patch
