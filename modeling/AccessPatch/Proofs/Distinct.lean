import AccessPatch.Proofs.Annotated
import AccessPatch.Proofs.Numbering

/-!
# Distinct identifiers

`numberRepeats` makes the identifiers of one plan different from one another
(`nodup_numberRepeats`). What the annotations of the document itself are called it does not see,
so that a document whose own identifiers are different may have a repeated one once the plan is
carried out (`repeats_in_repeatingScene`).

Main result: `nodup_identifiersOf_splice_iff`. The patched document holds the identifiers that
were there and those of the plan, and no two of them are the same exactly if none of the plan was
there before.
-/

namespace AccessPatch

namespace Pairing

open Xml

/-! ## Annotations of elements -/

/-- An element that is found has an annotation if it is called annotated, and only then. -/
theorem annotated_eq_isSome [Code] {index : LineTable} {tags : List String}
    {stack : List Unclosed} {pos : Nat} {ps : List (Stretch × Option Element)}
    (h : Paired index tags stack pos ps)
    (hstack : ∀ u ∈ stack, u.annotated = u.accessibility.isSome) :
    ∀ e ∈ endedWith ps, e.annotated = e.accessibility.isSome := by
  have hmarked : ∀ (st : Stretch) (stack : List Unclosed),
      (∀ u ∈ stack, u.annotated = u.accessibility.isSome) →
      ∀ u ∈ marked st stack, u.annotated = u.accessibility.isSome := by
    intro st stack hstack
    unfold marked
    split
    · cases stack with
      | nil => exact hstack
      | cons parent rest => exact List.forall_mem_cons.mpr ⟨rfl, (List.forall_mem_cons.mp hstack).2⟩
    · exact hstack
  have hyields : ∀ {u : Unclosed} {a b : Int} {o : Option Element}, Yields index tags u a b o →
      u.annotated = u.accessibility.isSome →
      ∀ e ∈ o.toList, e.annotated = e.accessibility.isSome := by
    intro u a b o hyields hu
    cases hyields with
    | untracked => simp
    | @tracked e _ hclosed =>
      simp only [Option.toList_some, List.mem_singleton, forall_eq]
      rw [hclosed.annotated, hclosed.accessibility, hu]
  induction h with
  | nil => simp [endedWith]
  | @opening stack pos st ps form rest ih =>
    exact ih (List.forall_mem_cons.mpr ⟨rfl, hmarked st stack hstack⟩)
  | @empty stack pos st o ps form yields rest ih =>
    rw [endedWith_cons]
    exact List.forall_mem_append.mpr ⟨hyields yields rfl, ih (hmarked st stack hstack)⟩
  | @closing u stack pos st o ps form yields rest ih =>
    obtain ⟨hu, hstack⟩ := List.forall_mem_cons.mp hstack
    rw [endedWith_cons]
    exact List.forall_mem_append.mpr ⟨hyields yields hu, ih hstack⟩

end Pairing

/-- The identifier that an element's annotation gives it. -/
def Element.identifier? (e : Element) : Option String :=
  e.accessibility.bind (·.lookup "identifier")

/-- The identifiers that the annotations of elements give them. -/
def identifiersOf (elements : List Element) : List String :=
  elements.filterMap Element.identifier?

namespace Patch

open Pairing (endedWith)
open Xml

/-! ## The identifiers of a patched document -/

/-- With annotations in those elements that were due one, there are their identifiers too. -/
theorem identifiersOf_of_annotates {dtd : Dtd} {ops : List Op} {identify : Int → String}
    {due : List String} {es es' : List Element} (hrules : dtd.rules = [])
    (hdue : ∀ e ∈ es, due.contains e.tag = true)
    (hbare : ∀ e ∈ es, e.annotated = e.accessibility.isSome)
    (h : List.Forall₂ (Annotates dtd ops identify due) es es') :
    (identifiersOf es').Perm
      (identifiersOf es ++ (candidates es).map fun e => identify e.extent.start) := by
  induction h with
  | nil => exact .nil
  | @cons e e' es es' he h ih =>
    obtain ⟨htag, hdue⟩ := List.forall_mem_cons.mp hdue
    obtain ⟨hsome, hbare⟩ := List.forall_mem_cons.mp hbare
    have ih := ih hdue hbare
    cases hannotated : e.annotated with
    | true =>
      have hown : e'.identifier? = e.identifier? := by
        rw [Element.identifier?, he.accessibility, hannotated, Bool.true_or, if_pos rfl,
          Element.identifier?]
      have hcandidates : candidates (e :: es) = candidates es := by
        rw [candidates, List.filter_cons_of_neg (by simp [hannotated]), candidates]
      rw [identifiersOf, identifiersOf, List.filterMap_cons, List.filterMap_cons, hown, hcandidates]
      cases e.identifier? with
      | none => exact ih
      | some s => exact ih.cons s
    | false =>
      have hnone : e.identifier? = none := by
        have hbare : e.accessibility = none := by simpa [hannotated] using hsome
        rw [Element.identifier?, hbare]
        rfl
      have hnew : e'.identifier? = some (identify e.extent.start) := by
        have hdue : (e.annotated || ! due.contains e.tag) = false := by
          rw [hannotated, htag]
          rfl
        rw [Element.identifier?, he.accessibility, hdue, if_neg (by simp),
          Dtd.completed_of_rules hrules]
        rfl
      have hcandidates : candidates (e :: es) = e :: candidates es := by
        rw [candidates, List.filter_cons_of_pos (by simp [hannotated]), candidates]
      rw [identifiersOf, identifiersOf, List.filterMap_cons, List.filterMap_cons, hnone, hnew,
        hcandidates, List.map_cons]
      exact (ih.cons _).trans List.perm_middle.symm

/-- The patched document holds the identifiers that were there and those of the plan. -/
theorem identifiersOf_splice {buffer : Bytes} {source : Source} {identity : String}
    {tags : List String} {naming : Naming} {elements : List Element}
    (hsource : Source.ofBytes buffer = .ok source) (hutf8 : source.encoding = .utf8)
    (hnone : (source.reader {} false).declaresType source.body = false)
    (hno : tags.contains Accessibility.tag = false) (hchoose : naming.choose = none)
    (helements : elementsOf buffer identity tags = .ok elements) :
    ∃ patched elements', splice buffer (planDetected buffer elements naming) = .ok patched ∧
      elementsOf patched identity tags = .ok elements' ∧
      (identifiersOf elements').Perm
        (identifiersOf elements ++ naming.identifiers (candidates elements)) := by
  obtain ⟨code, l, context, ps, hcode, rfl, -, hl, hcontext, -, -, hpaired, rfl⟩ :=
    exists_paired hsource (Source.isWritten_of_utf8 hutf8 _) helements
  obtain ⟨l', identify, -, hidentify, hpatched, hsame, -⟩ :=
    exists_fulfils hl hno (agrees_of_utf8 (hcode.trans hutf8) tags) hchoose helements
  obtain ⟨elements, elements', helements₀, helements', hannotates⟩ := hsame tags hno
  obtain rfl := Except.ok.inj (helements.symm.trans helements₀)
  have hdue : ∀ e ∈ byStart (endedWith ps), tags.contains e.tag = true :=
    fun e he => hpaired.tracked e ((byStart_perm _).mem_iff.mp he)
  have hbare : ∀ e ∈ byStart (endedWith ps), e.annotated = e.accessibility.isSome :=
    fun e he => Pairing.annotated_eq_isSome hpaired (by simp) e ((byStart_perm _).mem_iff.mp he)
  refine ⟨l'.bytes, elements', hpatched, helements', ?_⟩
  rw [← hidentify]
  exact identifiersOf_of_annotates (rules_eq_nil hutf8 hnone hcontext) hdue hbare hannotates

/-- **Numbered identifiers.** Where repeats are numbered, the identifiers of a plan are different
from one another. So the patched document has no identifier twice exactly if the document had none
twice and the plan has none that was there. -/
theorem nodup_identifiersOf_splice_iff {buffer : Bytes} {source : Source} {identity : String}
    {tags : List String} {naming : Naming} {elements : List Element}
    (hsource : Source.ofBytes buffer = .ok source) (hutf8 : source.encoding = .utf8)
    (hnone : (source.reader {} false).declaresType source.body = false)
    (hno : tags.contains Accessibility.tag = false) (hchoose : naming.choose = none)
    (hunique : naming.unique = true) (helements : elementsOf buffer identity tags = .ok elements) :
    ∃ patched elements', splice buffer (planDetected buffer elements naming) = .ok patched ∧
      elementsOf patched identity tags = .ok elements' ∧
      (identifiersOf elements').Perm
        (identifiersOf elements ++ naming.identifiers (candidates elements)) ∧
      (naming.identifiers (candidates elements)).Nodup ∧
      ((identifiersOf elements').Nodup ↔ (identifiersOf elements).Nodup ∧
        ∀ s ∈ identifiersOf elements, s ∉ naming.identifiers (candidates elements)) := by
  obtain ⟨patched, elements', hpatched, helements', hperm⟩ :=
    identifiersOf_splice hsource hutf8 hnone hno hchoose helements
  have hplanned : (naming.identifiers (candidates elements)).Nodup := by
    rw [Naming.identifiers, if_pos hunique]
    exact Identifier.nodup_numberRepeats _
  refine ⟨patched, elements', hpatched, helements', hperm, hplanned, ?_⟩
  rw [hperm.nodup_iff, List.nodup_append']
  constructor
  · rintro ⟨hown, -, hapart⟩
    exact ⟨hown, fun s hs hnew => hapart hs hnew⟩
  · rintro ⟨hown, hapart⟩
    exact ⟨hown, hplanned, fun s hs hnew => hapart s hs hnew⟩

theorem nodup_identifiersOf_sampleScene : ∃ source elements patched elements',
    Source.ofBytes sampleScene = .ok source ∧
    (source.encoding = .utf8 ∧ (source.reader {} false).declaresType source.body = false) ∧
    ["view", "button", "label"].contains Accessibility.tag = false ∧
    elementsOf sampleScene "sample" ["view", "button", "label"] = .ok elements ∧
    splice sampleScene (planDetected sampleScene elements { unique := true }) = .ok patched ∧
    elementsOf patched "sample" ["view", "button", "label"] = .ok elements' ∧
    (identifiersOf elements').Perm
      (identifiersOf elements ++ Naming.identifiers { unique := true } (candidates elements)) ∧
    (Naming.identifiers { unique := true } (candidates elements)).Nodup ∧
    ((identifiersOf elements').Nodup ↔ (identifiersOf elements).Nodup ∧
      ∀ s ∈ identifiersOf elements,
      s ∉ Naming.identifiers { unique := true } (candidates elements)) := by
  obtain ⟨source, hsource, hutf8, hnone⟩ := read_sampleScene
  obtain ⟨elements, helements, -⟩ := found_sampleScene
  have hno : ["view", "button", "label"].contains Accessibility.tag = false := by decide
  have hchoose : ({ unique := true } : Naming).choose = none := rfl
  obtain ⟨patched, elements', hresult⟩ :=
    nodup_identifiersOf_splice_iff hsource hutf8 hnone hno hchoose rfl helements
  exact ⟨source, elements, patched, elements', hsource, ⟨hutf8, hnone⟩, hno, helements, hresult⟩

/-- A document with a button that has an annotation, as a plan gives it, and with a new button. -/
def repeatingScene : Bytes :=
  bytesOf
    ("<view><button><accessibility key=\"accessibilityConfiguration\" identifier=\"btn_noid\" " ++
    "label=\"btn_noid\"/></button><button/></view>").toList

theorem read_repeatingScene : ∃ source, Source.ofBytes repeatingScene = .ok source ∧
    source.encoding = .utf8 ∧ (source.reader {} false).declaresType source.body = false := by
  have hread : (Source.ofBytes repeatingScene).map (fun source =>
      (source.encoding, (source.reader {} false).declaresType source.body)) =
        .ok (.utf8, false) := by
    decide +kernel
  obtain ⟨source, hsource, hsame⟩ := map_eq_ok_iff.mp hread
  exact ⟨source, hsource, Prod.mk.inj hsame⟩

theorem found_repeatingScene : ∃ elements,
    elementsOf repeatingScene "sample" ["button"] = .ok elements ∧
    (elements.map fun e => (e.tag, e.seed, e.annotated, e.identifier?)).Perm
      [("button", "", true, some "btn_noid"), ("button", "", false, none)] := by
  have hrun : (tokenize repeatingScene "sample" >>= fun ranges =>
      (ranges.foldlM (Pairing.step (.ofBytes repeatingScene) ["button"]) {}).mapError .pairing).map
        (fun s => s.ended.reverse.map fun e => (e.tag, e.seed, e.annotated, e.identifier?)) =
      .ok [("button", "", true, some "btn_noid"), ("button", "", false, none)] := by
    decide +kernel
  obtain ⟨s, hs, hended⟩ := map_eq_ok_iff.mp hrun
  refine ⟨byStart s.ended.reverse, elementsOf_of_ended hs, ?_⟩
  rw [← hended]
  exact (List.mergeSort_perm _ _).map _

/-- The new button is given the identifier that the other one has. -/
theorem repeats_in_repeatingScene : ∃ source elements patched elements',
    Source.ofBytes repeatingScene = .ok source ∧
    (source.encoding = .utf8 ∧ (source.reader {} false).declaresType source.body = false) ∧
    ["button"].contains Accessibility.tag = false ∧
    elementsOf repeatingScene "sample" ["button"] = .ok elements ∧ (identifiersOf elements).Nodup ∧
    splice repeatingScene (planDetected repeatingScene elements { unique := true }) = .ok patched ∧
    elementsOf patched "sample" ["button"] = .ok elements' ∧ ¬ (identifiersOf elements').Nodup := by
  obtain ⟨source, hsource, hutf8, hnone⟩ := read_repeatingScene
  obtain ⟨elements, helements, hfound⟩ := found_repeatingScene
  have hno : ["button"].contains Accessibility.tag = false := by decide
  have hchoose : ({ unique := true } : Naming).choose = none := rfl
  obtain ⟨patched, elements', hpatched, helements', hperm⟩ :=
    identifiersOf_splice hsource hutf8 hnone hno hchoose helements
  have hown : identifiersOf elements = ["btn_noid"] := by
    have := (hfound.filterMap fun x => x.2.2.2)
    rw [List.filterMap_map] at this
    exact List.perm_singleton.mp this
  have hcandidates : (candidates elements).map (fun e => (e.tag, e.seed)) = [("button", "")] := by
    have := ((hfound.filter fun x => ! x.2.2.1).map fun x => (x.1, x.2.1))
    rw [List.filter_map, List.map_map] at this
    exact List.perm_singleton.mp this
  have hplanned : Naming.identifiers { unique := true } (candidates elements) = ["btn_noid"] := by
    have hmade : (candidates elements).map (fun e => Identifier.make e.tag (some e.seed) "") =
        [Identifier.make "button" (some "") ""] := by
      have :=
        congrArg (List.map fun x : String × String => Identifier.make x.1 (some x.2) "") hcandidates
      rwa [List.map_map] at this
    exact (congrArg Identifier.numberRepeats hmade).trans (by decide)
  refine ⟨source, elements, patched, elements', hsource, ⟨hutf8, hnone⟩, hno, helements,
    ?_, hpatched, helements', ?_⟩
  · rw [hown]
    exact List.nodup_singleton _
  · rw [hperm.nodup_iff, hown, hplanned]
    decide

end Patch

end AccessPatch
