import AccessPatch.Proofs.Spliceable
import AccessPatch.Proofs.Tag.Vocabulary

/-!
# Tracking fewer tags

Which tags are tracked decides which elements end up in the answer, and nothing else: the stack of
open elements, and with it the annotations, is the same (`step_narrowed`). So to track fewer tags
is to leave out elements (`trackedElements_narrowed`). Without numbering, the operation for an
element depends on that element alone, so the plan for fewer elements is the plan for all with
operations left out (`plan_filter`).
-/

namespace AccessPatch

namespace Pairing

/-- The state without the elements that other tags have. -/
def State.narrowed (tags : List String) (s : State) : State :=
  { s with ended := s.ended.filter fun e => tags.contains e.tag }

/-- One range, where fewer tags are tracked. -/
theorem step_narrowed {index : LineTable} {tags wide : List String} (hsub : tags ⊆ wide)
    {s s' : State} {range : TagRange} (h : step index wide s range = .ok s') :
    step index tags (s.narrowed tags) range = .ok (s'.narrowed tags) := by
  obtain ⟨stack, ended⟩ := s
  cases hkind : range.kind with
  | opening =>
    rw [step_opening hkind] at h ⊢
    cases h
    rfl
  | closing =>
    cases stack with
    | nil =>
      simp only [step, hkind] at h
      cases h
    | cons u stack =>
      obtain ⟨o, hyields, rfl⟩ := (step_closing_iff hkind).mp h
      have hwide : tags.contains u.tag = true → wide.contains u.tag = true := fun htag =>
        List.contains_iff_mem.mpr (hsub (List.contains_iff_mem.mp htag))
      refine (step_closing_iff hkind).mpr ⟨_, hyields.restrict hwide, ?_⟩
      simp only [State.narrowed, List.filter_append, Option.toList_filter]

theorem foldlM_narrowed {index : LineTable} {tags wide : List String} (hsub : tags ⊆ wide)
    {ranges : List TagRange} {s s' : State} (h : ranges.foldlM (step index wide) s = .ok s') :
    ranges.foldlM (step index tags) (s.narrowed tags) = .ok (s'.narrowed tags) := by
  have hfold := foldlM_map_eq_ok (k := id) (fun _ _ _ hstep => step_narrowed hsub hstep) h
  rwa [List.map_id] at hfold

end Pairing

theorem trackedElements_narrowed {buffer : Bytes} {ranges : List TagRange} {tags wide : List String}
    {elements : List Element} (hsub : tags ⊆ wide)
    (h : trackedElements buffer wide ranges = .ok elements) :
    trackedElements buffer tags ranges = .ok (elements.filter fun e => tags.contains e.tag) := by
  obtain ⟨s, hfold, hsorted⟩ := bind_eq_ok_iff.mp h
  obtain rfl := Except.ok.inj hsorted
  refine bind_eq_ok_iff.mpr ⟨_, Pairing.foldlM_narrowed hsub hfold, congrArg Except.ok ?_⟩
  show (s.ended.filter _).reverse.mergeSort _ = _
  rw [← List.filter_reverse]
  exact mergeSort_key_filter (fun e : Element => e.extent.start) _ _

namespace Patch

/-- Where identifiers are generated and not numbered, each candidate has an operation of its own. -/
theorem plan_eq_map (buffer newline : Bytes) (elements : List Element) {naming : Naming}
    (hunique : naming.unique = false) (hchoose : naming.choose = none) :
    plan buffer elements naming newline = inOrder ((candidates elements).map fun e =>
      opFor buffer newline e (Identifier.make e.tag (some e.seed) naming.lead)) := by
  have hidentifiers : naming.identifiers (candidates elements) =
      (candidates elements).map fun e => Identifier.make e.tag (some e.seed) naming.lead := by
    simp only [Naming.identifiers, hunique, hchoose, Bool.false_eq_true, if_false]
  rw [plan, hidentifiers, List.zipWith_map_right, List.zipWith_self]

/-- To leave out elements is to leave out their operations. -/
theorem plan_filter (buffer newline : Bytes) (elements : List Element) (p : Element → Bool)
    {naming : Naming} (hunique : naming.unique = false) (hchoose : naming.choose = none) :
    plan buffer (elements.filter p) naming newline =
      (plan buffer elements naming newline).filter fun op => p op.source := by
  rw [plan_eq_map buffer newline _ hunique hchoose, plan_eq_map buffer newline _ hunique hchoose,
    inOrder, inOrder, ← mergeSort_key_filter Op.offset, List.filter_map, candidates,
    List.filter_comm, candidates]
  simp only [Function.comp_def, source_opFor]

/-- **Fewer tags.** Elements that are found with some tags are found with fewer, too, but for
those whose tag is missing, and they are the same in all. Where identifiers are neither numbered
nor chosen, the operations for them are the same as well. -/
theorem plan_of_fewer_tags {buffer : Bytes} {ranges : List TagRange} {tags wide : List String}
    {elements : List Element} (hsub : tags ⊆ wide)
    (h : trackedElements buffer wide ranges = .ok elements) :
    trackedElements buffer tags ranges = .ok (elements.filter fun e => tags.contains e.tag) ∧
    ∀ (naming : Naming) (newline : Bytes), naming.unique = false → naming.choose = none →
      plan buffer (elements.filter fun e => tags.contains e.tag) naming newline =
        (plan buffer elements naming newline).filter fun op => tags.contains op.source.tag := by
  refine ⟨trackedElements_narrowed hsub h, fun naming newline hunique hchoose => ?_⟩
  exact plan_filter buffer newline elements _ hunique hchoose

/-- Of the elements of `sampleRanges`, the one that holds another is left out. -/
theorem plan_of_fewer_tags_sampleRanges :
    ["label", "button"] ⊆ ["button", "view", "label"] ∧ ∃ elements,
      trackedElements (List.replicate 40 0x20) ["button", "view", "label"] sampleRanges =
        .ok elements ∧
      (elements.map Element.tag).Perm ["button", "view", "label"] ∧
      trackedElements (List.replicate 40 0x20) ["label", "button"] sampleRanges =
        .ok (elements.filter fun e => ["label", "button"].contains e.tag) ∧
      ∀ (naming : Naming) (newline : Bytes), naming.unique = false → naming.choose = none →
        plan (List.replicate 40 0x20)
          (elements.filter fun e => ["label", "button"].contains e.tag) naming
            newline =
          (plan (List.replicate 40 0x20) elements naming newline).filter fun op =>
            ["label", "button"].contains op.source.tag := by
  have hsub : ["label", "button"] ⊆ ["button", "view", "label"] := by decide
  have hrun : (sampleRanges.foldlM
      (Pairing.step (.ofBytes (List.replicate 40 0x20)) ["button", "view", "label"]) {}).map
        (fun s => s.ended.reverse.map Element.tag) = .ok ["button", "view", "label"] := by
    decide +kernel
  obtain ⟨s, hfold, htags⟩ := map_eq_ok_iff.mp hrun
  have htracked :
      trackedElements (List.replicate 40 0x20) ["button", "view", "label"] sampleRanges =
      .ok (s.ended.reverse.mergeSort fun e f => decide (e.extent.start ≤ f.extent.start)) :=
    bind_eq_ok_iff.mpr ⟨s, hfold, rfl⟩
  refine ⟨hsub, _, htracked, ?_, plan_of_fewer_tags hsub htracked⟩
  rw [← htags]
  exact (List.mergeSort_perm _ _).map _

end Patch

end AccessPatch
