import AccessPatch.Proofs.Identifier
import AccessPatch.Proofs.Splicing
import AccessPatch.Proofs.Tag.Promised

/-!
# Plans fit their documents

Whatever source the ranges of a document come from, if it keeps its promise then the elements can
be found and the plan for them can be carried out. The operation for an element takes its extent
from `slotStart` to `slotStop` (`offset_opFor`, `stop_opFor`), so `Spread` says that no two of
them meet. `splice_plan_of_promised` adds what sorting does: identifiers go by the order in which
elements start, operations by the order of their offsets.
-/

namespace AccessPatch

open Pairing (Spread StartsWith)
open TagRange (Promised)

namespace Patch

/-! ## The operation for an element -/

section Op

variable (buffer newline : Bytes) (e : Element) (identifier : String)

theorem source_opFor : (opFor buffer newline e identifier).source = e := by
  simp only [opFor]
  split <;> rfl

theorem offset_opFor : (opFor buffer newline e identifier).offset = e.extent.slotStart := by
  simp only [opFor, Extent.slotStart]
  split <;> rfl

theorem replaced_opFor :
    (opFor buffer newline e identifier).replaced = if e.extent.selfClosing then 2 else 0 := by
  simp only [opFor]
  split <;> rfl

theorem stop_opFor : (opFor buffer newline e identifier).stop = e.extent.slotStop := by
  rw [Op.stop, offset_opFor, replaced_opFor, Extent.slotStart, Extent.slotStop]
  split <;> omega

end Op

/-- The operations of a plan are those of the elements without annotation, each with the identifier
that its place among them gives it. They lie in the document, one after the other. -/
structure Lands (buffer newline : Bytes) (elements : List Element) (naming : Naming)
    (ops : List Op) :
    Prop where
  each : ops.Perm (List.zipWith (opFor buffer newline) (candidates elements)
    (naming.identifiers (candidates elements)))
  sources : (ops.map Op.source).Perm (candidates elements)
  increasing : ops.Pairwise fun a b => a.offset < b.offset
  apart : ops.Pairwise fun a b => a.stop ≤ b.offset
  inside : ∀ op ∈ ops, 0 ≤ op.offset ∧ op.stop ≤ buffer.length
  opened : ∀ op ∈ ops, op.source.extent.selfClosing = true →
    op.offset = op.source.extent.openEnd - 2 ∧ op.replaced = 2
  filled : ∀ op ∈ ops, op.source.extent.selfClosing = false →
    op.offset = op.source.extent.closeStart ∧ op.replaced = 0

/-! ## The plan for elements whose slots do not overlap -/

/-- One of two operations lies before the other. -/
def Apart (a b : Op) : Prop :=
  (a.offset < b.offset ∧ a.stop ≤ b.offset) ∨ (b.offset < a.offset ∧ b.stop ≤ a.offset)

theorem Apart.symm {a b : Op} (h : Apart a b) : Apart b a :=
  Or.symm h

section Plan

variable {buffer newline : Bytes} {ranges : List TagRange} {ended elements : List Element}
  {naming : Naming}

theorem map_source_zipWith (buffer newline : Bytes) (elements : List Element) (naming : Naming) :
    (List.zipWith (opFor buffer newline) (candidates elements)
      (naming.identifiers (candidates elements))).map Op.source = candidates elements := by
  have hlength := length_identifiers naming (candidates elements)
  generalize candidates elements = es at hlength ⊢
  generalize naming.identifiers es = ids at hlength
  induction es generalizing ids with
  | nil => rfl
  | cons e es ih =>
    obtain ⟨id, ids, rfl⟩ := List.exists_cons_of_length_eq_add_one hlength
    rw [List.zipWith_cons_cons, List.map_cons, source_opFor, ih ids (Nat.succ.inj hlength)]

/-- A plan has one operation for each candidate. -/
theorem sources_plan (buffer newline : Bytes) (elements : List Element) (naming : Naming) :
    ((plan buffer elements naming newline).map Op.source).Perm (candidates elements) := by
  rw [← map_source_zipWith buffer newline elements naming]
  exact (inOrder_perm _).map _

theorem eq_opFor_of_mem {op : Op}
    (hop : op ∈ List.zipWith (opFor buffer newline) (candidates elements)
      (naming.identifiers (candidates elements))) :
    ∃ identifier, op = opFor buffer newline op.source identifier := by
  obtain ⟨⟨e, identifier⟩, -, rfl⟩ := List.mem_map.mp (List.map_uncurry_zip_eq_zipWith ▸ hop)
  exact ⟨identifier, by rw [Function.uncurry_apply_pair, source_opFor]⟩

theorem pairwise_apart {a b : Int} (hspread : Spread ranges a b ended)
    (hperm : elements.Perm ended) :
    (List.zipWith (opFor buffer newline) (candidates elements)
      (naming.identifiers (candidates elements))).Pairwise Apart := by
  let raw := List.zipWith (opFor buffer newline) (candidates elements)
    (naming.identifiers (candidates elements))
  let SlotsApart (e f : Element) : Prop :=
    (e.extent.slotStart < f.extent.slotStart ∧ e.extent.slotStop ≤ f.extent.slotStart) ∨
      (f.extent.slotStart < e.extent.slotStart ∧ f.extent.slotStop ≤ e.extent.slotStart)
  have hended : (ended.filter (! ·.annotated)).Pairwise SlotsApart :=
    (hspread.apart.imp Or.inl).sublist List.filter_sublist
  have hcandidates : (candidates elements).Pairwise SlotsApart :=
    ((hperm.filter _).pairwise_iff Or.symm).mpr hended
  have hraw : (raw.map Op.source).Pairwise SlotsApart := by
    rw [map_source_zipWith]
    exact hcandidates
  refine (List.pairwise_map.mp hraw).imp_of_mem fun {op op'} hop hop' happart => ?_
  obtain ⟨identifier, heq⟩ := eq_opFor_of_mem hop
  obtain ⟨identifier', heq'⟩ := eq_opFor_of_mem hop'
  rw [heq, heq', Apart, offset_opFor, offset_opFor, stop_opFor, stop_opFor]
  exact happart

theorem lands_plan (hspread : Spread ranges 0 buffer.length ended) (hperm : elements.Perm ended) :
    Lands buffer newline elements naming (plan buffer elements naming newline) := by
  have hplan := inOrder_perm (List.zipWith (opFor buffer newline) (candidates elements)
    (naming.identifiers (candidates elements)))
  have hapart : (plan buffer elements naming newline).Pairwise Apart :=
    (hplan.pairwise_iff Apart.symm).mpr (pairwise_apart hspread hperm)
  -- Sorting puts the one that lies before the other in front of it.
  have hordered : (plan buffer elements naming newline).Pairwise fun a b =>
      a.offset < b.offset ∧ a.stop ≤ b.offset := by
    refine (hapart.and (inOrder_sorted _)).imp fun {a b} h => ?_
    rcases h.1 with hbefore | hafter
    · exact hbefore
    · exact absurd h.2 (by omega)
  have hop : ∀ op ∈ plan buffer elements naming newline, op.source ∈ ended ∧
      ∃ identifier, op = opFor buffer newline op.source identifier := by
    intro op hop
    have hsource : op.source ∈ candidates elements :=
      (sources_plan buffer newline elements naming).mem_iff.mp (List.mem_map_of_mem hop)
    exact ⟨hperm.mem_iff.mp (List.mem_of_mem_filter hsource),
      eq_opFor_of_mem (hplan.mem_iff.mp hop)⟩
  refine ⟨hplan, sources_plan _ _ _ _, hordered.imp And.left, hordered.imp And.right,
    fun op h => ?_, fun op h hclosed => ?_, fun op h hopen => ?_⟩
  · obtain ⟨hended, identifier, heq⟩ := hop op h
    have hslot := hspread.slots _ hended
    rw [heq, offset_opFor, stop_opFor]
    exact ⟨hslot.1, hslot.2.2⟩
  · obtain ⟨-, identifier, heq⟩ := hop op h
    rw [heq, offset_opFor, replaced_opFor, source_opFor, Extent.slotStart, hclosed]
    exact ⟨rfl, rfl⟩
  · obtain ⟨-, identifier, heq⟩ := hop op h
    rw [heq, offset_opFor, replaced_opFor, source_opFor, Extent.slotStart, hopen]
    exact ⟨rfl, rfl⟩

theorem Lands.splice {ops : List Op} (h : Lands buffer newline elements naming ops) :
    ∃ patched, splice buffer ops = .ok patched := by
  have hforward : Forward ops := by
    intro op hop
    cases hself : op.source.extent.selfClosing with
    | true => rw [(h.opened op hop hself).2]; decide
    | false => rw [(h.filled op hop hself).2]
  have hinOrder : inOrder ops = ops := inOrder_of_apart hforward h.apart
  have hdisjoint : Disjoint buffer.length 0 ops :=
    ⟨fun op hop => (h.inside op hop).1, h.inside, h.apart⟩
  exact ⟨_, splice_eq_ok_of_disjoint hforward (by rwa [hinOrder])⟩

/-- **Plans fit.** Elements are found in ranges that are as promised, in the strict order of their
starts, each with the start tag that it comes from. The plan has one operation for each of them
that lacks an annotation, with the identifier for its place in that order, and the operations can
be carried out. -/
theorem splice_plan_of_promised (h : Promised buffer ranges) (tags : List String) (naming : Naming)
    (newline : Bytes) :
    ∃ elements patched, trackedElements buffer tags ranges = .ok elements ∧
      (elements.Pairwise fun e f => e.extent.start < f.extent.start) ∧
      (∀ e ∈ elements, ∃ r ∈ ranges, StartsWith r e) ∧
      Lands buffer newline elements naming (plan buffer elements naming newline) ∧
      splice buffer (plan buffer elements naming newline) = .ok patched := by
  obtain ⟨ended, elements, htracked, ⟨-, hspread⟩, hperm, hsorted⟩ :=
    (Pairing.tracks_of_balanced (.ofBytes buffer) tags h.balanced h.between).trackedElements
  have hdistinct : elements.Pairwise fun e f => e.extent.start ≠ f.extent.start :=
    (hperm.pairwise_iff Ne.symm).mpr hspread.distinct
  have hstrict : elements.Pairwise fun e f => e.extent.start < f.extent.start :=
    (hsorted.and hdistinct).imp fun h => lt_of_le_of_ne h.1 h.2
  have hlands : Lands buffer newline elements naming (plan buffer elements naming newline) :=
    lands_plan hspread hperm
  obtain ⟨patched, hsplice⟩ := hlands.splice
  exact ⟨elements, patched, htracked, hstrict,
    fun e he => hspread.written e (hperm.mem_iff.mp he), hlands, hsplice⟩

/-- Ranges of two elements next to each other. The last child of the first one is empty and ends
where its parent's end tag begins, and no end tag bears the name of its start tag. -/
def sampleRanges : List TagRange :=
  [{ kind := .opening, name := "view", start := 0, stop := 6 },
    { kind := .opening, name := "button", start := 6, stop := 15, selfClosing := true },
    { kind := .closing, name := "", start := 15, stop := 15 },
    { kind := .closing, name := "", start := 15, stop := 22 },
    { kind := .opening, name := "label", start := 22, stop := 29 },
    { kind := .closing, name := "", start := 29, stop := 37 }]

/-- Two candidates are given one name, which is numbered. -/
def sampleNaming : Naming :=
  { unique := true, choose := some fun i _ => if i = 1 then "first" else "other" }

theorem splice_plan_sampleRanges :
    Promised (List.replicate 40 0x20) sampleRanges ∧ ∃ elements patched,
      trackedElements (List.replicate 40 0x20) ["button", "view", "label"] sampleRanges =
        .ok elements ∧
      (elements.Pairwise fun e f => e.extent.start < f.extent.start) ∧
      (∀ e ∈ elements, ∃ r ∈ sampleRanges, StartsWith r e) ∧
      Lands (List.replicate 40 0x20) [0x0A] elements sampleNaming
        (plan (List.replicate 40 0x20) elements sampleNaming [0x0A]) ∧
      splice (List.replicate 40 0x20) (plan (List.replicate 40 0x20) elements sampleNaming [0x0A]) =
        .ok patched := by
  have hempty : ∀ opening closing, TagRange.Encloses opening closing [] →
      TagRange.Balanced [opening, closing] := fun _ _ htags => .cons htags .nil .nil
  have hbutton : TagRange.Balanced (sampleRanges.drop 1 |>.take 2) :=
    hempty _ _ ⟨rfl, rfl, by decide, by decide, by decide⟩
  have hlabel : TagRange.Balanced (sampleRanges.drop 4) :=
    hempty _ _ ⟨rfl, rfl, by decide, by decide, by decide⟩
  have hview : ∀ inner rest, TagRange.Balanced inner → TagRange.Balanced rest →
      TagRange.Balanced (sampleRanges[0] :: (inner ++ sampleRanges[3] :: rest)) :=
        fun _ _ hinner hrest =>
    .cons ⟨rfl, rfl, by decide, fun h => (Bool.false_ne_true h).elim, by decide⟩ hinner hrest
  have hbalanced : TagRange.Balanced sampleRanges := hview _ _ hbutton hlabel
  have hpromised : Promised (List.replicate 40 0x20) sampleRanges :=
    ⟨hbalanced, by decide, by simp [sampleRanges]⟩
  exact ⟨hpromised, splice_plan_of_promised hpromised _ _ _⟩

end Plan

end Patch

end AccessPatch
