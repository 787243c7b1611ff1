import AccessPatch.Document
import AccessPatch.Proofs.Annotating
import AccessPatch.Proofs.Spliceable

/-!
# Annotated documents

`exists_fulfils` carries out a plan for the elements with some tags. The patched document has a
layout again, and whatever is tracked in it, its elements are those of the document before, with
annotations in those that were due one. `elementsOf_splice_planDetected` says this of a document
given as bytes: nothing is left to be planned for it.
-/

namespace AccessPatch.Patch

open Identifier (Safe)
open Pairing (Below Paired Unclosed begins endedWith endedWith_restrict exists_paired_of_nests
  length_endedWith map_fst_restrict restrict)
open Xml

/-! ## The plan carried out -/

/-- The candidates with the identifiers planned for them. -/
def Naming.named (naming : Naming) (elements : List Element) : List (Element × String) :=
  (candidates elements).zip (naming.identifiers (candidates elements))

/-- The element `e` of a document has become `e'` by the operations `ops`: it stands where they
have moved it, and has an annotation, its own or the one for the only identifier that is planned
for it. -/
structure IsAnnotated (buffer : Bytes) (ops : List Op) (named : List (Element × String))
    (e e' : Element) :
    Prop where
  tag : e'.tag = e.tag
  attributes : e'.attributes = e.attributes
  start : e'.extent.start = shifted ops e.extent.start
  annotated : e'.annotated = true
  own : e.annotated = true → e'.accessibility = e.accessibility
  new : e.annotated = false → ∃ identifier, (∀ s, (e, s) ∈ named ↔ s = identifier) ∧
    opFor buffer (firstNewline buffer).bytes e identifier ∈ ops ∧
    e'.accessibility = some (Accessibility.attributes identifier)

section Whole

variable {dtd : Dtd} {buffer newline : Bytes} {identify : Int → String} {due : List String}
  {elements : List Element} {naming : Naming}

theorem mem_named_iff (hidentify : Identifies identify elements naming) {e : Element} {s : String} :
    (e, s) ∈ naming.named elements ↔ e ∈ candidates elements ∧ s = identify e.extent.start := by
  have hnamed : naming.named elements =
      (candidates elements).map fun e => (e, identify e.extent.start) := by
    rw [Naming.named, ← hidentify, List.zip, List.zipWith_map_right, List.zipWith_self]
  rw [hnamed, List.mem_map]
  constructor
  · rintro ⟨f, hf, heq⟩
    obtain ⟨rfl, rfl⟩ := Prod.mk.inj heq
    exact ⟨hf, rfl⟩
  · rintro ⟨he, rfl⟩
    exact ⟨e, he, rfl⟩

theorem isAnnotated_of_annotates (hrules : dtd.rules = [])
    (hidentify : Identifies identify elements naming) {e e' : Element} (he : e ∈ elements)
    (hdue : due.contains e.tag = true)
    (h : Annotates dtd (planDetected buffer elements naming) identify due e e') :
    IsAnnotated buffer (planDetected buffer elements naming) (naming.named elements) e e' where
  tag := h.tag
  attributes := h.attributes
  start := h.start
  annotated := by rw [h.annotated, hdue, Bool.or_true]
  own hown := by rw [h.accessibility, hown, Bool.true_or, if_pos rfl]
  new hnew := by
    have hcandidate : e ∈ candidates elements := List.mem_filter.mpr ⟨he, by simp [hnew]⟩
    refine ⟨identify e.extent.start, fun s => ?_, ?_, ?_⟩
    · rw [mem_named_iff hidentify]
      exact and_iff_right hcandidate
    · refine (inOrder_perm _).mem_iff.mpr ?_
      rw [← hidentify, List.zipWith_map_right, List.zipWith_self]
      exact List.mem_map_of_mem hcandidate
    · have hdue' : (e.annotated || ! due.contains e.tag) = false := by
        rw [hnew, hdue]
        rfl
      rw [h.accessibility, hdue', if_neg (by simp), Dtd.completed_of_rules hrules]

theorem annotated_of_isAnnotated {ops : List Op} {named : List (Element × String)}
    {elements' : List Element}
    (h : List.Forall₂ (IsAnnotated buffer ops named) elements elements') :
    ∀ e' ∈ elements', e'.annotated = true := by
  induction h with
  | nil => simp
  | cons h _ ih => exact List.forall_mem_cons.mpr ⟨h.annotated, ih⟩

/-- Nothing is planned where all elements are annotated, and only there. -/
theorem plan_eq_nil_iff :
    plan buffer elements naming newline = [] ↔ ∀ e ∈ elements, e.annotated = true := by
  have hnone : candidates elements = [] ↔ ∀ e ∈ elements, e.annotated = true := by
    rw [candidates, List.filter_eq_nil_iff]
    simp
  have hsources := sources_plan buffer newline elements naming
  rw [← hnone]
  constructor
  · intro hplan
    rw [hplan] at hsources
    exact hsources.symm.eq_nil
  · intro hcandidates
    rw [hcandidates] at hsources
    exact List.map_eq_nil_iff.mp hsources.eq_nil

/-- Elements in the order of their starts. -/
def byStart (elements : List Element) : List Element :=
  elements.mergeSort fun e f => decide (e.extent.start ≤ f.extent.start)

theorem byStart_perm (elements : List Element) : (byStart elements).Perm elements :=
  List.mergeSort_perm _ _

/-- The plan for the elements that stretches end, with the identifier that goes with each offset. -/
theorem exists_plan_eq_opsOf [Code] (buffer : Bytes) {alphabet : Alphabet} {index : LineTable}
    {tags : List String} {pos : Nat} {ps : List (Stretch × Option Element)}
    (hspelled : ∀ p ∈ ps, p.1.Spelled alphabet) (hagrees : Agrees tags)
    (h : Paired index tags [] pos ps) (hchoose : naming.choose = none) :
    ∃ identify, Identifies identify (byStart (endedWith ps)) naming ∧
      Legible (firstNewline buffer).bytes identify tags ∧
      planDetected buffer (byStart (endedWith ps)) naming =
        opsOf buffer (firstNewline buffer).bytes identify ps := by
  obtain ⟨hnodup, -⟩ := nodup_starts hspelled h .nil (by simp)
  obtain ⟨identify, hidentify, hsafe⟩ :=
    exists_identifies (((byStart_perm _).map (·.extent.start)).nodup_iff.mpr hnodup) hchoose
  have hlegible : Legible (firstNewline buffer).bytes identify tags :=
    ⟨isWhite_newline _, hsafe, hagrees⟩
  exact ⟨identify, hidentify, hlegible,
    plan_eq_opsOf buffer hspelled hlegible h (byStart_perm _) hidentify⟩

/-- The operations of a plan, carried out: the document has the filled stretches. -/
theorem splice_opsOf [Code] (dtd : Dtd) {l : Layout} {alphabet : Alphabet} {index : LineTable}
    {tags : List String} {ps : List (Stretch × Option Element)}
    (hspelled : ∀ p ∈ ps, p.1.Spelled alphabet) (hlegible : Legible newline identify tags)
    (h : Paired index tags [] l.rootStart ps) (hps : ps.map Prod.fst = l.stretches) :
    splice l.bytes (opsOf buffer newline identify ps) =
      .ok (l.withStretches (fill (fillings dtd buffer newline identify ps))).bytes := by
  let ops := opsOf buffer newline identify ps
  have hwithin := opsOf_within buffer hspelled hlegible h
  have hordered := opsOf_ordered buffer hspelled hlegible h
  have hinOrder := inOrder_opsOf buffer hspelled hlegible h
  have hbefore := l.length_before
  have hbytes := l.bytes_eq
  rw [← hps] at hbytes
  have hlength : l.bytes.length =
      l.rootStart + (trailSize (ps.map Prod.fst) + (inCode l.tail).length) := by
    rw [hbytes, List.length_append, hbefore, List.length_append, trailSize]
  have hforward : Forward ops := fun op hop => (hwithin op hop).2.1
  have hdisjoint : Disjoint l.bytes.length 0 ops := by
    refine ⟨fun op hop => ?_, fun op hop => ?_, hordered.imp And.left⟩
    · have := hwithin op hop
      omega
    · have := hwithin op hop
      omega
  have hfront : slice l.bytes 0 l.rootStart = l.lead ++ inCode l.head := by
    rw [hbytes, slice, Int.toNat_natCast, ← hbefore, List.take_left]
    rfl
  rw [splice_eq_ok_of_disjoint hforward (hinOrder ▸ hdisjoint), hinOrder, leftToRight,
    fillFrom_eq_append (by omega) (by omega) fun op hop => (hwithin op hop).1, hfront,
    fillFrom_opsOf dtd buffer hspelled hlegible h hbytes hbefore, l.bytes_withStretches]

/-- The operations move elements, but keep their order. -/
theorem annotates_byStart {ops : List Op} {es es' : List Element}
    (hgrows : ∀ op ∈ ops, 0 ≤ op.growth)
    (h : List.Forall₂ (Annotates dtd ops identify due) es es') :
    List.Forall₂ (Annotates dtd ops identify due) (byStart es) (byStart es') := by
  refine forall₂_mergeSort_key (·.extent.start) h fun a b a' b' h h' => ?_
  rw [h.start, h'.start, shifted_le_iff hgrows]

/-- The elements of a laid-out document are those that its stretches end, in the order of their
starts. -/
theorem elementsOf_eq_ok_iff [Code] {l : Layout} {context : Prolog.Context} {standalone : Bool}
    {sts : List Stretch} (h : l.Explains context standalone) (hfit : l.Fit context sts)
    (hsts : ∀ st ∈ sts, st.Spelled context.alphabet ∧ NoTags st.notes) (identity : String)
    (tags : List String) (elements : List Element) :
    elementsOf (l.withStretches sts).bytes identity tags = .ok elements ↔
      ∃ ps, ps.map Prod.fst = sts ∧
        Paired (.ofBytes (l.withStretches sts).bytes) tags [] l.rootStart ps ∧
        elements = byStart (endedWith ps) := by
  have htokenize : tokenize (l.withStretches sts).bytes identity =
      .ok (trailRanges l.rootStart sts) :=
    mapError_eq_ok_iff.mpr (TagRange.ofDocument_eq_trailRanges h hfit hsts)
  rw [elementsOf, htokenize, bind_eq_ok_iff]
  simp only [Except.ok.injEq, exists_eq_left', mapError_eq_ok_iff, trackedElements]
  constructor
  · intro hrun
    obtain ⟨s, hfold, helements⟩ := bind_eq_ok_iff.mp hrun
    obtain ⟨ps, hps, hpaired, hended⟩ := Pairing.paired_of_foldlM hfold
    refine ⟨ps, hps, hpaired, ?_⟩
    have hreverse : s.ended.reverse = endedWith ps := by
      rw [hended]
      simp
    rw [← Except.ok.inj helements, hreverse]
    rfl
  · rintro ⟨ps, rfl, hpaired, rfl⟩
    obtain ⟨stack, hfold⟩ := Pairing.foldlM_of_paired hpaired []
    refine bind_eq_ok_iff.mpr ⟨_, hfold, ?_⟩
    rw [List.append_nil, List.reverse_reverse]
    rfl

/-- The elements found are those that have ended, sorted. -/
theorem elementsOf_of_ended {buffer : Bytes} {identity : String} {tags : List String}
    {s : Pairing.State} (h : (tokenize buffer identity >>= fun ranges =>
      (ranges.foldlM (Pairing.step (.ofBytes buffer) tags) {}).mapError .pairing) = .ok s) :
    elementsOf buffer identity tags = .ok (byStart s.ended.reverse) := by
  obtain ⟨ranges, hranges, hfold⟩ := bind_eq_ok_iff.mp h
  exact bind_eq_ok_iff.mpr ⟨ranges, hranges, mapError_eq_ok_iff.mpr
    (bind_eq_ok_iff.mpr ⟨s, mapError_eq_ok_iff.mp hfold, rfl⟩)⟩

/-- No element is found twice. -/
theorem nodup_elements [Code] {l : Layout} {context : Prolog.Context} {standalone : Bool}
    {identity : String} {tags : List String} (h : l.Explains context standalone)
    (helements : elementsOf l.bytes identity tags = .ok elements) : elements.Nodup := by
  obtain ⟨ps, hps, hpaired, rfl⟩ :=
    (elementsOf_eq_ok_iff h h.fit h.spelled identity tags _).mp helements
  have hspelled : ∀ p ∈ ps, p.1.Spelled context.alphabet := by
    intro p hp
    refine (h.spelled p.1 ?_).1
    rw [← hps]
    exact List.mem_map_of_mem hp
  obtain ⟨hnodup, -⟩ := nodup_starts hspelled hpaired .nil (by simp)
  exact (byStart_perm _).nodup_iff.mpr (List.Nodup.of_map _ hnodup)

/-- To find the elements with fewer tags is to find some of the elements. -/
theorem elementsOf_restrict [Code] {l : Layout} {context : Prolog.Context} {standalone : Bool}
    {tags wide : List String} {ps : List (Stretch × Option Element)}
    (h : l.Explains context standalone) (hpaired : Paired (.ofBytes l.bytes) wide [] l.rootStart ps)
    (hps : ps.map Prod.fst = l.stretches)
    (hsub : ∀ tag, tags.contains tag = true → wide.contains tag = true) (identity : String) :
    elementsOf l.bytes identity tags = .ok (byStart (endedWith (restrict tags ps))) := by
  refine (elementsOf_eq_ok_iff h h.fit h.spelled identity tags _).mpr
    ⟨restrict tags ps, ?_, hpaired.restrict hsub, rfl⟩
  rw [map_fst_restrict, hps]

/-- Each annotation that is filled in begins an element. -/
theorem countP_fill [Code] (dtd : Dtd) {index : LineTable} {tags : List String}
    {stack : List Unclosed} {pos : Nat} {ps : List (Stretch × Option Element)}
    (h : Paired index tags stack pos ps) :
    (fill (fillings dtd buffer newline identify ps)).countP (begins [Accessibility.tag]) =
      (ps.map Prod.fst).countP (begins [Accessibility.tag]) +
        (opsOf buffer newline identify ps).length := by
  have hchild : ∀ (e : Element) (gap : List Char) (notes : List Event), begins [Accessibility.tag]
      ((fillingOf dtd buffer newline identify e).child gap notes) = true := fun _ _ _ => rfl
  induction h with
  | nil => rfl
  | @opening stack pos st ps form rest ih =>
    rw [fill_fillings_cons, opsOf_cons, Option.filter_none, Option.map_none, Option.map_none,
      filled_none, List.singleton_append, List.countP_cons, List.map_cons, List.countP_cons, ih]
    simp only [Option.toList_none, List.nil_append]
    omega
  | @empty stack pos st o ps form yields rest ih =>
    rw [fill_fillings_cons, opsOf_cons, List.countP_append, List.length_append, ih, List.map_cons,
      List.countP_cons]
    cases o.filter (! ·.annotated) with
    | none =>
      simp only [Option.map_none, filled_none, List.countP_singleton, Option.toList_none,
        List.length_nil]
      omega
    | some e =>
      have hopened : begins [Accessibility.tag] st.openUp = begins [Accessibility.tag] st := by
        simp only [begins, form, Stretch.openUp]
        rfl
      simp only [Option.map_some, Stretch.filled, form, List.countP_cons, List.countP_nil,
        hchild, hopened]
      simp [begins]
      omega
  | @closing u stack pos st o ps form yields rest ih =>
    rw [fill_fillings_cons, opsOf_cons, List.countP_append, List.length_append, ih, List.map_cons,
      List.countP_cons]
    cases o.filter (! ·.annotated) with
    | none =>
      simp only [Option.map_none, filled_none, List.countP_singleton, Option.toList_none,
        List.length_nil]
      omega
    | some e =>
      simp only [Option.map_some, Stretch.filled, form, List.countP_cons, List.countP_nil, hchild]
      simp [begins, form]
      omega

/-- The stretches of a document, each with the element that it ends, whatever is tracked. -/
theorem exists_paired_with [Code] {l : Layout} {context : Prolog.Context} {standalone : Bool}
    (h : l.Explains context standalone) (tags : List String) :
    ∃ ps, ps.map Prod.fst = l.stretches ∧ Paired (.ofBytes l.bytes) tags [] l.rootStart ps :=
  exists_paired_of_nests _ _ h.nests (by simp [Below])

/-- There are as many annotations as start tags of annotations. -/
theorem exists_annotations [Code] {l : Layout} {context : Prolog.Context} {standalone : Bool}
    (h : l.Explains context standalone) (identity : String) :
    ∃ annotations, elementsOf l.bytes identity [Accessibility.tag] = .ok annotations ∧
      annotations.length = l.stretches.countP (begins [Accessibility.tag]) := by
  obtain ⟨ps, hps, hpaired⟩ := exists_paired_with h [Accessibility.tag]
  have hlength := length_endedWith hpaired (hps ▸ h.nests)
  rw [hps] at hlength
  refine ⟨byStart (endedWith ps),
    (elementsOf_eq_ok_iff h h.fit h.spelled identity _ _).mpr ⟨ps, hps, hpaired, rfl⟩, ?_⟩
  rw [(byStart_perm _).length_eq, hlength]
  simp

/-- What the document `l` becomes when the operations `ops` put annotations into its elements with
the tags `due`: the elements stay what they are, whatever is tracked, and there are as many
annotations more as there are operations. -/
structure Fulfils [Code] (dtd : Dtd) (identity : String) (due : List String) (ops : List Op)
    (identify : Int → String) (l l' : Layout) : Prop where
  patched : splice l.bytes ops = .ok l'.bytes
  elements : ∀ tags, tags.contains Accessibility.tag = false →
    ∃ es es', elementsOf l.bytes identity tags = .ok es ∧
      elementsOf l'.bytes identity tags = .ok es' ∧
      List.Forall₂ (Annotates dtd ops identify due) es es'
  annotations : ∃ as as', elementsOf l.bytes identity [Accessibility.tag] = .ok as ∧
    elementsOf l'.bytes identity [Accessibility.tag] = .ok as' ∧ as'.length = as.length + ops.length

/-- **One plan.** The operations planned for the elements with some tags can be carried out. -/
theorem exists_fulfils [Code] {l : Layout} {context : Prolog.Context} {standalone : Bool}
    {identity : String} (h : l.Explains context standalone)
    (hno : due.contains Accessibility.tag = false) (hagrees : Agrees due)
    (hchoose : naming.choose = none) (helements : elementsOf l.bytes identity due = .ok elements) :
    ∃ l' identify, l'.Explains context standalone ∧ Identifies identify elements naming ∧
      Fulfils context.dtd identity due (planDetected l.bytes elements naming) identify l l' := by
  obtain ⟨ps, hps, hpaired, rfl⟩ :=
    (elementsOf_eq_ok_iff h h.fit h.spelled identity due _).mp helements
  have hspelled : ∀ p ∈ ps, p.1.Spelled context.alphabet := by
    intro p hp
    refine (h.spelled p.1 ?_).1
    rw [← hps]
    exact List.mem_map_of_mem hp
  obtain ⟨identify, hidentify, hlegible, hplan⟩ :=
    exists_plan_eq_opsOf l.bytes hspelled hagrees hpaired hchoose
  let newline := (firstNewline l.bytes).bytes
  let sts := fillings context.dtd l.bytes newline identify ps
  have hfst : sts.map Prod.fst = l.stretches := by
    rw [map_fst_fillings, hps]
  have h' := h.fill hfst fun p hp f hf => by
    obtain ⟨e, rfl⟩ := exists_of_mem_fillings _ _ _ _ hp hf
    exact fits_fillingOf hlegible e
  have hgrows : ∀ op ∈ opsOf l.bytes newline identify ps, 0 ≤ op.growth := fun op hop =>
    (opsOf_within l.bytes hspelled hlegible hpaired op hop).2.2.2
  refine ⟨l.withStretches (fill sts), identify, h', hidentify, ?_⟩
  rw [hplan]
  refine ⟨splice_opsOf context.dtd hspelled hlegible hpaired hps, fun tags htags => ?_, ?_⟩
  · -- The elements of both vocabularies are among those of a wider one.
    let wide := due ++ tags
    have hwide : wide.contains Accessibility.tag = false := by
      rw [List.contains_append, hno, htags]
      rfl
    have hdue : ∀ tag, due.contains tag = true → wide.contains tag = true := by
      intro tag htag
      rw [List.contains_append, htag, Bool.true_or]
    have htags' : ∀ tag, tags.contains tag = true → wide.contains tag = true := by
      intro tag htag
      rw [List.contains_append, htag, Bool.or_true]
    obtain ⟨qs, hqs, hqpaired⟩ := exists_paired_with h wide
    have hqspelled : ∀ q ∈ qs, q.1.Spelled context.alphabet := by
      intro q hq
      refine (h.spelled q.1 ?_).1
      rw [← hqs]
      exact List.mem_map_of_mem hq
    obtain rfl : restrict due qs = ps :=
      (hqpaired.restrict hdue).unique hpaired (by rw [map_fst_restrict, hqs, hps])
    have hreaches : Reaches [] l.rootStart l.rootStart := ⟨by simp, by simp⟩
    obtain ⟨qs', hqs', hqpaired', hended⟩ :=
      becomes_fill context.dtd l.bytes (.ofBytes (l.withStretches (fill sts)).bytes) hwide
        hdue hqspelled
        hlegible hqpaired (List.nil_append _).symm hreaches .nil (by simp [Below])
    refine ⟨_, _, elementsOf_restrict h hqpaired hqs htags' identity,
      elementsOf_restrict h' hqpaired' hqs' htags' identity, annotates_byStart hgrows ?_⟩
    rw [endedWith_restrict, endedWith_restrict]
    refine List.rel_filter (fun e e' hannotates => ?_) hended
    show tags.contains e.tag = true ↔ tags.contains e'.tag = true
    rw [hannotates.tag]
  · obtain ⟨as, has, hcount⟩ := exists_annotations h identity
    obtain ⟨as', has', hcount'⟩ := exists_annotations h' identity
    refine ⟨as, as', has, has', ?_⟩
    rw [hcount', hcount, ← hps]
    exact countP_fill context.dtd hpaired

/-- A document whose elements are found, in stretches, each with the element that it ends. -/
theorem exists_paired {buffer : Bytes} {source : Source} {identity : String} {tags : List String}
    {elements : List Element} (hsource : Source.ofBytes buffer = .ok source)
    (hwritten : source.IsWritten buffer)
    (helements : elementsOf buffer identity tags = .ok elements) :
    ∃ (code : Code) (l : Layout) (context : Prolog.Context) (ps : List (Stretch × Option Element)),
      code.encoding = source.encoding ∧ l.bytes = buffer ∧ l.lead.length = source.start ∧
      l.Explains context source.standalone ∧
      ((source.reader source.encoding.alphabet false).declaresType source.body = false →
        context = (source.reader source.encoding.alphabet false).context) ∧
      ps.map Prod.fst = l.stretches ∧ (∀ p ∈ ps, p.1.Spelled context.alphabet) ∧
      Paired (.ofBytes buffer) tags [] l.rootStart ps ∧ elements = byStart (endedWith ps) := by
  obtain ⟨ranges, htokenize, -⟩ := bind_eq_ok_iff.mp helements
  obtain ⟨events, hrun⟩ := TagRange.run_of_ofDocument hsource (mapError_eq_ok_iff.mp htokenize)
  obtain ⟨code, l, context, hcode, rfl, hlead, hl, hcontext⟩ := exists_layout hsource hwritten hrun
  obtain ⟨ps, hps, hpaired, rfl⟩ :=
    (elementsOf_eq_ok_iff hl hl.fit hl.spelled identity tags elements).mp helements
  refine ⟨code, l, context, ps, hcode, rfl, hlead, hl, hcontext, hps, fun p hp => ?_, hpaired, rfl⟩
  refine (hl.spelled p.1 ?_).1
  rw [← hps]
  exact List.mem_map_of_mem hp

/-- A document in UTF-8 without type declaration has no defaults for attributes. -/
theorem rules_eq_nil {source : Source} {context : Prolog.Context} (hutf8 : source.encoding = .utf8)
    (hnone : (source.reader {} false).declaresType source.body = false)
    (hcontext : (source.reader source.encoding.alphabet false).declaresType source.body = false →
      context = (source.reader source.encoding.alphabet false).context) :
    context.dtd.rules = [] := by
  rw [hutf8] at hcontext
  rw [hcontext hnone]
  rfl

/-- **Annotating a document.** A document in UTF-8 without type declaration takes the operations
planned for its elements, and its elements are then the same ones, each of them annotated and
where the operations have moved it. So nothing is planned for it any more. -/
theorem elementsOf_splice_planDetected {buffer : Bytes} {source : Source} {identity : String}
    {tags : List String} {naming : Naming} {elements : List Element}
    (hsource : Source.ofBytes buffer = .ok source) (hutf8 : source.encoding = .utf8)
    (hnone : (source.reader {} false).declaresType source.body = false)
    (hno : tags.contains Accessibility.tag = false) (hchoose : naming.choose = none)
    (helements : elementsOf buffer identity tags = .ok elements) :
    ∃ patched elements', splice buffer (planDetected buffer elements naming) = .ok patched ∧
      elementsOf patched identity tags = .ok elements' ∧ elements'.length = elements.length ∧
      List.Forall₂
        (IsAnnotated buffer (planDetected buffer elements naming) (naming.named elements))
        elements elements' ∧
      ∀ naming' : Naming, planDetected patched elements' naming' = [] := by
  -- The document, its stretches and the elements that end with them.
  obtain ⟨code, l, context, ps, hcode, rfl, -, hl, hcontext, hps, hspelled, hpaired, rfl⟩ :=
    exists_paired hsource (Source.isWritten_of_utf8 hutf8 _) helements
  have hrules : context.dtd.rules = [] := rules_eq_nil hutf8 hnone hcontext
  -- The patched document and its elements.
  obtain ⟨l', identify, -, hidentify, hpatched, hsame, -⟩ :=
    exists_fulfils hl hno (agrees_of_utf8 (hcode.trans hutf8) tags) hchoose helements
  obtain ⟨elements, elements', helements₀, helements', hannotates⟩ := hsame tags hno
  obtain rfl := Except.ok.inj (helements.symm.trans helements₀)
  have hannotated :
      List.Forall₂ (IsAnnotated l.bytes (planDetected l.bytes (byStart (endedWith ps)) naming)
      (naming.named (byStart (endedWith ps)))) (byStart (endedWith ps)) elements' := by
    obtain ⟨hlength, hall⟩ := List.forall₂_iff_zip.mp hannotates
    refine List.forall₂_iff_zip.mpr ⟨hlength, fun {e e'} hmem => ?_⟩
    have he : e ∈ byStart (endedWith ps) := (List.of_mem_zip hmem).1
    exact isAnnotated_of_annotates hrules hidentify he
      (hpaired.tracked e ((byStart_perm _).mem_iff.mp he)) (hall hmem)
  exact ⟨l'.bytes, elements', hpatched, helements', hannotated.length_eq.symm, hannotated,
    fun naming' => plan_eq_nil_iff.mpr (annotated_of_isAnnotated hannotated)⟩

/-- A document with an empty element and with an element that has an annotation of its own. -/
def sampleScene : Bytes :=
  bytesOf "<view>\n  <button id='a'/>\n  <label><accessibility key='k'/></label>\n</view>".toList

theorem read_sampleScene : ∃ source, Source.ofBytes sampleScene = .ok source ∧
    source.encoding = .utf8 ∧ (source.reader {} false).declaresType source.body = false := by
  have hread : (Source.ofBytes sampleScene).map (fun source =>
      (source.encoding, (source.reader {} false).declaresType source.body)) =
        .ok (.utf8, false) := by
    decide +kernel
  obtain ⟨source, hsource, hsame⟩ := map_eq_ok_iff.mp hread
  exact ⟨source, hsource, Prod.mk.inj hsame⟩

theorem found_sampleScene : ∃ elements,
    elementsOf sampleScene "sample" ["view", "button", "label"] = .ok elements ∧
    (elements.map fun e => (e.tag, e.annotated)).Perm
      [("button", false), ("label", true), ("view", false)] := by
  have hrun : (tokenize sampleScene "sample" >>= fun ranges =>
      (ranges.foldlM (Pairing.step (.ofBytes sampleScene) ["view", "button", "label"]) {}).mapError
        .pairing).map (fun s => s.ended.reverse.map fun e => (e.tag, e.annotated)) =
      .ok [("button", false), ("label", true), ("view", false)] := by
    decide +kernel
  obtain ⟨s, hs, hended⟩ := map_eq_ok_iff.mp hrun
  refine ⟨byStart s.ended.reverse, elementsOf_of_ended hs, ?_⟩
  rw [← hended]
  exact (List.mergeSort_perm _ _).map _

theorem annotated_sampleScene : ∃ source elements patched elements',
    Source.ofBytes sampleScene = .ok source ∧
    (source.encoding = .utf8 ∧ (source.reader {} false).declaresType source.body = false) ∧
    ["view", "button", "label"].contains Accessibility.tag = false ∧
    elementsOf sampleScene "sample" ["view", "button", "label"] = .ok elements ∧
    (elements.map fun e => (e.tag, e.annotated)).Perm
      [("button", false), ("label", true), ("view", false)] ∧
    splice sampleScene (planDetected sampleScene elements {}) = .ok patched ∧
    elementsOf patched "sample" ["view", "button", "label"] = .ok elements' ∧
    elements'.length = elements.length ∧
    List.Forall₂ (IsAnnotated sampleScene (planDetected sampleScene elements {})
      (Naming.named {} elements)) elements elements' ∧
    ∀ naming' : Naming, planDetected patched elements' naming' = [] := by
  obtain ⟨source, hsource, hutf8, hnone⟩ := read_sampleScene
  obtain ⟨elements, helements, hfound⟩ := found_sampleScene
  have hno : ["view", "button", "label"].contains Accessibility.tag = false := by decide
  have hchoose : ({} : Naming).choose = none := rfl
  obtain ⟨patched, elements', hresult⟩ :=
    elementsOf_splice_planDetected hsource hutf8 hnone hno hchoose helements
  exact ⟨source, elements, patched, elements', hsource, ⟨hutf8, hnone⟩, hno, helements,
    hfound, hresult⟩

end Whole

end AccessPatch.Patch
