import AccessPatch.Proofs.Standing
import Mathlib.Data.List.Perm.Basic

/-!
# The lines of a patched document

An operation of a plan brings whole terminators of one kind with it, and neither end of its text
nor of the range it replaces lies within a pair of CR and LF (`AddsLines`). So no terminator of
the document is split or joined with another: the patched document has the terminators of the old
one and those that the operations add (`newlinesOf_fillFrom`). Since that can be said of any
beginning of the document, it tells the lines to which the elements move (`lineAt_fillFrom`). Main
result: `keepsLines_planDetected`.
-/

namespace AccessPatch.Patch

open Xml

/-! ## What operations add -/

/-- The number of lines that an operation adds. -/
def Op.addedLines (op : Op) : Nat :=
  if op.source.extent.selfClosing then 2 else 1

/-- The lines that operations add: one before an end tag, and two in an element that is opened up.
-/
def linesAdded (ops : List Op) : Nat :=
  ops.countP (! ·.source.extent.selfClosing) + 2 * ops.countP (·.source.extent.selfClosing)

theorem linesAdded_cons (op : Op) (ops : List Op) :
    linesAdded (op :: ops) = op.addedLines + linesAdded ops := by
  cases h : op.source.extent.selfClosing with
  | true =>
    simp only [linesAdded, Op.addedLines, List.countP_cons, h, Bool.not_true, Bool.false_eq_true,
      if_false, if_true]
    omega
  | false =>
    simp only [linesAdded, Op.addedLines, List.countP_cons, h, Bool.not_false, Bool.false_eq_true,
      if_false, if_true]
    omega

/-- The text of an operation is clear of the terminators around it, and so is the range that it
replaces. -/
structure AddsLines (document : Bytes) (newline : Newline) (op : Op) : Prop where
  place : (document.drop op.offset.toNat).head? ≠ some 0x0A
  replaced : Unbroken (slice document op.offset op.stop)
  begins : ∃ b, op.text.head? = some b ∧ isLineEnd b = false
  cut : CleanCut op.text (document.drop op.stop.toNat)
  text : newlinesOf op.text = List.replicate op.addedLines newline

section Adds

variable {document : Bytes} {newline : Newline} {pos : Int} {op : Op} {ops : List Op}

theorem AddsLines.cut_before (h : AddsLines document newline op) (bs more : Bytes) :
    CleanCut bs (op.text ++ more) := by
  obtain ⟨b, hb, hend⟩ := h.begins
  intro _ hhead
  rw [List.head?_append, hb] at hhead
  cases hhead
  cases hend

/-- What may stand before the rest of the document may stand before what operations make of it. -/
theorem cleanCut_fillFrom {bs : Bytes} (hadds : ∀ op ∈ ops, AddsLines document newline op)
    (hafter : ∀ op ∈ ops, pos ≤ op.offset) (h : CleanCut bs (document.drop pos.toNat)) :
    CleanCut bs (fillFrom document pos ops) := by
  cases ops with
  | nil => exact h
  | cons op ops =>
    rw [← slice_append_drop document (hafter op List.mem_cons_self)] at h
    rw [fillFrom, List.append_assoc]
    cases hslice : slice document pos op.offset with
    | nil => exact (hadds op List.mem_cons_self).cut_before bs _
    | cons c rest =>
      rw [hslice] at h
      exact fun hlast hhead => h hlast hhead

/-- The range of an operation holds no terminator, and splits none. -/
theorem newlinesOf_drop (hadds : AddsLines document newline op) (hafter : pos ≤ op.offset)
    (hle : op.offset ≤ op.stop) : newlinesOf (document.drop pos.toNat) =
      newlinesOf (slice document pos op.offset) ++ newlinesOf (document.drop op.stop.toNat) := by
  have hcut : CleanCut (slice document pos op.offset) (document.drop op.offset.toNat) :=
    fun _ => hadds.place
  rw [← slice_append_drop document hafter, newlinesOf_append hcut, ← slice_append_drop document hle,
    newlinesOf_append (hadds.replaced.cut_after _), newlinesOf_of_unbroken hadds.replaced,
    List.nil_append]

theorem newlinesOf_fillFrom_cons (hadds : ∀ o ∈ op :: ops, AddsLines document newline o)
    (hlater : ∀ o ∈ ops, op.stop ≤ o.offset) : newlinesOf (fillFrom document pos (op :: ops)) =
      newlinesOf (slice document pos op.offset) ++
        (List.replicate op.addedLines newline ++ newlinesOf (fillFrom document op.stop ops)) := by
  obtain ⟨hop, hadds'⟩ := List.forall_mem_cons.mp hadds
  rw [fillFrom, List.append_assoc, newlinesOf_append (hop.cut_before _ _),
    newlinesOf_append (cleanCut_fillFrom hadds' hlater hop.cut), hop.text]

/-- **Terminators.** Those of the document are still there, and those that the operations add. -/
theorem newlinesOf_fillFrom (hf : Forward ops) (hd : Disjoint document.length pos ops)
    (hadds : ∀ op ∈ ops, AddsLines document newline op) :
    (newlinesOf (fillFrom document pos ops)).Perm
      (newlinesOf (document.drop pos.toNat) ++ List.replicate (linesAdded ops) newline) := by
  induction ops generalizing pos with
  | nil => simp [fillFrom, linesAdded]
  | cons op ops ih =>
    obtain ⟨⟨hafter, -, -⟩, hrest⟩ := (disjoint_cons_iff hf).mp hd
    obtain ⟨hop, hadds'⟩ := List.forall_mem_cons.mp hadds
    have hdrop := newlinesOf_drop hop hafter (hf.offset_le_stop List.mem_cons_self)
    rw [newlinesOf_fillFrom_cons hadds hrest.after, hdrop, List.append_assoc, linesAdded_cons,
      List.replicate_add]
    refine List.Perm.append_left _ (((ih hf.tail hrest hadds').append_left _).trans ?_)
    exact List.perm_append_comm_assoc _ _ _

/-- The first terminator is the first of the document or one that an operation adds. -/
theorem head_newlinesOf_fillFrom (hf : Forward ops) (hd : Disjoint document.length pos ops)
    (hadds : ∀ op ∈ ops, AddsLines document newline op)
    (h : ∀ k ∈ (newlinesOf (document.drop pos.toNat)).head?, k = newline) :
    ∀ k ∈ (newlinesOf (fillFrom document pos ops)).head?, k = newline := by
  cases ops with
  | nil => exact h
  | cons op ops =>
    obtain ⟨⟨hafter, -, -⟩, hrest⟩ := (disjoint_cons_iff hf).mp hd
    have hop := hadds op List.mem_cons_self
    rw [newlinesOf_drop hop hafter (hf.offset_le_stop List.mem_cons_self)] at h
    rw [newlinesOf_fillFrom_cons hadds hrest.after]
    cases hslice : newlinesOf (slice document pos op.offset) with
    | nil =>
      unfold Op.addedLines
      split <;> simp [List.replicate_succ]
    | cons k ks =>
      rw [hslice] at h
      exact h

end Adds

/-! ## Lines -/

/-- The operations that end as far as an offset. -/
def opsBefore (ops : List Op) (offset : Int) : List Op :=
  ops.filter fun op => op.stop ≤ offset

/-- The operations that end past an offset. -/
def opsPast (ops : List Op) (offset : Int) : List Op :=
  ops.filter fun op => offset < op.stop

section Lines

variable {document : Bytes} {newline : Newline} {op : Op} {ops : List Op} {offset : Nat}

theorem mem_opsBefore {offset : Int} : op ∈ opsBefore ops offset ↔ op ∈ ops ∧ op.stop ≤ offset := by
  simp [opsBefore]

theorem mem_opsPast {offset : Int} : op ∈ opsPast ops offset ↔ op ∈ ops ∧ offset < op.stop := by
  simp [opsPast]

/-- Those that end as far as an offset come first. -/
theorem opsBefore_append_opsPast (hf : Forward ops) (h : ops.Pairwise fun a b => a.stop ≤ b.offset)
    (offset : Int) : opsBefore ops offset ++ opsPast ops offset = ops := by
  induction ops with
  | nil => rfl
  | cons op ops ih =>
    obtain ⟨hop, hrest⟩ := List.pairwise_cons.mp h
    by_cases hle : op.stop ≤ offset
    · have hfirst : opsBefore (op :: ops) offset = op :: opsBefore ops offset :=
        List.filter_cons_of_pos (decide_eq_true hle)
      have hlast : opsPast (op :: ops) offset = opsPast ops offset :=
        List.filter_cons_of_neg (by simpa using hle)
      rw [hfirst, hlast, List.cons_append, ih hf.tail hrest]
    · have hlater : ∀ o ∈ op :: ops, offset < o.stop := by
        refine List.forall_mem_cons.mpr ⟨by omega, fun o ho => ?_⟩
        have := hop o ho
        have := hf.tail.offset_le_stop ho
        omega
      have hnone : opsBefore (op :: ops) offset = [] :=
        List.filter_eq_nil_iff.mpr fun o ho => by simpa using hlater o ho
      have hall : opsPast (op :: ops) offset = op :: ops :=
        List.filter_eq_self.mpr fun o ho => by simpa using hlater o ho
      rw [hnone, hall, List.nil_append]

/-- An operation does the same to the beginning of a document that it lies in. -/
theorem AddsLines.take (h : AddsLines document newline op) (hle : op.stop ≤ offset) :
    AddsLines (document.take offset) newline op := by
  have hhead : ∀ {start : Nat} {b : UInt8}, ((document.take offset).drop start).head? = some b →
      (document.drop start).head? = some b := by
    intro start b hb
    rw [List.drop_take, List.head?_take] at hb
    split at hb
    · cases hb
    · exact hb
  have hslice : slice (document.take offset) op.offset op.stop =
      slice document op.offset op.stop := by
    rw [slice, slice, List.take_take, Nat.min_eq_left (by omega)]
  exact ⟨fun hb => h.place (hhead hb), hslice ▸ h.replaced, h.begins,
    fun hlast hb => h.cut hlast (hhead hb), h.text⟩

theorem Disjoint.sublist {size : Nat} {pos : Int} {some : List Op} (h : Disjoint size pos ops)
    (hsome : some.Sublist ops) : Disjoint size pos some :=
  ⟨fun o ho => h.after o (hsome.subset ho), fun o ho => h.inside o (hsome.subset ho),
    h.apart.sublist hsome⟩

theorem Disjoint.take {pos : Int} (h : Disjoint document.length pos ops)
    (hsize : offset ≤ document.length) (hbefore : ∀ op ∈ ops, op.stop ≤ offset) :
    Disjoint (document.take offset).length pos ops := by
  refine ⟨h.after, fun o ho => ⟨(h.inside o ho).1, ?_⟩, h.apart⟩
  rw [List.length_take, Nat.min_eq_left hsize]
  exact hbefore o ho

theorem length_fillFrom_take (hf : Forward ops) (hd : Disjoint document.length 0 ops)
    (hsize : offset ≤ document.length) (hbefore : ∀ op ∈ ops, op.stop ≤ offset) :
    ((fillFrom (document.take offset) 0 ops).length : Int) = offset + (ops.map Op.growth).sum := by
  rw [length_fillFrom hf (hd.take hsize hbefore) le_rfl (Int.natCast_nonneg _), List.length_take,
    Nat.min_eq_left hsize, sub_zero]

/-- What operations make of a document, cut at an offset where none of them is at work. -/
theorem fillFrom_cut (hf : Forward ops) (hd : Disjoint document.length 0 ops)
    (hsize : offset ≤ document.length)
    (hafter : ∀ op ∈ opsPast ops offset, (offset : Int) ≤ op.offset) :
    fillFrom document 0 ops = fillFrom (document.take offset) 0 (opsBefore ops offset) ++
        fillFrom document offset (opsPast ops offset) ∧
      ((fillFrom (document.take offset) 0 (opsBefore ops offset)).length : Int) =
        shifted ops offset := by
  have hforward : Forward (opsBefore ops offset) := fun op hop => hf op (mem_opsBefore.mp hop).1
  have hbefore : ∀ op ∈ opsBefore ops offset, op.stop ≤ offset :=
    fun op hop => (mem_opsBefore.mp hop).2
  constructor
  · conv_lhs => rw [← opsBefore_append_opsPast hf hd.apart offset]
    exact fillFrom_append_low hforward (by omega) hbefore fun p hp =>
      fillFrom_eq_append hp (by omega) hafter
  · exact length_fillFrom_take hforward (hd.sublist List.filter_sublist) hsize hbefore

/-- **Lines.** What stands at an offset moves down by the lines that operations before it add. -/
theorem lineAt_fillFrom (hf : Forward ops) (hd : Disjoint document.length 0 ops)
    (hadds : ∀ op ∈ ops, AddsLines document newline op) (hsize : offset ≤ document.length)
    (hafter : ∀ op ∈ opsPast ops offset, (offset : Int) ≤ op.offset)
    (hhead : (document.drop offset).head? ≠ some 0x0A) :
    (LineTable.ofBytes (fillFrom document 0 ops)).lineAt (shifted ops offset) =
      (LineTable.ofBytes document).lineAt offset + linesAdded (opsBefore ops offset) := by
  obtain ⟨hsplit, hlength⟩ := fillFrom_cut hf hd hsize hafter
  have hcut : CleanCut (fillFrom (document.take offset) 0 (opsBefore ops offset))
      (fillFrom document offset (opsPast ops offset)) :=
    cleanCut_fillFrom (fun op hop => hadds op (mem_opsPast.mp hop).1) hafter fun _ => hhead
  have hbefore : ∀ op ∈ opsBefore ops offset, AddsLines (document.take offset) newline op :=
    fun op hop =>
    (hadds op (mem_opsBefore.mp hop).1).take (mem_opsBefore.mp hop).2
  have hdisjoint : Disjoint (document.take offset).length 0 (opsBefore ops offset) :=
    (hd.sublist List.filter_sublist).take hsize fun op hop => (mem_opsBefore.mp hop).2
  have hcount :=
    (newlinesOf_fillFrom (fun op hop => hf op (mem_opsBefore.mp hop).1) hdisjoint hbefore).length_eq
  have hold : (LineTable.ofBytes (document.take offset ++ document.drop offset)).lineAt
      (document.take offset).length = 1 + (newlinesOf (document.take offset)).length :=
    lineAt_append fun _ => hhead
  rw [List.take_append_drop, List.length_take, Nat.min_eq_left hsize] at hold
  rw [hsplit, ← hlength, lineAt_append hcut, hcount, hold]
  simp [Nat.add_assoc]

end Lines

/-! ## The plan -/

theorem unbroken_of_isIndentation {bs : Bytes} (h : IsIndentation bs) : Unbroken bs := by
  intro b hb
  rcases h b hb with rfl | rfl <;> rfl

section Plan

variable {buffer : Bytes} {elements : List Element} {naming : Naming} {identify : Int → String}
  {ops : List Op}

/-- The operations of a plan keep clear of the terminators of their document. -/
theorem Planned.addsLines (h : Planned buffer elements naming identify ops) :
    ∀ op ∈ ops, AddsLines buffer (firstNewline buffer) op := by
  intro op hop
  obtain ⟨e, he, rfl⟩ := List.mem_map.mp (h.each.mem_iff.mp hop)
  have hmarkup := unbroken_markup (h.safe e.extent.start)
  obtain ⟨rest, hrest⟩ := exists_markup (h.safe e.extent.start)
  have hindent : ∀ offset, Unbroken (indentBefore buffer offset) := fun offset =>
    unbroken_of_isIndentation (isIndentation_indentBefore buffer offset)
  cases hself : e.extent.selfClosing with
  | false =>
    obtain ⟨-, hhead⟩ := h.closeStart he hself
    have hplace : (buffer.drop e.extent.closeStart.toNat).head? ≠ some 0x0A := by
      rw [hhead]
      decide
    have hlines : newlinesOf (Utf8.encode (Accessibility.markup (identify e.extent.start)) ++
        (firstNewline buffer).bytes ++ indentBefore buffer e.extent.closeStart) =
          [firstNewline buffer] := by
      rw [List.append_assoc, newlinesOf_line hmarkup ((hindent _).cut_before _),
        newlinesOf_of_unbroken (hindent _)]
    rw [opOf_container _ _ _ hself]
    refine ⟨hplace, ?_, ⟨0x3C, by rw [hrest]; rfl, rfl⟩, fun _ => ?_, ?_⟩
    · simp [Op.stop, slice, Unbroken]
    · simpa only [Op.stop, add_zero] using hplace
    · rw [hlines, Op.addedLines, if_neg (by simp [hself])]
      rfl
  | true =>
    obtain ⟨hpos, hmarks⟩ := h.marks he hself
    have hend := h.endTags e (List.mem_of_mem_filter he)
    let indent := indentBefore buffer e.extent.start
    have hstep : Unbroken (indentStep indent) :=
      unbroken_of_isIndentation (isIndentation_indentStep indent)
    have hline := ((hindent e.extent.start).append hstep).append hmarkup
    have htext := text_opOf_selfClosing buffer (firstNewline buffer).bytes identify hself
    have hoffset : (opOf buffer (firstNewline buffer).bytes identify e).offset =
        e.extent.openEnd - 2 := by
      rw [opOf_selfClosing _ _ _ hself]
    have hstop : (opOf buffer (firstNewline buffer).bytes identify e).stop = e.extent.openEnd := by
      rw [opOf_selfClosing _ _ _ hself, Op.stop]
      simp
    refine ⟨?_, ?_, ⟨0x3E, by rw [htext]; rfl, rfl⟩, ?_, ?_⟩
    · rw [hoffset,
        ← slice_append_drop buffer (show e.extent.openEnd - 2 ≤ e.extent.openEnd by omega), hmarks]
      simp
    · rw [hoffset, hstop, hmarks]
      decide
    · rw [htext]
      simp only [← List.append_assoc]
      exact (hend.cut_after _).prepend (by simp [Utf8.encode]) _
    · have hne : indent ++ indentStep indent ++
          Utf8.encode (Accessibility.markup (identify e.extent.start)) ≠ [] := by
        simp [hrest]
      have hmark : Unbroken (Utf8.encode ">") := by decide
      rw [htext, newlinesOf_line hmark ((hline.cut_before _).append hne _),
        newlinesOf_line hline (((hindent _).append hend).cut_before _),
        newlinesOf_of_unbroken ((hindent _).append hend), Op.addedLines, opOf, source_opFor,
        if_pos hself]
      rfl

theorem firstNewline_eq (bs : Bytes) : firstNewline bs = (newlinesOf bs).head?.getD .lf := by
  rw [firstNewline, newlinesOf, List.head?_map]

theorem mem_newlineKinds {bs : Bytes} {k : Newline} : k ∈ newlineKinds bs ↔ k ∈ newlinesOf bs := by
  cases k <;> simp [newlineKinds, newlinesOf]

/-- With the operations carried out, a document has its terminators and one more, of the first
kind, for each line that the operations add; and its elements stand on the lines to which those
lines move them. -/
structure KeepsLines (buffer patched : Bytes) (elements : List Element) (ops : List Op) : Prop where
  terminators : (newlinesOf patched).Perm
    (newlinesOf buffer ++ List.replicate (linesAdded ops) (firstNewline buffer))
  first : firstNewline patched = firstNewline buffer
  kinds : ∀ k, k ∈ newlineKinds patched ↔
    k ∈ newlineKinds buffer ∨ ops ≠ [] ∧ k = firstNewline buffer
  size : (LineTable.ofBytes patched).size = (LineTable.ofBytes buffer).size + linesAdded ops
  lines : ∀ e ∈ elements, ((LineTable.ofBytes patched).lineAt (shifted ops e.extent.start) : Int) =
    e.startLine + linesAdded (opsBefore ops e.extent.start)

theorem linesAdded_eq_zero_iff : linesAdded ops = 0 ↔ ops = [] := by
  cases ops with
  | nil => simp [linesAdded]
  | cons op ops =>
    have hop : 0 < op.addedLines := by
      unfold Op.addedLines
      split <;> decide
    rw [linesAdded_cons]
    exact iff_of_false (by omega) (List.cons_ne_nil _ _)

/-- No operation of a plan is at work where an element starts. -/
theorem Planned.clear_start (h : Planned buffer elements naming identify ops) {e : Element}
    (he : e ∈ elements) :
    ∀ op ∈ opsPast ops e.extent.start, e.extent.start ≤ op.offset := by
  intro op hop
  obtain ⟨hop, hpast⟩ := mem_opsPast.mp hop
  obtain ⟨f, hf, rfl⟩ := List.mem_map.mp (h.each.mem_iff.mp hop)
  obtain ⟨offset, hoffset, hhead⟩ := h.starts e he
  cases hself : f.extent.selfClosing with
  | false =>
    rw [opOf_container _ _ _ hself, Op.stop] at hpast
    rw [opOf_container _ _ _ hself]
    simp only at hpast ⊢
    omega
  | true =>
    obtain ⟨last, hlast, hmark⟩ := h.lastMark hf hself
    rw [opOf_selfClosing _ _ _ hself, Op.stop] at hpast
    rw [opOf_selfClosing _ _ _ hself]
    simp only at hpast ⊢
    -- The other way, the element would start at the second mark of the tag.
    by_contra hinside
    obtain rfl : offset = last := by omega
    cases hhead.symm.trans hmark

theorem Planned.keepsLines (h : Planned buffer elements naming identify ops) :
    KeepsLines buffer (fillFrom buffer 0 ops) elements ops := by
  have hforward := forward_of_edits h.edits
  have hterminators := newlinesOf_fillFrom hforward h.disjoint h.addsLines
  have hfirst := head_newlinesOf_fillFrom hforward h.disjoint h.addsLines
  rw [Int.toNat_zero, List.drop_zero] at hterminators hfirst
  refine ⟨hterminators, ?_, fun k => ?_, ?_, fun e he => ?_⟩
  · have hbuffer : ∀ k ∈ (newlinesOf buffer).head?, k = firstNewline buffer := by
      intro k hk
      rw [firstNewline_eq, hk]
      rfl
    cases hhead : (newlinesOf (fillFrom buffer 0 ops)).head? with
    | some k =>
      rw [firstNewline_eq, hhead]
      exact hfirst hbuffer k hhead
    | none =>
      rw [List.head?_eq_none_iff] at hhead
      rw [hhead] at hterminators
      obtain ⟨hnone, -⟩ := List.append_eq_nil_iff.mp hterminators.symm.eq_nil
      rw [firstNewline_eq, firstNewline_eq, hhead, hnone]
  · rw [mem_newlineKinds, mem_newlineKinds, hterminators.mem_iff, List.mem_append,
      List.mem_replicate, ne_eq, ne_eq, linesAdded_eq_zero_iff]
  · rw [size_ofBytes, size_ofBytes, hterminators.length_eq, List.length_append,
      List.length_replicate, Nat.add_assoc]
  · obtain ⟨offset, hoffset, hhead⟩ := h.starts e he
    have hafter := h.clear_start he
    obtain ⟨hsize, -⟩ := List.getElem?_eq_some_iff.mp (List.head?_drop.symm.trans hhead)
    rw [hoffset] at hafter
    rw [h.startLines e he, hoffset,
      lineAt_fillFrom hforward h.disjoint h.addsLines hsize.le hafter (by rw [hhead]; decide)]
    push_cast
    rfl

end Plan

/-- **Line breaks.** In a document in UTF-8 no terminator is split, joined or replaced by the
operations of the plan: the patched document has those of the document, and of the kind of the
first one as many more as the operations add lines, one before an end tag and two in an element
that is opened up. So the first one stays of its kind, no other kind comes in, and each element
moves down by the lines that are added before it. -/
theorem keepsLines_planDetected {buffer : Bytes} {source : Source} {identity : String}
    {tags : List String} {naming : Naming} {elements : List Element}
    (hsource : Source.ofBytes buffer = .ok source) (hutf8 : source.encoding = .utf8)
    (hchoose : naming.choose = none) (helements : elementsOf buffer identity tags = .ok elements) :
    ∃ patched, splice buffer (planDetected buffer elements naming) = .ok patched ∧
      KeepsLines buffer patched elements (planDetected buffer elements naming) := by
  obtain ⟨identify, hplanned⟩ := exists_planned hsource hutf8 hchoose helements
  exact ⟨_, hplanned.splice, hplanned.keepsLines⟩

/-- Three elements that end on one line get their annotations, among terminators of three kinds. -/
theorem keepsLines_crowdedScene : ∃ source elements patched,
    Source.ofBytes crowdedScene = .ok source ∧ source.encoding = .utf8 ∧
    elementsOf crowdedScene "crowded" ["view", "button", "label"] = .ok elements ∧
    (elements.map fun e => (e.tag, e.annotated)).Perm
      [("label", false), ("button", false), ("view", false)] ∧
    (firstNewline crowdedScene = .crlf ∧ newlineKinds crowdedScene = [.lf, .cr, .crlf]) ∧
    splice crowdedScene (planDetected crowdedScene elements {}) = .ok patched ∧
    KeepsLines crowdedScene patched elements (planDetected crowdedScene elements {}) := by
  obtain ⟨source, elements, hsource, hutf8, helements, hfound⟩ := found_crowdedScene
  have hchoose : ({} : Naming).choose = none := rfl
  have hkinds : firstNewline crowdedScene = .crlf ∧
      newlineKinds crowdedScene = [.lf, .cr, .crlf] := by
    decide +kernel
  obtain ⟨patched, hresult⟩ := keepsLines_planDetected hsource hutf8 hchoose helements
  exact ⟨source, elements, patched, hsource, hutf8, helements, hfound, hkinds, hresult⟩

end AccessPatch.Patch
