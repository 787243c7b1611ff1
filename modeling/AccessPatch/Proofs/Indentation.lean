import AccessPatch.Proofs.LineBreaks

/-!
# How annotations are laid out

With a plan carried out, each annotation ends a line, and the end tag of its element follows on
the next one, after the indentation that the document has where the tag is, or would be
(`LaidOut`). The text of an operation brings that line break along, so it is enough to look at the
bytes before and after one operation (`fillFrom_around`). What stands before the annotation on its
line may come from other operations for the same line; if there are only spaces and tabs before
the end tag, then none of these is on that line (`stop_lt_lineStart`). Main result:
`laidOut_planDetected`.
-/

namespace AccessPatch.Patch

open Xml

/-! ## Places in the patched document -/

/-- Where what ends at an offset ends after the operations. -/
def shiftedEnd (ops : List Op) (offset : Int) : Int :=
  offset + ((ops.filter fun op => op.offset < offset).map Op.growth).sum

theorem shiftedEnd_append {done later : List Op} {offset : Int}
    (hdone : ∀ op ∈ done, op.offset < offset) (hlater : ∀ op ∈ later, offset ≤ op.offset) :
    shiftedEnd (done ++ later) offset = offset + (done.map Op.growth).sum := by
  have hall : done.filter (fun op => op.offset < offset) = done :=
    List.filter_eq_self.mpr fun op hop => by simpa using hdone op hop
  have hnone : later.filter (fun op => op.offset < offset) = [] :=
    List.filter_eq_nil_iff.mpr fun op hop => by simpa using hlater op hop
  rw [shiftedEnd, List.filter_append, hall, hnone, List.append_nil]

/-- The end tag of an element with an annotation: its own, or the one that it is given. -/
def endTagOf (buffer : Bytes) (e : Element) : Bytes :=
  if e.extent.selfClosing then Utf8.encode ("</" ++ e.tag ++ ">")
  else slice buffer e.extent.closeStart e.extent.stop

/-- Where that tag begins after the operations. One that an element is given is the last of its
bytes. -/
def endTagPlace (ops : List Op) (e : Element) : Int :=
  if e.extent.selfClosing
    then shiftedEnd ops e.extent.stop - (Utf8.encode ("</" ++ e.tag ++ ">")).length
  else shifted ops e.extent.closeStart

/-- The indentation of the document where the end tag of an element is, or where its only tag
begins. -/
def indentOf (buffer : Bytes) (e : Element) : Bytes :=
  indentBefore buffer (if e.extent.selfClosing then e.extent.start else e.extent.closeStart)

/-- An element is laid out with its annotation: the end tag is the first on its line after the
indentation, and the line before that ends with the annotation. In an element that is opened up
there is nothing else on that line but the indentation and one step more, and in another one
nothing but what the end tag was indented with, if it was the first on its line. -/
structure LaidOut (buffer patched : Bytes) (ops : List Op) (e : Element)
    (identifier : String) : Prop where
  endTag : ∃ start, (LineTable.ofBytes patched).startOf?
      ((LineTable.ofBytes patched).lineAt (endTagPlace ops e)) = some start ∧
    endTagPlace ops e = start + (indentOf buffer e).length ∧
    indentOf buffer e ++ endTagOf buffer e <+: patched.drop start
  annotation : ∃ number front,
    (LineTable.ofBytes patched).lineAt (endTagPlace ops e) = number + 1 ∧
    IsLine patched number (front ++ Utf8.encode (Accessibility.markup identifier))
      (firstNewline buffer) ∧
    (e.extent.selfClosing = true → front = indentOf buffer e ++ indentStep (indentOf buffer e)) ∧
    (e.extent.selfClosing = false → ∃ start, (LineTable.ofBytes buffer).startOf?
        ((LineTable.ofBytes buffer).lineAt e.extent.closeStart) = some start ∧
      (IsIndentation (slice buffer start e.extent.closeStart) →
        front = slice buffer start e.extent.closeStart))

/-! ## Before an operation -/

section Around

variable {document : Bytes} {op : Op} {ops earlier later : List Op}

/-- One operation among others: what they make of the document before it, its text, and the rest. -/
theorem fillFrom_around (hf : Forward (earlier ++ op :: later))
    (hd : Disjoint document.length 0 (earlier ++ op :: later)) {offset : Nat}
    (hoffset : op.offset = offset) :
    fillFrom document 0 (earlier ++ op :: later) =
        fillFrom (document.take offset) 0 earlier ++ (op.text ++ fillFrom document op.stop later) ∧
      ((fillFrom (document.take offset) 0 earlier).length : Int) =
        offset + (earlier.map Op.growth).sum := by
  have hforward : Forward earlier := fun o ho => hf o (List.mem_append_left _ ho)
  have hstop := (hd.inside op (by simp)).2
  have hle := hf.offset_le_stop (show op ∈ earlier ++ op :: later by simp)
  obtain ⟨-, -, hacross⟩ := List.pairwise_append.mp hd.apart
  have hbefore : ∀ o ∈ earlier, o.stop ≤ offset :=
    fun o ho => hoffset ▸ hacross o ho op List.mem_cons_self
  constructor
  · refine fillFrom_append_low hforward (by omega) hbefore fun p _ => ?_
    rw [fillFrom, hoffset, List.append_assoc]
  · exact length_fillFrom_take hforward (hd.sublist (List.sublist_append_left _ _))
      (by omega) hbefore

/-- Operations leave the end of a document alone if they end before it. -/
theorem fillFrom_eq_fillFrom_append {front back : Bytes} (hf : Forward ops)
    (hbefore : ∀ op ∈ ops, op.stop ≤ front.length) :
    fillFrom (front ++ back) 0 ops = fillFrom front 0 ops ++ back := by
  have hrest : ∀ p ≤ (front.length : Int), fillFrom (front ++ back) p [] =
      slice (front ++ back) p front.length ++ back := by
    intro p hp
    have hdrop := slice_append_drop (front ++ back) hp
    rw [Int.toNat_natCast, List.drop_left] at hdrop
    exact hdrop.symm
  have hlow := fillFrom_append_low hf (Int.natCast_nonneg front.length) hbefore hrest
  rwa [List.append_nil, Int.toNat_natCast, List.take_left] at hlow

/-- Whole lines stay whole lines if no operation is at work at their end. -/
theorem endsLine_fillFrom {bs : Bytes} (hends : EndsLine bs) (hf : Forward ops)
    (hafter : ∀ op ∈ ops, 0 ≤ op.offset) (hbefore : ∀ op ∈ ops, op.stop < bs.length) :
    EndsLine (fillFrom bs 0 ops) := by
  rcases hends.eq_nil_or with rfl | ⟨front, b, hb, rfl⟩
  · obtain rfl : ops = [] := by
      refine List.eq_nil_iff_forall_not_mem.mpr fun op hop => ?_
      have := hafter op hop
      have := hf.offset_le_stop hop
      have := hbefore op hop
      simp only [List.length_nil] at this
      omega
    exact .nil
  · rw [fillFrom_eq_fillFrom_append hf fun op hop => ?_]
    · exact endsLine_concat _ hb
    · have := hbefore op hop
      rw [List.length_append, List.length_singleton] at this
      omega

/-- What stands before the first of the operations still stands there. -/
theorem slice_prefix_fillFrom {start stop : Int} (hle : start ≤ stop) (hf : Forward ops)
    (hinside : ∀ op ∈ ops, op.stop ≤ document.length) (hafter : ∀ op ∈ ops, stop ≤ op.offset) :
    slice document start stop <+: fillFrom document start ops := by
  cases ops with
  | nil =>
    rw [fillFrom, ← slice_append_drop document hle]
    exact List.prefix_append _ _
  | cons op ops =>
    have hop := hinside op List.mem_cons_self
    have hstop := hafter op List.mem_cons_self
    have := hf.offset_le_stop (List.mem_cons_self (a := op) (l := ops))
    rw [fillFrom_eq_append hle (by omega) hafter]
    exact List.prefix_append _ _

end Around

/-! ## The line of an offset -/

section LineOf

variable {document : Bytes} {b : UInt8}

theorem mem_slice {start stop i : Nat} (h : (document.drop i).head? = some b) (hstart : start ≤ i)
    (hstop : i < stop) : b ∈ slice document start stop := by
  rw [List.head?_drop] at h
  refine List.mem_of_getElem? (i := i - start) ?_
  rw [slice, List.getElem?_drop, List.getElem?_take, if_pos (by omega), ← h]
  congr 1
  omega

/-- The byte before the start of a line ends the line before. -/
theorem isLineEnd_of_endsLine {last : Nat} (h : EndsLine (document.take (last + 1)))
    (hlast : (document.drop last).head? = some b) : isLineEnd b = true := by
  rw [List.head?_drop] at hlast
  have htake : document.take (last + 1) = document.take last ++ [b] := by
    rw [List.take_add_one, hlast, Option.toList_some]
  rcases h.eq_nil_or with hnil | ⟨front, c, hc, hfront⟩
  · simp [htake] at hnil
  · obtain ⟨-, hbc⟩ := List.append_inj' (htake.symm.trans hfront) rfl
    rw [List.singleton_inj.mp hbc]
    exact hc

/-- The line that holds an offset, as far as the offset. -/
theorem exists_lineStart_take {offset : Nat} (hsize : offset ≤ document.length)
    (hhead : (document.drop offset).head? ≠ some 0x0A) :
    ∃ start, start ≤ offset ∧
      document.take offset = document.take start ++ slice document start offset ∧
      EndsLine (document.take start) ∧ Unbroken (slice document start offset) ∧
      (LineTable.ofBytes document).startOf? ((LineTable.ofBytes document).lineAt offset) =
        some start := by
  have hcut : CleanCut (document.take offset) (document.drop offset) := fun _ => hhead
  obtain ⟨whole, line, htake, hends, hline, hstart⟩ := exists_lineStart hcut
  have hlength := congrArg List.length htake
  rw [List.length_take, Nat.min_eq_left hsize, List.length_append] at hlength
  rw [List.take_append_drop, List.length_take, Nat.min_eq_left hsize] at hstart
  have hslice : slice document whole.length offset = line := by
    rw [slice, Int.toNat_natCast, Int.toNat_natCast, htake, List.drop_left]
  have hwhole : document.take whole.length = whole := by
    have htwice : (document.take offset).take whole.length = whole := by rw [htake, List.take_left]
    rwa [List.take_take, Nat.min_eq_left (by omega)] at htwice
  refine ⟨whole.length, by omega, ?_, ?_, ?_, hstart⟩
  · rw [hwhole, hslice, htake]
  · rwa [hwhole]
  · rwa [hslice]

end LineOf

/-! ## Beside an operation of a plan -/

section Plan

variable {buffer : Bytes} {elements : List Element} {naming : Naming} {identify : Int → String}
  {ops : List Op} {op : Op} {e : Element}

/-- An operation before an indentation ends before the line begins. -/
theorem Planned.stop_lt_lineStart (h : Planned buffer elements naming identify ops) (hop : op ∈ ops)
    {start stop : Nat} (hends : EndsLine (buffer.take start))
    (hindent : IsIndentation (slice buffer start stop)) (hoffset : op.offset < stop)
    (hstop : op.stop ≤ stop) :
    op.stop < start := by
  obtain ⟨f, hf, rfl⟩ := List.mem_map.mp (h.each.mem_iff.mp hop)
  cases hself : f.extent.selfClosing with
  | false =>
    obtain ⟨hpos, hhead⟩ := h.closeStart hf hself
    rw [opOf_container _ _ _ hself] at hoffset
    rw [opOf_container _ _ _ hself, Op.stop]
    simp only at hoffset ⊢
    by_contra hinside
    -- The `<` of the end tag would be part of the indentation.
    rcases hindent _ (mem_slice hhead (by omega) (by omega)) with hb | hb <;> cases hb
  | true =>
    obtain ⟨last, hlast, hmark⟩ := h.lastMark hf hself
    have heq : (opOf buffer (firstNewline buffer).bytes identify f).stop = last + 1 := by
      rw [opOf_selfClosing _ _ _ hself, Op.stop]
      simp only
      omega
    rw [heq] at hstop ⊢
    by_contra hinside
    -- The `>` of the tag would be part of the indentation, or else the last byte of the line
    -- before.
    by_cases hinLine : start ≤ last
    · rcases hindent _ (mem_slice hmark hinLine (by omega)) with hb | hb <;> cases hb
    · obtain rfl : start = last + 1 := by omega
      cases isLineEnd_of_endsLine hends hmark

/-- The operations before and after one of a plan. -/
theorem Planned.around (h : Planned buffer elements naming identify ops) {earlier later : List Op}
    (hops : ops = earlier ++ op :: later) :
    (∀ o ∈ earlier, o ∈ ops ∧ o.stop ≤ op.offset ∧ o.offset < op.offset) ∧
      ∀ o ∈ later, o ∈ ops ∧ op.stop ≤ o.offset ∧ op.offset < o.offset ∧
        op.source.extent.stop ≤ o.offset := by
  subst hops
  obtain ⟨-, hapart, hacross⟩ := List.pairwise_append.mp h.disjoint.apart
  obtain ⟨-, hincreasing, hless⟩ := List.pairwise_append.mp h.increasing
  obtain ⟨-, hpast, -⟩ := List.pairwise_append.mp h.past
  constructor
  · intro o ho
    exact ⟨List.mem_append_left _ ho, hacross o ho op List.mem_cons_self,
      hless o ho op List.mem_cons_self⟩
  · intro o ho
    exact ⟨List.mem_append_right _ (List.mem_cons_of_mem _ ho),
      (List.pairwise_cons.mp hapart).1 o ho, (List.pairwise_cons.mp hincreasing).1 o ho,
      (List.pairwise_cons.mp hpast).1 o ho⟩

/-- What stands before an annotation on its line: that is as in the document if it is an
indentation there. -/
theorem Planned.exists_front (h : Planned buffer elements naming identify ops)
    (he : e ∈ candidates elements) (hself : e.extent.selfClosing = false) {earlier later : List Op}
    (hops : ops = earlier ++ opOf buffer (firstNewline buffer).bytes identify e :: later)
    {offset : Nat} (hoffset : e.extent.closeStart = offset) :
    ∃ before front, fillFrom (buffer.take offset) 0 earlier = before ++ front ∧ EndsLine before ∧
      Unbroken front ∧ ∃ start, (LineTable.ofBytes buffer).startOf?
          ((LineTable.ofBytes buffer).lineAt offset) = some start ∧
        (IsIndentation (slice buffer start offset) → front = slice buffer start offset) := by
  have hhead := (h.closeStart he hself).2
  rw [hoffset, Int.toNat_natCast] at hhead
  obtain ⟨hsize, -⟩ := List.getElem?_eq_some_iff.mp (List.head?_drop.symm.trans hhead)
  obtain ⟨start, hle, htake, hends, hline, hstart⟩ :=
    exists_lineStart_take hsize.le (by rw [hhead]; decide)
  have hearlier := (h.around hops).1
  rw [opOf_container _ _ _ hself, hoffset] at hearlier
  by_cases hindent : IsIndentation (slice buffer start offset)
  · have hforward : Forward earlier := fun o ho => forward_of_edits h.edits o (hearlier o ho).1
    have hbefore : ∀ o ∈ earlier, o.stop < (buffer.take start).length := by
      intro o ho
      obtain ⟨hmem, hstop, hless⟩ := hearlier o ho
      rw [List.length_take, Nat.min_eq_left (by omega)]
      exact h.stop_lt_lineStart hmem hends hindent hless hstop
    refine ⟨fillFrom (buffer.take start) 0 earlier, slice buffer start offset, ?_, ?_, hline,
      start, hstart, fun _ => rfl⟩
    · rw [htake]
      exact fillFrom_eq_fillFrom_append hforward fun o ho => (hbefore o ho).le
    · exact endsLine_fillFrom hends hforward
        (fun o ho => (h.disjoint.inside o (hearlier o ho).1).1) hbefore
  · obtain ⟨before, front, hfill, hends', hfront⟩ :=
      exists_lastLine (fillFrom (buffer.take offset) 0 earlier)
    exact ⟨before, front, hfill, hends', hfront, start, hstart, fun hblank => absurd hblank hindent⟩

/-- The patched document around the annotation of one element. -/
theorem laidOut_of_split {patched before front lines after : Bytes} {identifier : String}
    (hends : EndsLine before) (hfront : Unbroken front) (hsafe : Identifier.Safe identifier)
    (hlines : lines = before ++
      (front ++ Utf8.encode (Accessibility.markup identifier) ++ (firstNewline buffer).bytes))
    (hpatched : patched = lines ++ (indentOf buffer e ++ after))
    (hcut : CleanCut ((firstNewline buffer).bytes ++ indentOf buffer e) after)
    (hplace : endTagPlace ops e = lines.length + (indentOf buffer e).length)
    (hendTag : endTagOf buffer e <+: after)
    (hopened : e.extent.selfClosing = true →
      front = indentOf buffer e ++ indentStep (indentOf buffer e))
    (hfilled : e.extent.selfClosing = false → ∃ start, (LineTable.ofBytes buffer).startOf?
        ((LineTable.ofBytes buffer).lineAt e.extent.closeStart) = some start ∧
      (IsIndentation (slice buffer start e.extent.closeStart) →
        front = slice buffer start e.extent.closeStart)) :
    LaidOut buffer patched ops e identifier := by
  obtain ⟨rest, hrest⟩ := exists_markup hsafe
  have hindent : Unbroken (indentOf buffer e) :=
    unbroken_of_isIndentation (isIndentation_indentBefore buffer _)
  obtain ⟨number, hline, hat, hstart⟩ :=
    isLine_of_split hends (hfront.append (unbroken_markup hsafe))
    (by simp [hrest]) hindent hcut (hlines ▸ hpatched)
  rw [← hlines] at hat hstart
  have hnext : (LineTable.ofBytes patched).lineAt (endTagPlace ops e) = number + 1 := by
    rw [hplace, ← Int.natCast_add]
    exact hat
  refine ⟨⟨lines.length, by rw [hnext]; exact hstart, hplace, ?_⟩, number, front, hnext, hline,
    hopened, hfilled⟩
  rw [hpatched, List.drop_left]
  exact (List.prefix_append_right_inj _).mpr hendTag

theorem sum_growth_concat (ops : List Op) (op : Op) :
    ((ops ++ [op]).map Op.growth).sum = (ops.map Op.growth).sum + op.growth := by
  rw [List.map_append, List.sum_append, List.map_singleton, List.sum_singleton]

/-- The end tag of an element that has one follows the text that goes before it. -/
theorem Planned.endTagPlace_container (h : Planned buffer elements naming identify ops)
    (hself : e.extent.selfClosing = false) {earlier later : List Op}
    (hops : ops = earlier ++ opOf buffer (firstNewline buffer).bytes identify e :: later) :
    endTagPlace ops e = e.extent.closeStart + (earlier.map Op.growth).sum +
      (opOf buffer (firstNewline buffer).bytes identify e).text.length := by
  obtain ⟨hearlier, hlater⟩ := h.around hops
  have hforward := forward_of_edits h.edits
  have hall : ops = (earlier ++ [opOf buffer (firstNewline buffer).bytes identify e]) ++ later := by
    rw [hops, List.append_assoc, List.singleton_append]
  have hform := opOf_container buffer (firstNewline buffer).bytes identify hself
  generalize opOf buffer (firstNewline buffer).bytes identify e = op at hearlier hlater hall hform ⊢
  have hoffset : op.offset = e.extent.closeStart := by rw [hform]
  have hreplaced : op.replaced = 0 := by rw [hform]
  have hbefore : ∀ o ∈ earlier ++ [op], o.stop ≤ e.extent.closeStart := by
    refine List.forall_mem_append.mpr ⟨fun o ho => hoffset ▸ (hearlier o ho).2.1, fun o ho => ?_⟩
    rw [List.mem_singleton.mp ho, Op.stop, hreplaced, hoffset, add_zero]
  have hpast : ∀ o ∈ later, e.extent.closeStart < o.stop := by
    intro o ho
    have := (hlater o ho).2.2.1
    have := hforward.offset_le_stop (hlater o ho).1
    omega
  rw [endTagPlace, hself, if_neg Bool.false_ne_true, shifted, hall,
    growthBefore_append hbefore hpast, sum_growth_concat, Op.growth, hreplaced, sub_zero, add_assoc]

/-- The end tag that an element is given ends the text that brings it. -/
theorem Planned.endTagPlace_selfClosing (h : Planned buffer elements naming identify ops)
    (hself : e.extent.selfClosing = true) {earlier later : List Op}
    (hops : ops = earlier ++ opOf buffer (firstNewline buffer).bytes identify e :: later) :
    endTagPlace ops e + (endTagOf buffer e).length =
      e.extent.openEnd - 2 + (earlier.map Op.growth).sum +
      (opOf buffer (firstNewline buffer).bytes identify e).text.length := by
  obtain ⟨hearlier, hlater⟩ := h.around hops
  have hall : ops = (earlier ++ [opOf buffer (firstNewline buffer).bytes identify e]) ++ later := by
    rw [hops, List.append_assoc, List.singleton_append]
  have hsource : (opOf buffer (firstNewline buffer).bytes identify e).source = e :=
    source_opFor _ _ _ _
  have hform := opOf_selfClosing buffer (firstNewline buffer).bytes identify hself
  generalize opOf buffer (firstNewline buffer).bytes identify e =
    op at hearlier hlater hall hsource hform ⊢
  have hoffset : op.offset = e.extent.openEnd - 2 := by rw [hform]
  have hreplaced : op.replaced = 2 := by rw [hform]
  have hstop : e.extent.stop = e.extent.openEnd := by
    simp only [Extent.selfClosing, Bool.and_eq_true, beq_iff_eq] at hself
    exact hself.2
  have hbefore : ∀ o ∈ earlier ++ [op], o.offset < e.extent.stop := by
    refine List.forall_mem_append.mpr ⟨fun o ho => ?_, fun o ho => ?_⟩
    · have := (hearlier o ho).2.2
      omega
    · rw [List.mem_singleton.mp ho]
      omega
  have hpast : ∀ o ∈ later, e.extent.stop ≤ o.offset := fun o ho => hsource ▸ (hlater o ho).2.2.2
  rw [endTagPlace, hself, if_pos rfl, endTagOf, hself, if_pos rfl, hall,
    shiftedEnd_append hbefore hpast, sum_growth_concat, Op.growth, hreplaced, hstop]
  omega

theorem Planned.laidOut_container (h : Planned buffer elements naming identify ops)
    (he : e ∈ candidates elements) (hself : e.extent.selfClosing = false) :
    LaidOut buffer (fillFrom buffer 0 ops) ops e (identify e.extent.start) := by
  obtain ⟨hpos, hhead⟩ := h.closeStart he hself
  obtain ⟨offset, hoffset⟩ := Int.eq_ofNat_of_zero_le hpos
  obtain ⟨earlier, later, hops⟩ := List.append_of_mem (h.mem_ops he)
  have hforward := forward_of_edits h.edits
  obtain ⟨-, hlater⟩ := h.around hops
  have hplace := h.endTagPlace_container hself hops
  obtain ⟨before, front, hfill, hends, hfront, hsame⟩ := h.exists_front he hself hops hoffset
  have hop := opOf_container buffer (firstNewline buffer).bytes identify hself
  have hopOffset : (opOf buffer (firstNewline buffer).bytes identify e).offset = offset := by
    rw [hop]
    exact hoffset
  have hstop : (opOf buffer (firstNewline buffer).bytes identify e).stop = offset := by
    rw [hop, Op.stop]
    simpa using hoffset
  have hindentOf : indentOf buffer e = indentBefore buffer e.extent.closeStart := by
    simp only [indentOf, hself, Bool.false_eq_true, if_false]
  have htext : (opOf buffer (firstNewline buffer).bytes identify e).text =
      Utf8.encode (Accessibility.markup (identify e.extent.start)) ++ (firstNewline buffer).bytes ++
        indentOf buffer e := by
    rw [hindentOf, hop]
  obtain ⟨hsplit, hlength⟩ := fillFrom_around (hops ▸ hforward) (hops ▸ h.disjoint) hopOffset
  rw [← hops, hfill, hstop, htext] at hsplit
  rw [hfill] at hlength
  have hendTag : endTagOf buffer e <+: fillFrom buffer offset later := by
    simp only [endTagOf, hself, Bool.false_eq_true, if_false, hoffset]
    have hle : (offset : Int) ≤ e.extent.stop := hoffset ▸ e.extent.closeStart_le_stop
    refine slice_prefix_fillFrom hle (fun o ho => hforward o (hlater o ho).1)
      (fun o ho => (h.disjoint.inside o (hlater o ho).1).2) fun o ho => ?_
    have hpast := (hlater o ho).2.2.2
    rwa [opOf, source_opFor] at hpast
  have hcut :
      CleanCut ((firstNewline buffer).bytes ++ indentOf buffer e)
        (fillFrom buffer offset later) := by
    refine cleanCut_fillFrom (fun o ho => h.addsLines o (hlater o ho).1)
      (fun o ho => hstop ▸ (hlater o ho).2.1) fun _ => ?_
    rw [← hoffset, hhead]
    decide
  refine laidOut_of_split hends hfront (h.safe _) rfl ?_ hcut ?_ hendTag (by simp [hself]) fun _ =>
    ?_
  · rw [hsplit]
    simp only [List.append_assoc]
  · rw [hoffset, htext] at hplace
    simp only [List.length_append] at hplace hlength ⊢
    omega
  · rw [hoffset]
    exact hsame

theorem Planned.laidOut_selfClosing (h : Planned buffer elements naming identify ops)
    (he : e ∈ candidates elements) (hself : e.extent.selfClosing = true) :
    LaidOut buffer (fillFrom buffer 0 ops) ops e (identify e.extent.start) := by
  obtain ⟨hpos, -⟩ := h.marks he hself
  obtain ⟨offset, hoffset⟩ := Int.eq_ofNat_of_zero_le hpos
  obtain ⟨earlier, later, hops⟩ := List.append_of_mem (h.mem_ops he)
  have hforward := forward_of_edits h.edits
  have hplace := h.endTagPlace_selfClosing hself hops
  have hopOffset : (opOf buffer (firstNewline buffer).bytes identify e).offset = offset := by
    rw [opOf_selfClosing _ _ _ hself]
    exact hoffset
  have hindentOf : indentOf buffer e = indentBefore buffer e.extent.start := by
    simp only [indentOf, hself, if_true]
  have hendTagOf : endTagOf buffer e = Utf8.encode ("</" ++ e.tag ++ ">") := by
    simp only [endTagOf, hself, if_true]
  have htext := text_opOf_selfClosing buffer (firstNewline buffer).bytes identify hself
  rw [← hindentOf, ← hendTagOf] at htext
  obtain ⟨hsplit, hlength⟩ := fillFrom_around (hops ▸ hforward) (hops ▸ h.disjoint) hopOffset
  rw [← hops, htext] at hsplit
  have hmark : Unbroken (Utf8.encode ">") := by decide
  have hindent : Unbroken (indentOf buffer e) :=
    unbroken_of_isIndentation (isIndentation_indentBefore buffer _)
  have hstep : Unbroken (indentStep (indentOf buffer e)) :=
    unbroken_of_isIndentation (isIndentation_indentStep _)
  have hend : Unbroken (endTagOf buffer e) := hendTagOf ▸ h.endTags e (List.mem_of_mem_filter he)
  obtain ⟨hends, -⟩ := endsLine_line (fillFrom (buffer.take offset) 0 earlier) hmark (by decide)
    (firstNewline buffer)
  have hne : endTagOf buffer e ≠ [] := by
    rw [hendTagOf]
    simp [Utf8.encode]
  refine laidOut_of_split hends (hindent.append hstep) (h.safe _) rfl ?_
    ((hend.cut_before _).append hne _) ?_
    (List.prefix_append _
      (fillFrom buffer (opOf buffer (firstNewline buffer).bytes identify e).stop later))
    (fun _ => rfl) (by simp [hself])
  · rw [hsplit]
    simp only [List.append_assoc]
  · rw [hoffset, htext] at hplace
    simp only [List.length_append] at hplace hlength ⊢
    omega

theorem Planned.laidOut (h : Planned buffer elements naming identify ops)
    (he : e ∈ candidates elements) :
    LaidOut buffer (fillFrom buffer 0 ops) ops e (identify e.extent.start) := by
  cases hself : e.extent.selfClosing with
  | false => exact h.laidOut_container he hself
  | true => exact h.laidOut_selfClosing he hself

end Plan

/-- **Layout.** In a document in UTF-8, carrying out the plan puts the end tag of each element
without annotation on a line of its own, after the indentation of that element, and the annotation
at the end of the line before it. This does not depend on what other elements get on the same
line. -/
theorem laidOut_planDetected {buffer : Bytes} {source : Source} {identity : String}
    {tags : List String} {naming : Naming} {elements : List Element}
    (hsource : Source.ofBytes buffer = .ok source) (hutf8 : source.encoding = .utf8)
    (hchoose : naming.choose = none) (helements : elementsOf buffer identity tags = .ok elements) :
    ∃ patched, splice buffer (planDetected buffer elements naming) = .ok patched ∧
      ∀ e ∈ candidates elements, ∃ identifier,
        (∀ s, (e, s) ∈ naming.named elements ↔ s = identifier) ∧
        LaidOut buffer patched (planDetected buffer elements naming) e identifier := by
  obtain ⟨identify, hplanned⟩ := exists_planned hsource hutf8 hchoose helements
  refine ⟨_, hplanned.splice,
    fun e he => ⟨identify e.extent.start, fun s => ?_, hplanned.laidOut he⟩⟩
  rw [mem_named_iff hplanned.identifies]
  exact and_iff_right he

/-- Three elements that end on one line are laid out, among terminators of three kinds. -/
theorem laidOut_crowdedScene : ∃ source elements patched,
    Source.ofBytes crowdedScene = .ok source ∧ source.encoding = .utf8 ∧
    elementsOf crowdedScene "crowded" ["view", "button", "label"] = .ok elements ∧
    (elements.map fun e => (e.tag, e.annotated)).Perm
      [("label", false), ("button", false), ("view", false)] ∧
    splice crowdedScene (planDetected crowdedScene elements {}) = .ok patched ∧
    ∀ e ∈ candidates elements, ∃ identifier,
      (∀ s, (e, s) ∈ ({} : Naming).named elements ↔ s = identifier) ∧
      LaidOut crowdedScene patched (planDetected crowdedScene elements {}) e identifier := by
  obtain ⟨source, elements, hsource, hutf8, helements, hfound⟩ := found_crowdedScene
  have hchoose : ({} : Naming).choose = none := rfl
  obtain ⟨patched, hresult⟩ := laidOut_planDetected hsource hutf8 hchoose helements
  exact ⟨source, elements, patched, hsource, hutf8, helements, hfound, hresult⟩

end AccessPatch.Patch
