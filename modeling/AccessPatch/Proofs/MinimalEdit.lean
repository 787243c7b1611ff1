import AccessPatch.Proofs.Annotated
import AccessPatch.Proofs.Undoing

/-!
# What a plan leaves of a document

An operation of a plan has one of two forms (`Edits`). Before an end tag it only adds text; an
element that is written as one tag loses the slash of that tag. `edits_opsOf` finds the bytes
around each operation by induction on the stretches of a document, whose end tags bear the names
of the open elements (`Nests`). From the forms alone it follows that nothing but slashes is lost
(`sublist_fillFrom`).
-/

namespace AccessPatch.Patch

open Identifier (Safe)
open Pairing (IsClosed Paired Unclosed Yields begun endedWith marked tags_marked)
open Xml

/-! ## The forms of operations -/

def IsIndentation (bs : Bytes) : Prop :=
  ∀ b ∈ bs, b = 0x20 ∨ b = 0x09

theorem IsIndentation.append {bs cs : Bytes} (hbs : IsIndentation bs) (hcs : IsIndentation cs) :
    IsIndentation (bs ++ cs) :=
  fun b hb => (List.mem_append.mp hb).elim (hbs b) (hcs b)

/-- What an operation of a plan does to the bytes of its document. -/
inductive Edits (document : Bytes) (op : Op) : Prop where
  /-- It puts an annotation before an end tag. -/
  | fills {identifier : String} {newline : Newline} {indent : Bytes}
      (form : op.source.extent.selfClosing = false)
      (place : 0 ≤ op.offset ∧ op.replaced = 0)
      (endTag : Utf8.encode ("</" ++ op.source.tag) <+: document.drop op.offset.toNat)
      (spaces : IsIndentation indent)
      (text : op.text = Utf8.encode (Accessibility.markup identifier) ++ newline.bytes ++ indent)
  /-- It opens up an element that is written as one tag. -/
  | opensUp {identifier : String} {newline : Newline} {indent step : Bytes}
      (form : op.source.extent.selfClosing = true)
      (place : 0 ≤ op.offset ∧ op.replaced = 2 ∧ op.stop = op.source.extent.openEnd)
      (startTag : ∃ inner, slice document op.source.extent.start op.source.extent.openEnd =
        Utf8.encode ("<" ++ op.source.tag) ++ (inner ++ [0x2F, 0x3E]))
      (marks : slice document op.offset op.stop = [0x2F, 0x3E])
      (spaces : IsIndentation (indent ++ step))
      (text : op.text = Utf8.encode ">" ++ newline.bytes ++ indent ++ step ++
        Utf8.encode (Accessibility.markup identifier) ++ newline.bytes ++ indent ++
        Utf8.encode ("</" ++ op.source.tag ++ ">"))

theorem isIndentation_indentBefore (buffer : Bytes) (offset : Int) :
    IsIndentation (indentBefore buffer offset) := by
  intro b hb
  have hindent := List.mem_takeWhile_imp hb
  simpa [isIndent] using hindent

theorem isIndentation_indentStep (indent : Bytes) : IsIndentation (indentStep indent) := by
  unfold indentStep IsIndentation
  split <;> simp

/-! ## The operations of stretches -/

section Stretch

variable [Code] {buffer document before after : Bytes} {newline : Newline} {identify : Int → String}
  {index : LineTable} {tags : List String} {alphabet : Alphabet} {st : Stretch} {pos : Nat}
  {e : Element}

theorem edits_closing {u : Unclosed} (hspelled : st.Spelled alphabet) (hform : st.form = .closing)
    (hname : st.name = u.tag) (hagrees : Agrees tags) (htracked : tags.contains u.tag = true)
    (hdocument : document = before ++ (inCode st.chars ++ after)) (hpos : before.length = pos)
    (h : IsClosed index u (pos + (inCode st.gap).length : Nat) (pos + st.size : Nat) e) :
    Edits document (opOf buffer newline.bytes identify e) := by
  have hproper := selfClosing_of_closing hspelled h
  have hop := opOf_container buffer newline.bytes identify hproper
  rw [hop]
  refine .fills hproper ⟨?_, rfl⟩ ?_ (isIndentation_indentBefore _ _) rfl
  · simp only [h.closeStart]
    omega
  · unfold Stretch.Spelled at hspelled
    rw [hform] at hspelled
    obtain ⟨space, htext, -⟩ := hspelled.rest
    have hmarks : Utf8.encode ("</" ++ e.tag) = inCode ('<' :: '/' :: st.name.toList) := by
      rw [h.tag, hname]
      exact Agrees.encode_marked hagrees htracked (by decide)
    have hsplit : document = (before ++ inCode st.gap) ++ (inCode ('<' :: '/' :: st.name.toList) ++
        (inCode (space ++ ['>']) ++ after)) := by
      have hall : st.text = ('<' :: '/' :: st.name.toList) ++ (space ++ ['>']) := by
        rw [htext]
        simp
      rw [hdocument, Stretch.chars, hall]
      simp only [inCode_append, List.append_assoc]
    have hfront : (before ++ inCode st.gap).length = pos + (inCode st.gap).length := by
      rw [List.length_append, hpos]
    simp only [h.closeStart, Int.toNat_natCast]
    rw [hmarks, hsplit, List.drop_left' hfront]
    exact List.prefix_append _ _

theorem edits_empty (hspelled : st.Spelled alphabet) (hform : st.form = .empty)
    (hagrees : Agrees tags) (htracked : tags.contains st.name = true)
    (hdocument : document = before ++ (inCode st.chars ++ after)) (hpos : before.length = pos)
    (h : IsClosed index (begun st pos) (pos + st.size : Nat) (pos + st.size : Nat) e) :
    Edits document (opOf buffer newline.bytes identify e) := by
  have hsize := TagRange.size_eq st
  obtain ⟨hempty, hopenEnd⟩ := selfClosing_of_empty h
  have hstart : e.extent.start = (pos + (inCode st.gap).length : Nat) := h.start
  have hop := opOf_selfClosing buffer newline.bytes identify hempty
  -- The tag is its name, what follows that, and the two marks at its end.
  obtain ⟨inner, htext⟩ : ∃ inner, inCode st.text =
      Utf8.encode ("<" ++ st.name) ++ (inCode inner ++ [0x2F, 0x3E]) := by
    unfold Stretch.Spelled at hspelled
    rw [hform] at hspelled
    obtain ⟨more, htext, -, hslash⟩ := hspelled.rest
    obtain ⟨inner, rfl⟩ := List.getLast?_eq_some_iff.mp (hslash.mp rfl)
    refine ⟨inner, ?_⟩
    have hmarks : Utf8.encode ("<" ++ st.name) = inCode ('<' :: st.name.toList) :=
      Agrees.encode_marked hagrees htracked (by decide)
    have hall : st.text = ('<' :: st.name.toList) ++ (inner ++ ['/', '>']) := by
      rw [htext]
      simp
    rw [hall, hmarks, inCode_append, inCode_append, inCode_emptyEnd]
  have hlength := congrArg List.length htext
  simp only [List.length_append, List.length_cons, List.length_nil] at hlength
  rw [hop]
  refine .opensUp hempty ⟨?_, rfl, ?_⟩ ⟨inCode inner, ?_⟩ ?_
    ((isIndentation_indentBefore _ _).append (isIndentation_indentStep _)) rfl
  · simp only [hopenEnd]
    omega
  · simp only [Op.stop]
    omega
  · have hsplit : document = (before ++ inCode st.gap) ++ (inCode st.text ++ after) := by
      rw [hdocument, Stretch.chars, inCode_append]
      simp only [List.append_assoc]
    have htag : e.tag = st.name := h.tag
    rw [htag, ← htext, hsplit]
    refine slice_of_append ?_ ?_
    · rw [hstart, List.length_append, hpos]
    · rw [hopenEnd, List.length_append, hpos, hsize]
      push_cast
      omega
  · have hsplit :
        document = (before ++ inCode st.gap ++ (Utf8.encode ("<" ++ st.name) ++ inCode inner)) ++
        ([0x2F, 0x3E] ++ after) := by
      rw [hdocument, Stretch.chars, inCode_append, htext]
      simp only [List.append_assoc]
    rw [hsplit]
    refine slice_of_append ?_ ?_
    · simp only [hopenEnd, List.length_append]
      omega
    · simp only [Op.stop, hopenEnd, List.length_append, List.length_cons, List.length_nil]
      omega

end Stretch

theorem nests_rest {stack : List String} {ps : List (Stretch × Option Element)}
    (h : if stack = [] then ps.map Prod.fst = [] else Nests stack (ps.map Prod.fst)) :
    ps = [] ∨ Nests stack (ps.map Prod.fst) := by
  split at h
  · exact .inl (List.map_eq_nil_iff.mp h)
  · exact .inr h

/-- Each operation for elements of a document has one of the two forms. -/
theorem edits_opsOf [Code] {buffer document before after : Bytes} {newline : Newline}
    {identify : Int → String} {index : LineTable} {tags : List String} {alphabet : Alphabet}
    {stack : List Unclosed} {pos : Nat} {ps : List (Stretch × Option Element)}
    (hspelled : ∀ p ∈ ps, p.1.Spelled alphabet)
    (hnests : ps = [] ∨ Nests (stack.map Unclosed.tag) (ps.map Prod.fst))
    (hagrees : Agrees tags) (h : Paired index tags stack pos ps)
    (hdocument : document = before ++ (inCode (trailChars (ps.map Prod.fst)) ++ after))
    (hpos : before.length = pos) :
    ∀ op ∈ opsOf buffer newline.bytes identify ps, Edits document op := by
  induction h generalizing before with
  | nil => simp [opsOf, endedWith, candidates]
  | @opening stack pos st ps form rest ih =>
    obtain ⟨hst, hspelled'⟩ := List.forall_mem_cons.mp hspelled
    obtain ⟨stack', hafter, hrest⟩ := hnests.resolve_left (by simp)
    rw [List.map_cons, trailChars_cons, inCode_append, List.append_assoc] at hdocument
    rw [opsOf_cons]
    simp only [Stretch.stackAfter?, form, Option.some.injEq] at hafter
    subst hafter
    exact ih hspelled' (by rw [List.map_cons, tags_marked]; exact nests_rest hrest)
      (hdocument.trans (List.append_assoc _ _ _).symm) (by rw [List.length_append, hpos,
        Stretch.size])
  | @empty stack pos st o ps form yields rest ih =>
    obtain ⟨hst, hspelled'⟩ := List.forall_mem_cons.mp hspelled
    obtain ⟨stack', hafter, hrest⟩ := hnests.resolve_left (by simp)
    rw [List.map_cons, trailChars_cons, inCode_append, List.append_assoc] at hdocument
    simp only [Stretch.stackAfter?, form, Option.some.injEq] at hafter
    subst hafter
    have hlater := ih hspelled' (by rw [tags_marked]; exact nests_rest hrest)
      (hdocument.trans (List.append_assoc _ _ _).symm) (by rw [List.length_append, hpos,
        Stretch.size])
    intro op hop
    rw [opsOf_cons] at hop
    rcases List.mem_append.mp hop with hop | hop
    · obtain ⟨e, he, rfl⟩ := Option.map_eq_some_iff.mp (Option.mem_toList.mp hop)
      cases yields with
      | untracked _ => cases he
      | tracked tracked closed =>
        obtain rfl := Option.some.inj (Option.filter_eq_some_iff.mp he).1
        exact edits_empty hst form hagrees tracked hdocument hpos closed
    · exact hlater op hop
  | @closing u stack pos st o ps form yields rest ih =>
    obtain ⟨hst, hspelled'⟩ := List.forall_mem_cons.mp hspelled
    obtain ⟨stack', hafter, hrest⟩ := hnests.resolve_left (by simp)
    rw [List.map_cons, trailChars_cons, inCode_append, List.append_assoc] at hdocument
    obtain ⟨hname, hstack⟩ : st.name = u.tag ∧ stack' = stack.map Unclosed.tag := by
      simp only [Stretch.stackAfter?, form, List.map_cons] at hafter
      split at hafter
      · rename_i hsame
        exact ⟨hsame.symm, (Option.some.inj hafter).symm⟩
      · cases hafter
    subst hstack
    have hlater := ih hspelled' (nests_rest hrest) (hdocument.trans (List.append_assoc _ _ _).symm)
      (by rw [List.length_append, hpos, Stretch.size])
    intro op hop
    rw [opsOf_cons] at hop
    rcases List.mem_append.mp hop with hop | hop
    · obtain ⟨e, he, rfl⟩ := Option.map_eq_some_iff.mp (Option.mem_toList.mp hop)
      cases yields with
      | untracked _ => cases he
      | tracked tracked closed =>
        obtain rfl := Option.some.inj (Option.filter_eq_some_iff.mp he).1
        exact edits_closing hst form hname hagrees tracked hdocument hpos closed
    · exact hlater op hop

/-! ## What is lost -/

/-- The operations that take out the slashes of the empty-element tags that some operations open
up. -/
def slashes (ops : List Op) : List Op :=
  (ops.filter (·.replaced = 2)).map fun op => { op with text := [], replaced := 1 }

section Loss

variable {document : Bytes} {pos : Int} {ops : List Op}

theorem replaced_of_edits {op : Op} (h : Edits document op) :
    op.replaced = 0 ∨ op.replaced = 2 := by
  cases h with
  | fills _ place => exact .inl place.2
  | opensUp _ place => exact .inr place.2.1

theorem forward_of_edits (h : ∀ op ∈ ops, Edits document op) : Forward ops := by
  intro op hop
  rcases replaced_of_edits (h op hop) with hnone | htwo <;> omega

theorem mem_slashes {slash : Op} (h : slash ∈ slashes ops) :
    ∃ op ∈ ops, op.replaced = 2 ∧ slash.offset = op.offset ∧ slash.stop = op.offset + 1 ∧
      slash.replaced = 1 := by
  obtain ⟨op, hop, rfl⟩ := List.mem_map.mp h
  obtain ⟨hop, htwo⟩ := List.mem_filter.mp hop
  exact ⟨op, hop, of_decide_eq_true htwo, rfl, rfl, rfl⟩

theorem disjoint_slashes (hd : Disjoint document.length pos ops) :
    Disjoint document.length pos (slashes ops) := by
  refine ⟨fun slash hslash => ?_, fun slash hslash => ?_, ?_⟩
  · obtain ⟨op, hop, -, hoffset, -⟩ := mem_slashes hslash
    exact hoffset ▸ hd.after op hop
  · obtain ⟨op, hop, htwo, hoffset, hstop, -⟩ := mem_slashes hslash
    have hinside := hd.inside op hop
    simp only [Op.stop] at hinside hstop ⊢
    omega
  · refine List.pairwise_map.mpr
      ((hd.apart.sublist List.filter_sublist).imp_of_mem fun {a b} ha _ hle => ?_)
    have htwo : a.replaced = 2 := of_decide_eq_true (List.mem_filter.mp ha).2
    simp only [Op.stop] at hle ⊢
    omega

/-- With the operations carried out, all bytes of the document but the slashes are still there, in
their order. -/
theorem sublist_fillFrom (hd : Disjoint document.length pos ops) (hpos : 0 ≤ pos)
    (hedits : ∀ op ∈ ops, Edits document op) :
    (fillFrom document pos (slashes ops)).Sublist (fillFrom document pos ops) := by
  induction ops generalizing pos with
  | nil => exact List.Sublist.refl _
  | cons op ops ih =>
    obtain ⟨hop, hedits'⟩ := List.forall_mem_cons.mp hedits
    have hforward := forward_of_edits hedits
    obtain ⟨⟨hafter, h0, hinside⟩, hrest⟩ := (disjoint_cons_iff hforward).mp hd
    have hle := hforward.offset_le_stop List.mem_cons_self
    have ih := ih hrest (by omega) hedits'
    have hlater : ∀ slash ∈ slashes ops, op.stop ≤ slash.offset := (disjoint_slashes hrest).after
    rw [fillFrom, List.append_assoc]
    cases hop with
    | fills form place endTag spaces text =>
      have hnone : slashes (op :: ops) = slashes ops := by
        rw [slashes, List.filter_cons_of_neg (by simp [place.2])]
        rfl
      have hstop : op.stop = op.offset := by
        simp only [Op.stop]
        omega
      rw [hnone, fillFrom_eq_append hafter (by omega) (hstop ▸ hlater), ← hstop]
      exact (List.Sublist.refl _).append (ih.trans (List.sublist_append_right _ _))
    | opensUp form place startTag marks spaces text =>
      have hslash : slashes (op :: ops) = { op with text := [], replaced := 1 } :: slashes ops := by
        rw [slashes, List.filter_cons_of_pos (by simp [place.2.1])]
        rfl
      have hstop : op.stop = op.offset + 2 := by
        simp only [Op.stop]
        omega
      -- The mark after the slash is the first character of the text.
      have hmark : slice document (op.offset + 1) op.stop = [0x3E] := by
        have hone : (op.offset + 1).toNat = 1 + op.offset.toNat := by omega
        have hdrop : slice document (op.offset + 1) op.stop =
            (slice document op.offset op.stop).drop 1 := by
          rw [slice, slice, List.drop_drop, hone, Nat.add_comm]
        rw [hdrop, marks]
        rfl
      have hone : (Op.stop { op with text := [], replaced := 1 }) = op.offset + 1 := rfl
      have hbegins : Utf8.encode ">" = [0x3E] := rfl
      rw [hslash, fillFrom, hone, List.append_nil,
        fillFrom_eq_append (by omega) hinside hlater, hmark, text, hbegins]
      refine (List.Sublist.refl _).append ?_
      simp only [List.append_assoc]
      refine (List.Sublist.refl [0x3E]).append (ih.trans ?_)
      simp only [← List.append_assoc]
      exact List.sublist_append_right _ _

/-- Operations of these forms lose only slashes, and can be taken back. -/
theorem splice_slashes {patched : Bytes} (hedits : ∀ op ∈ ops, Edits document op)
    (horder : inOrder ops = ops) (h : splice document ops = .ok patched) :
    ∃ kept, splice document (slashes ops) = .ok kept ∧ kept.Sublist patched ∧
      splice patched (undoFrom document 0 ops) = .ok document := by
  have hforward := forward_of_edits hedits
  obtain ⟨hdisjoint, hpatched⟩ := disjoint_of_splice hforward h
  rw [horder] at hdisjoint hpatched
  have hslashes := disjoint_slashes hdisjoint
  have hslashForward : Forward (slashes ops) := by
    intro slash hslash
    obtain ⟨op, -, -, -, -, hone⟩ := mem_slashes hslash
    omega
  have hslashOrder := inOrder_of_apart hslashForward hslashes.apart
  have hundo := splice_undoFrom hforward h
  rw [horder] at hundo
  refine ⟨leftToRight document (slashes ops), ?_, ?_, hundo⟩
  · rw [splice_eq_ok_of_disjoint hslashForward (by rwa [hslashOrder]), hslashOrder]
  · rw [hpatched]
    exact sublist_fillFrom hdisjoint le_rfl hedits

end Loss

/-- **Minimal edits.** In a document in UTF-8 each operation of the plan puts an annotation and a
line break before an end tag, or turns an empty-element tag into two tags around them. The patched
document holds all bytes of the document in their order, but for the slashes of those
empty-element tags, and to take the operations back gives the document as it was. -/
theorem edits_planDetected {buffer : Bytes} {source : Source} {identity : String}
    {tags : List String} {naming : Naming} {elements : List Element}
    (hsource : Source.ofBytes buffer = .ok source) (hutf8 : source.encoding = .utf8)
    (hchoose : naming.choose = none) (helements : elementsOf buffer identity tags = .ok elements) :
    (∀ op ∈ planDetected buffer elements naming, Edits buffer op) ∧
    ∃ patched kept, splice buffer (planDetected buffer elements naming) = .ok patched ∧
      splice buffer (slashes (planDetected buffer elements naming)) = .ok kept ∧
      kept.Sublist patched ∧
      splice patched (undoFrom buffer 0 (planDetected buffer elements naming)) = .ok buffer := by
  obtain ⟨code, l, context, ps, hcode, rfl, -, hl, -, hps, hspelled, hpaired, rfl⟩ :=
    exists_paired hsource (Source.isWritten_of_utf8 hutf8 _) helements
  have hagrees : Agrees tags := agrees_of_utf8 (hcode.trans hutf8) tags
  obtain ⟨identify, -, hlegible, hplan⟩ :=
    exists_plan_eq_opsOf l.bytes hspelled hagrees hpaired hchoose
  have hinOrder := inOrder_opsOf l.bytes hspelled hlegible hpaired
  have hsplice : splice l.bytes (opsOf l.bytes (firstNewline l.bytes).bytes identify ps) = .ok _ :=
    splice_opsOf context.dtd hspelled hlegible hpaired hps
  have hnests : Nests ([].map Unclosed.tag) (ps.map Prod.fst) := by
    rw [hps]
    exact hl.nests
  have hbytes := l.bytes_eq
  rw [← hps] at hbytes
  have hedits : ∀ op ∈ opsOf l.bytes (firstNewline l.bytes).bytes identify ps, Edits l.bytes op :=
    edits_opsOf hspelled (.inr hnests) hagrees hpaired hbytes l.length_before
  obtain ⟨kept, hkept⟩ := splice_slashes hedits hinOrder hsplice
  rw [hplan]
  exact ⟨hedits, _, kept, hsplice, hkept⟩

/-- The document `TagRange.sampleDocument` has an element that holds another, which is written as
one tag. -/
theorem edits_sampleDocument : ∃ source elements,
    Source.ofBytes TagRange.sampleDocument = .ok source ∧ source.encoding = .utf8 ∧
    elementsOf TagRange.sampleDocument "sample" ["a", "c"] = .ok elements ∧
    (elements.map fun e => (e.tag, e.annotated)).Perm [("c", false), ("a", false)] ∧
    (∀ op ∈ planDetected TagRange.sampleDocument elements {}, Edits TagRange.sampleDocument op) ∧
    ∃ patched kept,
      splice TagRange.sampleDocument (planDetected TagRange.sampleDocument elements {}) =
        .ok patched ∧
      splice TagRange.sampleDocument (slashes (planDetected TagRange.sampleDocument elements {})) =
        .ok kept ∧
      kept.Sublist patched ∧
      splice patched (undoFrom TagRange.sampleDocument 0
        (planDetected TagRange.sampleDocument elements {})) = .ok TagRange.sampleDocument := by
  have hencoding : (Source.ofBytes TagRange.sampleDocument).map Source.encoding = .ok .utf8 := by
    decide +kernel
  have hrun : (tokenize TagRange.sampleDocument "sample" >>= fun ranges =>
      (ranges.foldlM (Pairing.step (.ofBytes TagRange.sampleDocument) ["a", "c"]) {}).mapError
        .pairing).map
        (fun s => s.ended.reverse.map fun e => (e.tag, e.annotated)) =
      .ok [("c", false), ("a", false)] := by
    decide +kernel
  obtain ⟨source, hsource, hutf8⟩ := map_eq_ok_iff.mp hencoding
  obtain ⟨s, hs, hended⟩ := map_eq_ok_iff.mp hrun
  have helements := elementsOf_of_ended hs
  refine ⟨source, _, hsource, hutf8, helements, ?_, edits_planDetected hsource hutf8 rfl helements⟩
  rw [← hended]
  exact (byStart_perm _).map _

end AccessPatch.Patch
