import AccessPatch.Proofs.Lines
import AccessPatch.Proofs.MinimalEdit
import AccessPatch.Proofs.Spliceable

/-!
# Where the operations of a plan stand

What is known of the plan for a document in UTF-8, in terms of its bytes alone (`Planned`): there
is one operation for each element without annotation, of one of the forms of `Edits`, and it lies
before all that comes after the element. Each element begins with a `<`, and its tag holds no line
break. So later proofs need not go back to stretches.
-/

namespace AccessPatch.Patch

open Identifier (Safe)
open Pairing (IsClosed Paired Unclosed Yields begun endedWith endedWith_cons marked)
open Xml

/-! ## Start tags -/

/-- An element with the given tag may begin at an offset of the document. -/
structure BeginsAt (alphabet : Alphabet) (document : Bytes) (tag : String)
    (start : Int) : Prop where
  named : IsName alphabet tag.toList
  mark : ∃ offset : Nat, start = offset ∧ (document.drop offset).head? = some 0x3C

section Begins

variable {document before after : Bytes} {index : LineTable} {tags : List String}
  {alphabet : Alphabet} {stack : List Unclosed} {st : Stretch} {pos : Nat}
  {ps : List (Stretch × Option Element)}

theorem isName_of_spelled (h : st.Spelled alphabet) : IsName alphabet st.name.toList := by
  unfold Stretch.Spelled at h
  split at h
  · exact h.named
  · exact h.named
  · exact h.named

/-- What holds of tags and starts does not change when annotations are noted. -/
theorem forall_marked {P : String → Int → Prop} (h : ∀ u ∈ stack, P u.tag u.start) :
    ∀ u ∈ marked st stack, P u.tag u.start := by
  unfold marked
  split
  · cases stack with
    | nil => exact h
    | cons u stack => exact List.forall_mem_cons.mpr (List.forall_mem_cons.mp h)
  · exact h

variable [Code]

theorem beginsAt_begun (hspelled : st.Spelled alphabet)
    (hdocument : document = before ++ (inCode st.chars ++ after)) (hpos : before.length = pos) :
    BeginsAt alphabet document (begun st pos).tag (begun st pos).start := by
  refine ⟨isName_of_spelled hspelled, pos + (inCode st.gap).length, rfl, ?_⟩
  obtain ⟨inner, htext⟩ := hspelled.exists_text
  have hsplit : document = (before ++ inCode st.gap) ++ (inCode st.text ++ after) := by
    rw [hdocument, Stretch.chars, inCode_append]
    simp only [List.append_assoc]
  rw [hsplit, List.drop_left' (by rw [List.length_append, hpos]), htext, inCode_cons,
    write_lessThan]
  rfl

/-- Each element begins with its start tag, on the line that is noted for it. -/
theorem beginsAt_of_paired (hspelled : ∀ p ∈ ps, p.1.Spelled alphabet)
    (h : Paired index tags stack pos ps)
    (hdocument : document = before ++ (inCode (trailChars (ps.map Prod.fst)) ++ after))
    (hpos : before.length = pos) (hstack : ∀ u ∈ stack, BeginsAt alphabet document u.tag u.start) :
    ∀ e ∈ endedWith ps, BeginsAt alphabet document e.tag e.extent.start ∧
      e.startLine = index.lineAt e.extent.start := by
  have hclosed : ∀ {u : Unclosed} {a b : Int} {o : Option Element},
      BeginsAt alphabet document u.tag u.start → Yields index tags u a b o → ∀ e ∈ o,
      BeginsAt alphabet document e.tag e.extent.start ∧
      e.startLine = index.lineAt e.extent.start := by
    rintro u a b o hu hyields e rfl
    cases hyields with
    | tracked _ closed =>
      rw [closed.tag, closed.start]
      exact ⟨hu, closed.startLine⟩
  induction h generalizing before with
  | nil => simp [endedWith]
  | @opening stack pos st ps form rest ih =>
    obtain ⟨hst, hspelled'⟩ := List.forall_mem_cons.mp hspelled
    rw [List.map_cons, trailChars_cons, inCode_append, List.append_assoc] at hdocument
    exact ih hspelled' (hdocument.trans (List.append_assoc _ _ _).symm)
      (by rw [List.length_append, hpos, Stretch.size])
      (List.forall_mem_cons.mpr ⟨beginsAt_begun hst hdocument hpos, forall_marked hstack⟩)
  | @empty stack pos st o ps form yields rest ih =>
    obtain ⟨hst, hspelled'⟩ := List.forall_mem_cons.mp hspelled
    rw [List.map_cons, trailChars_cons, inCode_append, List.append_assoc] at hdocument
    have hlater := ih hspelled' (hdocument.trans (List.append_assoc _ _ _).symm)
      (by rw [List.length_append, hpos, Stretch.size]) (forall_marked hstack)
    rw [endedWith_cons, List.forall_mem_append]
    exact ⟨fun e he =>
      hclosed (beginsAt_begun hst hdocument hpos) yields e (Option.mem_toList.mp he), hlater⟩
  | @closing u stack pos st o ps form yields rest ih =>
    obtain ⟨hst, hspelled'⟩ := List.forall_mem_cons.mp hspelled
    obtain ⟨hu, hstack'⟩ := List.forall_mem_cons.mp hstack
    rw [List.map_cons, trailChars_cons, inCode_append, List.append_assoc] at hdocument
    have hlater := ih hspelled' (hdocument.trans (List.append_assoc _ _ _).symm)
      (by rw [List.length_append, hpos, Stretch.size]) hstack'
    rw [endedWith_cons, List.forall_mem_append]
    exact ⟨fun e he => hclosed hu yields e (Option.mem_toList.mp he), hlater⟩

end Begins

/-! ## Ends of elements -/

section Ends

variable {newline : Bytes} {identify : Int → String} {index : LineTable} {tags : List String}
  {alphabet : Alphabet} {stack : List Unclosed} {pos : Nat} {ps : List (Stretch × Option Element)}

theorem stop_of_yields {u : Unclosed} {closeStart stop : Int} {o : Option Element}
    (h : Yields index tags u closeStart stop o) : ∀ e ∈ o, e.extent.stop = stop := by
  rintro e rfl
  cases h with
  | tracked _ closed => exact closed.stop

/-- The operation of a stretch is for the element that ends with it. -/
theorem past_cons {buffer : Bytes} {st : Stretch} {o : Option Element} {stop : Int}
    (hends : ∀ e ∈ o, e.extent.stop = stop)
    (hlater : ∀ op ∈ opsOf buffer newline identify ps, stop ≤ op.offset)
    (hrest : (opsOf buffer newline identify ps).Pairwise fun a b =>
      a.source.extent.stop ≤ b.offset) :
    (opsOf buffer newline identify ((st, o) :: ps)).Pairwise fun a b =>
    a.source.extent.stop ≤ b.offset := by
  rw [opsOf_cons]
  refine List.pairwise_append.mpr ⟨?_, hrest, fun op hop op' hop' => ?_⟩
  · cases (o.filter (! ·.annotated)).map (opOf buffer newline identify) <;> simp
  · obtain ⟨e, he, rfl⟩ := Option.map_eq_some_iff.mp (Option.mem_toList.mp hop)
    rw [opOf, source_opFor, hends e (Option.filter_eq_some_iff.mp he).1]
    exact hlater op' hop'

/-- The operations for elements that end later lie past the end of an element. -/
theorem opsOf_past [Code] (buffer : Bytes) (hspelled : ∀ p ∈ ps, p.1.Spelled alphabet)
    (hlegible : Legible newline identify tags) (h : Paired index tags stack pos ps) :
    (opsOf buffer newline identify ps).Pairwise fun a b => a.source.extent.stop ≤ b.offset := by
  induction h with
  | nil => exact .nil
  | opening form rest ih =>
    obtain ⟨-, hspelled'⟩ := List.forall_mem_cons.mp hspelled
    exact ih hspelled'
  | empty form yields rest ih =>
    obtain ⟨-, hspelled'⟩ := List.forall_mem_cons.mp hspelled
    have hlater := opsOf_within buffer hspelled' hlegible rest
    exact past_cons (stop_of_yields yields) (fun op hop => (hlater op hop).1) (ih hspelled')
  | closing form yields rest ih =>
    obtain ⟨-, hspelled'⟩ := List.forall_mem_cons.mp hspelled
    have hlater := opsOf_within buffer hspelled' hlegible rest
    exact past_cons (stop_of_yields yields) (fun op hop => (hlater op hop).1) (ih hspelled')

end Ends

/-! ## Texts without line breaks -/

/-- A text on one line. -/
def IsFlat (cs : List Char) : Prop :=
  ∀ c ∈ cs, c ≠ '\n' ∧ c ≠ '\r'

instance (cs : List Char) : Decidable (IsFlat cs) :=
  List.decidableBAll (fun c => c ≠ '\n' ∧ c ≠ '\r') cs

theorem IsFlat.append {cs ds : List Char} (hcs : IsFlat cs) (hds : IsFlat ds) : IsFlat (cs ++ ds) :=
  List.forall_mem_append.mpr ⟨hcs, hds⟩

theorem unbroken_inCode [Code] {cs : List Char} (h : IsFlat cs) : Unbroken (inCode cs) := by
  intro b hb
  have hlf : b ≠ 0x0A := ne_of_mem_inCode hb (by decide) fun c hc => (h c hc).1
  have hcr : b ≠ 0x0D := ne_of_mem_inCode hb (by decide) fun c hc => (h c hc).2
  simp [isLineEnd, hlf, hcr]

theorem isFlat_name {alphabet : Alphabet} {name : List Char} (h : IsName alphabet name) :
    IsFlat name := by
  intro c hc
  have hname := h.isNameChar hc
  constructor
  all_goals
    rintro rfl
    cases (not_isNameChar_of_isSpace (by decide)).symm.trans hname

theorem isFlat_of_safe {identifier : String} (h : Safe identifier) : IsFlat identifier.toList := by
  intro c hc
  have hsafe := h c hc
  constructor
  all_goals
    rintro rfl
    cases hsafe

theorem unbroken_endTag [Code] {alphabet : Alphabet} {tags : List String} {tag : String}
    (hagrees : Agrees tags) (htracked : tags.contains tag = true) (h : IsName alphabet tag.toList) :
    Unbroken (Utf8.encode ("</" ++ tag ++ ">")) := by
  have hmarks : IsFlat ['<', '/'] ∧ IsFlat ['>'] := by decide
  rw [hagrees.encode_endTag htracked]
  exact unbroken_inCode (hmarks.1.append ((isFlat_name h).append hmarks.2))

theorem unbroken_markup {identifier : String} (h : Safe identifier) :
    Unbroken (Utf8.encode (Accessibility.markup identifier)) := by
  let _ := Code.utf8
  have hfixed : IsFlat (emptyTagChars Accessibility.tag (Accessibility.attributes "")) := by decide
  rw [encode_markup h]
  exact unbroken_inCode fun c hc =>
    (Accessibility.mem_markup hc).elim (hfixed c) (isFlat_of_safe h c)

/-- The text for an element that is opened up, line by line. -/
theorem text_opOf_selfClosing (buffer newline : Bytes) (identify : Int → String) {e : Element}
    (h : e.extent.selfClosing = true) :
    (opOf buffer newline identify e).text = Utf8.encode ">" ++ (newline ++
      ((indentBefore buffer e.extent.start ++ indentStep (indentBefore buffer e.extent.start) ++
        Utf8.encode (Accessibility.markup (identify e.extent.start))) ++ (newline ++
      (indentBefore buffer e.extent.start ++ Utf8.encode ("</" ++ e.tag ++ ">"))))) := by
  rw [opOf_selfClosing _ _ _ h]
  simp only [List.append_assoc]

theorem exists_markup {identifier : String} (h : Safe identifier) :
    ∃ rest, Utf8.encode (Accessibility.markup identifier) = 0x3C :: rest := by
  let _ := Code.utf8
  rw [encode_markup h, emptyTagChars, inCode_cons, write_lessThan]
  exact ⟨_, rfl⟩

/-! ## The plan -/

/-- What is known of the plan for the elements of a document in UTF-8, where `identify` tells the
identifier of what starts at an offset. -/
structure Planned (buffer : Bytes) (elements : List Element) (naming : Naming)
    (identify : Int → String) (ops : List Op) : Prop where
  identifies : Identifies identify elements naming
  safe : ∀ offset, Safe (identify offset)
  each : ops.Perm ((candidates elements).map (opOf buffer (firstNewline buffer).bytes identify))
  edits : ∀ op ∈ ops, Edits buffer op
  disjoint : Disjoint buffer.length 0 ops
  increasing : ops.Pairwise fun a b => a.offset < b.offset
  past : ops.Pairwise fun a b => a.source.extent.stop ≤ b.offset
  endTags : ∀ e ∈ elements, Unbroken (Utf8.encode ("</" ++ e.tag ++ ">"))
  starts : ∀ e ∈ elements, ∃ offset : Nat, e.extent.start = offset ∧
    (buffer.drop offset).head? = some 0x3C
  startLines : ∀ e ∈ elements, e.startLine = (LineTable.ofBytes buffer).lineAt e.extent.start

theorem exists_planned {buffer : Bytes} {source : Source} {identity : String} {tags : List String}
    {naming : Naming} {elements : List Element} (hsource : Source.ofBytes buffer = .ok source)
    (hutf8 : source.encoding = .utf8) (hchoose : naming.choose = none)
    (helements : elementsOf buffer identity tags = .ok elements) :
    ∃ identify, Planned buffer elements naming identify (planDetected buffer elements naming) := by
  obtain ⟨code, l, context, ps, hcode, rfl, -, hl, -, hps, hspelled, hpaired, rfl⟩ :=
    exists_paired hsource (Source.isWritten_of_utf8 hutf8 _) helements
  have hagrees : Agrees tags := agrees_of_utf8 (hcode.trans hutf8) tags
  obtain ⟨identify, hidentify, hlegible, hplan⟩ :=
    exists_plan_eq_opsOf l.bytes hspelled hagrees hpaired hchoose
  have hnests : Nests ([].map Unclosed.tag) (ps.map Prod.fst) := by
    rw [hps]
    exact hl.nests
  have hbytes := l.bytes_eq
  rw [← hps] at hbytes
  have hedits : ∀ op ∈ opsOf l.bytes (firstNewline l.bytes).bytes identify ps, Edits l.bytes op :=
    edits_opsOf hspelled (.inr hnests) hagrees hpaired hbytes l.length_before
  have hdisjoint := (disjoint_of_splice (forward_of_edits hedits)
    (splice_opsOf context.dtd hspelled hlegible hpaired hps)).1
  rw [inOrder_opsOf l.bytes hspelled hlegible hpaired] at hdisjoint
  have hordered := opsOf_ordered l.bytes hspelled hlegible hpaired
  have hmem : ∀ {e}, e ∈ byStart (endedWith ps) → e ∈ endedWith ps :=
    fun he => (byStart_perm _).mem_iff.mp he
  have hbegins := beginsAt_of_paired hspelled hpaired hbytes l.length_before (by simp)
  refine ⟨identify, ?_⟩
  rw [hplan]
  exact {
    identifies := hidentify
    safe := hlegible.safe
    each := (((byStart_perm _).filter _).map _).symm
    edits := hedits
    disjoint := hdisjoint
    increasing := hordered.imp And.right
    past := opsOf_past l.bytes hspelled hlegible hpaired
    endTags := fun e he =>
      unbroken_endTag hagrees (hpaired.tracked e (hmem he)) (hbegins e (hmem he)).1.named
    starts := fun e he => (hbegins e (hmem he)).1.mark
    startLines := fun e he => (hbegins e (hmem he)).2 }

namespace Planned

variable {buffer : Bytes} {elements : List Element} {naming : Naming} {identify : Int → String}
  {ops : List Op} {e : Element}

theorem mem_ops (h : Planned buffer elements naming identify ops) (he : e ∈ candidates elements) :
    opOf buffer (firstNewline buffer).bytes identify e ∈ ops :=
  h.each.mem_iff.mpr (List.mem_map_of_mem he)

theorem splice (h : Planned buffer elements naming identify ops) :
    Patch.splice buffer ops = .ok (fillFrom buffer 0 ops) := by
  have hforward := forward_of_edits h.edits
  have horder := inOrder_of_apart hforward h.disjoint.apart
  rw [splice_eq_ok_of_disjoint hforward (by rw [horder]; exact h.disjoint), horder, leftToRight]

/-- An element with an end tag gets its annotation before a `<`. -/
theorem closeStart (h : Planned buffer elements naming identify ops) (he : e ∈ candidates elements)
    (hself : e.extent.selfClosing = false) :
    0 ≤ e.extent.closeStart ∧ (buffer.drop e.extent.closeStart.toNat).head? = some 0x3C := by
  have hop := h.edits _ (h.mem_ops he)
  rw [opOf_container _ _ _ hself] at hop
  cases hop with
  | fills form place endTag spaces text =>
    obtain ⟨rest, hrest⟩ := endTag
    refine ⟨place.1, ?_⟩
    rw [← hrest, Utf8.encode, String.toList_append]
    rfl
  | opensUp form => cases hself.symm.trans form

/-- An element that is written as one tag gets its annotation in the place of the marks that end
the tag. -/
theorem marks (h : Planned buffer elements naming identify ops) (he : e ∈ candidates elements)
    (hself : e.extent.selfClosing = true) :
    0 ≤ e.extent.openEnd - 2 ∧
    slice buffer (e.extent.openEnd - 2) e.extent.openEnd = [0x2F, 0x3E] := by
  have hop := h.edits _ (h.mem_ops he)
  rw [opOf_selfClosing _ _ _ hself] at hop
  cases hop with
  | fills form => cases hself.symm.trans form
  | opensUp form place startTag marks spaces text =>
    refine ⟨place.1, ?_⟩
    rwa [place.2.2] at marks

/-- The tag of such an element ends with a `>`. -/
theorem lastMark (h : Planned buffer elements naming identify ops) (he : e ∈ candidates elements)
    (hself : e.extent.selfClosing = true) :
    ∃ last : Nat, e.extent.openEnd = last + 1 ∧ (buffer.drop last).head? = some 0x3E := by
  obtain ⟨hpos, hmarks⟩ := h.marks he hself
  obtain ⟨first, hfirst⟩ := Int.eq_ofNat_of_zero_le hpos
  have hdrop := slice_append_drop buffer (show e.extent.openEnd - 2 ≤ e.extent.openEnd by omega)
  rw [hmarks, hfirst, Int.toNat_natCast] at hdrop
  refine ⟨first + 1, by omega, ?_⟩
  rw [← List.drop_drop, ← hdrop]
  rfl

end Planned

/-- A document with three kinds of terminators, in which a start tag goes over two lines and three
elements end on one line. -/
def crowdedScene : Bytes :=
  bytesOf "<view>\r\n\t<button\n\t\tid='a'><label/></button></view>\r".toList

theorem found_crowdedScene : ∃ source elements, Source.ofBytes crowdedScene = .ok source ∧
    source.encoding = .utf8 ∧
    elementsOf crowdedScene "crowded" ["view", "button", "label"] = .ok elements ∧
    (elements.map fun e => (e.tag, e.annotated)).Perm
      [("label", false), ("button", false), ("view", false)] := by
  have hencoding : (Source.ofBytes crowdedScene).map Source.encoding = .ok .utf8 := by
    decide +kernel
  have hrun : (tokenize crowdedScene "crowded" >>= fun ranges =>
      (ranges.foldlM (Pairing.step (.ofBytes crowdedScene) ["view", "button", "label"]) {}).mapError
        .pairing).map (fun s => s.ended.reverse.map fun e => (e.tag, e.annotated)) =
      .ok [("label", false), ("button", false), ("view", false)] := by
    decide +kernel
  obtain ⟨source, hsource, hutf8⟩ := map_eq_ok_iff.mp hencoding
  obtain ⟨s, hs, hended⟩ := map_eq_ok_iff.mp hrun
  refine ⟨source, _, hsource, hutf8, elementsOf_of_ended hs, ?_⟩
  rw [← hended]
  exact (byStart_perm _).map _

end AccessPatch.Patch
