import AccessPatch.Proofs.Identifier
import AccessPatch.Proofs.Splicing
import AccessPatch.Proofs.Tag.Paired
import AccessPatch.Proofs.Xml.Filling
import Mathlib.Data.List.TakeWhile

/-!
# What a plan does to a document

An operation of the plan fills an element with an annotation (`Places`). The operations of a whole
plan are those of the elements in the order of their ends (`plan_eq_opsOf`), they do not overlap
(`opsOf_ordered`), and the document with all of them carried out has the stretches of the old one,
filled (`fillFrom_opsOf`).
-/

namespace AccessPatch.Patch

open Identifier (Safe)
open Pairing (IsClosed Paired Yields begun endedWith endedWith_cons)
open Xml

/-! ## White space -/

/-- White space of a document as characters. -/
def charsOf (bs : Bytes) : List Char :=
  bs.map fun b => Char.ofNat b.toNat

def IsWhite (bs : Bytes) : Prop :=
  ∀ b ∈ bs, isIndent b = true ∨ isLineEnd b = true

instance (bs : Bytes) : Decidable (IsWhite bs) :=
  List.decidableBAll (fun b => isIndent b = true ∨ isLineEnd b = true) bs

theorem IsWhite.append {bs cs : Bytes} (hbs : IsWhite bs) (hcs : IsWhite cs) : IsWhite (bs ++ cs) :=
  fun b hb => (List.mem_append.mp hb).elim (hbs b) (hcs b)

theorem isWhite_cases {b : UInt8} (h : isIndent b = true ∨ isLineEnd b = true) :
    b = 0x20 ∨ b = 0x09 ∨ b = 0x0A ∨ b = 0x0D := by
  simp only [isIndent, isLineEnd, Bool.or_eq_true, beq_iff_eq] at h
  tauto

theorem inCode_charsOf [Code] {bs : Bytes} (h : IsWhite bs) : inCode (charsOf bs) = bs := by
  induction bs with
  | nil => rfl
  | cons b bs ih =>
    have hb : Code.write (Char.ofNat b.toNat) = [b] := by
      rcases isWhite_cases (h b List.mem_cons_self) with rfl | rfl | rfl | rfl <;>
        exact Code.write_of_lt (by decide)
    have ih := ih fun c hc => h c (List.mem_cons_of_mem _ hc)
    rw [charsOf, List.map_cons, inCode_cons, hb, List.singleton_append]
    exact congrArg _ ih

theorem isSpace_charsOf {bs : Bytes} (h : IsWhite bs) : ∀ c ∈ charsOf bs, isSpace c = true := by
  intro c hc
  obtain ⟨b, hb, rfl⟩ := List.mem_map.mp hc
  rcases isWhite_cases (h b hb) with rfl | rfl | rfl | rfl <;> rfl

theorem isWhite_newline (newline : Newline) : IsWhite newline.bytes := by
  cases newline <;> decide

theorem isWhite_indentBefore (buffer : Bytes) (offset : Int) :
    IsWhite (indentBefore buffer offset) :=
  fun _ hb => .inl (List.mem_takeWhile_imp hb)

theorem isWhite_indentStep (indent : Bytes) : IsWhite (indentStep indent) := by
  unfold indentStep
  split <;> decide

/-! ## One element -/

/-- The code writes the tags as UTF-8 does. -/
def Agrees [Code] (tags : List String) : Prop :=
  ∀ tag, tags.contains tag = true → bytesOf tag.toList = inCode tag.toList

theorem agrees_of_utf8 [Code] (h : Code.encoding = .utf8) (tags : List String) : Agrees tags :=
  fun tag _ => bytesOf_of_utf8 h tag.toList

theorem agrees_of_isCommon [Code] {tags : List String} (h : ∀ tag ∈ tags, IsCommon tag.toList) :
    Agrees tags :=
  fun tag htag => (h tag (List.contains_iff_mem.mp htag)).bytesOf_eq

section Agrees

variable [Code] {tags : List String} {tag : String}

/-- The tag where it follows a mark. -/
theorem Agrees.encode_marked (h : Agrees tags) (htag : tags.contains tag = true) {mark : String}
    (hmark : IsCommon mark.toList) :
    Utf8.encode (mark ++ tag) = inCode (mark.toList ++ tag.toList) := by
  have hsplit : Utf8.encode (mark ++ tag) = bytesOf mark.toList ++ bytesOf tag.toList := by
    simp only [Utf8.encode, bytesOf, String.toList_append, List.flatMap_append]
  rw [hsplit, hmark.bytesOf_eq, h tag htag, inCode_append]

/-- The end tag that a plan writes. -/
theorem Agrees.encode_endTag (h : Agrees tags) (htag : tags.contains tag = true) :
    Utf8.encode ("</" ++ tag ++ ">") = inCode (endTagChars tag) := by
  have hsplit : Utf8.encode ("</" ++ tag ++ ">") =
      Utf8.encode ("</" ++ tag) ++ Utf8.encode ">" := by
    simp only [Utf8.encode, String.toList_append, List.flatMap_append]
  have hmark : Utf8.encode ">" = inCode ['>'] := inCode_greaterThan.symm
  rw [hsplit, h.encode_marked htag (by decide), hmark, ← inCode_append]
  rfl

end Agrees

/-- What a plan for elements with some tags writes is read as it is meant. -/
structure Legible [Code] (newline : Bytes) (identify : Int → String)
    (tags : List String) : Prop where
  newline : IsWhite newline
  safe : ∀ offset, Safe (identify offset)
  agrees : Agrees tags

section Element

variable (dtd : Dtd) (buffer newline : Bytes) (identify : Int → String)

/-- The operation that gives an element its annotation, where `identify` names what starts at an
offset. -/
def opOf (e : Element) : Op :=
  opFor buffer newline e (identify e.extent.start)

/-- The same annotation as a filling. -/
def fillingOf (e : Element) : Filling :=
  let indent :=
    indentBefore buffer (if e.extent.selfClosing then e.extent.start else e.extent.closeStart)
  { lead := charsOf (newline ++ indent ++ indentStep indent)
    name := Accessibility.tag
    attributes := Accessibility.attributes (identify e.extent.start)
    resolved := dtd.completed Accessibility.tag (Accessibility.attributes (identify e.extent.start))
    trail := charsOf (newline ++ indent) }

/-- What is put into the elements that some stretches end, if they have no annotation. -/
def fillings (ps : List (Stretch × Option Element)) : List (Stretch × Option Filling) :=
  ps.map fun p => (p.1, (p.2.filter (! ·.annotated)).map (fillingOf dtd buffer newline identify))

/-- The operations for the elements that some stretches end. -/
def opsOf (ps : List (Stretch × Option Element)) : List Op :=
  (candidates (endedWith ps)).map (opOf buffer newline identify)

theorem opsOf_cons (st : Stretch) (o : Option Element) (ps : List (Stretch × Option Element)) :
    opsOf buffer newline identify ((st, o) :: ps) =
      ((o.filter (! ·.annotated)).map (opOf buffer newline identify)).toList ++
        opsOf buffer newline identify ps := by
  rw [opsOf, opsOf, endedWith_cons, candidates, candidates, List.filter_append, List.map_append]
  cases o with
  | none => rfl
  | some e => cases h : e.annotated <;> simp [h, Option.filter]

theorem fill_fillings_cons (st : Stretch) (o : Option Element)
    (ps : List (Stretch × Option Element)) :
    fill (fillings dtd buffer newline identify ((st, o) :: ps)) =
      st.filled ((o.filter (! ·.annotated)).map (fillingOf dtd buffer newline identify)) ++
        fill (fillings dtd buffer newline identify ps) :=
  rfl

theorem map_fst_fillings (ps : List (Stretch × Option Element)) :
    (fillings dtd buffer newline identify ps).map Prod.fst = ps.map Prod.fst := by
  rw [fillings, List.map_map]
  rfl

theorem exists_of_mem_fillings {ps : List (Stretch × Option Element)} {p : Stretch × Option Filling}
    {filling : Filling} (hp : p ∈ fillings dtd buffer newline identify ps)
    (hfilling : filling ∈ p.2) :
    ∃ e, filling = fillingOf dtd buffer newline identify e := by
  obtain ⟨q, -, rfl⟩ := List.mem_map.mp hp
  obtain ⟨e, -, rfl⟩ := Option.map_eq_some_iff.mp hfilling
  exact ⟨e, rfl⟩

end Element

section Operation

variable (buffer newline : Bytes) (identify : Int → String) {e : Element}

theorem opOf_container (h : e.extent.selfClosing = false) : opOf buffer newline identify e = {
    offset := e.extent.closeStart
    text := Utf8.encode (Accessibility.markup (identify e.extent.start)) ++ newline ++
      indentBefore buffer e.extent.closeStart
    source := e } := by
  simp only [opOf, opFor, h, Bool.false_eq_true, if_false]

theorem opOf_selfClosing (h : e.extent.selfClosing = true) : opOf buffer newline identify e = {
    offset := e.extent.openEnd - 2
    text := Utf8.encode ">" ++ newline ++ indentBefore buffer e.extent.start ++
      indentStep (indentBefore buffer e.extent.start) ++
      Utf8.encode (Accessibility.markup (identify e.extent.start)) ++ newline ++
      indentBefore buffer e.extent.start ++ Utf8.encode ("</" ++ e.tag ++ ">")
    source := e
    replaced := 2 } := by
  simp only [opOf, opFor, h, if_true]

end Operation

/-- By how much an operation makes the document longer. -/
def Op.growth (op : Op) : Int :=
  op.text.length - op.replaced

/-- An operation fills the element that the stretch at `pos` ends: in the bytes of the stretch it
replaces a part, and that gives the bytes of the stretches that stand there then. -/
structure Places [Code] (st : Stretch) (pos : Nat) (filling : Filling) (op : Op) : Prop where
  cut : ∃ front middle back : Bytes, inCode st.chars = front ++ (middle ++ back) ∧
    inCode (trailChars (st.filled (some filling))) = front ++ (op.text ++ back) ∧
    op.offset = pos + front.length ∧ op.replaced = middle.length ∧ 0 < (middle ++ back).length
  grows : 0 ≤ op.growth
  after : st.form ≠ .closing → (pos + (inCode st.gap).length : Int) < op.stop

section Places

variable [Code] {dtd : Dtd} {buffer newline : Bytes} {identify : Int → String} {index : LineTable}
  {alphabet : Alphabet} {st : Stretch} {pos : Nat} {e : Element}

theorem fits_fillingOf {context : Prolog.Context} {tags : List String}
    (hlegible : Legible newline identify tags) (e : Element) :
    (fillingOf context.dtd buffer newline identify e).Fits context where
  lead :=
    isSpace_charsOf
      ((hlegible.newline.append (isWhite_indentBefore _ _)).append (isWhite_indentStep _))
  trail := isSpace_charsOf (hlegible.newline.append (isWhite_indentBefore _ _))
  named := Accessibility.isName_tag _
  writable := Accessibility.writable_attributes _ (hlegible.safe _)
  resolved := rfl
  text := (Accessibility.isCommon_markup (hlegible.safe _)).isText

theorem encode_markup {identifier : String} (h : Safe identifier) :
    Utf8.encode (Accessibility.markup identifier) =
      inCode (emptyTagChars Accessibility.tag (Accessibility.attributes identifier)) := by
  rw [← (Accessibility.isCommon_markup h).bytesOf_eq, ← Accessibility.markup_eq h]
  rfl

theorem length_text_pos (hspelled : st.Spelled alphabet) : 0 < (inCode st.text).length := by
  obtain ⟨inner, htext⟩ := hspelled.exists_text
  rw [htext, inCode_cons, write_lessThan]
  simp

/-- An element with an end tag is not written as one tag. -/
theorem selfClosing_of_closing {u : Pairing.Unclosed} (hspelled : st.Spelled alphabet)
    (h : IsClosed index u (pos + (inCode st.gap).length : Nat) (pos + st.size : Nat) e) :
    e.extent.selfClosing = false := by
  have hlength := length_text_pos hspelled
  have hsize := TagRange.size_eq st
  have hne : e.extent.closeStart ≠ e.extent.stop := by
    rw [h.closeStart, h.stop]
    omega
  simp [Extent.selfClosing, hne]

/-- An element that is written as one tag ends with it. -/
theorem selfClosing_of_empty
    (h : IsClosed index (begun st pos) (pos + st.size : Nat) (pos + st.size : Nat) e) :
    e.extent.selfClosing = true ∧ e.extent.openEnd = (pos + st.size : Nat) := by
  have hopenEnd : e.extent.openEnd = (pos + st.size : Nat) := by
    rw [h.openEnd, ← Pairing.stop_eq]
    rfl
  exact ⟨by simp [Extent.selfClosing, h.closeStart, h.stop, hopenEnd], hopenEnd⟩

/-- An element with an end tag gets its annotation right before that tag. -/
theorem places_closing {tags : List String} {u : Pairing.Unclosed} (hspelled : st.Spelled alphabet)
    (hform : st.form = .closing) (hlegible : Legible newline identify tags)
    (h : IsClosed index u (pos + (inCode st.gap).length : Nat) (pos + st.size : Nat) e) :
    Places st pos (fillingOf dtd buffer newline identify e) (opOf buffer newline identify e) := by
  have hlength := length_text_pos hspelled
  have hsize := TagRange.size_eq st
  have hproper := selfClosing_of_closing hspelled h
  have hop := opOf_container buffer newline identify hproper
  refine ⟨⟨inCode st.gap, [], inCode st.text, ?_, ?_, ?_, ?_, ?_⟩, ?_, fun hno => absurd hform hno⟩
  · rw [Stretch.chars, inCode_append]
    rfl
  · have htrail : inCode (fillingOf dtd buffer newline identify e).trail =
        newline ++ indentBefore buffer e.extent.closeStart := by
      simp only [fillingOf, hproper, Bool.false_eq_true, if_false]
      exact inCode_charsOf (hlegible.newline.append (isWhite_indentBefore _ _))
    simp only [Stretch.filled, hform, trailChars_cons, trailChars_nil, Stretch.chars, Filling.child,
      inCode_append, List.append_nil, htrail, hop, encode_markup (hlegible.safe _),
      List.append_assoc]
    rfl
  · rw [hop]
    simp only [h.closeStart]
    omega
  · rw [hop]
    rfl
  · simpa using hlength
  · rw [hop]
    simp only [Op.growth]
    omega

/-- An empty element is opened up. -/
theorem places_empty {tags : List String} (hspelled : st.Spelled alphabet)
    (hform : st.form = .empty) (htracked : tags.contains st.name = true)
    (hlegible : Legible newline identify tags)
    (h : IsClosed index (begun st pos) (pos + st.size : Nat) (pos + st.size : Nat) e) :
    Places st pos (fillingOf dtd buffer newline identify e) (opOf buffer newline identify e) := by
  have hlength := length_text_pos hspelled
  have hsize := TagRange.size_eq st
  obtain ⟨hempty, hopenEnd⟩ := selfClosing_of_empty h
  let indent := indentBefore buffer e.extent.start
  have hop := opOf_selfClosing buffer newline identify hempty
  obtain ⟨front, htext, hopenUp, -⟩ := exists_front hspelled hform
  have hend : Utf8.encode ("</" ++ e.tag ++ ">") = inCode (endTagChars st.name) := by
    rw [h.tag]
    exact Agrees.encode_endTag hlegible.agrees htracked
  have hmarks := inCode_emptyEnd
  have hcut : (inCode st.text).length = (inCode front).length + 2 := by
    rw [htext, inCode_append, List.length_append, hmarks]
    rfl
  refine ⟨⟨inCode st.gap ++ inCode front, inCode ['/', '>'], [], ?_, ?_, ?_, ?_, ?_⟩, ?_, ?_⟩
  · rw [Stretch.chars, htext, inCode_append, inCode_append, List.append_nil, List.append_assoc]
  · have hlead : inCode (fillingOf dtd buffer newline identify e).lead =
        newline ++ (indent ++ indentStep indent) := by
      simp only [fillingOf, hempty, if_true]
      rw [inCode_charsOf
        ((hlegible.newline.append (isWhite_indentBefore _ _)).append (isWhite_indentStep _)),
        List.append_assoc]
    have htrail : inCode (fillingOf dtd buffer newline identify e).trail = newline ++ indent := by
      simp only [fillingOf, hempty, if_true]
      exact inCode_charsOf (hlegible.newline.append (isWhite_indentBefore _ _))
    have hmark : Utf8.encode ">" = inCode ['>'] := inCode_greaterThan.symm
    simp only [Stretch.filled, hform, trailChars_cons, trailChars_nil, Stretch.chars, Filling.child,
      hopenUp, inCode_append, List.append_nil, hlead, htrail, hop, hend, hmark,
      encode_markup (hlegible.safe _), List.append_assoc]
    rfl
  · rw [hop]
    simp only [hopenEnd, List.length_append]
    omega
  · rw [hop, hmarks]
    rfl
  · simp [hmarks]
  · rw [hop]
    have hmark : (Utf8.encode ">").length = 1 := rfl
    simp only [Op.growth, List.length_append, hend, endTagChars, inCode_cons, write_lessThan, hmark,
      List.length_cons, List.length_nil]
    omega
  · intro _
    rw [hop]
    simp only [Op.stop, hopenEnd]
    omega

end Places

/-! ## All elements -/

theorem slice_of_append {before text after : Bytes} {start stop : Int}
    (hstart : start = before.length) (hstop : stop = before.length + text.length) :
    slice (before ++ (text ++ after)) start stop = text := by
  subst hstart hstop
  have htoNat : ((before.length : Int) + text.length).toNat = (before ++ text).length := by
    rw [List.length_append]
    omega
  rw [slice, htoNat, Int.toNat_natCast, ← List.append_assoc, List.take_left, List.drop_left]

/-- What stands before the first operation may be taken off. -/
theorem fillFrom_eq_append {buffer : Bytes} {start stop : Int} {ops : List Op} (hle : start ≤ stop)
    (hsize : stop ≤ buffer.length) (hops : ∀ op ∈ ops, stop ≤ op.offset) :
    fillFrom buffer start ops = slice buffer start stop ++ fillFrom buffer stop ops := by
  have hlength : start.toNat ≤ (buffer.take stop.toNat).length := by
    rw [List.length_take]
    omega
  cases ops with
  | nil =>
    rw [fillFrom, fillFrom, slice, ← List.drop_append_of_le_length hlength, List.take_append_drop]
  | cons op ops =>
    have hslice : slice buffer start op.offset =
        slice buffer start stop ++ slice buffer stop op.offset := by
      have htake := take_append_slice buffer (hops op List.mem_cons_self)
      rw [slice, ← htake, List.drop_append_of_le_length hlength]
      rfl
    rw [fillFrom, fillFrom, hslice]
    simp only [List.append_assoc]

section All

variable [Code] (dtd : Dtd) (buffer : Bytes) {newline : Bytes} {identify : Int → String}
  {index : LineTable} {tags : List String} {alphabet : Alphabet}
  {stack : List Pairing.Unclosed} {pos : Nat} {ps : List (Stretch × Option Element)}

/-- The first stretch, and the others. -/
theorem places_head {st : Stretch} {o : Option Element} (hspelled : st.Spelled alphabet)
    (hlegible : Legible newline identify tags)
    (h : Paired index tags stack pos ((st, o) :: ps)) :
    (∀ e ∈ o,
      Places st pos (fillingOf dtd buffer newline identify e) (opOf buffer newline identify e)) ∧
      ∃ stack', Paired index tags stack' (pos + st.size) ps := by
  cases h with
  | opening form rest => exact ⟨by simp, _, rest⟩
  | empty form yields rest =>
    refine ⟨?_, _, rest⟩
    rintro e rfl
    cases yields with
    | tracked tracked closed => exact places_empty hspelled form tracked hlegible closed
  | closing form yields rest =>
    refine ⟨?_, _, rest⟩
    rintro e rfl
    cases yields with
    | tracked tracked closed => exact places_closing hspelled form hlegible closed

/-- Where the operation of a stretch lies. -/
theorem Places.within {st : Stretch} {filling : Filling} {op : Op} (h : Places st pos filling op) :
    pos ≤ op.offset ∧ 0 ≤ op.replaced ∧ op.offset < (pos + st.size : Nat) ∧
      op.stop ≤ (pos + st.size : Nat) := by
  obtain ⟨front, middle, back, hchars, -, hoffset, hreplaced, hpos⟩ := h.cut
  have hsize : st.size = front.length + (middle.length + back.length) := by
    rw [Stretch.size, hchars, List.length_append, List.length_append]
  rw [List.length_append] at hpos
  simp only [Op.stop]
  omega

/-- An operation makes the document longer by as much as the stretch gets longer. -/
theorem Places.growth_eq {st : Stretch} {filling : Filling} {op : Op}
    (h : Places st pos filling op) :
    op.growth = trailSize (st.filled (some filling)) - st.size := by
  obtain ⟨front, middle, back, hchars, hfilled, -, hreplaced, -⟩ := h.cut
  rw [Op.growth, trailSize, hfilled, Stretch.size, hchars, hreplaced]
  simp only [List.length_append]
  omega

theorem opsOf_within (hspelled : ∀ p ∈ ps, p.1.Spelled alphabet)
    (hlegible : Legible newline identify tags) (h : Paired index tags stack pos ps) :
    ∀ op ∈ opsOf buffer newline identify ps, pos ≤ op.offset ∧ 0 ≤ op.replaced ∧
      op.stop ≤ (pos + trailSize (ps.map Prod.fst) : Nat) ∧ 0 ≤ op.growth := by
  induction ps generalizing stack pos with
  | nil => simp [opsOf, endedWith, candidates]
  | cons p ps ih =>
    obtain ⟨st, o⟩ := p
    have hst : st.Spelled alphabet := hspelled (st, o) List.mem_cons_self
    obtain ⟨hplaces, stack', hrest⟩ := places_head {} buffer hst hlegible h
    have ih := ih (fun q hq => hspelled q (List.mem_cons_of_mem _ hq)) hrest
    intro op hop
    rw [opsOf_cons] at hop
    simp only [List.map_cons, trailSize_cons]
    rcases List.mem_append.mp hop with hop | hop
    · obtain ⟨e, he, rfl⟩ := Option.map_eq_some_iff.mp (Option.mem_toList.mp hop)
      have hplace := hplaces e (Option.filter_eq_some_iff.mp he).1
      have hwithin := hplace.within
      have hgrows := hplace.grows
      omega
    · have := ih op hop
      omega

/-- Operations follow one another, each of them past the one before it. -/
theorem opsOf_ordered (hspelled : ∀ p ∈ ps, p.1.Spelled alphabet)
    (hlegible : Legible newline identify tags) (h : Paired index tags stack pos ps) :
    (opsOf buffer newline identify ps).Pairwise fun a b => a.stop ≤ b.offset ∧
    a.offset < b.offset := by
  induction ps generalizing stack pos with
  | nil => exact .nil
  | cons p ps ih =>
    obtain ⟨st, o⟩ := p
    have hst : st.Spelled alphabet := hspelled (st, o) List.mem_cons_self
    obtain ⟨hplaces, stack', hrest⟩ := places_head {} buffer hst hlegible h
    have hspelled' : ∀ q ∈ ps, q.1.Spelled alphabet :=
      fun q hq => hspelled q (List.mem_cons_of_mem _ hq)
    have hlater := opsOf_within buffer hspelled' hlegible hrest
    rw [opsOf_cons]
    refine List.pairwise_append.mpr ⟨?_, ih hspelled' hrest, ?_⟩
    · cases (o.filter (! ·.annotated)).map (opOf buffer newline identify) <;> simp
    · intro op hop op' hop'
      obtain ⟨e, he, rfl⟩ := Option.map_eq_some_iff.mp (Option.mem_toList.mp hop)
      have hplace := (hplaces e (Option.filter_eq_some_iff.mp he).1).within
      have := hlater op' hop'
      omega

/-- **The patched document.** With the operations carried out, the document has the filled
stretches. -/
theorem fillFrom_opsOf (hspelled : ∀ p ∈ ps, p.1.Spelled alphabet)
    (hlegible : Legible newline identify tags) (h : Paired index tags stack pos ps)
    {document before after : Bytes}
    (hdocument : document = before ++ (inCode (trailChars (ps.map Prod.fst)) ++ after))
    (hpos : before.length = pos) : fillFrom document pos (opsOf buffer newline identify ps) =
      inCode (trailChars (fill (fillings dtd buffer newline identify ps))) ++ after := by
  induction ps generalizing stack pos before with
  | nil =>
    have hdrop : document.drop pos = after := by
      rw [hdocument, ← hpos]
      exact List.drop_left
    simpa [opsOf, endedWith, candidates, fillings, fillFrom] using hdrop
  | cons p ps ih =>
    obtain ⟨st, o⟩ := p
    have hst : st.Spelled alphabet := hspelled (st, o) List.mem_cons_self
    obtain ⟨hplaces, stack', hrest⟩ := places_head dtd buffer hst hlegible h
    have hspelled' : ∀ q ∈ ps, q.1.Spelled alphabet :=
      fun q hq => hspelled q (List.mem_cons_of_mem _ hq)
    have hlater := opsOf_within buffer hspelled' hlegible hrest
    rw [List.map_cons, trailChars_cons, inCode_append, List.append_assoc] at hdocument
    have htail := ih hspelled' hrest (hdocument.trans (List.append_assoc _ _ _).symm)
      (by rw [List.length_append, hpos, Stretch.size])
    have hsize : ((pos + st.size : Nat) : Int) ≤ document.length := by
      have hlength : (inCode st.chars).length = st.size := rfl
      rw [hdocument, List.length_append, List.length_append, hpos, hlength]
      omega
    rw [fill_fillings_cons, trailChars, List.flatMap_append, inCode_append, opsOf_cons,
      List.append_assoc, ← trailChars, ← trailChars, ← htail]
    cases ho : o.filter (! ·.annotated) with
    | none =>
      have hslice : slice document pos (pos + st.size : Nat) = inCode st.chars := by
        rw [hdocument]
        exact slice_of_append (by rw [hpos]) (by rw [hpos]; push_cast; rfl)
      simp only [Option.map_none, Option.toList_none, List.nil_append, filled_none, trailChars_cons,
        trailChars_nil, List.append_nil]
      rw [fillFrom_eq_append (by omega) hsize fun op hop => (hlater op hop).1, hslice]
    | some e =>
      have hplace := hplaces e (Option.filter_eq_some_iff.mp ho).1
      obtain ⟨front, middle, back, hchars, hfilled, hoffset, hreplaced, -⟩ := hplace.cut
      have hlength : st.size = front.length + (middle.length + back.length) := by
        rw [Stretch.size, hchars, List.length_append, List.length_append]
      rw [hchars] at hdocument
      have hfront : slice document pos (opOf buffer newline identify e).offset = front := by
        rw [hdocument, List.append_assoc]
        exact slice_of_append (by rw [hpos]) (by rw [hpos, hoffset])
      have hback :
          slice document (opOf buffer newline identify e).stop (pos + st.size : Nat) = back := by
        have hsplit : document = (before ++ front ++ middle) ++ (back ++
            (inCode (trailChars (ps.map Prod.fst)) ++ after)) := by
          rw [hdocument]
          simp only [List.append_assoc]
        rw [hsplit]
        refine slice_of_append ?_ ?_
        · simp only [Op.stop, List.length_append]
          omega
        · simp only [List.length_append]
          omega
      simp only [Option.map_some, Option.toList_some, List.singleton_append, fillFrom]
      rw [fillFrom_eq_append hplace.within.2.2.2 hsize fun op hop => (hlater op hop).1,
        hfilled, hfront, hback]
      simp only [List.append_assoc]

/-! ## The plan -/

/-- Each element has the identifier that its place among the candidates gives it. -/
def Identifies (identify : Int → String) (elements : List Element) (naming : Naming) : Prop :=
  (candidates elements).map (fun e => identify e.extent.start) =
    naming.identifiers (candidates elements)

theorem nodup_offsets (hspelled : ∀ p ∈ ps, p.1.Spelled alphabet)
    (hlegible : Legible newline identify tags) (h : Paired index tags stack pos ps) :
    ((opsOf buffer newline identify ps).map Op.offset).Nodup := by
  refine List.pairwise_map.mpr ((opsOf_ordered buffer hspelled hlegible h).imp ?_)
  intro a b hab
  omega

theorem inOrder_opsOf (hspelled : ∀ p ∈ ps, p.1.Spelled alphabet)
    (hlegible : Legible newline identify tags) (h : Paired index tags stack pos ps) :
    inOrder (opsOf buffer newline identify ps) = opsOf buffer newline identify ps := by
  refine List.mergeSort_of_pairwise ((opsOf_ordered buffer hspelled hlegible h).imp ?_)
  intro a b hab
  simp only [decide_eq_true_eq]
  omega

/-- The plan has the operations of the elements in the order of their ends. -/
theorem plan_eq_opsOf (hspelled : ∀ p ∈ ps, p.1.Spelled alphabet)
    (hlegible : Legible newline identify tags) (h : Paired index tags stack pos ps)
    {elements : List Element} {naming : Naming} (hperm : elements.Perm (endedWith ps))
    (hidentify : Identifies identify elements naming) :
    plan buffer elements naming newline = opsOf buffer newline identify ps := by
  have hops : List.zipWith (opFor buffer newline) (candidates elements)
      (naming.identifiers (candidates elements)) =
        (candidates elements).map (opOf buffer newline identify) := by
    rw [← hidentify, List.zipWith_map_right, List.zipWith_self]
    rfl
  have hsame : ((candidates elements).map (opOf buffer newline identify)).Perm
      (opsOf buffer newline identify ps) := (hperm.filter _).map _
  rw [plan, hops, inOrder_eq_of_perm hsame (nodup_offsets buffer hspelled hlegible h),
    inOrder_opsOf buffer hspelled hlegible h]

end All

end AccessPatch.Patch
