import AccessPatch.Proofs.Xml.Opening
import AccessPatch.Proofs.Xml.Prolog.Epilog
import AccessPatch.Proofs.Xml.Trail

/-!
# How a document is laid out

A document in a code that is read to its end falls into a `Layout`: a byte-order mark and a
declaration, the text before the root element, the stretches of the root element, and the text
after it (`exists_layout`). The layout explains the document (`Layout.Explains`): its events are
those of the stretches, with nothing but instructions and declarations before and after them, and
that is so for every other list of sound stretches in their place. So to know what a changed
document says it is enough to know its stretches.
-/

namespace AccessPatch.Xml

/-- What is read of a document in a code: whether it stands alone, the version that it declares,
whether it declares a type, and its events, which do not hang on entities. -/
structure Reads [Code] (bytes : Bytes) (standalone : Bool) (version : Option String) (typed : Bool)
    (events : List Event) (source : Source) : Prop where
  decoded : Source.ofBytes bytes = .ok source
  code : source.InCode bytes
  standalone : source.standalone = standalone
  version : source.version = version
  typed : (source.reader source.encoding.alphabet false).declaresType source.body = typed
  run : ∀ admits,
    (source.reader source.encoding.alphabet admits).run source.body source.ragged = .ok events

/-- A document in parts. -/
structure Layout where
  /-- The byte-order mark and the declaration. -/
  lead : Bytes
  /-- The text before the root element. -/
  head : List Char
  stretches : List Stretch
  /-- The text after the root element. -/
  tail : List Char

namespace Layout

variable [Code]

/-- The text of a document, which begins after its declaration. -/
def text (l : Layout) : List Char :=
  l.head ++ trailChars l.stretches ++ l.tail

def bytes (l : Layout) : Bytes :=
  l.lead ++ inCode l.text

/-- Where the root element begins. -/
def rootStart (l : Layout) : Nat :=
  l.lead.length + (inCode l.head).length

/-- The same document with another root element. -/
def withStretches (l : Layout) (sts : List Stretch) : Layout :=
  { l with stretches := sts }

/-- The document is what stands before the root element, that element, and what stands after it. -/
theorem bytes_withStretches (l : Layout) (sts : List Stretch) :
    (l.withStretches sts).bytes =
      (l.lead ++ inCode l.head) ++ (inCode (trailChars sts) ++ inCode l.tail) := by
  simp only [bytes, text, withStretches, inCode_append, List.append_assoc]

theorem bytes_eq (l : Layout) :
    l.bytes = (l.lead ++ inCode l.head) ++ (inCode (trailChars l.stretches) ++ inCode l.tail) :=
  l.bytes_withStretches l.stretches

theorem length_before (l : Layout) : (l.lead ++ inCode l.head).length = l.rootStart := by
  rw [List.length_append, rootStart]

/-- Stretches that may stand in the place of those of the document: they are read as they are,
nest, and begin as those do. -/
structure Fit (context : Prolog.Context) (l : Layout) (sts : List Stretch) : Prop where
  nests : Nests [] sts
  passes : ∀ st ∈ sts, st.Passes context
  text : IsText (trailChars sts)
  begins : (trailChars sts).take 2 = (trailChars l.stretches).take 2

/-- A document is read as its layout says, and so is one with other stretches. -/
structure Explains (context : Prolog.Context) (l : Layout) (standalone : Bool) : Prop where
  nests : Nests [] l.stretches
  sound : ∀ st ∈ l.stretches, st.Sound context
  text : IsText l.text
  reads : ∃ version typed before after, NoTags before ∧ NoTags after ∧ ∀ sts, l.Fit context sts →
    ∃ source, Reads (l.withStretches sts).bytes standalone version typed
      (before ++ (trailEvents l.rootStart sts).reverse ++ after) source

/-- The stretches of a document may stand in their own place. -/
theorem Explains.fit {context : Prolog.Context} {l : Layout} {standalone : Bool}
    (h : l.Explains context standalone) : l.Fit context l.stretches where
  nests := h.nests
  passes st hst := (h.sound st hst).passes
  text := (isText_append_iff.mp (isText_append_iff.mp h.text).1).2
  begins := rfl

theorem Explains.spelled {context : Prolog.Context} {l : Layout} {standalone : Bool}
    (h : l.Explains context standalone) :
    ∀ st ∈ l.stretches, st.Spelled context.alphabet ∧ NoTags st.notes :=
  fun st hst => ⟨(h.sound st hst).spelled, (h.sound st hst).only.noTags⟩

end Layout

/-! ## Cutting a document -/

variable [Code]

/-- The text of a document that is read to its end, as the code writes it. -/
theorem exists_text {bs : Bytes} {r last : Reader} {events : List Event} (hr : r.Fits)
    (hplain : bs.map Code.respell = bs)
    (h : (Code.encoding.decode bs).foldlM Reader.step r = .ok last)
    (hend : last.finish false = .ok events) :
    ∃ cs, bs = inCode cs ∧ IsText cs ∧ r.feed cs = .ok last := by
  have hchars := Reader.chars_of_finish hr (fun s hs => Code.width_pos hs) h hend
  obtain ⟨cs, bs', rfl, hsymbols, htext, hrest⟩ :=
    decode_eq_append hplain (List.append_nil (Code.encoding.decode bs)).symm hchars
  obtain rfl := Code.eq_nil_of_decode hrest
  rw [hsymbols] at h
  exact ⟨cs, List.append_nil _, htext, h⟩

theorem two_le_length_trailChars {context : Prolog.Context} {sts : List Stretch}
    (hnests : Nests [] sts) (hsound : ∀ st ∈ sts, st.Sound context) :
    2 ≤ (trailChars sts).length := by
  cases sts with
  | nil => exact hnests.elim
  | cons st sts =>
    have htext := (hsound st List.mem_cons_self).spelled.two_le_length
    rw [trailChars_cons, Stretch.chars, List.length_append, List.length_append]
    omega

/-- What is read of a document with other stretches in its root element. -/
theorem feed_with_stretches {r₀ enter b last : Reader} {head tail : List Char} {c : Char}
    {notes : List Event} {sts : List Stretch} (hentry : r₀.Entry head c enter) (hunit : r₀.unit = 1)
    (hstack : r₀.stack = []) (hb : b.phase = .prolog .epilog .idle) (hbunit : enter.unit = b.unit)
    (hbcontext : enter.context = b.context) (hquiet : Reader.Quiet b tail notes last)
    (hlast : last.phase = .prolog .epilog .idle) (hnests : Nests [] sts)
    (hpasses : ∀ st ∈ sts, st.Passes enter.context) (hbegins : (trailChars sts).take 2 = ['<', c])
    (admits : Bool) :
    ∃ last', (r₀.admitting admits).feed (head ++ trailChars sts ++ tail) = .ok last' ∧
      last'.finish false = .ok (enter.events.reverse ++ (trailEvents enter.offset sts).reverse ++
        notes.reverse) := by
  have hnests' : Nests (enter.admitting admits).stack sts := by
    have henter : (enter.admitting admits).stack = [] := hentry.stack.trans hstack
    rw [henter]
    exact hnests
  obtain ⟨mark, htrail⟩ := Reader.feed_trail (r := enter.admitting admits) hentry.phase
    (hentry.unit.trans hunit) hnests' hpasses
  have hafter :
      ((enter.admitting admits).between mark [] (trailEvents enter.offset sts ++ enter.events)
      (enter.offset + trailSize sts)).phase = .prolog .epilog .idle := rfl
  obtain ⟨last', hrest, hend⟩ :=
    Reader.finish_after_root hb hquiet hlast hafter hbunit hbcontext
  refine ⟨last', ?_, ?_⟩
  · have hfeed := Reader.feed_append_eq_ok_iff.mpr ⟨_, htrail, hrest⟩
    rw [← List.take_append_drop 2 (trailChars sts), hbegins] at hfeed ⊢
    have hroot := (hentry.feed admits ((trailChars sts).drop 2 ++ tail) last').mpr hfeed
    rw [List.append_assoc]
    exact hroot
  · rw [hend]
    simp only [Reader.between, List.reverse_append]

/-- A text as a reader goes through it: what stands before the root element, the stretches of that
element, and what stands after it. Other stretches may stand in the place of these. -/
structure Cut (r₀ : Reader) (context : Prolog.Context) (cs head : List Char) (sts : List Stretch)
    (tail : List Char) : Prop where
  chars : cs = head ++ trailChars sts ++ tail
  nests : Nests [] sts
  sound : ∀ st ∈ sts, st.Sound context
  begins : ∃ c, (trailChars sts).take 2 = ['<', c] ∧ ∀ more,
    r₀.declaresType ((head ++ ['<', c] ++ more).map Symbol.ofChar) =
      r₀.declaresType (cs.map Symbol.ofChar)
  undeclared : r₀.declaresType (cs.map Symbol.ofChar) = false → context = r₀.context
  reads : ∃ before after, NoTags before ∧ NoTags after ∧ ∀ sts', Nests [] sts' →
    (∀ st ∈ sts', st.Passes context) → (trailChars sts').take 2 = (trailChars sts).take 2 →
    ∀ admits, ∃ last, (r₀.admitting admits).feed (head ++ trailChars sts' ++ tail) = .ok last ∧
      last.finish false = .ok (before ++
        (trailEvents (r₀.offset + (inCode head).length) sts').reverse ++ after)

theorem exists_cut {r₀ last : Reader} {cs : List Char} {events : List Event}
    (hphase : r₀.phase = .prolog .beforeDoctype .idle) (hunit : r₀.unit = 1)
    (hstack : r₀.stack = []) (hevents : r₀.events = []) (hadmits : r₀.admitsEntityTags = false)
    (h : r₀.feed cs = .ok last) (hend : last.finish false = .ok events) :
    ∃ context head sts tail, Cut r₀ context cs head sts tail := by
  have hlast := (Reader.finish_eq_ok_iff.mp hend).2.1
  have hsame : r₀.admitting false = r₀ := by
    rw [← hadmits]
    rfl
  -- The root element begins, and is cut into its stretches.
  obtain ⟨head, c, rest, enter, rfl, hentry⟩ := Reader.exists_root hphase (by simp) h hend
  have henter := (hentry.feed false rest last).mp (by rw [hsame]; exact h)
  obtain ⟨sts, tail, hcut, hnests, hsound⟩ := Reader.exists_trail (r := enter.admitting false)
    hentry.phase (hentry.unit.trans hunit) rfl henter (by simp [hlast])
  rw [hcut] at henter
  -- What follows it is read from the reader `b`.
  obtain ⟨b, hb, htail⟩ := Reader.feed_append_eq_ok_iff.mp henter
  obtain ⟨mark, htrail⟩ := Reader.feed_trail (r := enter.admitting false) hentry.phase
    (hentry.unit.trans hunit) hnests fun st hst => (hsound st hst).passes
  obtain rfl := Except.ok.inj (htrail.symm.trans hb)
  obtain ⟨notes, -, hquiet, -⟩ := Reader.quiet_epilog rfl htail
  have hbare : (enter.admitting false).stack = [] := hentry.stack.trans hstack
  rw [hbare] at hnests
  have hbegins : (trailChars sts).take 2 = ['<', c] := by
    have htwo := congrArg (List.take 2) hcut
    rw [List.take_append_of_le_length (two_le_length_trailChars hnests hsound)] at htwo
    exact htwo.symm
  obtain ⟨before, hbefore, hevents₀⟩ := hentry.events
  have hnotes : NoTags enter.events := by
    rw [hevents₀, hevents, List.append_nil]
    exact hbefore
  have hdeclares : ∀ more, r₀.declaresType ((head ++ ['<', c] ++ more).map Symbol.ofChar) =
      r₀.declaresType ((head ++ '<' :: c :: rest).map Symbol.ofChar) := by
    intro more
    have hcs : head ++ '<' :: c :: rest = head ++ ['<', c] ++ rest := by simp
    rw [hcs] at h ⊢
    rw [hentry.declaresType_eq hadmits h, hentry.declaresType_eq hadmits h]
  refine ⟨enter.context, head, sts, tail, ?_, hnests, hsound, ⟨c, hbegins, hdeclares⟩,
    hentry.context (c :: rest) (by rw [hphase]; rfl),
    enter.events.reverse, notes.reverse, hnotes.reverse, hquiet.only.noTags.reverse, ?_⟩
  · rw [List.append_assoc, ← hcut]
  · intro sts' hnests' hpasses hbegins' admits
    rw [← hentry.offset]
    refine feed_with_stretches hentry hunit hstack ?_ ?_ ?_ hquiet hlast hnests' hpasses
      (hbegins'.trans hbegins) admits <;> rfl

/-! ## Reading a document -/

/-- Where the reader of a document in a code begins with its text. -/
def textReader (start : Nat) (standalone admits : Bool) : Reader where
  unit := Code.encoding.unit
  admitsEntityTags := admits
  context := { alphabet := Code.encoding.alphabet, dtd := { standalone } }
  offset := start

theorem reader_eq_textReader {source : Source} (h : source.encoding = Code.encoding)
    (admits : Bool) :
    source.reader source.encoding.alphabet admits =
      textReader source.start source.standalone admits := by
  simp only [Source.reader, textReader, h]

theorem exists_lead {bytes : Bytes} {start : Nat} {cs : List Char}
    (h : bytes.drop start = inCode cs) (hcs : cs ≠ []) :
    ∃ lead, lead.length = start ∧ bytes = lead ++ inCode cs := by
  refine ⟨bytes.take start, ?_, by rw [← h, List.take_append_drop]⟩
  rw [List.length_take, Nat.min_eq_left]
  by_contra hshort
  obtain ⟨c, cs, rfl⟩ := List.exists_cons_of_ne_nil hcs
  rw [List.drop_eq_nil_of_le (by omega), inCode_cons] at h
  exact Code.write_ne_nil c (List.append_eq_nil_iff.mp h.symm).1

/-- A document that begins as another one does, up to the first two characters of its root
element, is read as its own text is. -/
theorem exists_reading {lead bs : Bytes} {head more : List Char} {c : Char} {standalone : Bool}
    {version : Option String} {events : List Event}
    (hopening : Source.Opening (lead ++ inCode (head ++ ['<', c]) ++ bs) lead.length
      standalone version Code.encoding)
    (htext : IsText (head ++ ['<', c] ++ more))
    (hfeed : ∀ admits, ∃ last,
      (textReader lead.length standalone admits).feed (head ++ ['<', c] ++ more) = .ok last ∧
        last.finish false = .ok events) :
    ∃ source, Reads (lead ++ inCode (head ++ ['<', c] ++ more)) standalone version
      ((textReader lead.length standalone false).declaresType
        ((head ++ ['<', c] ++ more).map Symbol.ofChar)) events source := by
  have hopening' : Source.Opening (lead ++ inCode (head ++ ['<', c] ++ more)) lead.length standalone
      version Code.encoding := by
    obtain ⟨last, hlast, hend⟩ := hfeed false
    rw [inCode_append, ← List.append_assoc]
    exact hopening.replace htext rfl rfl hlast hend
  obtain ⟨source, hsource, hstart, rfl, hversion, hin⟩ := Source.exists_source_of_opening hopening'
  have hbody : source.body = (head ++ ['<', c] ++ more).map Symbol.ofChar := by
    rw [hin.body, hstart, List.drop_left, decode_inCode htext]
  refine ⟨source, hsource, hin, rfl, hversion, ?_, fun admits => ?_⟩
  · rw [reader_eq_textReader hin.encoding, hbody, hstart]
  obtain ⟨last, hlast, hend⟩ := hfeed admits
  rw [hin.ragged, reader_eq_textReader hin.encoding, hbody, hstart]
  refine map_eq_ok_iff.mpr ⟨(events, last.context.dtd), bind_eq_ok_iff.mpr ⟨last, hlast, ?_⟩, rfl⟩
  exact bind_eq_ok_iff.mpr ⟨events, hend, rfl⟩

theorem Cut.ne_nil {r₀ : Reader} {context : Prolog.Context} {cs head tail : List Char}
    {sts : List Stretch} (h : Cut r₀ context cs head sts tail) : cs ≠ [] := by
  obtain ⟨c, hbegins, -⟩ := h.begins
  rw [h.chars]
  intro hnil
  rw [(List.append_eq_nil_iff.mp (List.append_eq_nil_iff.mp hnil).1).2] at hbegins
  cases hbegins

/-- A document is explained by the parts into which its text is cut. -/
theorem Cut.explains {lead : Bytes} {context : Prolog.Context} {cs head tail : List Char}
    {sts : List Stretch} {standalone : Bool} {version : Option String}
    (h : Cut (textReader lead.length standalone false) context cs head sts tail)
    (hopening : Source.Opening (lead ++ inCode cs) lead.length standalone version Code.encoding)
    (htext : IsText cs) : (Layout.mk lead head sts tail).Explains context standalone := by
  obtain ⟨c, hbegins, hdeclares⟩ := h.begins
  obtain ⟨before, after, hbefore, hafter, hreads⟩ := h.reads
  have hsplit : ∀ sts', (trailChars sts').take 2 = ['<', c] →
      head ++ trailChars sts' ++ tail = head ++ ['<', c] ++ ((trailChars sts').drop 2 ++ tail) := by
    intro sts' hbegins'
    rw [← hbegins', List.append_assoc head (List.take 2 _), ← List.append_assoc (List.take 2 _),
      List.take_append_drop, List.append_assoc]
  rw [h.chars, hsplit sts hbegins, inCode_append, ← List.append_assoc] at hopening
  rw [h.chars] at htext
  refine ⟨h.nests, h.sound, htext, version,
    (textReader lead.length standalone false).declaresType (cs.map Symbol.ofChar), before, after,
    hbefore, hafter, fun sts' hfit => ?_⟩
  have hbegins' : (trailChars sts').take 2 = ['<', c] := hfit.begins.trans hbegins
  have htext' : IsText (head ++ trailChars sts' ++ tail) := by
    obtain ⟨hfront, htail⟩ := isText_append_iff.mp htext
    exact ((isText_append_iff.mp hfront).1.append hfit.text).append htail
  have hfeed := hreads sts' hfit.nests hfit.passes hfit.begins
  have hbytes : (Layout.withStretches ⟨lead, head, sts, tail⟩ sts').bytes =
      lead ++ inCode (head ++ ['<', c] ++ ((trailChars sts').drop 2 ++ tail)) := by
    rw [← hsplit sts' hbegins']
    rfl
  rw [hsplit sts' hbegins'] at htext' hfeed
  rw [hbytes, ← hdeclares ((trailChars sts').drop 2 ++ tail)]
  exact exists_reading hopening htext' hfeed

omit [Code] in
/-- **Layouts.** A document that is written as a code writes it, and is read to its end, has a
layout that explains it, in that code. -/
theorem exists_layout {bytes : Bytes} {source : Source} {events : List Event}
    (hsource : Source.ofBytes bytes = .ok source) (hwritten : source.IsWritten bytes)
    (h : (source.reader source.encoding.alphabet false).run source.body source.ragged =
      .ok events) :
    ∃ (code : Code) (l : Layout) (context : Prolog.Context), code.encoding = source.encoding ∧
      l.bytes = bytes ∧ l.lead.length = source.start ∧ l.Explains context source.standalone ∧
      ((source.reader source.encoding.alphabet false).declaresType source.body = false →
        context = (source.reader source.encoding.alphabet false).context) := by
  obtain ⟨hopening, hbody, hragged⟩ := Source.opening_of_ofBytes hsource
  obtain ⟨code, hcode, hplain⟩ := hwritten
  rw [reader_eq_textReader hcode.symm] at h ⊢
  rw [hragged (hcode ▸ code.unit)] at h
  rw [← hcode] at hopening hbody
  obtain ⟨⟨events', dtd⟩, hall, -⟩ := map_eq_ok_iff.mp h
  obtain ⟨last, hlast, hall⟩ := bind_eq_ok_iff.mp hall
  obtain ⟨events'', hend, -⟩ := bind_eq_ok_iff.mp hall
  rw [hbody] at hlast
  -- The text of the document, and its parts.
  have hfits : (textReader source.start source.standalone false).Fits :=
    ⟨code.unit, by rintro lexer ⟨⟩⟩
  obtain ⟨cs, hbytes, htext, hfeed⟩ := exists_text hfits hplain hlast hend
  obtain ⟨context, head, sts, tail, hcut⟩ := exists_cut rfl code.unit rfl rfl rfl hfeed hend
  obtain ⟨lead, hlead, rfl⟩ := exists_lead hbytes hcut.ne_nil
  rw [hbody, hbytes, decode_inCode htext]
  rw [← hlead] at hcut hopening ⊢
  refine ⟨code, ⟨lead, head, sts, tail⟩, context, hcode, ?_, rfl,
    hcut.explains hopening htext, hcut.undeclared⟩
  rw [hcut.chars]
  rfl

end AccessPatch.Xml
