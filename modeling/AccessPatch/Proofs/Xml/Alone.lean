import AccessPatch.Proofs.Tag.Ranges

/-!
# Documents that are one element

A document may be nothing but its root element, without a declaration and with nothing around that
element. In UTF-8 it has a layout as soon as its stretches are sound (`explains_alone`), and then
its tags are where those of the stretches are.

Main result: `ofDocument_alone`.
-/

namespace AccessPatch

namespace Xml

variable [Code]

/-! ## The opening -/

/-- Without a declaration a document is read as UTF-8 from its first byte on. -/
theorem opening_alone {c : Char} (hutf8 : Code.encoding = .utf8)
    (hc : Code.encoding.alphabet.isNameStart c = true) (htext : IsText ['<', c]) :
    Source.Opening (inCode ['<', c]) 0 false none Code.encoding := by
  obtain ⟨b, bs, hwrite⟩ := List.exists_cons_of_ne_nil (Code.write_ne_nil c)
  have hb : b ≠ 0x00 := by
    rintro rfl
    by_cases hlt : c.toNat < 0x80
    · rw [Code.write_of_lt hlt] at hwrite
      have hzero : (UInt8.ofNat c.toNat).toNat = 0 := congrArg UInt8.toNat (List.cons.inj hwrite).1
      rw [Encoding.toNat_ofNat_of_lt (by omega)] at hzero
      obtain rfl : c = Char.ofNat 0 := by rw [← Char.ofNat_toNat c, hzero]
      cases hc
    · have hle := Code.le_of_mem_write (c := c) (b := 0x00) (by omega) (by rw [hwrite]; simp)
      exact absurd hle (by decide)
  have hsniff : Encoding.sniff (inCode ['<', c]) = some (Code.encoding, 0) := by
    rw [inCode_cons, inCode_cons, hwrite, write_lessThan, hutf8]
    simp [Encoding.sniff, hb]
  refine .plain hsniff ?_
  rw [List.drop_zero, decode_inCode htext, Source.leadingChars_ofChar,
    Source.declarationBody?, if_neg]
  simp [Source.placed]

/-! ## The root element -/

/-- The root element may begin at once. -/
theorem Reader.entry_nil {r₀ : Reader} {c : Char} (hphase : r₀.phase = .prolog .beforeDoctype .idle)
    (hc : r₀.context.alphabet.isNameStart c = true) :
    Entry r₀ [] c { r₀ with phase := .content .idle, mark := r₀.offset } := by
  let r : Reader := { r₀ with
    phase := .prolog .beforeDoctype .lessThan
    mark := r₀.offset
    offset := r₀.offset + 1 }
  have hstep : ∀ admits, (r₀.admitting admits).step (.ofChar '<') = .ok (r.admitting admits) := by
    intro admits
    rw [step_prolog (r := r₀.admitting admits) hphase, ofChar_of_lt (by decide)]
    rfl
  have houtside : Outside r₀ ([] ++ ['<']) r .beforeDoctype .lessThan := by
    refine ⟨rfl, by decide, rfl, rfl, ⟨[], noTags_nil, rfl⟩, fun _ => rfl, fun admits => ?_,
      fun _ => ⟨[], rfl, rfl⟩⟩
    rw [List.nil_append, feed_singleton]
    exact hstep admits
  refine houtside.entry (.inl rfl) ?_
  unfold Prolog.Lexer.afterLessThan
  split
  · cases hc
  · cases hc
  · exact if_pos (.inl hc)

/-- Where nothing stands around the root element, each list of sound stretches is a layout. -/
theorem explains_alone {sts : List Stretch} {c : Char} (hutf8 : Code.encoding = .utf8)
    (hc : Code.encoding.alphabet.isNameStart c = true)
    (hbegins : (trailChars sts).take 2 = ['<', c]) (hnests : Nests [] sts)
    (hsound : ∀ st ∈ sts, st.Sound (textReader 0 false false).context)
    (htext : IsText (trailChars sts)) :
    Layout.Explains (textReader 0 false false).context ⟨[], [], sts, []⟩ false := by
  let r₀ := textReader 0 false false
  have hentry : r₀.Entry [] c { r₀ with phase := .content .idle, mark := 0 } :=
    Reader.entry_nil rfl hc
  have htwo : ∀ sts' : List Stretch, (trailChars sts').take 2 = ['<', c] →
      trailChars sts' = ['<', c] ++ (trailChars sts').drop 2 := by
    intro sts' hbegins'
    rw [← hbegins', List.take_append_drop]
  have hopening :
      Source.Opening ([] ++ inCode ([] ++ ['<', c]) ++ []) 0 false none Code.encoding := by
    rw [List.append_nil]
    refine opening_alone hutf8 hc ?_
    rw [htwo sts hbegins] at htext
    exact (isText_append_iff.mp htext).1
  refine ⟨hnests, hsound, by simpa [Layout.text] using htext, none,
    r₀.declaresType (['<', c].map Symbol.ofChar), [], [], noTags_nil, noTags_nil,
    fun sts' hfit => ?_⟩
  have hbegins' : (trailChars sts').take 2 = ['<', c] := hfit.begins.trans hbegins
  have hfeed : ∀ admits, ∃ last,
      (r₀.admitting admits).feed ([] ++ trailChars sts' ++ []) = .ok last ∧
      last.finish false = .ok ([] ++ (trailEvents 0 sts').reverse ++ []) := by
    let b : Reader := { r₀ with phase := .prolog .epilog .idle }
    exact feed_with_stretches hentry Code.unit rfl (b := b) rfl rfl rfl (Reader.quiet_nil b) rfl
      hfit.nests hfit.passes hbegins'
  rw [List.nil_append, List.append_nil, htwo sts' hbegins'] at hfeed
  have htext' := hfit.text
  rw [htwo sts' hbegins'] at htext'
  obtain ⟨last, hlast, -⟩ := hfeed false
  have htyped : (textReader 0 false false).declaresType
      ((['<', c] ++ (trailChars sts').drop 2).map Symbol.ofChar) =
        r₀.declaresType (['<', c].map Symbol.ofChar) := hentry.declaresType_eq rfl hlast _
  obtain ⟨source, hreads⟩ := exists_reading hopening htext' hfeed
  refine ⟨source, ?_⟩
  have hbytes : (Layout.withStretches ⟨[], [], sts, []⟩ sts').bytes =
      inCode (['<', c] ++ (trailChars sts').drop 2) := by
    simp only [Layout.bytes, Layout.text, Layout.withStretches, List.nil_append, List.append_nil]
    rw [← htwo sts' hbegins']
  rw [hbytes, ← htyped]
  exact hreads

end Xml

open Xml

/-- **Documents that are one element.** The ranges of such a document are those of its stretches. -/
theorem TagRange.ofDocument_alone [Code] {sts : List Stretch} {c : Char}
    (hutf8 : Code.encoding = .utf8) (hc : Code.encoding.alphabet.isNameStart c = true)
    (hbegins : (trailChars sts).take 2 = ['<', c]) (hnests : Nests [] sts)
    (hsound : ∀ st ∈ sts, st.Sound (textReader 0 false false).context)
    (htext : IsText (trailChars sts)) :
    ofDocument (inCode (trailChars sts)) = .ok (trailRanges 0 sts) := by
  have hexplains := explains_alone hutf8 hc hbegins hnests hsound htext
  have hranges := ofDocument_eq_trailRanges hexplains hexplains.fit hexplains.spelled
  simpa [Layout.bytes, Layout.text, Layout.withStretches, Layout.rootStart] using hranges

end AccessPatch
