import AccessPatch.Proofs.Tag.Ranges
import AccessPatch.Proofs.Xml.RootTag

/-!
# Documents in big-endian UTF-16

A start tag is looked up in the bytes of a document, where it should begin with the byte of a `<`.
In UTF-16 with the high byte first a `<` begins with a zero byte, so the tag of the root element
is not found, and no such document has tag ranges (`ofDocument_ne_ok_of_bigEndian`).
-/

namespace AccessPatch

open Xml

/-! ## The bytes of a `<` -/

/-- A zero byte stands at this offset. -/
def ZeroAt (bytes : Bytes) (pos : Nat) : Prop :=
  ∃ rest, bytes.drop pos = 0 :: rest

namespace Xml.Encoding

/-- With the high byte first, a `<` begins with a zero byte. -/
theorem eq_zero_of_lessThan {a b : UInt8} (hlead : ¬ IsLead (word true a b))
    (htrail : ¬ (0xDC00 ≤ word true a b ∧ word true a b < 0xE000))
    (h : Glyph.ofNat (word true a b) = .char '<') : a = 0 := by
  have hword : word true a b = a.toNat * 256 + b.toNat := rfl
  have ha := a.toNat_lt
  have hb := b.toNat_lt
  have hvalue := toNat_of_ofNat_eq_char h (by unfold IsLead at hlead; omega)
  have hlessThan : '<'.toNat = 0x3C := rfl
  have hzero : a.toNat = 0 := by omega
  exact UInt8.toNat_inj.mp hzero

/-- So each `<` of a document in big-endian UTF-16 stands at a zero byte. -/
theorem lessThanAt_decodeUtf16 {bytes : Bytes} : ∀ {bs : Bytes} {pos : Nat}, bytes.drop pos = bs →
    LessThanAt (ZeroAt bytes) pos (decodeUtf16 true bs)
  | [], _, _ => trivial
  | [_], _, _ => trivial
  | a :: b :: bs, pos, h => by
    have hdrop : bytes.drop (pos + 2) = bs := by
      rw [← List.drop_drop, h]
      rfl
    by_cases hlead : IsLead (word true a b)
    -- Two units make a character above U+FFFF, or the document ends within it.
    · match bs, hdrop with
      | [], _ =>
        rw [show decodeUtf16 true [a, b] = [⟨.cutOff, 2⟩] from if_pos hlead]
        exact ⟨nofun, trivial⟩
      | [c], _ =>
        rw [show decodeUtf16 true [a, b, c] = [⟨.cutOff, 3⟩] from if_pos hlead]
        exact ⟨nofun, trivial⟩
      | c :: d :: bs, hdrop =>
        rw [decodeUtf16_pair hlead]
        refine ⟨fun hglyph => ?_, lessThanAt_decodeUtf16 ?_⟩
        · have hlarge := le_toNat_surrogatePair (word true a b) (word true c d)
          rw [Glyph.char.inj hglyph] at hlarge
          exact absurd hlarge (by decide)
        · rw [show pos + 4 = pos + 2 + 2 from rfl, ← List.drop_drop, hdrop]
          rfl
    · rw [decodeUtf16_single hlead]
      split
      · exact ⟨nofun, lessThanAt_decodeUtf16 hdrop⟩
      · rename_i htrail
        refine ⟨fun hglyph => ?_, lessThanAt_decodeUtf16 hdrop⟩
        exact ⟨b :: bs, by rw [h, eq_zero_of_lessThan hlead htrail hglyph]⟩

end Xml.Encoding

/-! ## No start tag is found -/

theorem tagEnd?_of_zeroAt {bytes : Bytes} {pos : Nat} (h : ZeroAt bytes pos) :
    tagEnd? bytes pos = none := by
  obtain ⟨rest, hrest⟩ := h
  unfold tagEnd?
  rw [hrest]
  rfl

namespace TagRange

/-- Where the bytes show no tag for an event, no ranges are collected. -/
theorem foldlM_add_ne_ok {buffer : Bytes} {symbols : List Symbol} {events : List Event}
    (h : HasTagAt (ZeroAt buffer) events) (c c' : Collector) :
    events.foldlM (Collector.add buffer symbols) c ≠ .ok c' := by
  obtain ⟨name, attributes, start, stop, empty, hevent, hzero⟩ := h
  obtain ⟨before, after, rfl⟩ := List.append_of_mem hevent
  intro hfold
  obtain ⟨m, -, hrest⟩ := foldlM_append_eq_ok_iff.mp hfold
  obtain ⟨m', hadd, -⟩ := foldlM_cons_eq_ok_iff.mp hrest
  simp only [Collector.add, tagEnd?_of_zeroAt hzero] at hadd
  cases hadd

/-- **Big-endian UTF-16 is refused.** A document in it that can be read has a root element, and
the tag of that is not found. -/
theorem ofDocument_ne_ok_of_bigEndian {bytes : Bytes} {source : Source}
    (hsource : Source.ofBytes bytes = .ok source) (hencoding : source.encoding = .utf16 true)
    (ranges : List TagRange) : ofDocument bytes ≠ .ok ranges := by
  intro h
  obtain ⟨-, hbody, -⟩ := Source.opening_of_ofBytes hsource
  obtain ⟨events, hrun⟩ := run_of_ofDocument hsource h
  have hread : Xml.read bytes = ⟨events, none, source.symbols⟩ := by
    simp only [Xml.read, hsource, hrun]
  obtain ⟨c, hfold, -⟩ := bind_eq_ok_iff.mp h
  rw [hread] at hfold
  have hsymbols : LessThanAt (ZeroAt bytes) source.start source.body := by
    rw [hbody, hencoding]
    exact Encoding.lessThanAt_decodeUtf16 rfl
  have htag := Reader.exists_opened_of_run (Reader.marked_reader _ source _ false) hsymbols hrun
  exact foldlM_add_ne_ok htag _ _ hfold

end TagRange

end AccessPatch
