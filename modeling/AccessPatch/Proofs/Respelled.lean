import AccessPatch.Proofs.Blurring
import AccessPatch.Proofs.Tag.Ranges

/-!
# Documents respelled

A character set may have several bytes for one character, and a code writes only one of them. Two
documents that differ in nothing but that are `Respelled`: they begin with the same declaration,
and what follows is the same once it is written as the code does. Every document that is not in
UTF-8 can be respelled so (`exists_declared`, `exists_written`).

Then they are read alike: they have the same ranges of tags (`Respelled.ofDocument`), the same
elements (`Respelled.elementsOf`) and the same plans (`Respelled.planDetected`), and they stay
respelled where the same operations are carried out (`Respelled.splice`).
-/

namespace AccessPatch

open Xml

/-- Two documents that begin with `lead`, after which they differ at most in which of the bytes of a
character is written. -/
inductive Respelled [Code] (lead : Bytes) : Bytes → Bytes → Prop
  | intro {bs bs' : Bytes} (same : bs.map Code.respell = bs'.map Code.respell) :
      Respelled lead (lead ++ bs) (lead ++ bs')

/-- A document that begins with `lead` has its declaration there, and is in the code. -/
def Xml.Source.IsDeclaration [Code] (lead : Bytes) : Prop :=
  ∃ standalone version, ∀ bs,
    Opening (lead ++ bs) lead.length standalone (some version) Code.encoding

/-! ## Ranges and replacements -/

namespace TagRange.Collector

variable {buffer : Bytes} {symbols : List Symbol} {c c' : Collector}

/-- Where a tag has its range, the symbols of the document play no part. -/
theorem add_symbols {e : Event} (h : c.add buffer symbols e = .ok c') (symbols' : List Symbol) :
    c.add buffer symbols' e = .ok c' := by
  cases e with
  | opened name attributes start stop empty =>
    simp only [add] at h ⊢
    split at h
    · cases h
    · exact h
  | closed name start => exact h
  | instruction target => exact h
  | declared name => exact h

theorem foldlM_add_symbols {es : List Event}
    (h : es.foldlM (add buffer symbols) c = .ok c') (symbols' : List Symbol) :
    es.foldlM (add buffer symbols') c = .ok c' := by
  induction es generalizing c with
  | nil => exact h
  | cons e es ih =>
    obtain ⟨m, hm, hrest⟩ := foldlM_cons_eq_ok_iff.mp h
    exact foldlM_cons_eq_ok_iff.mpr ⟨m, add_symbols hm symbols', ih hrest⟩

end TagRange.Collector

/-- What is replaced after `lead` leaves `lead` as it is. -/
theorem replaced_append {lead text : Bytes} {start : Nat} (hstart : lead.length ≤ start)
    (bs : Bytes) (stop : Nat) :
    (lead ++ bs).take start ++ text ++ (lead ++ bs).drop (max start stop) =
      lead ++ (bs.take (start - lead.length) ++ text ++
        bs.drop (max start stop - lead.length)) := by
  rw [List.take_append, List.take_of_length_le hstart, List.drop_append,
    List.drop_of_length_le (hstart.trans (Nat.le_max_left start stop)), List.nil_append,
    List.append_assoc, List.append_assoc, List.append_assoc]

/-! ## What a respelling keeps -/

section Code

variable [Code]

theorem blur_respell (b : UInt8) : blur (Code.respell b) = blur b := by
  by_cases hb : b < 0x80
  · rw [Code.respell_of_lt (lt_toNat_iff.mp hb)]
  · have hle := Code.le_respell (le_toNat_iff.mpr hb)
    rw [blur, blur, if_neg hb, if_neg (le_toNat_iff.mp hle)]

theorem map_blur_respell (bs : Bytes) : (bs.map Code.respell).map blur = bs.map blur := by
  rw [List.map_map]
  exact List.map_congr_left fun b _ => blur_respell b

namespace Respelled

variable {lead bytes bytes' : Bytes}

theorem symm (h : Respelled lead bytes bytes') : Respelled lead bytes' bytes := by
  obtain ⟨same⟩ := h
  exact .intro same.symm

theorem length_eq (h : Respelled lead bytes bytes') : bytes.length = bytes'.length := by
  obtain ⟨same⟩ := h
  have hlength := congrArg List.length same
  rw [List.length_map, List.length_map] at hlength
  rw [List.length_append, List.length_append, hlength]

theorem map_blur (h : Respelled lead bytes bytes') : bytes.map blur = bytes'.map blur := by
  obtain @⟨bs, bs', same⟩ := h
  rw [List.map_append, List.map_append, ← map_blur_respell bs, same, map_blur_respell]

/-! ## Reading -/

/-- Respelled documents are read alike. -/
theorem exists_source (h : Respelled lead bytes bytes') (hlead : Source.IsDeclaration lead) :
    ∃ source source', Source.ofBytes bytes = .ok source ∧ Source.ofBytes bytes' = .ok source' ∧
      source.reader source.encoding.alphabet = source'.reader source'.encoding.alphabet ∧
      source.body = source'.body ∧ source.ragged = source'.ragged := by
  obtain @⟨bs, bs', same⟩ := h
  obtain ⟨standalone, version, hopening⟩ := hlead
  obtain ⟨source, hsource, hstart, hstandalone, -, hin⟩ :=
    Source.exists_source_of_opening (hopening bs)
  obtain ⟨source', hsource', hstart', hstandalone', -, hin'⟩ :=
    Source.exists_source_of_opening (hopening bs')
  refine ⟨source, source', hsource, hsource', ?_, ?_, hin.ragged.trans hin'.ragged.symm⟩
  · funext admits
    rw [reader_eq_textReader hin.encoding, reader_eq_textReader hin'.encoding, hstart, hstart',
      hstandalone, hstandalone']
  · rw [hin.body, hin'.body, hstart, hstart', List.drop_left, List.drop_left,
      ← Code.decode_respell, same, Code.decode_respell]

theorem ofDocument {ranges : List TagRange} (h : Respelled lead bytes bytes')
    (hlead : Source.IsDeclaration lead) (hranges : TagRange.ofDocument bytes = .ok ranges) :
    TagRange.ofDocument bytes' = .ok ranges := by
  obtain ⟨source, source', hsource, hsource', hreader, hbody, hragged⟩ := h.exists_source hlead
  obtain ⟨events, hrun⟩ := TagRange.run_of_ofDocument hsource hranges
  have hread : Xml.read bytes = ⟨events, none, source.symbols⟩ := by
    simp only [Xml.read, hsource, hrun]
  have hread' : Xml.read bytes' = ⟨events, none, source'.symbols⟩ := by
    rw [hreader, hbody, hragged] at hrun
    simp only [Xml.read, hsource', hrun]
  simp only [TagRange.ofDocument, hread, hread'] at hranges ⊢
  obtain ⟨c, hfold, hend⟩ := bind_eq_ok_iff.mp hranges
  refine bind_eq_ok_iff.mpr ⟨c, ?_, hend⟩
  rw [← TagRange.Collector.add_blur, ← h.map_blur, TagRange.Collector.add_blur]
  exact TagRange.Collector.foldlM_add_symbols hfold _

theorem elementsOf {identity : String} {tags : List String} {elements : List Element}
    (h : Respelled lead bytes bytes') (hlead : Source.IsDeclaration lead)
    (helements : elementsOf bytes identity tags = .ok elements) :
    elementsOf bytes' identity tags = .ok elements := by
  obtain ⟨ranges, htokenize, htracked⟩ := bind_eq_ok_iff.mp helements
  refine bind_eq_ok_iff.mpr ⟨ranges, mapError_eq_ok_iff.mpr ?_, ?_⟩
  · exact h.ofDocument hlead (mapError_eq_ok_iff.mp htokenize)
  · rw [← trackedElements_blur, ← h.map_blur, trackedElements_blur]
    exact htracked

theorem planDetected (h : Respelled lead bytes bytes') (elements : List Element)
    (naming : Patch.Naming) :
    Patch.planDetected bytes elements naming = Patch.planDetected bytes' elements naming := by
  rw [← planDetected_blur, h.map_blur, planDetected_blur]

/-! ## Splicing -/

theorem replaceRange {start : Int} (h : Respelled lead bytes bytes') (hstart : lead.length ≤ start)
    (stop : Int) (text : Bytes) : Respelled lead (Patch.replaceRange bytes start stop text)
      (Patch.replaceRange bytes' start stop text) := by
  have hlength := h.length_eq
  obtain @⟨bs, bs', same⟩ := h
  have hfirst : lead.length ≤ start.toNat := by omega
  simp only [Patch.replaceRange, hlength, replaced_append hfirst]
  refine .intro ?_
  simp only [List.map_append, List.map_take, List.map_drop, same]

/-- Operations that leave the declaration alone keep documents respelled. -/
theorem splice {ops : List Patch.Op} {patched : Bytes} (h : Respelled lead bytes bytes')
    (hops : ∀ op ∈ ops, lead.length ≤ op.offset) (hsplice : Patch.splice bytes ops = .ok patched) :
    ∃ patched', Patch.splice bytes' ops = .ok patched' ∧ Respelled lead patched patched' := by
  obtain ⟨⟨⟩, hcheck, hpatched⟩ := bind_eq_ok_iff.mp hsplice
  cases hpatched
  have hops' : ∀ op ∈ Patch.inOrder ops, lead.length ≤ op.offset :=
    fun op hop => hops op ((List.mergeSort_perm _ _).mem_iff.mp hop)
  rw [h.length_eq] at hcheck
  refine ⟨_, bind_eq_ok_iff.mpr ⟨_, hcheck, rfl⟩, ?_⟩
  clear hcheck hsplice
  generalize Patch.inOrder ops = ordered at hops' ⊢
  induction ordered with
  | nil => exact h
  | cons op ops ih =>
    obtain ⟨hop, hrest⟩ := List.forall_mem_cons.mp hops'
    exact (ih hrest).replaceRange hop _ _

end Respelled

end Code

/-! ## Respelling a document -/

namespace Xml.Source

/-- What a document declares ends within it. -/
theorem Opening.le_length {bytes : Bytes} {start : Nat} {standalone : Bool} {version : String}
    {final : Encoding} (h : Opening bytes start standalone (some version) final) :
    start ≤ bytes.length := by
  cases h with
  | declared sniffed declares reads named =>
    obtain ⟨first, rest, hbytes, hstop, hthree, -⟩ :=
      exists_declaration (shows_of_sniff sniffed).isLocal declares
    have hlength := congrArg List.length hbytes
    rw [List.length_drop, List.length_append] at hlength
    omega

theorem Opening.eq_utf8 {bytes : Bytes} {start : Nat} {standalone : Bool} {final : Encoding}
    (h : Opening bytes start standalone none final) (hunit : final.unit = 1) : final = .utf8 := by
  cases h with
  | plain sniffed => exact (shows_of_sniff sniffed).eq_utf8 hunit

/-- A document in another encoding than UTF-8 declares it. -/
theorem exists_declared {bytes : Bytes} {source : Source} (h : ofBytes bytes = .ok source)
    (hunit : source.encoding.unit = 1) (hutf8 : source.encoding ≠ .utf8) :
    ∃ (_ : Code) (lead bs : Bytes), bytes = lead ++ bs ∧ IsDeclaration lead := by
  obtain ⟨hopening, -⟩ := opening_of_ofBytes h
  obtain ⟨code, hcode⟩ := exists_code_of_opening hopening hunit
  rw [← hcode] at hopening hunit hutf8
  generalize source.version = version at hopening
  cases version with
  | none => exact absurd (hopening.eq_utf8 hunit) hutf8
  | some version =>
    obtain ⟨lead, bs, rfl, hstart⟩ : ∃ lead bs, bytes = lead ++ bs ∧
        lead.length = source.start := by
      refine ⟨bytes.take source.start, bytes.drop source.start,
        (List.take_append_drop _ _).symm, ?_⟩
      rw [List.length_take, Nat.min_eq_left hopening.le_length]
    rw [← hstart] at hopening
    exact ⟨code, lead, bs, rfl, source.standalone, version, hopening.append⟩

/-- **Respelling.** After its declaration a document can be written as its code writes it. -/
theorem exists_written [Code] {lead : Bytes} (h : IsDeclaration lead) (bs : Bytes) :
    ∃ bytes source, Respelled lead (lead ++ bs) bytes ∧ ofBytes bytes = .ok source ∧
      source.start = lead.length ∧ source.IsWritten bytes := by
  have hsame : bs.map Code.respell = (bs.map Code.respell).map Code.respell := by
    rw [List.map_map]
    exact List.map_congr_left fun b _ => (Code.respell_respell b).symm
  obtain ⟨standalone, version, hopening⟩ := h
  obtain ⟨source, hsource, hstart, -, -, hin⟩ :=
    exists_source_of_opening (hopening (bs.map Code.respell))
  refine ⟨_, source, .intro hsame, hsource, hstart, ‹Code›, hin.encoding.symm, ?_⟩
  rw [hstart, List.drop_left]
  exact hsame.symm

end Xml.Source

end AccessPatch
