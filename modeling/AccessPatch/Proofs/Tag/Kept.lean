import AccessPatch.Proofs.Respelled
import AccessPatch.Proofs.Spliceable

/-!
# Documents keep the promise

The ranges that are read from a document are as promised (`promised_of_ofDocument`): they nest,
follow one another, and each tag takes at least two bytes. So its elements are found and a plan
for them can be carried out, whatever is tracked. The exception is UTF-16, where ends of tags are
looked for byte by byte. Where a character has several bytes, the document is respelled first,
which keeps its ranges.
-/

namespace AccessPatch

open Xml

namespace TagRange

/-- A tag is long enough for what is done to it. -/
def IsWide (r : TagRange) : Prop :=
  r.kind = .opening ∨ r.selfClosing = false → r.start + 2 ≤ r.stop

/-- Ranges of wide tags that nest are balanced. -/
theorem IsForest.balanced {ranges : List TagRange} (h : IsForest ranges)
    (hwide : ∀ r ∈ ranges, r.IsWide) :
    Balanced ranges := by
  induction h with
  | nil => exact .nil
  | @cons opening closing inner rest pair empty _ _ ihInside ihNext =>
    obtain ⟨hopening, hall⟩ := List.forall_mem_cons.mp hwide
    obtain ⟨hinner, hclosing, hrest⟩ : (∀ r ∈ inner, r.IsWide) ∧ closing.IsWide ∧
        ∀ r ∈ rest, r.IsWide := by
      simpa only [List.forall_mem_append, List.forall_mem_cons] using hall
    have hopens := hopening (.inl pair.opens)
    refine .cons ⟨pair.opens, pair.closes, by omega, fun hself => ?_, fun hself => ?_⟩
      (ihInside hinner)
      (ihNext hrest)
    · exact ⟨empty hself, hopens, pair.place hself⟩
    · have hcloses := hclosing (.inr (pair.selfClosing.trans hself))
      omega

theorem IsTree.balanced {ranges : List TagRange} (h : IsTree ranges)
    (hwide : ∀ r ∈ ranges, r.IsWide) :
    Balanced ranges := by
  cases h with
  | root pair empty inside => exact IsForest.balanced (.cons pair empty inside .nil) hwide

section Code

variable [Code]

theorem isWide_ranges {alphabet : Alphabet} {st : Stretch} {pos : Nat} {r : TagRange}
    (hspelled : st.Spelled alphabet) (h : r ∈ st.ranges pos) : r.IsWide := by
  have htext : 2 ≤ (inCode st.text).length := by
    obtain ⟨inner, htext⟩ := hspelled.exists_text
    rw [htext, inCode_cons, inCode_append, inCode_greaterThan, write_lessThan]
    simp
  unfold Stretch.ranges at h
  intro hkind
  split at h
  · rw [List.mem_singleton.mp h]
    simp only
    omega
  · rcases List.mem_cons.mp h with rfl | h
    · simp only
      omega
    · obtain rfl := List.mem_singleton.mp h
      simp at hkind
  · rw [List.mem_singleton.mp h]
    simp only
    omega

theorem isWide_trailRanges {alphabet : Alphabet} {sts : List Stretch} {pos : Nat} {r : TagRange}
    (hspelled : ∀ st ∈ sts, st.Spelled alphabet) (h : r ∈ trailRanges pos sts) : r.IsWide := by
  induction sts generalizing pos with
  | nil => cases h
  | cons st sts ih =>
    obtain ⟨hfirst, hrest⟩ := List.forall_mem_cons.mp hspelled
    rcases List.mem_append.mp h with h | h
    · exact isWide_ranges hfirst h
    · exact ih hrest h

end Code

/-- Documents as long as each other are promised the same. -/
theorem Promised.of_length_eq {buffer buffer' : Bytes} {ranges : List TagRange}
    (h : Promised buffer ranges) (hlength : buffer'.length = buffer.length) :
    Promised buffer' ranges :=
  ⟨h.balanced, hlength ▸ h.within, h.follows⟩

theorem promised_of_isWritten {buffer : Bytes} {source : Source} {ranges : List TagRange}
    (hsource : Source.ofBytes buffer = .ok source) (hwritten : source.IsWritten buffer)
    (h : ofDocument buffer = .ok ranges) : Promised buffer ranges := by
  obtain ⟨events, hrun⟩ := run_of_ofDocument hsource h
  obtain ⟨code, l, context, -, rfl, -, hl, -⟩ := exists_layout hsource hwritten hrun
  have hsts : ∀ st ∈ l.stretches, st.Spelled context.alphabet ∧ NoTags st.notes :=
    fun st hst => ⟨(hl.sound st hst).spelled, (hl.sound st hst).only.noTags⟩
  obtain rfl := Except.ok.inj ((ofDocument_eq_trailRanges hl hl.fit hsts).symm.trans h)
  have hlength : l.rootStart + trailSize l.stretches ≤ l.bytes.length := by
    rw [l.bytes_eq, List.length_append, l.length_before, List.length_append, trailSize]
    omega
  refine ⟨(isTree_of_nests hl.nests _).balanced fun r hr =>
      isWide_trailRanges (fun st hst => (hsts st hst).1) hr,
    fun r hr => ?_, (trailRanges_ordered _ _).isChain⟩
  have hwithin := trailRanges_within hr
  omega

/-- **Documents keep the promise.** The ranges of a document that is not in UTF-16 are as
promised. -/
theorem promised_of_ofDocument {buffer : Bytes} {source : Source} {ranges : List TagRange}
    (hsource : Source.ofBytes buffer = .ok source) (hunit : source.encoding.unit = 1)
    (h : ofDocument buffer = .ok ranges) : Promised buffer ranges := by
  by_cases hutf8 : source.encoding = .utf8
  · exact promised_of_isWritten hsource (Source.isWritten_of_utf8 hutf8 _) h
  · obtain ⟨code, lead, bs, rfl, hlead⟩ := Source.exists_declared hsource hunit hutf8
    obtain ⟨written, source', hrespelled, hsource', -, hwritten⟩ := Source.exists_written hlead bs
    have hkept := promised_of_isWritten hsource' hwritten (hrespelled.ofDocument hlead h)
    exact hkept.of_length_eq hrespelled.length_eq

end TagRange

/-- In a document that is not in UTF-16 the elements are found, and a plan for them can be carried
out. -/
theorem exists_splice_of_ofDocument {buffer : Bytes} {source : Source} {ranges : List TagRange}
    (hsource : Source.ofBytes buffer = .ok source) (hunit : source.encoding.unit = 1)
    (h : TagRange.ofDocument buffer = .ok ranges) (tags : List String) (naming : Patch.Naming) :
    ∃ elements patched, trackedElements buffer tags ranges = .ok elements ∧
      Patch.splice buffer (Patch.planDetected buffer elements naming) = .ok patched := by
  obtain ⟨elements, patched, hfound, -, -, -, hsplice⟩ := Patch.splice_plan_of_promised
    (TagRange.promised_of_ofDocument hsource hunit h) tags naming (firstNewline buffer).bytes
  exact ⟨elements, patched, hfound, hsplice⟩

end AccessPatch
