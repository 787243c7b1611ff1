import AccessPatch.Proofs.Undoing

/-!
# Operations that take less than nothing

The number of bytes that an operation replaces is an integer, and `splice` compares ends of ranges
with the size of the document and with each other, but not with where they start. The check is
right about any numbers (`splice_error_iff`), since operations are in the order of their offsets
when it is made. What it lets through lies in the document (`Op.LiesIn`) unless the number is
negative.

Within the document, a range that would end before it starts takes no bytes: to splice such
operations is to splice them `clipped`, so the bytes outside the ranges are kept
(`splice_refuses`). A range that would end before the document starts is another matter, since its
end then counts from the end of the document.
-/

namespace AccessPatch.Patch

/-! ## What the check accepts -/

/-- The check is right about operations in order, whatever their ranges are. -/
theorem checkFrom_inOrder_iff (size : Nat) (ops : List Op) :
    checkFrom size 0 (inOrder ops) = .ok () ↔ Disjoint size 0 (inOrder ops) := by
  refine checkFrom_eq_ok_iff_of_pairwise ((inOrder_sorted ops).imp fun {a b} hle => ?_)
  exact fun _ => hle

theorem disjoint_of_splice_ok {buffer patched : Bytes} {ops : List Op}
    (h : splice buffer ops = .ok patched) :
    Disjoint buffer.length 0 (inOrder ops) := by
  obtain ⟨_, hcheck, -⟩ := bind_eq_ok_iff.mp h
  exact (checkFrom_inOrder_iff _ _).mp hcheck

/-- Operations are refused exactly if one does not lie in the document or two overlap. -/
theorem splice_error_iff (buffer : Bytes) (ops : List Op) :
    (∃ misfit, splice buffer ops = .error misfit) ↔ Misfits buffer ops := by
  have hcheck := checkFrom_inOrder_iff buffer.length ops
  rw [← not_misfits_iff] at hcheck
  rw [← not_iff_not, ← hcheck, splice]
  cases checkFrom buffer.length 0 (inOrder ops) with
  | error misfit => simp [bind, Except.bind]
  | ok => simp [bind, Except.bind, pure, Except.pure]

/-! ## Ranges that end before they start -/

/-- The operation is for a range of a document of `size` bytes, or for one that would end before
it starts. -/
structure Op.LiesIn (op : Op) (size : Nat) : Prop where
  starts : 0 ≤ op.offset ∧ op.offset ≤ size
  stops : 0 ≤ op.stop

/-- The operation that takes no bytes where this one would take less. -/
def Op.clipped (op : Op) : Op :=
  { op with replaced := max 0 op.replaced }

theorem Op.stop_clipped (op : Op) : op.clipped.stop = max op.offset op.stop := by
  simp only [Op.stop, Op.clipped]
  omega

theorem forward_clipped (ops : List Op) : Forward (ops.map Op.clipped) := by
  intro _ hclipped
  obtain ⟨op, -, rfl⟩ := List.mem_map.mp hclipped
  exact le_max_left 0 _

theorem inOrder_clipped (ops : List Op) :
    inOrder (ops.map Op.clipped) = (inOrder ops).map Op.clipped :=
  (List.map_mergeSort (f := Op.clipped) fun _ _ _ _ => rfl).symm

theorem replaceRange_clipped {op : Op} (hstart : 0 ≤ op.offset) (hstop : 0 ≤ op.stop)
    (bytes : Bytes) :
    replaceRange bytes op.clipped.offset op.clipped.stop op.clipped.text =
      replaceRange bytes op.offset op.stop op.text := by
  have hclipped : ¬ op.clipped.stop < 0 := by
    rw [op.stop_clipped]
    omega
  have hmax : max op.offset.toNat op.clipped.stop.toNat = max op.offset.toNat op.stop.toNat := by
    rw [op.stop_clipped]
    omega
  show bytes.take op.offset.toNat ++ op.text ++
    bytes.drop (max op.offset.toNat (if op.clipped.stop < 0 then _ else op.clipped.stop).toNat) = _
  rw [if_neg hclipped, hmax, replaceRange, if_neg (not_lt.mpr hstop)]

theorem disjoint_clipped {size : Nat} {pos : Int} {ops : List Op}
    (hsorted : ops.Pairwise fun a b => a.offset ≤ b.offset) (hin : ∀ op ∈ ops, op.LiesIn size)
    (h : Disjoint size pos ops) : Disjoint size pos (ops.map Op.clipped) := by
  refine ⟨fun _ hclipped => ?_, fun _ hclipped => ?_, ?_⟩
  · obtain ⟨op, hop, rfl⟩ := List.mem_map.mp hclipped
    exact h.after op hop
  · obtain ⟨op, hop, rfl⟩ := List.mem_map.mp hclipped
    have hlies := (hin op hop).starts
    have hinside := h.inside op hop
    rw [op.stop_clipped]
    exact ⟨hlies.1, max_le hlies.2 hinside.2⟩
  · refine List.pairwise_map.mpr ((hsorted.and h.apart).imp fun {a b} hab => ?_)
    rw [a.stop_clipped]
    exact max_le hab.1 hab.2

/-- Within a document, less than nothing is nothing. -/
theorem splice_clipped {buffer patched : Bytes} {ops : List Op}
    (hin : ∀ op ∈ ops, op.LiesIn buffer.length) (h : splice buffer ops = .ok patched) :
    splice buffer (ops.map Op.clipped) = .ok patched := by
  have hin' : ∀ op ∈ inOrder ops, op.LiesIn buffer.length :=
    fun op hop => hin op ((inOrder_perm ops).mem_iff.mp hop)
  have hdisjoint := disjoint_clipped (inOrder_sorted ops) hin' (disjoint_of_splice_ok h)
  have hcheck : checkFrom buffer.length 0 ((inOrder ops).map Op.clipped) = .ok () :=
    (checkFrom_eq_ok_iff (inOrder_clipped ops ▸ (forward_clipped ops).inOrder)).mpr hdisjoint
  have hfold : ((inOrder ops).map Op.clipped).foldr
      (fun op bytes => replaceRange bytes op.offset op.stop op.text) buffer =
        (inOrder ops).foldr (fun op bytes => replaceRange bytes op.offset op.stop op.text)
          buffer := by
    rw [List.foldr_map]
    refine List.foldr_ext _ _ _ fun op hop bytes => ?_
    exact replaceRange_clipped (hin' op hop).starts.1 (hin' op hop).stops bytes
  obtain ⟨_, -, hpatched⟩ := bind_eq_ok_iff.mp h
  rw [splice, inOrder_clipped, hcheck, hfold]
  exact hpatched

/-! ## What is kept -/

/-- Whether the byte at `i` is in the range of the operation. -/
def Op.covers (op : Op) (i : Nat) : Bool :=
  decide (op.offset ≤ i ∧ i < max op.offset op.stop)

/-- The bytes of a document from `pos` on that are in no range. -/
def untouchedFrom (buffer : Bytes) (pos : Nat) (ops : List Op) : Bytes :=
  (((buffer.drop pos).zipIdx pos).filter fun b => ops.all fun op => ! op.covers b.2).map Prod.fst

/-- The bytes of a document that are in no range. -/
def untouched (buffer : Bytes) (ops : List Op) : Bytes :=
  untouchedFrom buffer 0 ops

theorem untouched_clipped (buffer : Bytes) (ops : List Op) :
    untouched buffer (ops.map Op.clipped) = untouched buffer ops := by
  have hcovers : ∀ (op : Op) (i : Nat), op.clipped.covers i = op.covers i := by
    intro op i
    have hoffset : op.clipped.offset = op.offset := rfl
    rw [Op.covers, Op.covers, op.stop_clipped, hoffset, max_eq_right (le_max_left _ _)]
  simp only [untouched, untouchedFrom, List.all_map, Function.comp_def, hcovers]

theorem untouched_perm {buffer : Bytes} {ops ops' : List Op} (h : ops'.Perm ops) :
    untouched buffer ops' = untouched buffer ops := by
  simp only [untouched, untouchedFrom, h.all_eq]

theorem untouchedFrom_sublist {buffer : Bytes} {pos : Int} {ops : List Op} (hf : Forward ops)
    (hd : Disjoint buffer.length pos ops) (hpos : 0 ≤ pos) :
    (untouchedFrom buffer pos.toNat ops).Sublist (fillFrom buffer pos ops) := by
  induction ops generalizing pos with
  | nil =>
    rw [untouchedFrom, fillFrom, List.filter_eq_self.mpr (by simp), List.zipIdx_map_fst]
  | cons op rest ih =>
    obtain ⟨⟨hafter, h0, hinside⟩, hrest⟩ := (disjoint_cons_iff hf).mp hd
    have hle := hf.offset_le_stop List.mem_cons_self
    have ih := ih hf.tail hrest (by omega)
    -- The document from `pos` on: up to the range, the range, and what follows.
    have hsplit : buffer.drop pos.toNat =
        slice buffer pos op.offset ++
          (slice buffer op.offset op.stop ++ buffer.drop op.stop.toNat) := by
      rw [slice_append_drop buffer hle, slice_append_drop buffer hafter]
    have hbefore : pos.toNat + (slice buffer pos op.offset).length = op.offset.toNat := by
      simp only [slice, List.length_drop, List.length_take]
      omega
    have hrange : op.offset.toNat + (slice buffer op.offset op.stop).length = op.stop.toNat := by
      simp only [slice, List.length_drop, List.length_take]
      omega
    rw [untouchedFrom, hsplit, List.zipIdx_append, List.zipIdx_append, hbefore, hrange,
      List.filter_append, List.filter_append, List.map_append, List.map_append, fillFrom,
      List.append_assoc]
    refine List.Sublist.append ?_ (List.Sublist.append ?_ ?_)
    · have hkept := (List.filter_sublist (p := fun b => (op :: rest).all fun op => ! op.covers b.2)
        (l := (slice buffer pos op.offset).zipIdx pos.toNat)).map Prod.fst
      rwa [List.zipIdx_map_fst] at hkept
    · have hnone : ((slice buffer op.offset op.stop).zipIdx op.offset.toNat).filter
          (fun b => (op :: rest).all fun op => ! op.covers b.2) = [] := by
        refine List.filter_eq_nil_iff.mpr fun b hb => ?_
        have hlow := List.le_snd_of_mem_zipIdx hb
        have hhigh := List.snd_lt_add_of_mem_zipIdx hb
        have hcovers : op.covers b.2 = true := by
          rw [Op.covers, decide_eq_true_eq]
          omega
        simp [hcovers]
      rw [hnone]
      exact List.nil_sublist _
    · refine List.Sublist.trans (List.Sublist.map _ ?_) ih
      refine List.monotone_filter_right _ fun b hb => ?_
      rw [List.all_cons, Bool.and_eq_true] at hb
      exact hb.2

/-- **Guarded splicing.** Operations with any integers are refused exactly if one does not lie in
the document or begins before one ahead of it has ended. Those that are carried out start in the
document and end in it, but for operations that replace a negative number of bytes. If those, too,
stay within the document then they take no bytes, and the result has all bytes that are in no
range, in their order. -/
theorem splice_refuses (buffer : Bytes) (ops : List Op) :
    ((∃ misfit, splice buffer ops = .error misfit) ↔ Misfits buffer ops) ∧
    ∀ patched, splice buffer ops = .ok patched →
      (∀ op ∈ ops, 0 ≤ op.offset ∧ op.stop ≤ buffer.length ∧
        (0 ≤ op.replaced → op.LiesIn buffer.length)) ∧
      ((∀ op ∈ ops, op.LiesIn buffer.length) →
        patched = leftToRight buffer (inOrder (ops.map Op.clipped)) ∧
        (untouched buffer ops).Sublist patched) := by
  refine ⟨splice_error_iff buffer ops, fun patched h => ⟨fun op hop => ?_, fun hin => ?_⟩⟩
  · obtain ⟨hstart, hstop⟩ :=
      (disjoint_of_splice_ok h).inside op ((inOrder_perm ops).mem_iff.mpr hop)
    refine ⟨hstart, hstop, fun hreplaced => ?_⟩
    simp only [Op.stop] at hstop
    exact ⟨⟨hstart, by omega⟩, by simp only [Op.stop]; omega⟩
  · obtain ⟨hdisjoint, hpatched⟩ := disjoint_of_splice (forward_clipped ops) (splice_clipped hin h)
    refine ⟨hpatched, ?_⟩
    rw [hpatched, ← untouched_clipped, ← untouched_perm (inOrder_perm _)]
    exact untouchedFrom_sublist (forward_clipped ops).inOrder hdisjoint le_rfl

/-- A text for a range of a document that would end five bytes before it starts, and before the
document does. -/
def backwardOps : List Op :=
  [⟨2, [0x58], sampleSource, -5⟩]

/-- The operation is carried out, and what it takes is counted from the end of the document. -/
theorem backwardOps_carried_out :
    splice [0x30, 0x31, 0x32, 0x33, 0x34, 0x35, 0x36, 0x37, 0x38, 0x39] backwardOps =
      .ok [0x30, 0x31, 0x58, 0x37, 0x38, 0x39] ∧
    (¬ ∀ op ∈ backwardOps, op.LiesIn 10) ∧
    ¬ (untouched [0x30, 0x31, 0x32, 0x33, 0x34, 0x35, 0x36, 0x37, 0x38, 0x39] backwardOps).Sublist
      [0x30, 0x31, 0x58, 0x37, 0x38, 0x39] := by
  have horder : inOrder backwardOps = backwardOps := List.mergeSort_singleton _
  refine ⟨?_, fun h => ?_, fun h => ?_⟩
  · rw [splice, horder]
    rfl
  · exact absurd (h _ (List.mem_singleton.mpr rfl)).stops (by decide)
  · exact absurd h.length_le (by decide)

end AccessPatch.Patch
