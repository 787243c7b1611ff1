import AccessPatch.Patch.Splice
import AccessPatch.Proofs.Order

/-!
# Splicing from the end and from the start

`splice` carries out operations from the highest offset down in one growing document and compares
only neighbours. Here it is compared with a reference that reads the document once, from left to
right:

* `inOrder` is the stable sort by offset (`inOrder_perm`, `inOrder_sorted`, `filter_inOrder`).
* `checkFrom_eq_ok_iff`: the check of neighbours accepts exactly the operations that lie in the
  document and of which no two overlap. Ranges must not be negative, or an operation could end
  before one that it follows.
* `foldr_replaceRange`: as long as no two operations overlap, the places of the pending ones keep
  their meaning, since the document before them is still the original.
* `splice_eq_leftToRight`: both together, with what follows for operations at one offset and for
  operations at different offsets.
-/

namespace AccessPatch.Patch

/-! ## The order of operations -/

theorem inOrder_perm (ops : List Op) : (inOrder ops).Perm ops :=
  List.mergeSort_perm _ _

theorem inOrder_sorted (ops : List Op) :
    (inOrder ops).Pairwise fun a b => a.offset ≤ b.offset :=
  sorted_mergeSort_key Op.offset ops

/-- Operations at one offset keep their order. -/
theorem filter_inOrder (ops : List Op) (o : Int) :
    (inOrder ops).filter (·.offset = o) = ops.filter (·.offset = o) :=
  filter_mergeSort_key Op.offset ops o

/-- Where no two operations have one offset, the order does not depend on how they are given. -/
theorem inOrder_eq_of_perm {ops ops' : List Op} (hPerm : ops'.Perm ops)
    (hNodup : (ops.map Op.offset).Nodup) : inOrder ops' = inOrder ops :=
  mergeSort_key_eq_of_perm Op.offset hPerm hNodup

/-! ## Which operations are accepted -/

/-- No operation ends before it starts. -/
def Forward (ops : List Op) : Prop := ∀ op ∈ ops, 0 ≤ op.replaced

/-- The operations lie in a document of `size` bytes from `pos` on, and none begins before one
ahead of it has ended. -/
structure Disjoint (size : Nat) (pos : Int) (ops : List Op) : Prop where
  after : ∀ op ∈ ops, pos ≤ op.offset
  inside : ∀ op ∈ ops, 0 ≤ op.offset ∧ op.stop ≤ size
  apart : ops.Pairwise fun a b => a.stop ≤ b.offset

theorem Forward.offset_le_stop {ops : List Op} (h : Forward ops) {op : Op} (hop : op ∈ ops) :
    op.offset ≤ op.stop := by
  have := h op hop
  simp only [Op.stop]
  omega

theorem Forward.tail {op : Op} {rest : List Op} (h : Forward (op :: rest)) : Forward rest :=
  fun x hx => h x (List.mem_cons_of_mem _ hx)

theorem Forward.inOrder {ops : List Op} (h : Forward ops) : Forward (inOrder ops) :=
  fun op hop => h op ((inOrder_perm ops).mem_iff.mp hop)

/-- Operations that follow one another are in order. -/
theorem inOrder_of_apart {ops : List Op} (hf : Forward ops)
    (h : ops.Pairwise fun a b => a.stop ≤ b.offset) : inOrder ops = ops := by
  refine List.mergeSort_of_pairwise (h.imp_of_mem fun ha _ hle => ?_)
  have := hf.offset_le_stop ha
  simp only [decide_eq_true_eq]
  omega

theorem disjoint_nil (size : Nat) (pos : Int) : Disjoint size pos [] :=
  ⟨by simp, by simp, .nil⟩

/-- The first operation and the others, where those that begin past its end begin past its start,
too. -/
theorem disjoint_cons_iff_of_le {size : Nat} {pos : Int} {op : Op} {rest : List Op}
    (h : ∀ next ∈ rest, op.stop ≤ next.offset → op.offset ≤ next.offset) :
    Disjoint size pos (op :: rest) ↔
      (pos ≤ op.offset ∧ 0 ≤ op.offset ∧ op.stop ≤ size) ∧ Disjoint size op.stop rest := by
  constructor
  · intro ⟨after, inside, apart⟩
    obtain ⟨hop, hrest⟩ := List.pairwise_cons.mp apart
    exact ⟨⟨after op List.mem_cons_self, inside op List.mem_cons_self⟩,
      hop, fun x hx => inside x (List.mem_cons_of_mem _ hx), hrest⟩
  · rintro ⟨⟨hpos, hin⟩, after, inside, apart⟩
    refine ⟨List.forall_mem_cons.mpr ⟨hpos, fun x hx => ?_⟩, List.forall_mem_cons.mpr ⟨hin, inside⟩,
      List.pairwise_cons.mpr ⟨after, apart⟩⟩
    exact hpos.trans (h x hx (after x hx))

theorem disjoint_cons_iff {size : Nat} {pos : Int} {op : Op} {rest : List Op}
    (h : Forward (op :: rest)) :
    Disjoint size pos (op :: rest) ↔
      (pos ≤ op.offset ∧ 0 ≤ op.offset ∧ op.stop ≤ size) ∧ Disjoint size op.stop rest :=
  disjoint_cons_iff_of_le fun _ _ hle => (h.offset_le_stop List.mem_cons_self).trans hle

/-- Comparing each operation with the one before it is enough to tell whether any two overlap. -/
theorem checkFrom_eq_ok_iff_of_pairwise {size : Nat} {pos : Int} {ops : List Op}
    (h : ops.Pairwise fun a b => a.stop ≤ b.offset → a.offset ≤ b.offset) :
    checkFrom size pos ops = .ok () ↔ Disjoint size pos ops := by
  induction ops generalizing pos with
  | nil => exact ⟨fun _ => disjoint_nil size pos, fun _ => rfl⟩
  | cons op rest ih =>
    obtain ⟨hop, hrest⟩ := List.pairwise_cons.mp h
    rw [disjoint_cons_iff_of_le hop, ← ih hrest, checkFrom]
    split
    · simp only [reduceCtorEq, false_iff, not_and]
      omega
    · split
      · simp only [reduceCtorEq, false_iff, not_and]
        omega
      · constructor
        · intro hcheck
          exact ⟨by omega, hcheck⟩
        · exact And.right

theorem checkFrom_eq_ok_iff {size : Nat} {pos : Int} {ops : List Op} (h : Forward ops) :
    checkFrom size pos ops = .ok () ↔ Disjoint size pos ops := by
  refine checkFrom_eq_ok_iff_of_pairwise (List.pairwise_of_forall_mem_list fun op hop _ _ hle => ?_)
  exact (h.offset_le_stop hop).trans hle

/-! ## The document from left to right -/

/-- The bytes from `start` to `stop`. -/
def slice (buffer : Bytes) (start stop : Int) : Bytes :=
  (buffer.take stop.toNat).drop start.toNat

/-- The document from `pos` on, with the texts of operations in the place of their ranges. -/
def fillFrom (buffer : Bytes) (pos : Int) : List Op → Bytes
  | [] => buffer.drop pos.toNat
  | op :: rest => slice buffer pos op.offset ++ op.text ++ fillFrom buffer op.stop rest

/-- What stands before the first operation, its text, what stands between it and the second, and so
on, to what stands after the last. -/
def leftToRight (buffer : Bytes) (ops : List Op) : Bytes :=
  fillFrom buffer 0 ops

theorem take_append_slice (buffer : Bytes) {start stop : Int} (h : start ≤ stop) :
    buffer.take start.toNat ++ slice buffer start stop = buffer.take stop.toNat := by
  have hmin : buffer.take start.toNat = (buffer.take stop.toNat).take start.toNat := by
    rw [List.take_take, Nat.min_eq_left (by omega)]
  rw [hmin, slice, List.take_append_drop]

theorem replaceRange_take_append {buffer : Bytes} {start stop : Int} (h0 : 0 ≤ start)
    (hle : start ≤ stop) (hsize : stop ≤ buffer.length) (text rest : Bytes) :
    replaceRange (buffer.take stop.toNat ++ rest) start stop text =
      buffer.take start.toNat ++ text ++ rest := by
  have hlength : (buffer.take stop.toNat).length = stop.toNat := by
    rw [List.length_take, Nat.min_eq_left (by omega)]
  have hmax : max start.toNat stop.toNat = stop.toNat := by omega
  have htake : (buffer.take stop.toNat ++ rest).take start.toNat = buffer.take start.toNat := by
    rw [List.take_append_of_le_length (by omega), List.take_take, Nat.min_eq_left (by omega)]
  have hdrop : (buffer.take stop.toNat ++ rest).drop stop.toNat = rest :=
    List.drop_left' hlength
  simp only [replaceRange, if_neg (show ¬ stop < 0 by omega), hmax, htake, hdrop]

/-- Once the operations from `pos` on are carried out, the document before `pos` is as it was, and
what follows is the reference. The induction is on the operations that are still to the right. -/
theorem foldr_replaceRange {buffer : Bytes} {pos : Int} {ops : List Op} (hf : Forward ops)
    (hd : Disjoint buffer.length pos ops) :
    ops.foldr (fun op bytes => replaceRange bytes op.offset op.stop op.text) buffer =
      buffer.take pos.toNat ++ fillFrom buffer pos ops := by
  induction ops generalizing pos with
  | nil => exact (List.take_append_drop _ _).symm
  | cons op rest ih =>
    obtain ⟨⟨hpos, h0, hsize⟩, hrest⟩ := (disjoint_cons_iff hf).mp hd
    have hle := hf.offset_le_stop List.mem_cons_self
    rw [List.foldr_cons, ih hf.tail hrest, replaceRange_take_append h0 hle hsize, fillFrom,
      ← take_append_slice buffer hpos]
    simp only [List.append_assoc]

/-! ## Operations at one offset -/

theorem fillFrom_append_at {buffer : Bytes} {pos o : Int} {same high : List Op} (hne : same ≠ [])
    (hoffset : ∀ op ∈ same, op.offset = o) (hf : Forward same)
    (apart : same.Pairwise fun a b => a.stop ≤ b.offset) :
    fillFrom buffer pos (same ++ high) =
      slice buffer pos o ++ same.flatMap Op.text ++
        fillFrom buffer (same.getLast hne).stop high := by
  induction same generalizing pos with
  | nil => exact absurd rfl hne
  | cons op rest ih =>
    have hop := hoffset op List.mem_cons_self
    cases rest with
    | nil => simp [fillFrom, hop]
    | cons next rest =>
      have hnext := hoffset next (by simp)
      have hle := hf.offset_le_stop List.mem_cons_self
      have hstop : op.stop = o := by
        have := (List.pairwise_cons.mp apart).1 next (by simp)
        omega
      have hempty : slice buffer o o = [] := by simp [slice]
      have hlast : (op :: next :: rest).getLast hne = (next :: rest).getLast (by simp) :=
        List.getLast_cons _
      rw [List.cons_append, fillFrom, ih (by simp)
        (fun x hx => hoffset x (List.mem_cons_of_mem _ hx)) hf.tail (List.pairwise_cons.mp apart).2,
        hop, hstop, hempty, hlast]
      simp

theorem fillFrom_append_low {buffer : Bytes} {pos o : Int} {low rest : List Op} {tail : Bytes}
    (hf : Forward low) (hpos : pos ≤ o) (hlow : ∀ op ∈ low, op.stop ≤ o)
    (hrest : ∀ p ≤ o, fillFrom buffer p rest = slice buffer p o ++ tail) :
    fillFrom buffer pos (low ++ rest) = fillFrom (buffer.take o.toNat) pos low ++ tail := by
  induction low generalizing pos with
  | nil => exact hrest pos hpos
  | cons op low ih =>
    have hstop := hlow op List.mem_cons_self
    have hle := hf.offset_le_stop List.mem_cons_self
    have hslice : slice (buffer.take o.toNat) pos op.offset = slice buffer pos op.offset := by
      rw [slice, List.take_take, Nat.min_eq_left (by omega), slice]
    rw [List.cons_append, fillFrom, fillFrom, hslice,
      ih hf.tail hstop fun x hx => hlow x (List.mem_cons_of_mem _ hx)]
    simp only [List.append_assoc]

/-- A sorted list falls into what is below an offset, what is at it and what is above it. -/
theorem sorted_eq_append {ops : List Op}
    (h : ops.Pairwise fun a b => a.offset ≤ b.offset) (o : Int) :
    ops =
      ops.filter (·.offset < o) ++ (ops.filter (·.offset = o) ++ ops.filter (o < ·.offset)) := by
  induction ops with
  | nil => rfl
  | cons op rest ih =>
    obtain ⟨hop, hrest⟩ := List.pairwise_cons.mp h
    have ih := ih hrest
    rcases lt_trichotomy op.offset o with hlt | heq | hgt
    · simp only [List.filter_cons, hlt, hlt.ne, not_lt_of_gt hlt, decide_true,
        decide_false, if_true, Bool.false_eq_true, if_false, List.cons_append]
      exact congrArg _ ih
    · have hnone : rest.filter (·.offset < o) = [] := by
        refine List.filter_eq_nil_iff.mpr fun x hx => ?_
        have := hop x hx
        simp only [decide_eq_true_eq]
        omega
      simp only [List.filter_cons, heq, lt_irrefl, decide_true, decide_false, if_true,
        Bool.false_eq_true, if_false, List.cons_append, hnone, List.nil_append] at ih ⊢
      exact congrArg _ ih
    · have hnone : rest.filter (·.offset < o) = [] := by
        refine List.filter_eq_nil_iff.mpr fun x hx => ?_
        have := hop x hx
        simp only [decide_eq_true_eq]
        omega
      have hnone' : rest.filter (·.offset = o) = [] := by
        refine List.filter_eq_nil_iff.mpr fun x hx => ?_
        have := hop x hx
        simp only [decide_eq_true_eq]
        omega
      simp only [List.filter_cons, hgt, hgt.ne', not_lt_of_gt hgt, decide_true,
        decide_false, if_true, Bool.false_eq_true, if_false, hnone, hnone', List.nil_append] at ih ⊢
      exact congrArg _ ih

/-- The texts for one offset land side by side in the order given: after the document up to that
offset with the operations below, and before the rest with those above. -/
theorem leftToRight_inOrder_at {buffer : Bytes} {ops : List Op} {o : Int} (hf : Forward ops)
    (hd : Disjoint buffer.length 0 (inOrder ops)) (hne : ops.filter (·.offset = o) ≠ []) :
    leftToRight buffer (inOrder ops) =
      leftToRight (buffer.take o.toNat) ((inOrder ops).filter (·.offset < o)) ++
        (ops.filter (·.offset = o)).flatMap Op.text ++
        fillFrom buffer ((ops.filter (·.offset = o)).getLast hne).stop
          ((inOrder ops).filter (o < ·.offset)) := by
  have hsplit := sorted_eq_append (inOrder_sorted ops) o
  rw [filter_inOrder] at hsplit
  have hfs := hf.inOrder
  have happart := hd.apart
  rw [hsplit] at happart
  obtain ⟨-, hsame, hacross⟩ := List.pairwise_append.mp happart
  have hat : ∀ op ∈ ops.filter (·.offset = o), op.offset = o := fun op hop => by
    simpa using List.of_mem_filter hop
  obtain ⟨first, hfirst⟩ := List.exists_mem_of_ne_nil _ hne
  have hrest : ∀ p ≤ o, fillFrom buffer p
      (ops.filter (·.offset = o) ++ (inOrder ops).filter (o < ·.offset)) =
        slice buffer p o ++ ((ops.filter (·.offset = o)).flatMap Op.text ++
          fillFrom buffer ((ops.filter (·.offset = o)).getLast hne).stop
            ((inOrder ops).filter (o < ·.offset))) := by
    intro p _
    rw [fillFrom_append_at hne hat (fun op hop => hf op (List.mem_of_mem_filter hop))
      (List.pairwise_append.mp hsame).1, List.append_assoc]
  have hzero : 0 ≤ o := by
    have hmem := (inOrder_perm ops).mem_iff.mpr (List.mem_of_mem_filter hfirst)
    have := hd.after first hmem
    rwa [hat first hfirst] at this
  conv_lhs => rw [hsplit]
  rw [leftToRight, fillFrom_append_low
    (fun op hop => hfs op (List.mem_of_mem_filter hop)) hzero ?_ hrest, leftToRight,
    List.append_assoc]
  intro op hop
  have := hacross op hop first (List.mem_append_left _ hfirst)
  rwa [hat first hfirst] at this

/-! ## Splicing -/

/-- Some operation does not lie in the document, or some operation begins before one ahead of it
in the order of offsets has ended. -/
def Misfits (buffer : Bytes) (ops : List Op) : Prop :=
  (∃ op ∈ ops, op.offset < 0 ∨ buffer.length < op.stop) ∨
    ∃ i j, i < j ∧ ((inOrder ops).get j).offset < ((inOrder ops).get i).stop

theorem not_misfits_iff {buffer : Bytes} {ops : List Op} :
    ¬ Misfits buffer ops ↔ Disjoint buffer.length 0 (inOrder ops) := by
  constructor
  · intro h
    simp only [Misfits, not_or, not_exists, not_and, not_lt] at h
    obtain ⟨hin, hapart⟩ := h
    have hinside : ∀ op ∈ inOrder ops, 0 ≤ op.offset ∧ op.stop ≤ buffer.length :=
      fun op hop => hin op ((inOrder_perm ops).mem_iff.mp hop)
    exact ⟨fun op hop => (hinside op hop).1, hinside, List.pairwise_iff_get.mpr hapart⟩
  · rintro ⟨-, hinside, hapart⟩ (⟨op, hop, hout⟩ | ⟨i, j, hij, hover⟩)
    · have := hinside op ((inOrder_perm ops).mem_iff.mpr hop)
      omega
    · have := List.pairwise_iff_get.mp hapart i j hij
      omega

theorem splice_eq_ok_of_disjoint {buffer : Bytes} {ops : List Op} (hf : Forward ops)
    (hd : Disjoint buffer.length 0 (inOrder ops)) :
    splice buffer ops = .ok (leftToRight buffer (inOrder ops)) := by
  have hcheck := (checkFrom_eq_ok_iff hf.inOrder).mpr hd
  have hfold := foldr_replaceRange hf.inOrder hd
  simp only [Int.toNat_zero, List.take_zero, List.nil_append] at hfold
  simp only [splice, hcheck, bind, Except.bind, pure, Except.pure, hfold, leftToRight]

theorem splice_eq_error_iff {buffer : Bytes} {ops : List Op} (hf : Forward ops) :
    (∃ misfit, splice buffer ops = .error misfit) ↔ Misfits buffer ops := by
  constructor
  · rintro ⟨misfit, hsplice⟩
    by_contra h
    rw [splice_eq_ok_of_disjoint hf (not_misfits_iff.mp h)] at hsplice
    cases hsplice
  · intro h
    cases hcheck : checkFrom buffer.length 0 (inOrder ops) with
    | error misfit => exact ⟨misfit, by simp [splice, hcheck, bind, Except.bind]⟩
    | ok u => exact absurd h (not_misfits_iff.mpr ((checkFrom_eq_ok_iff hf.inOrder).mp hcheck))

/-- What is carried out is disjoint, and the result is the reference. -/
theorem disjoint_of_splice {buffer patched : Bytes} {ops : List Op} (hf : Forward ops)
    (h : splice buffer ops = .ok patched) :
    Disjoint buffer.length 0 (inOrder ops) ∧ patched = leftToRight buffer (inOrder ops) := by
  have hd : Disjoint buffer.length 0 (inOrder ops) := by
    rw [← not_misfits_iff, ← splice_eq_error_iff hf]
    rintro ⟨misfit, herror⟩
    rw [h] at herror
    cases herror
  exact ⟨hd, Except.ok.inj (h.symm.trans (splice_eq_ok_of_disjoint hf hd))⟩

/-- **Splicing equals the reference from left to right.** The operations in the stable order of
their offsets are refused exactly if one does not lie in the document or two overlap, and
otherwise give the document read once from left to right. So texts for one offset land side by
side in the order given, and operations at different offsets may be given in any order. -/
theorem splice_eq_leftToRight (buffer : Bytes) (ops : List Op) (hf : Forward ops) :
    ((inOrder ops).Perm ops ∧ ((inOrder ops).Pairwise fun a b => a.offset ≤ b.offset) ∧
      ∀ o : Int, (inOrder ops).filter (·.offset = o) = ops.filter (·.offset = o)) ∧
    ((∃ misfit, splice buffer ops = .error misfit) ↔ Misfits buffer ops) ∧
    (¬ Misfits buffer ops → splice buffer ops = .ok (leftToRight buffer (inOrder ops))) ∧
    (∀ (o : Int) (hne : ops.filter (·.offset = o) ≠ []), ¬ Misfits buffer ops →
      splice buffer ops = .ok
        (leftToRight (buffer.take o.toNat) ((inOrder ops).filter (·.offset < o)) ++
          (ops.filter (·.offset = o)).flatMap Op.text ++
          fillFrom buffer ((ops.filter (·.offset = o)).getLast hne).stop
            ((inOrder ops).filter (o < ·.offset)))) ∧
    ∀ ops' : List Op, ops'.Perm ops → (ops.map Op.offset).Nodup →
      splice buffer ops' = splice buffer ops := by
  refine ⟨⟨inOrder_perm ops, inOrder_sorted ops, filter_inOrder ops⟩,
    splice_eq_error_iff hf, ?_, ?_, ?_⟩
  · intro h
    exact splice_eq_ok_of_disjoint hf (not_misfits_iff.mp h)
  · intro o hne h
    have hd := not_misfits_iff.mp h
    rw [splice_eq_ok_of_disjoint hf hd, leftToRight_inOrder_at hf hd hne]
  · intro ops' hPerm hNodup
    simp only [splice, inOrder_eq_of_perm hPerm hNodup]

/-- Two texts for the place between two bytes, and one for the byte before it. -/
def sampleOps : List Op :=
  let source : Element := { tag := "view", extent := ⟨0, 1, 1, 2, by decide, by decide, by decide⟩,
                            startLine := 1, endLine := 1 }
  [⟨1, [0x58], source, 0⟩, ⟨1, [0x59], source, 0⟩, ⟨0, [0x5A], source, 1⟩]

theorem splice_sampleOps :
    Forward sampleOps ∧ splice [0x61, 0x62] sampleOps = .ok [0x5A, 0x58, 0x59, 0x62] := by
  have hf : Forward sampleOps := by simp [Forward, sampleOps]
  have horder : inOrder sampleOps = [sampleOps[2], sampleOps[0], sampleOps[1]] := by
    simp [inOrder, sampleOps, List.mergeSort, List.MergeSort.Internal.splitInTwo]
  have hd : ¬ Misfits [0x61, 0x62] sampleOps := by
    rw [not_misfits_iff, horder]
    exact ⟨by decide, by decide, by decide⟩
  refine ⟨hf, ?_⟩
  rw [(splice_eq_leftToRight [0x61, 0x62] sampleOps hf).2.2.1 hd, horder]
  rfl

end AccessPatch.Patch
