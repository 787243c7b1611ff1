import AccessPatch.Proofs.Planning
import Mathlib.Algebra.BigOperators.Group.List.Basic
import Mathlib.Algebra.Ring.Int.Defs

/-!
# Taking operations back

The document that operations leave holds their texts where `undoFrom` says, and to put back what
stood there gives the document as it was (`splice_undoFrom`). The induction is on the operations
that are still to the right: those before have made the document longer by `shift`.

`inverse` writes the same list down operation by operation, each with the sum of what those before
it add. Main result: `splice_inverse`, with the length of the document that operations leave.
-/

namespace AccessPatch.Patch

/-- The operations that take back `ops`, which are in order, where those before have made the
document longer by `shift`. -/
def undoFrom (buffer : Bytes) (shift : Int) : List Op → List Op
  | [] => []
  | op :: rest =>
    { offset := op.offset + shift, text := slice buffer op.offset op.stop, source := op.source
      replaced := op.text.length } :: undoFrom buffer (shift + op.growth) rest

theorem forward_undoFrom (buffer : Bytes) (shift : Int) (ops : List Op) :
    Forward (undoFrom buffer shift ops) := by
  induction ops generalizing shift with
  | nil => simp [Forward, undoFrom]
  | cons op rest ih => exact List.forall_mem_cons.mpr ⟨Int.natCast_nonneg _, ih _⟩

theorem slice_append_drop (buffer : Bytes) {start stop : Int} (h : start ≤ stop) :
    slice buffer start stop ++ buffer.drop stop.toNat = buffer.drop start.toNat := by
  have hall := List.take_append_drop stop.toNat buffer
  rw [← take_append_slice buffer h, List.append_assoc] at hall
  have hlength : buffer.take start.toNat ++ (slice buffer start stop ++ buffer.drop stop.toNat) =
      buffer.take start.toNat ++ buffer.drop start.toNat :=
        hall.trans (List.take_append_drop _ _).symm
  exact List.append_cancel_left hlength

/-- The texts stand apart in the patched document, and with the old bytes in their place it is the
old one from `pos` on. -/
theorem fillFrom_undoFrom {buffer patched front : Bytes} {pos shift : Int} {ops : List Op}
    (hf : Forward ops) (hd : Disjoint buffer.length pos ops) (hpos : 0 ≤ pos)
    (hsize : pos ≤ buffer.length) (hfront : (front.length : Int) = pos + shift)
    (hpatched : patched = front ++ fillFrom buffer pos ops) :
    Disjoint patched.length (pos + shift) (undoFrom buffer shift ops) ∧
      fillFrom patched (pos + shift) (undoFrom buffer shift ops) = buffer.drop pos.toNat := by
  induction ops generalizing front pos shift with
  | nil =>
    refine ⟨disjoint_nil _ _, ?_⟩
    rw [undoFrom, fillFrom, hpatched, ← hfront, Int.toNat_natCast, List.drop_left]
    rfl
  | cons op rest ih =>
    obtain ⟨⟨hafter, h0, hinside⟩, hrest⟩ := (disjoint_cons_iff hf).mp hd
    have hle := hf.offset_le_stop List.mem_cons_self
    obtain ⟨before, hbeforeEq⟩ : ∃ before, before = front ++ slice buffer pos op.offset := ⟨_, rfl⟩
    have hbefore : (before.length : Int) = op.offset + shift := by
      rw [hbeforeEq]
      simp only [slice, List.length_append, List.length_drop, List.length_take]
      omega
    have hsplit : patched = before ++ (op.text ++ fillFrom buffer op.stop rest) := by
      rw [hpatched, fillFrom, hbeforeEq]
      simp only [List.append_assoc]
    have hlength : patched.length =
        before.length + (op.text.length + (fillFrom buffer op.stop rest).length) := by
      rw [hsplit, List.length_append, List.length_append]
    have hnext : op.offset + shift + op.text.length = op.stop + (shift + op.growth) := by
      simp only [Op.stop, Op.growth]
      omega
    have hfront' : ((before ++ op.text).length : Int) = op.stop + (shift + op.growth) := by
      rw [List.length_append]
      push_cast
      omega
    obtain ⟨hdisjoint, hfill⟩ := ih hf.tail hrest (by omega) hinside hfront'
      (by rw [hsplit, List.append_assoc])
    let undo : Op :=
      { offset := op.offset + shift, text := slice buffer op.offset op.stop, source := op.source
        replaced := op.text.length }
    have hstop : undo.stop = op.stop + (shift + op.growth) := hnext
    have hoffset : undo.offset = op.offset + shift := rfl
    constructor
    · refine (disjoint_cons_iff (forward_undoFrom buffer shift (op :: rest))).mpr ⟨⟨?_, ?_, ?_⟩, ?_⟩
      · show pos + shift ≤ undo.offset
        omega
      · show 0 ≤ undo.offset
        omega
      · show undo.stop ≤ patched.length
        omega
      · show Disjoint patched.length undo.stop _
        rw [hstop]
        exact hdisjoint
    · have hslice : slice patched (pos + shift) undo.offset = slice buffer pos op.offset := by
        rw [hsplit, hbeforeEq, List.append_assoc]
        refine slice_of_append hfront.symm ?_
        rw [hoffset, ← hbefore, hbeforeEq, List.length_append]
        push_cast
        rfl
      show slice patched (pos + shift) undo.offset ++ undo.text ++ fillFrom patched undo.stop _ = _
      rw [hslice, hstop, hfill, List.append_assoc, slice_append_drop buffer hle,
        slice_append_drop buffer hafter]

/-- **Undoing.** Operations that are carried out can be taken back. -/
theorem splice_undoFrom {buffer patched : Bytes} {ops : List Op} (hf : Forward ops)
    (h : splice buffer ops = .ok patched) :
    splice patched (undoFrom buffer 0 (inOrder ops)) = .ok buffer := by
  obtain ⟨hd, hpatched⟩ := disjoint_of_splice hf h
  have hempty : (([] : Bytes).length : Int) = 0 + 0 := rfl
  obtain ⟨hdisjoint, hfill⟩ := fillFrom_undoFrom hf.inOrder hd le_rfl (by omega) hempty hpatched
  have hforward := forward_undoFrom buffer 0 (inOrder ops)
  have hinOrder : inOrder (undoFrom buffer 0 (inOrder ops)) = undoFrom buffer 0 (inOrder ops) :=
    inOrder_of_apart hforward hdisjoint.apart
  rw [splice_eq_ok_of_disjoint hforward (by rwa [hinOrder]), hinOrder, leftToRight]
  exact congrArg Except.ok hfill

/-! ## The inverse, operation by operation -/

/-- The operations that take back `ops`, made for any elements. The one that takes back the `i`-th
in order stands where its text went, and puts back what it replaced. -/
def inverse (buffer : Bytes) (ops : List Op) (source : Nat → Element) : List Op :=
  (inOrder ops).mapIdx fun i op =>
    { offset := op.offset + (((inOrder ops).take i).map Op.growth).sum
      text := slice buffer op.offset op.stop, source := source i, replaced := op.text.length }

/-- What an operation does, without the element that it is made for. -/
def Op.edit (op : Op) : Int × Bytes × Int :=
  (op.offset, op.text, op.replaced)

theorem map_edit_inOrder (ops : List Op) :
    (inOrder ops).map Op.edit = (ops.map Op.edit).mergeSort fun a b => decide (a.1 ≤ b.1) :=
  List.map_mergeSort fun _ _ _ _ => rfl

theorem checkFrom_congr {size : Nat} {previousEnd : Int} {ops ops' : List Op}
    (h : ops'.map Op.edit = ops.map Op.edit) :
    checkFrom size previousEnd ops' = checkFrom size previousEnd ops := by
  induction ops generalizing previousEnd ops' with
  | nil => rw [List.map_eq_nil_iff.mp h]
  | cons op rest ih =>
    obtain ⟨op', rest', rfl, hedit, hrest⟩ := List.map_eq_cons_iff.mp h
    obtain ⟨hoffset, -, hreplaced⟩ :
        op'.offset = op.offset ∧ op'.text = op.text ∧ op'.replaced = op.replaced := by
      simpa [Op.edit] using hedit
    have hstop : op'.stop = op.stop := by rw [Op.stop, Op.stop, hoffset, hreplaced]
    rw [checkFrom, checkFrom, hoffset, hstop, ih hrest]

/-- Splicing does not ask which elements operations are made for. -/
theorem splice_congr {buffer : Bytes} {ops ops' : List Op}
    (h : ops'.map Op.edit = ops.map Op.edit) :
    splice buffer ops' = splice buffer ops := by
  have hsorted : (inOrder ops').map Op.edit = (inOrder ops).map Op.edit := by
    rw [map_edit_inOrder, map_edit_inOrder, h]
  have hfold : ∀ xs : List Op,
      xs.foldr (fun op bytes => replaceRange bytes op.offset op.stop op.text) buffer =
        (xs.map Op.edit).foldr (fun x bytes => replaceRange bytes x.1 (x.1 + x.2.2) x.2.1)
          buffer := by
    intro xs
    rw [List.foldr_map]
    rfl
  rw [splice, splice, checkFrom_congr hsorted, hfold, hfold, hsorted]

theorem undoFrom_eq_mapIdx (buffer : Bytes) (shift : Int) (ops : List Op) :
    undoFrom buffer shift ops = ops.mapIdx fun i op =>
      { offset := op.offset + (shift + ((ops.take i).map Op.growth).sum)
        text := slice buffer op.offset op.stop
        source := op.source
        replaced := op.text.length } := by
  induction ops generalizing shift with
  | nil => rfl
  | cons op rest ih =>
    rw [undoFrom, ih, List.mapIdx_cons]
    simp only [List.take_succ_cons, List.map_cons, List.sum_cons, List.take_zero, List.map_nil,
      List.sum_nil, add_zero, add_assoc]

theorem edit_inverse (buffer : Bytes) (ops : List Op) (source : Nat → Element) :
    (inverse buffer ops source).map Op.edit = (undoFrom buffer 0 (inOrder ops)).map Op.edit := by
  refine List.ext_getElem? fun i => ?_
  rw [undoFrom_eq_mapIdx, inverse]
  simp only [List.getElem?_map, List.getElem?_mapIdx, Option.map_map]
  congr 1
  funext op
  simp only [Function.comp, Op.edit, zero_add]

/-- Each operation makes the document longer by what its text has more than what it replaces. -/
theorem length_fillFrom {buffer : Bytes} {pos : Int} {ops : List Op} (hf : Forward ops)
    (hd : Disjoint buffer.length pos ops) (hpos : 0 ≤ pos) (hsize : pos ≤ buffer.length) :
    ((fillFrom buffer pos ops).length : Int) = buffer.length - pos + (ops.map Op.growth).sum := by
  induction ops generalizing pos with
  | nil =>
    simp only [fillFrom, List.length_drop, List.map_nil, List.sum_nil]
    omega
  | cons op rest ih =>
    obtain ⟨⟨hafter, h0, hinside⟩, hrest⟩ := (disjoint_cons_iff hf).mp hd
    have hle := hf.offset_le_stop List.mem_cons_self
    have hlength := ih hf.tail hrest (by omega) hinside
    have hstop : op.stop = op.offset + op.replaced := rfl
    simp only [fillFrom, slice, List.length_append, List.length_drop, List.length_take,
      List.map_cons, List.sum_cons, Op.growth]
    omega

/-- **Splicing is invertible.** What operations leave is taken back by operations that are
accepted in turn, and each operation makes the document longer by what its text has more than what
it replaces. -/
theorem splice_inverse {buffer patched : Bytes} {ops : List Op} (hf : Forward ops)
    (h : splice buffer ops = .ok patched) (source : Nat → Element) :
    splice patched (inverse buffer ops source) = .ok buffer ∧
      (patched.length : Int) =
        buffer.length + (ops.map fun op => (op.text.length : Int) - op.replaced).sum := by
  constructor
  · rw [splice_congr (edit_inverse buffer ops source)]
    exact splice_undoFrom hf h
  · obtain ⟨hd, rfl⟩ := disjoint_of_splice hf h
    have hlength := length_fillFrom hf.inOrder hd le_rfl (Int.natCast_nonneg _)
    have hsum := ((inOrder_perm ops).map Op.growth).sum_eq
    rw [leftToRight, hlength, hsum, sub_zero]
    rfl

/-- An element to make operations for. -/
def sampleSource : Element :=
  { tag := "view", extent := ⟨0, 3, 3, 3, by decide, by decide, by decide⟩, startLine := 1,
    endLine := 1 }

/-- Two bytes are taken out, and a text is put in behind them. -/
def sampleRemovals : List Op :=
  [⟨1, [], sampleSource, 1⟩, ⟨0, [], sampleSource, 1⟩, ⟨2, [0x58], sampleSource, 0⟩]

/-- The bytes come back to one place, in their order. -/
theorem splice_inverse_sampleRemovals :
    (Forward sampleRemovals ∧ splice [0x61, 0x62, 0x63] sampleRemovals = .ok [0x58, 0x63]) ∧
      inverse [0x61, 0x62, 0x63] sampleRemovals (fun _ => sampleSource) =
        [⟨0, [0x61], sampleSource, 0⟩, ⟨0, [0x62], sampleSource, 0⟩, ⟨0, [], sampleSource, 1⟩] ∧
      splice [0x58, 0x63] (inverse [0x61, 0x62, 0x63] sampleRemovals fun _ => sampleSource) =
        .ok [0x61, 0x62, 0x63] := by
  have hf : Forward sampleRemovals := by simp [Forward, sampleRemovals]
  have horder : inOrder sampleRemovals =
      [⟨0, [], sampleSource, 1⟩, ⟨1, [], sampleSource, 1⟩, ⟨2, [0x58], sampleSource, 0⟩] := by
    simp [inOrder, sampleRemovals, List.mergeSort, List.MergeSort.Internal.splitInTwo]
  have hd : Disjoint ([0x61, 0x62, 0x63] : Bytes).length 0 (inOrder sampleRemovals) := by
    rw [horder]
    exact ⟨by decide, by decide, by decide⟩
  have hsplice : splice [0x61, 0x62, 0x63] sampleRemovals = .ok [0x58, 0x63] := by
    rw [splice_eq_ok_of_disjoint hf hd, horder]
    rfl
  refine ⟨⟨hf, hsplice⟩, ?_, (splice_inverse hf hsplice fun _ => sampleSource).1⟩
  rw [inverse, horder]
  rfl

end AccessPatch.Patch
