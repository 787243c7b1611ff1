import AccessPatch.Proofs.Lines
import Mathlib.Data.List.TakeWhile
import Mathlib.Data.Nat.Count

/-!
# The table of line starts

Two bytes show whether a terminator ends at an offset (`EndsNewline`), although the terminators
themselves are found in one pass from the left. The offsets where one ends are the starts of the
lines after the first, in order (`mem_starts_ofBytes_iff`, `pairwise_starts_ofBytes`), so the line
of an offset is found by counting them, and the table may be read in both directions
(`indexes_ofBytes`).

The indentation of a line is looked for backwards, from an offset to the last LF or CR. That is
where the table has the start of the line, except within a pair of CR and LF (`indentBefore_eq`).
-/

namespace AccessPatch

/-- A terminator ends at an offset: an LF does, or a CR that no LF follows. -/
def EndsNewline (buffer : Bytes) (offset : Nat) : Prop :=
  0 < offset ∧ (buffer[offset - 1]? = some 0x0A ∨
    buffer[offset - 1]? = some 0x0D ∧ buffer[offset]? ≠ some 0x0A)

instance (buffer : Bytes) : DecidablePred (EndsNewline buffer) := fun _ =>
  inferInstanceAs (Decidable (_ ∧ _))

section Ends

variable {b : UInt8} {bs buffer : Bytes} {start offset : Nat}

theorem not_endsNewline_nil : ¬ EndsNewline [] offset := by
  simp [EndsNewline]

/-- The first byte of a document is a terminator, or the end of one is later. -/
theorem endsNewline_cons_iff : EndsNewline (b :: bs) offset ↔
    offset = 1 ∧ (b = 0x0A ∨ b = 0x0D ∧ bs.head? ≠ some 0x0A) ∨
      ∃ before, offset = before + 1 ∧ EndsNewline bs before := by
  match offset with
  | 0 => simp [EndsNewline]
  | 1 => simp [EndsNewline, List.head?_eq_getElem?]
  | offset + 2 => simp [EndsNewline]

theorem EndsNewline.le_length (h : EndsNewline buffer offset) : offset ≤ buffer.length := by
  obtain ⟨hpos, hlf | ⟨hcr, -⟩⟩ := h
  · have := (List.getElem?_eq_some_iff.mp hlf).1
    omega
  · have := (List.getElem?_eq_some_iff.mp hcr).1
    omega

/-- The same, for the end of a document that has been read as far as `start`. -/
theorem exists_endsNewline_cons_iff :
    (∃ before, offset = start + before ∧ EndsNewline (b :: bs) before) ↔
    offset = start + 1 ∧ (b = 0x0A ∨ b = 0x0D ∧ bs.head? ≠ some 0x0A) ∨
      ∃ before, offset = start + 1 + before ∧ EndsNewline bs before := by
  simp only [endsNewline_cons_iff]
  constructor
  · rintro ⟨_, rfl, ⟨rfl, hb⟩ | ⟨before, rfl, hends⟩⟩
    · exact .inl ⟨rfl, hb⟩
    · exact .inr ⟨before, by omega, hends⟩
  · rintro (⟨rfl, hb⟩ | ⟨before, rfl, hends⟩)
    · exact ⟨1, rfl, .inl ⟨rfl, hb⟩⟩
    · exact ⟨before + 1, by omega, .inr ⟨before, rfl, hends⟩⟩

/-- The pass over a document finds a terminator wherever one ends. -/
theorem mem_lineBreaksFrom_iff : offset ∈ (lineBreaksFrom start bs).map Prod.snd ↔
    ∃ before, offset = start + before ∧ EndsNewline bs before := by
  fun_induction lineBreaksFrom start bs with
  | case1 => simp [not_endsNewline_nil]
  | case2 start rest ih =>
    rw [List.map_cons, List.mem_cons, ih, exists_endsNewline_cons_iff, exists_endsNewline_cons_iff]
    simp [Nat.add_assoc]
  | case3 start rest hno ih =>
    have hhead : rest.head? ≠ some 0x0A := by
      intro hhead
      obtain ⟨rest, rfl⟩ := List.head?_eq_some_iff.mp hhead
      exact hno rest rfl
    rw [List.map_cons, List.mem_cons, ih, exists_endsNewline_cons_iff]
    simp [hhead]
  | case4 start rest ih =>
    rw [List.map_cons, List.mem_cons, ih, exists_endsNewline_cons_iff]
    simp
  | case5 start b rest _ hcr hlf ih =>
    rw [ih, exists_endsNewline_cons_iff]
    simp [show b ≠ 0x0A from hlf, show b ≠ 0x0D from hcr]

end Ends

namespace LineTable

variable {buffer : Bytes} {offset : Nat}

theorem mem_starts_ofBytes_iff (hpos : 0 < offset) :
    offset ∈ (ofBytes buffer).starts ↔ EndsNewline buffer offset := by
  rw [ofBytes, List.mem_cons, lineBreaks, mem_lineBreaksFrom_iff]
  simp [hpos.ne']

theorem pairwise_cons_lineBreaksFrom {start : Nat} {bs : Bytes}
    (h : ((lineBreaksFrom start bs).map Prod.snd).Pairwise (· < ·)) :
    (start :: (lineBreaksFrom start bs).map Prod.snd).Pairwise (· < ·) := by
  refine List.pairwise_cons.mpr ⟨fun offset hoffset => ?_, h⟩
  obtain ⟨p, hp, rfl⟩ := List.mem_map.mp hoffset
  exact (snd_of_mem_lineBreaksFrom start bs p hp).1

theorem pairwise_lineBreaksFrom (start : Nat) (bs : Bytes) :
    ((lineBreaksFrom start bs).map Prod.snd).Pairwise (· < ·) := by
  fun_induction lineBreaksFrom start bs with
  | case1 => exact .nil
  | case2 start rest ih => exact pairwise_cons_lineBreaksFrom ih
  | case3 start rest _ ih => exact pairwise_cons_lineBreaksFrom ih
  | case4 start rest ih => exact pairwise_cons_lineBreaksFrom ih
  | case5 start b rest _ _ _ ih => exact ih

theorem pairwise_starts_ofBytes (buffer : Bytes) : (ofBytes buffer).starts.Pairwise (· < ·) :=
  pairwise_cons_lineBreaksFrom (pairwise_lineBreaksFrom 0 buffer)

/-- In an ascending list, the items up to a bound are the first ones. -/
theorem le_iff_lt_countP {starts : List Nat} (h : starts.Pairwise (· < ·)) {i start : Nat}
    (hi : starts[i]? = some start) (bound : Nat) :
    start ≤ bound ↔ i < starts.countP (· ≤ bound) := by
  induction starts generalizing i with
  | nil => cases hi
  | cons first rest ih =>
    obtain ⟨hfirst, hrest⟩ := List.pairwise_cons.mp h
    by_cases hle : first ≤ bound
    · rw [List.countP_cons_of_pos (by simpa using hle)]
      cases i with
      | zero =>
        obtain rfl : first = start := by simpa using hi
        exact iff_of_true hle (Nat.succ_pos _)
      | succ i => rw [ih hrest hi, Nat.add_lt_add_iff_right]
    · have hlater : ∀ a ∈ first :: rest, bound < a := by
        refine List.forall_mem_cons.mpr ⟨by omega, fun a ha => ?_⟩
        have := hfirst a ha
        omega
      have hnone : (first :: rest).countP (· ≤ bound) = 0 := by
        rw [List.countP_eq_zero]
        intro a ha
        simpa using hlater a ha
      have := hlater start (List.mem_of_getElem? hi)
      omega

/-- The terminators that end at an offset or before it are counted in the table. -/
theorem lineAt_eq_count (buffer : Bytes) (offset : Int) :
    (ofBytes buffer).lineAt offset = 1 + Nat.count (EndsNewline buffer) (offset.toNat + 1) := by
  have hnodup : ((lineBreaks buffer).map Prod.snd).Nodup :=
    (pairwise_lineBreaksFrom 0 buffer).imp Nat.ne_of_lt
  have hsame : (Finset.range (offset.toNat + 1)).filter (EndsNewline buffer) =
      (((lineBreaks buffer).map Prod.snd).filter (· ≤ offset.toNat)).toFinset := by
    ext place
    rw [Finset.mem_filter, Finset.mem_range, Nat.lt_succ_iff, List.mem_toFinset,
      List.mem_filter, lineBreaks, mem_lineBreaksFrom_iff]
    simp [and_comm]
  rw [Nat.count_eq_card_filter_range, hsame, List.toFinset_card_of_nodup (hnodup.filter _),
    ← List.countP_eq_length_filter, lineAt, ofBytes, List.countP_cons_of_pos (by simp),
    Nat.add_comm]

theorem lineAt_mono (index : LineTable) {a b : Int} (h : a ≤ b) :
    index.lineAt a ≤ index.lineAt b := by
  refine List.countP_mono_left fun start _ hstart => ?_
  simp only [decide_eq_true_eq] at hstart ⊢
  omega

theorem lineAt_le_size (index : LineTable) (offset : Int) : index.lineAt offset ≤ index.size :=
  List.countP_le_length

theorem one_le_lineAt_ofBytes (buffer : Bytes) (offset : Int) :
    1 ≤ (ofBytes buffer).lineAt offset := by
  simp [lineAt, ofBytes]

/-! ## The table in both directions -/

section Inverse

variable {index : LineTable} {line start : Nat}

theorem startOf?_eq_some_iff :
    index.startOf? (line + 1 : Nat) = some start ↔ index.starts[line]? = some start := by
  have hindex : (((line + 1 : Nat) : Int) - 1).toNat = line := by omega
  rw [startOf?, if_pos (by omega), hindex]

/-- A line starts at an offset or before it if the line of the offset is that line or a later one.
-/
theorem startOf?_le_iff (h : index.starts.Pairwise (· < ·))
    (hstart : index.startOf? (line + 1 : Nat) = some start) {offset : Int} (hoffset : 0 ≤ offset) :
    (start : Int) ≤ offset ↔ line + 1 ≤ index.lineAt offset := by
  rw [lineAt, ← Int.le_toNat hoffset, le_iff_lt_countP h (startOf?_eq_some_iff.mp hstart),
    Nat.succ_le_iff]

/-- The line that holds the start of a line is that line. -/
theorem lineAt_startOf? (h : index.starts.Pairwise (· < ·))
    (hstart : index.startOf? (line + 1 : Nat) = some start) : index.lineAt start = line + 1 := by
  have hle : line + 1 ≤ index.lineAt start :=
    (startOf?_le_iff h hstart (Int.natCast_nonneg start)).mp le_rfl
  refine hle.antisymm' ?_
  -- Otherwise the next line starts there as well, or before.
  by_contra hlater
  have hsize := index.lineAt_le_size start
  obtain ⟨next, hnext⟩ : ∃ next, index.starts[line + 1]? = some next :=
    ⟨_, List.getElem?_eq_getElem (by rw [size] at hsize; omega)⟩
  have hbefore : (next : Int) ≤ start :=
    (startOf?_le_iff h (startOf?_eq_some_iff.mpr hnext) (Int.natCast_nonneg start)).mpr (by omega)
  have hlt : start < next := by
    obtain ⟨hi, rfl⟩ := List.getElem?_eq_some_iff.mp (startOf?_eq_some_iff.mp hstart)
    obtain ⟨hj, rfl⟩ := List.getElem?_eq_some_iff.mp hnext
    exact List.pairwise_iff_getElem.mp h _ _ hi hj (Nat.lt_succ_self line)
  omega

end Inverse

/-- The table of a document, with the lines from 1 on: a line starts at an offset or before it if
the line of the offset is that line or a later one. -/
structure Indexes (index : LineTable) (buffer : Bytes) : Prop where
  first : index.starts.head? = some 0
  ascending : index.starts.Pairwise (· < ·)
  later : ∀ offset, 0 < offset →
    (offset ∈ index.starts ↔ offset ≤ buffer.length ∧ EndsNewline buffer offset)
  counts : ∀ offset : Int,
    index.lineAt offset = 1 + Nat.count (EndsNewline buffer) (offset.toNat + 1)
  inverse : ∀ line : Nat, 1 ≤ line → line ≤ index.size →
    ∃ start : Nat, index.startOf? line = some start ∧
    index.lineAt start = line ∧ ∀ offset : Int, 0 ≤ offset →
    (start ≤ offset ↔ line ≤ index.lineAt offset)
  monotone : ∀ a b : Int, a ≤ b → index.lineAt a ≤ index.lineAt b

/-- **Line starts.** The table that one pass over a document makes holds 0 and the offsets where a
terminator ends, in order. The number of the line that holds an offset counts those terminators,
and it is the inverse of the start of a line. -/
theorem indexes_ofBytes (buffer : Bytes) : (ofBytes buffer).Indexes buffer := by
  have hascending := pairwise_starts_ofBytes buffer
  refine ⟨rfl, hascending, fun offset hpos => ?_, lineAt_eq_count buffer,
    fun line hline hsize => ?_, fun _ _ hab => lineAt_mono _ hab⟩
  · rw [mem_starts_ofBytes_iff hpos]
    exact ⟨fun h => ⟨h.le_length, h⟩, And.right⟩
  · obtain ⟨line, rfl⟩ := Nat.exists_eq_succ_of_ne_zero (Nat.one_le_iff_ne_zero.mp hline)
    have hstart : (ofBytes buffer).startOf? (line + 1 : Nat) = some _ :=
      startOf?_eq_some_iff.mpr (List.getElem?_eq_getElem hsize)
    exact ⟨_, hstart, lineAt_startOf? hascending hstart, fun offset hoffset =>
      startOf?_le_iff hascending hstart hoffset⟩

end LineTable

/-! ## The start of a line, looked for backwards -/

section Indent

variable {before line after : Bytes}

/-- The line that holds an offset starts there or before it. -/
theorem exists_startOf?_lineAt (buffer : Bytes) (offset : Nat) : ∃ start,
    (LineTable.ofBytes buffer).startOf? ((LineTable.ofBytes buffer).lineAt offset) = some start ∧
      start ≤ offset := by
  have hone := LineTable.one_le_lineAt_ofBytes buffer offset
  have hsize := (LineTable.ofBytes buffer).lineAt_le_size offset
  obtain ⟨line, hline⟩ : ∃ line, (LineTable.ofBytes buffer).lineAt offset = line + 1 :=
    Nat.exists_eq_succ_of_ne_zero (by omega)
  have hstart : (LineTable.ofBytes buffer).startOf? (line + 1 : Nat) = some _ :=
    LineTable.startOf?_eq_some_iff.mpr (List.getElem?_eq_getElem
      (by rw [hline] at hsize; exact hsize))
  have hle := (LineTable.startOf?_le_iff (LineTable.pairwise_starts_ofBytes buffer) hstart
    (Int.natCast_nonneg offset)).mpr hline.ge
  rw [hline]
  exact ⟨_, hstart, Int.ofNat_le.mp hle⟩

/-- What lies after a document counts as its last line. -/
theorem lineAt_length_take (buffer : Bytes) (offset : Nat) :
    (LineTable.ofBytes buffer).lineAt (buffer.take offset).length =
      (LineTable.ofBytes buffer).lineAt offset := by
  refine List.countP_congr fun start hstart => ?_
  have hlength : start ≤ buffer.length := by
    rcases Nat.eq_zero_or_pos start with rfl | hpos
    · exact Nat.zero_le _
    · exact ((LineTable.mem_starts_ofBytes_iff hpos).mp hstart).le_length
  simp only [decide_eq_true_eq, Int.toNat_natCast, List.length_take]
  omega

/-- The last LF or CR is the end of the whole lines. -/
theorem takeWhile_reverse_of_endsLine (hends : EndsLine before) (hline : Unbroken line) :
    (before ++ line).reverse.takeWhile (! isLineEnd ·) = line.reverse := by
  have hrest : before.reverse.takeWhile (! isLineEnd ·) = [] := by
    rcases hends.eq_nil_or with rfl | ⟨front, b, hb, rfl⟩
    · rfl
    · simp [hb]
  rw [List.reverse_append, List.takeWhile_append_of_pos, hrest, List.append_nil]
  intro b hb
  simpa using hline b (List.mem_reverse.mp hb)

theorem indentBefore_natCast (buffer : Bytes) (offset : Nat) : indentBefore buffer offset =
    ((buffer.take offset).drop ((buffer.take offset).length -
      ((buffer.take offset).reverse.takeWhile (! isLineEnd ·)).length)).takeWhile isIndent := by
  rw [indentBefore, Bytes.before, if_neg (by omega)]
  rfl

/-- **Indentation.** The bytes between the last LF or CR and an offset begin where the table has
the start of the line that holds the offset, so the indentation is the run of spaces and tabs with
which that line begins, as far as the offset. Only within a pair of CR and LF the search ends at
the CR, and finds nothing. -/
theorem indentBefore_eq (buffer : Bytes) (offset : Nat) : ∃ start,
    (LineTable.ofBytes buffer).startOf? ((LineTable.ofBytes buffer).lineAt offset) = some start ∧
      start ≤ offset ∧
      (CleanCut (buffer.take offset) (buffer.drop offset) → indentBefore buffer offset =
        ((buffer.drop start).takeWhile isIndent).take (offset - start)) ∧
      (¬ CleanCut (buffer.take offset) (buffer.drop offset) → indentBefore buffer offset = []) := by
  obtain ⟨start, hstart, hle⟩ := exists_startOf?_lineAt buffer offset
  refine ⟨start, hstart, hle, fun hcut => ?_, fun hcut => ?_⟩
  · obtain ⟨before, line, htake, hends, hline, hbefore⟩ := exists_lineStart hcut
    rw [List.take_append_drop, lineAt_length_take, hstart] at hbefore
    obtain rfl : start = before.length := Option.some.inj hbefore
    have hlength : (before ++ line).length - line.length = before.length := by
      rw [List.length_append, Nat.add_sub_cancel]
    rw [indentBefore_natCast, htake, takeWhile_reverse_of_endsLine hends hline,
      List.length_reverse, hlength, List.take_takeWhile, ← List.drop_take, htake]
  · obtain ⟨hlast, -⟩ : (buffer.take offset).getLast? = some 0x0D ∧
        (buffer.drop offset).head? = some 0x0A := by
      simpa [CleanCut] using hcut
    obtain ⟨front, hfront⟩ := List.getLast?_eq_some_iff.mp hlast
    have hnone : (front ++ [0x0D]).reverse.takeWhile (! isLineEnd ·) = [] := by
      simp [isLineEnd]
    rw [indentBefore_natCast, hfront, hnone, List.length_nil, Nat.sub_zero, List.drop_length,
      List.takeWhile_nil]

end Indent

end AccessPatch
