import AccessPatch.Proofs.Diff.Hunks
import AccessPatch.Proofs.Diff.Reading

/-!
# What a difference says

The lines of a text are cut wherever a line may end, at a CR or a form feed as well as at LF
(`Text.lines`), and they stand in a difference as they are, behind their marks. A reader cuts at
LF only. So the difference of two documents says what the new text is if the old lines as far as
the last hunk have their LF, and the lines of the hunks have theirs (`readBack_unified`).
-/

namespace AccessPatch

/-! ## The lines of a text -/

namespace Text

open Diff (IsPiece)

variable {line : List Char} {done : List (List Char)} {cs : List Char}

theorem flatten_go (line : List Char) (done : List (List Char)) (cs : List Char) :
    (lines.go line done cs).flatten = done.reverse.flatten ++ (line.reverse ++ cs) := by
  fun_induction lines.go line done cs with
  | case1 line done =>
    split
    · rename_i hempty
      simp [List.isEmpty_iff.mp hempty]
    · simp
  | case2 line done rest ih =>
    rw [ih]
    simp
  | case3 line done c rest _ _ ih =>
    rw [ih]
    simp
  | case4 line done c rest _ _ ih =>
    rw [ih]
    simp

theorem flatten_lines (cs : List Char) : (lines cs).flatten = cs :=
  flatten_go [] [] cs

theorem isPiece_reverse_cons {c : Char} (h : '\n' ∉ line) : IsPiece (c :: line).reverse := by
  rw [List.reverse_cons]
  exact ⟨by simp, by rwa [List.dropLast_concat, List.mem_reverse]⟩

theorem isPiece_go (hdone : ∀ l ∈ done, IsPiece l) (hline : '\n' ∉ line) :
    ∀ l ∈ lines.go line done cs, IsPiece l := by
  have hnext : ∀ {done : List (List Char)} {l : List Char}, (∀ l ∈ done, IsPiece l) → IsPiece l →
      ∀ l' ∈ l :: done, IsPiece l' := fun hdone hl => List.forall_mem_cons.mpr ⟨hl, hdone⟩
  fun_induction lines.go line done cs with
  | case1 line done =>
    intro l hl
    rw [List.mem_reverse] at hl
    split at hl
    · exact hdone l hl
    · rename_i hne
      obtain ⟨c, front, rfl⟩ :=
        List.exists_cons_of_ne_nil fun hnil => hne (List.isEmpty_iff.mpr hnil)
      rw [List.mem_cons, not_or] at hline
      exact hnext hdone (isPiece_reverse_cons hline.2) l hl
  | case2 line done rest ih =>
    have hcr : '\n' ∉ '\r' :: line := by simpa using hline
    exact ih (hnext hdone (isPiece_reverse_cons hcr)) (List.not_mem_nil)
  | case3 line done c rest _ _ ih =>
    exact ih (hnext hdone (isPiece_reverse_cons hline)) (List.not_mem_nil)
  | case4 line done c rest _ hboundary ih =>
    refine ih hdone ?_
    rw [List.mem_cons, not_or]
    refine ⟨?_, hline⟩
    rintro rfl
    exact hboundary rfl

/-- There is no LF within a line. -/
theorem isPiece_lines (cs : List Char) : ∀ l ∈ lines cs, IsPiece l :=
  isPiece_go (by simp) (by simp)

end Text

namespace Diff

theorem map_toList_linesOf (document : Bytes) :
    (linesOf document).map String.toList = Text.lines (Utf8.decodeLossy document).toList := by
  rw [linesOf, List.map_map]
  simp [Function.comp_def]

/-! ## Hunks as they are written -/

/-- The lines of a stretch, with their marks. -/
def Stretch.entries (a b : List String) (s : Stretch) : List Entry :=
  if s.same then (slice a s.oldStart s.oldStop).map fun line => ⟨.same, line.toList⟩
  else ((slice a s.oldStart s.oldStop).map fun line => ⟨.removed, line.toList⟩) ++
    (slice b s.newStart s.newStop).map fun line => ⟨.added, line.toList⟩

/-- A hunk with its ranges in both texts. -/
def editOf (a b : List String) (hunk : List Stretch) : Edit :=
  { oldStart := (hunk.head?.map Stretch.oldStart).getD 0
    oldCount :=
      (hunk.getLast?.map Stretch.oldStop).getD 0 - (hunk.head?.map Stretch.oldStart).getD 0
    newStart := (hunk.head?.map Stretch.newStart).getD 0
    newCount :=
      (hunk.getLast?.map Stretch.newStop).getD 0 - (hunk.head?.map Stretch.newStart).getD 0
    entries := hunk.flatMap (Stretch.entries a b) }

section Written

variable {a b : List String} {i i' j j' n n' : Nat} {hunk : List Stretch} {hs : List (List Stretch)}

theorem toList_text (a b : List String) (s : Stretch) :
    (s.text a b).toList = ((s.entries a b).map Entry.text).flatten := by
  unfold Stretch.text Stretch.entries
  split <;> simp [String.toList_join, Entry.text, Mark.char, List.flatMap_def, List.map_map,
    Function.comp_def]

theorem editOf_eq (h : Path a b i i' hunk j j') (hne : hunk ≠ []) : editOf a b hunk =
    { oldStart := i, oldCount := j - i, newStart := i', newCount := j' - i'
      entries := hunk.flatMap (Stretch.entries a b) } := by
  obtain ⟨front, t, hconcat⟩ := (List.eq_nil_or_concat' hunk).resolve_left hne
  have hlast : hunk.getLast?.map Stretch.oldStop = some j ∧
      hunk.getLast?.map Stretch.newStop = some j' := by
    rw [hconcat] at h ⊢
    obtain ⟨-, -, rfl, rfl⟩ := path_concat_inv h
    rw [List.getLast?_concat]
    exact ⟨rfl, rfl⟩
  have hfirst : hunk.head?.map Stretch.oldStart = some i ∧
      hunk.head?.map Stretch.newStart = some i' := by
    cases h with
    | nil => exact absurd rfl hne
    | cons hold hnew _ _ => exact ⟨congrArg some hold, congrArg some hnew⟩
  rw [editOf, hlast.1, hlast.2, hfirst.1, hfirst.2]
  rfl

theorem heading_eq (h : Path a b i i' hunk j j') (hne : hunk ≠ []) :
    heading hunk = (editOf a b hunk).heading := by
  obtain ⟨hold, -, hnew, -⟩ := h.bounds
  obtain ⟨front, t, hconcat⟩ := (List.eq_nil_or_concat' hunk).resolve_left hne
  have hlast : hunk.getLast? = some t ∧ t.oldStop = j ∧ t.newStop = j' := by
    rw [hconcat] at h ⊢
    exact ⟨List.getLast?_concat, (path_concat_inv h).2.2⟩
  rw [editOf_eq h hne, Edit.heading, heading, hlast.1]
  cases h with
  | nil => exact absurd rfl hne
  | cons hfirst hfirst' _ _ =>
    simp only [List.head?_cons, hfirst, hfirst', hlast.2.1, hlast.2.2, Nat.add_sub_cancel' hold,
      Nat.add_sub_cancel' hnew]

/-- The lines of a way through two texts are those of both. -/
theorem Path.lines (h : Path a b i i' hunk j j') :
    ((hunk.flatMap (Stretch.entries a b)).filter Entry.isOld).map Entry.line =
      (slice a i j).map String.toList ∧
      ((hunk.flatMap (Stretch.entries a b)).filter Entry.isNew).map Entry.line =
        (slice b i' j').map String.toList := by
  induction h with
  | nil => simp [slice_self]
  | @cons i i' j j' s rest hold hnew within next ih =>
    subst hold hnew
    have hbounds := next.bounds
    have hentries : ((s.entries a b).filter Entry.isOld).map Entry.line =
          (slice a s.oldStart s.oldStop).map String.toList ∧
        ((s.entries a b).filter Entry.isNew).map Entry.line =
          (slice b s.newStart s.newStop).map String.toList := by
      unfold Stretch.entries
      split
      · rename_i hsame
        rw [← within.same hsame]
        simp [List.filter_map, Function.comp_def, Entry.isOld, Entry.isNew]
      · simp [List.filter_map, Function.comp_def, Entry.isOld, Entry.isNew]
    rw [List.flatMap_cons, List.filter_append, List.filter_append, List.map_append,
      List.map_append, ih.1, ih.2, hentries.1, hentries.2, ← List.map_append, ← List.map_append,
      slice_append_slice a within.old_le hbounds.1,
      slice_append_slice b within.new_le hbounds.2.2.1]
    exact ⟨rfl, rfl⟩

theorem counted_editOf (h : Path a b i i' hunk j j') (hne : hunk ≠ []) :
    (editOf a b hunk).Counted := by
  obtain ⟨hold, hlength, hnew, hlength'⟩ := h.bounds
  rw [editOf_eq h hne, Edit.Counted, Edit.oldLines, Edit.newLines]
  dsimp only
  rw [h.lines.1, h.lines.2, List.length_map, List.length_map, length_slice, length_slice,
    Nat.min_eq_left hlength, Nat.min_eq_left hlength']
  exact ⟨rfl, rfl⟩

theorem toList_hunk (h : Path a b i i' hunk j j') (hne : hunk ≠ []) :
    (heading hunk ++ String.join (hunk.map (Stretch.text a b))).toList =
      (editOf a b hunk).lines.flatten := by
  have htext : (String.join (hunk.map (Stretch.text a b))).toList =
      ((hunk.flatMap (Stretch.entries a b)).map Entry.text).flatten := by
    rw [String.toList_join, List.flatMap_map, List.map_flatMap, List.flatten_eq_flatMap,
      List.flatMap_assoc]
    refine List.flatMap_congr fun s _ => ?_
    rw [← List.flatten_eq_flatMap, toList_text]
  rw [String.toList_append, heading_eq h hne, htext, Edit.lines, List.flatten_cons]
  rfl

theorem Script.exists_path (h : Script a b i i' hs n n') :
    ∀ hunk ∈ hs, ∃ j j' k k', Path a b j j' hunk k k' := by
  induction h with
  | nil => simp
  | cons gap path ends next ih => exact List.forall_mem_cons.mpr ⟨⟨_, _, _, _, path⟩, ih⟩

/-- A difference is a heading and the lines of its hunks. -/
theorem toList_unifiedLines (path : String) (hne : hunks a b ≠ []) :
    (unifiedLines a b path).toList =
    headingOf path ++ (((hunks a b).map (editOf a b)).flatMap Edit.lines).flatten := by
  obtain ⟨n, n', hscript, -⟩ := script_hunks a b
  have hpaths := hscript.exists_path
  have hhunks : (hunks a b).flatMap
      (fun hunk => (heading hunk ++ String.join (hunk.map (Stretch.text a b))).toList) =
        (((hunks a b).map (editOf a b)).flatMap Edit.lines).flatten := by
    rw [List.flatMap_map, List.flatten_eq_flatMap, List.flatMap_assoc]
    refine List.flatMap_congr fun hunk hmem => ?_
    obtain ⟨_, _, _, _, hpath⟩ := hpaths hunk hmem
    rw [← List.flatten_eq_flatMap, toList_hunk hpath (ne_nil_of_mem_hunks hmem)]
  rw [unifiedLines]
  split
  · rename_i hnil
    exact absurd hnil hne
  · rw [String.toList_append, String.toList_join, List.flatMap_map, hhunks, headingOf]

/-! ## Carrying it out -/

theorem Script.bounds (h : Script a b i i' hs n n') : i ≤ n ∧ i' ≤ n' := by
  induction h with
  | nil => exact ⟨le_rfl, le_rfl⟩
  | cons gap path _ _ ih =>
    have hold := gap.old_le
    have hnew := gap.new_le
    have hpath := path.bounds
    dsimp only [common] at hold hnew
    omega

/-- **Hunks.** Carried out on the lines that the hunks go through, they make of them the lines of
the new text. -/
theorem Script.applyEdits (h : Script a b i i' hs n n') (hne : ∀ hunk ∈ hs, hunk ≠ [])
    (rest : List (List Char)) :
    applyEdits (hs.map (editOf a b)) i i' ((slice a i n).map String.toList ++ rest) =
      some ((slice b i' n').map String.toList ++ rest) := by
  induction h with
  | nil => simp [Diff.applyEdits, slice_self]
  | @cons i i' j j' k k' n n' hunk hs gap path ends next ih =>
    obtain ⟨hhunk, hrest⟩ := List.forall_mem_cons.mp hne
    have hshift := gap.length_eq rfl
    have hlines := gap.same rfl
    have hold := gap.old_le
    have hlength := gap.old_le_length
    have hnew := gap.new_le
    dsimp only [common] at hshift hlines hold hlength hnew
    obtain ⟨hpath, -, hpath', -⟩ := path.bounds
    obtain ⟨hnext, hnext'⟩ := next.bounds
    have hedit := editOf_eq path hhunk
    have holdLines : (editOf a b hunk).oldLines = (slice a j k).map String.toList := path.lines.1
    have hnewLines : (editOf a b hunk).newLines = (slice b j' k').map String.toList := path.lines.2
    have hbefore : ((slice a i j).map String.toList).length = j - i := by
      rw [List.length_map, length_slice, Nat.min_eq_left hlength]
    have hends : (editOf a b hunk).oldStart + (editOf a b hunk).oldCount = k ∧
        (editOf a b hunk).newStart + (editOf a b hunk).newCount = k' := by
      rw [hedit]
      exact ⟨Nat.add_sub_cancel' hpath, Nat.add_sub_cancel' hpath'⟩
    -- The old lines are those before the hunk, those of the hunk and those behind it.
    rw [← slice_append_slice a hold (hpath.trans hnext), ← slice_append_slice a hpath hnext,
      List.map_append, List.map_append, ← holdLines, List.append_assoc, List.append_assoc,
      List.map_cons,
      applyEdits_append (counted_editOf path hhunk) (by rw [hbefore, hedit]; dsimp only; omega)
        (by rw [hbefore, hedit]; dsimp only; omega), hends.1, hends.2, ih hrest, Option.map_some,
        hlines, hnewLines,
      ← slice_append_slice b hnew (hpath'.trans hnext'), ← slice_append_slice b hpath' hnext',
      List.map_append, List.map_append, List.append_assoc, List.append_assoc, List.append_assoc]

end Written

/-! ## Line ends -/

/-- Where the last hunk ends in the old text. -/
def lastShown (hs : List (List Stretch)) : Nat :=
  (hs.getLast?.bind List.getLast?).elim 0 Stretch.oldStop

/-- As far as the last hunk, a reader counts the old lines as the headings do: all of them have
their LF, the very last line of the text excepted. -/
def Aligned (a b : List String) : Prop :=
  ∀ line ∈ a.dropLast.take (lastShown (hunks a b)), EndsLf line.toList

/-- The lines of all hunks. -/
def shown (a b : List String) : List Entry :=
  (hunks a b).flatMap fun hunk => hunk.flatMap (Stretch.entries a b)

/-- A reader sees where each line of the hunks ends: all of them have their LF, the last one
excepted. -/
def Separated (a b : List String) : Prop :=
  ∀ e ∈ (shown a b).dropLast, EndsLf e.line

instance (a b : List String) : Decidable (Aligned a b) :=
  List.decidableBAll _ _

instance (a b : List String) : Decidable (Separated a b) :=
  List.decidableBAll _ _

section LineEnds

variable {a b : List String} {i i' j j' n n' : Nat} {hunk : List Stretch} {hs : List (List Stretch)}

theorem Script.lastShown_eq (h : Script a b i i' hs n n') (hne : ∀ hunk ∈ hs, hunk ≠ [])
    (hhs : hs ≠ []) :
    lastShown hs = n := by
  induction h with
  | nil => exact absurd rfl hhs
  | @cons i i' j j' k k' n n' hunk rest _ path _ next ih =>
    obtain ⟨hhunk, hrest⟩ := List.forall_mem_cons.mp hne
    cases rest with
    | nil =>
      cases next
      obtain ⟨front, s, rfl⟩ := (List.eq_nil_or_concat' hunk).resolve_left hhunk
      obtain ⟨-, -, hstop, -⟩ := path_concat_inv path
      simp [lastShown, hstop]
    | cons other rest => exact ih hrest (List.cons_ne_nil _ _)

theorem mem_take_of_mem_slice {line : String} (hij : i ≤ j) (h : line ∈ slice a i j) :
    line ∈ a.take j := by
  have htake : slice a 0 j = a.take j := rfl
  rw [← htake, ← slice_append_slice a (Nat.zero_le i) hij]
  exact List.mem_append_right _ h

theorem take_dropLast_of_lt (h : n < a.length) : a.dropLast.take n = a.take n := by
  rw [List.dropLast_eq_take, List.take_take, Nat.min_eq_left (by omega)]

theorem forall_mem_entries {p : List Char → Prop} (ha : ∀ line ∈ a, p line.toList)
    (hb : ∀ line ∈ b, p line.toList) (s : Stretch) : ∀ e ∈ s.entries a b, p e.line := by
  have hold : ∀ line ∈ slice a s.oldStart s.oldStop, p line.toList := fun line hline =>
    ha line (List.mem_of_mem_drop (List.mem_of_mem_take hline))
  have hnew : ∀ line ∈ slice b s.newStart s.newStop, p line.toList := fun line hline =>
    hb line (List.mem_of_mem_drop (List.mem_of_mem_take hline))
  unfold Stretch.entries
  split
  · exact List.forall_mem_map.mpr hold
  · exact List.forall_mem_append.mpr ⟨List.forall_mem_map.mpr hold, List.forall_mem_map.mpr hnew⟩

/-- The last line of a hunk that ends in context is an old line that others follow. -/
theorem endsLf_getLast (h : EndsInContext a hunk) (path : Path a b i i' hunk j j')
    (hlf : ∀ line ∈ a.dropLast.take j, EndsLf line.toList) :
    ∀ e ∈ (hunk.flatMap (Stretch.entries a b)).getLast?, EndsLf e.line := by
  obtain ⟨s, hlast, hsame, hnonempty, hstop⟩ := h
  obtain ⟨front, rfl⟩ := List.getLast?_eq_some_iff.mp hlast
  obtain ⟨-, within, rfl, -⟩ := path_concat_inv path
  have hentries : s.entries a b = (slice a s.oldStart s.oldStop).map fun line =>
      ⟨.same, line.toList⟩ :=
    if_pos hsame
  have hne : s.entries a b ≠ [] := by
    rw [← List.length_pos_iff, hentries, List.length_map, length_slice,
      Nat.min_eq_left within.old_le_length]
    exact Nat.sub_pos_of_lt hnonempty
  intro e he
  rw [List.flatMap_append, List.flatMap_singleton, List.getLast?_append_of_ne_nil _ hne] at he
  have hmem := List.mem_of_getLast? he
  rw [hentries] at hmem
  obtain ⟨line, hline, rfl⟩ := List.mem_map.mp hmem
  rw [take_dropLast_of_lt hstop] at hlf
  exact hlf line (mem_take_of_mem_slice within.old_le hline)

theorem Script.endsLf (h : Script a b i i' hs n n')
    (hlf : ∀ line ∈ a.dropLast.take n, EndsLf line.toList) :
    ∀ e ∈ (hs.map (editOf a b)).dropLast, ∀ x ∈ e.entries.getLast?, EndsLf x.line := by
  induction h with
  | nil => simp
  | @cons i i' j j' k k' n n' hunk rest _ path ends next ih =>
    rcases eq_or_ne rest [] with rfl | hrest
    · simp
    · rw [List.map_cons, List.dropLast_cons_of_ne_nil (List.map_eq_nil_iff.not.mpr hrest)]
      have hfirst : ∀ line ∈ a.dropLast.take k, EndsLf line.toList := fun line hline =>
        hlf line (List.take_subset_take_left _ next.bounds.1 hline)
      exact List.forall_mem_cons.mpr ⟨endsLf_getLast (ends hrest) path hfirst, ih hlf⟩

/-- Where the old lines have their LF, a reader finds the same lines. -/
theorem lfLines_of_endsLf (hpiece : ∀ line ∈ a, IsPiece line.toList)
    (hlf : ∀ line ∈ a.dropLast.take n, EndsLf line.toList) : lfLines (a.map String.toList).flatten =
      (slice a 0 n).map String.toList ++ lfLines ((a.drop n).map String.toList).flatten := by
  have htake : slice a 0 n = a.take n := rfl
  rw [htake]
  rcases Nat.lt_or_ge n a.length with hshort | hlong
  · rw [take_dropLast_of_lt hshort] at hlf
    conv_lhs => rw [← List.take_append_drop n a, List.map_append, List.flatten_append]
    exact lfLines_flatten_append (List.forall_mem_map.mpr fun line hline =>
      ⟨hpiece line (List.mem_of_mem_take hline), hlf line hline⟩) _
  · rw [List.take_of_length_le (by rw [List.length_dropLast]; omega)] at hlf
    rw [List.take_of_length_le hlong, List.drop_of_length_le hlong,
      lfLines_flatten (List.forall_mem_map.mpr hpiece)
      (by rw [← List.map_dropLast]; exact List.forall_mem_map.mpr hlf)]
    simp [lfLines]

end LineEnds

/-! ## Reading back -/

section ReadBack

variable {a b : List String} {path : String} {edits merged : List Edit}

/-- Texts without a hunk are equal. -/
theorem eq_of_hunks_eq_nil (h : hunks a b = []) : a = b := by
  obtain ⟨n, n', hscript, hrest⟩ := script_hunks a b
  rw [h] at hscript
  cases hscript
  exact hrest

theorem unifiedLines_eq_empty_iff : unifiedLines a b path = "" ↔ hunks a b = [] := by
  refine ⟨fun h => ?_, fun h => by rw [unifiedLines, h]⟩
  by_contra hne
  have htext := toList_unifiedLines path hne
  rw [h] at htext
  simp [headingOf] at htext

/-- Carried out in full, the hunks make the new text of the old one. -/
theorem applyEdits_hunks (hpiece : ∀ line ∈ a, IsPiece line.toList) (haligned : Aligned a b)
    (hne : hunks a b ≠ []) :
    (applyEdits ((hunks a b).map (editOf a b)) 0 0 (lfLines (a.map String.toList).flatten)).map
      List.flatten =
      some (b.map String.toList).flatten := by
  obtain ⟨n, n', hscript, hrest⟩ := script_hunks a b
  have hhunks : ∀ hunk ∈ hunks a b, hunk ≠ [] := fun _ => ne_nil_of_mem_hunks
  rw [Aligned, hscript.lastShown_eq hhunks hne] at haligned
  have hsplit : slice b 0 n' ++ b.drop n' = b := slice_append_drop b (Nat.zero_le n')
  rw [lfLines_of_endsLf hpiece haligned, hscript.applyEdits hhunks, Option.map_some,
    List.flatten_append, flatten_lfLines, hrest, ← List.flatten_append, ← List.map_append, hsplit]

theorem length_eq_of_applyEdits (hmerges : List.Forall₂ Edit.Merges edits merged)
    (hcounted : ∀ e ∈ edits, e.Counted) (hmerged : ∀ m ∈ merged, m.Counted) :
    List.Forall₂ (fun e m : Edit => m.entries.length = e.entries.length) edits merged := by
  induction hmerges with
  | nil => exact .nil
  | cons hmerge _ ih =>
    obtain ⟨he, hedits⟩ := List.forall_mem_cons.mp hcounted
    obtain ⟨hm, hrest⟩ := List.forall_mem_cons.mp hmerged
    exact .cons (hmerge.length_eq he hm) (ih hedits hrest)

/-- Where the old lines are counted alike, a difference is read back as the new text or refused,
and it is the line ends that decide. -/
theorem readBack_unifiedLines (hpath : '\n' ∉ path.toList) (ha : ∀ line ∈ a, IsPiece line.toList)
    (hb : ∀ line ∈ b, IsPiece line.toList) (haligned : Aligned a b) :
    readBack (unifiedLines a b path).toList (a.map String.toList).flatten =
      if Separated a b then some (b.map String.toList).flatten else none := by
  by_cases hnil : hunks a b = []
  · have hseparated : Separated a b := by simp [Separated, shown, hnil]
    rw [unifiedLines_eq_empty_iff.mpr hnil, if_pos hseparated, ← eq_of_hunks_eq_nil hnil]
    exact congrArg some (flatten_lfLines _)
  obtain ⟨n, n', hscript, -⟩ := script_hunks a b
  have hhunks : ∀ hunk ∈ hunks a b, hunk ≠ [] := fun _ => ne_nil_of_mem_hunks
  have hpiece : ∀ e ∈ (hunks a b).map (editOf a b), ∀ x ∈ e.entries, IsPiece x.line :=
    List.forall_mem_map.mpr fun hunk _ x hx => by
      obtain ⟨s, -, hs⟩ := List.mem_flatMap.mp hx
      exact forall_mem_entries ha hb s x hs
  have hcounted : ∀ e ∈ (hunks a b).map (editOf a b), e.Counted :=
    List.forall_mem_map.mpr fun hunk hmem => by
    obtain ⟨_, _, _, _, hpath⟩ := hscript.exists_path hunk hmem
    exact counted_editOf hpath (hhunks hunk hmem)
  have hends := hscript.endsLf (by rwa [Aligned, hscript.lastShown_eq hhunks hnil] at haligned)
  have hshown : ((hunks a b).map (editOf a b)).flatMap Edit.entries = shown a b :=
    List.flatMap_map ..
  obtain ⟨merged, hlines, hmerges, hseparated, hwhole⟩ := exists_merged_edits hpiece hends
  rw [hshown] at hseparated hwhole
  rw [readBack, toList_unifiedLines path hnil, readDiff_append hpath hlines, Option.bind_some]
  split
  · rename_i hsep
    rw [hwhole hsep, applyEdits_hunks ha haligned hnil]
  · rename_i hopen
    rw [Option.map_eq_none_iff, ← Option.not_isSome_iff_eq_none, Option.isSome_iff_exists]
    rintro ⟨result, hresult⟩
    exact hopen
      (hseparated (length_eq_of_applyEdits hmerges hcounted (counted_of_applyEdits hresult)))

theorem isPiece_linesOf (document : Bytes) : ∀ line ∈ linesOf document, IsPiece line.toList := by
  rw [← List.forall_mem_map, map_toList_linesOf]
  exact Text.isPiece_lines _

theorem flatten_linesOf (document : Bytes) :
    ((linesOf document).map String.toList).flatten = (Utf8.decodeLossy document).toList := by
  rw [map_toList_linesOf, Text.flatten_lines]

/-- **Differences.** Documents without a difference are the same text. Where the old lines as far
as the last hunk have their LF, the difference is read back as the new text if the lines of its
hunks have theirs too, the last one excepted, and is refused if not. So documents whose lines all
end with LF have a difference that says what the new text is. -/
theorem readBack_unified (hpath : '\n' ∉ path.toList) (before after : Bytes) :
    (unified before after path = "" → Utf8.decodeLossy before = Utf8.decodeLossy after) ∧
      (Aligned (linesOf before) (linesOf after) →
        readBack (unified before after path).toList (Utf8.decodeLossy before).toList =
          if Separated (linesOf before) (linesOf after) then some (Utf8.decodeLossy after).toList
            else none) ∧
      ((∀ line ∈ linesOf before ++ linesOf after, EndsLf line.toList) →
        readBack (unified before after path).toList (Utf8.decodeLossy before).toList =
          some (Utf8.decodeLossy after).toList) := by
  have hreadBack : Aligned (linesOf before) (linesOf after) →
      readBack (unified before after path).toList (Utf8.decodeLossy before).toList =
        if Separated (linesOf before) (linesOf after) then some (Utf8.decodeLossy after).toList
          else none := by
    intro haligned
    rw [← flatten_linesOf, ← flatten_linesOf]
    exact readBack_unifiedLines hpath (isPiece_linesOf before) (isPiece_linesOf after) haligned
  refine ⟨fun hempty => ?_, hreadBack, fun hlf => ?_⟩
  · have hlines := eq_of_hunks_eq_nil (unifiedLines_eq_empty_iff.mp hempty)
    rw [← String.toList_inj, ← flatten_linesOf, hlines, flatten_linesOf]
  · obtain ⟨hold, hnew⟩ := List.forall_mem_append.mp hlf
    have haligned : Aligned (linesOf before) (linesOf after) := fun line hline =>
      hold line (List.dropLast_subset _ (List.mem_of_mem_take hline))
    have hseparated : Separated (linesOf before) (linesOf after) := by
      intro e he
      obtain ⟨hunk, -, hmem⟩ := List.mem_flatMap.mp (List.dropLast_subset _ he)
      obtain ⟨s, -, hs⟩ := List.mem_flatMap.mp hmem
      exact forall_mem_entries hold hnew s e hs
    rw [hreadBack haligned, if_pos hseparated]

/-- A document whose last line has no LF. -/
def openDocument : Bytes := Utf8.encode "<view>\r\n</view>"

/-- The same document with a line more. -/
def openDocument' : Bytes := Utf8.encode "<view>\r\n<button/>\n</view>"

/-- A document whose lines all have their LF. -/
def closedDocument : Bytes := Utf8.encode "<view>\n</view>\n"

/-- The same document with a line more. -/
def closedDocument' : Bytes := Utf8.encode "<view>\n<button/>\n</view>\n"

theorem readBack_unified_openDocument :
    '\n' ∉ "M.xib".toList ∧
      (unified [0xfe] [0xff] "M.xib" = "" ∧ Utf8.decodeLossy [0xfe] = Utf8.decodeLossy [0xff]) ∧
      (Aligned (linesOf openDocument) (linesOf openDocument') ∧
        Separated (linesOf openDocument) (linesOf openDocument') ∧
        readBack (unified openDocument openDocument' "M.xib").toList
          (Utf8.decodeLossy openDocument).toList =
          some (Utf8.decodeLossy openDocument').toList) ∧
      ((∀ line ∈ linesOf closedDocument ++ linesOf closedDocument', EndsLf line.toList) ∧
        readBack (unified closedDocument closedDocument' "M.xib").toList
          (Utf8.decodeLossy closedDocument).toList =
          some (Utf8.decodeLossy closedDocument').toList) := by
  have hpath : '\n' ∉ "M.xib".toList := by decide
  have hempty : unified [0xfe] [0xff] "M.xib" = "" := by decide +kernel
  have haligned : Aligned (linesOf openDocument) (linesOf openDocument') := by decide +kernel
  have hseparated : Separated (linesOf openDocument) (linesOf openDocument') := by decide +kernel
  have hlf : ∀ line ∈ linesOf closedDocument ++ linesOf closedDocument', EndsLf line.toList := by
    decide +kernel
  exact ⟨hpath, ⟨hempty, (readBack_unified hpath _ _).1 hempty⟩,
    ⟨haligned, hseparated, ((readBack_unified hpath _ _).2.1 haligned).trans (if_pos hseparated)⟩,
    hlf, (readBack_unified hpath _ _).2.2 hlf⟩

/-- A line that a CR ends, and a last line without LF, run on into the next line of the
difference, which is then refused. Before the hunks a line that a CR ends is counted where no
reader counts one, so that a line may even be added in the wrong place. -/
theorem readBack_unified_ne :
    readBack (unified (Utf8.encode "a\rb\n") (Utf8.encode "a\rc\n") "M.xib").toList
      "a\rb\n".toList = none ∧
      readBack
        (unified (Utf8.encode "<view></view>") (Utf8.encode "<view>\n</view>") "M.xib").toList
        "<view></view>".toList = none ∧
      readBack
        (unified (Utf8.encode "a\rb\nc\nc\nc\nc\nc\nc\nc\n")
          (Utf8.encode "a\rb\nc\nc\nc\nd\nc\nc\nc\nc\n")
          "M.xib").toList "a\rb\nc\nc\nc\nc\nc\nc\nc\n".toList =
        some "a\rb\nc\nc\nc\nc\nd\nc\nc\nc\n".toList := by
  refine ⟨?_, ?_, ?_⟩ <;> decide +kernel

end ReadBack

end Diff

end AccessPatch
