import AccessPatch.Diff.Unified
import Mathlib.Data.List.Sort

/-!
# Reading a difference

A reader cuts a difference into lines at LF, takes the two lines of its heading and then hunk
after hunk, each a line with the ranges that it covers and the marked lines below (`readDiff`). To
carry it out it goes through the lines of the old text, which it cuts at LF as well, and refuses a
hunk whose lines are not where its ranges say, or not as many (`applyEdits`). What is written line
by line is read back line by line (`readEdits_lines`), but a line without LF runs on into the next
one (`exists_merged`).
-/

namespace AccessPatch.Diff

/-! ## Lines that end with LF -/

/-- Lines with a character before the first of them. -/
def inFront (c : Char) : List (List Char) → List (List Char)
  | [] => [[c]]
  | line :: lines => (c :: line) :: lines

/-- The lines of a text that only LF ends, each with its LF; the last may have none. -/
def lfLines : List Char → List (List Char)
  | [] => []
  | c :: cs => if c = '\n' then [c] :: lfLines cs else inFront c (lfLines cs)

/-- A line has its LF. -/
def EndsLf (line : List Char) : Prop :=
  line.getLast? = some '\n'

instance : DecidablePred EndsLf := fun _ =>
  inferInstanceAs (Decidable (_ = _))

/-- A line as the pieces of a text are: it is not empty, and there is no LF before its end. -/
structure IsPiece (line : List Char) : Prop where
  ne_nil : line ≠ []
  unbroken : '\n' ∉ line.dropLast

section Lines

variable {c : Char} {xs ys line : List Char} {lines : List (List Char)}

theorem inFront_append (h : lines ≠ []) (lines' : List (List Char)) :
    inFront c (lines ++ lines') = inFront c lines ++ lines' := by
  obtain ⟨line, rest, rfl⟩ := List.exists_cons_of_ne_nil h
  rfl

theorem flatten_inFront (c : Char) (lines : List (List Char)) :
    (inFront c lines).flatten = c :: lines.flatten := by
  cases lines <;> rfl

theorem flatten_lfLines (cs : List Char) : (lfLines cs).flatten = cs := by
  fun_induction lfLines cs with
  | case1 => rfl
  | case2 cs ih => rw [List.flatten_cons, ih, List.singleton_append]
  | case3 c cs _ ih => rw [flatten_inFront, ih]

theorem lfLines_ne_nil (h : xs ≠ []) : lfLines xs ≠ [] := by
  intro hnil
  have hflatten := flatten_lfLines xs
  rw [hnil] at hflatten
  exact h hflatten.symm

/-- Behind an LF the lines begin anew. -/
theorem lfLines_append (h : xs = [] ∨ EndsLf xs) (ys : List Char) :
    lfLines (xs ++ ys) = lfLines xs ++ lfLines ys := by
  fun_induction lfLines xs with
  | case1 => rfl
  | case2 cs ih =>
    have hcs : cs = [] ∨ EndsLf cs := by
      cases cs with
      | nil => exact .inl rfl
      | cons d cs => exact .inr (h.resolve_left (List.cons_ne_nil _ _))
    rw [List.cons_append, lfLines, if_pos rfl, ih hcs, List.cons_append]
  | case3 c cs hc ih =>
    have hlast : EndsLf (c :: cs) := h.resolve_left (List.cons_ne_nil _ _)
    cases cs with
    | nil => exact absurd (by simpa [EndsLf] using hlast) hc
    | cons d cs =>
      rw [List.cons_append, lfLines, if_neg hc, ih (.inr hlast),
        inFront_append (lfLines_ne_nil (List.cons_ne_nil d cs))]

/-- Text without an LF belongs to the line that follows. -/
theorem lfLines_append_of_not_mem (hxs : '\n' ∉ xs) (h : lfLines ys = line :: lines) :
    lfLines (xs ++ ys) = (xs ++ line) :: lines := by
  induction xs with
  | nil => exact h
  | cons c cs ih =>
    rw [List.mem_cons, not_or] at hxs
    rw [List.cons_append, lfLines, if_neg (Ne.symm hxs.1), ih hxs.2]
    rfl

theorem IsPiece.not_mem (h : IsPiece line) (hopen : ¬ EndsLf line) : '\n' ∉ line := by
  obtain ⟨front, c, rfl⟩ := (List.eq_nil_or_concat' line).resolve_left h.ne_nil
  have hfront := h.unbroken
  rw [List.dropLast_concat] at hfront
  have hc : c ≠ '\n' := by simpa [EndsLf] using hopen
  simp [hfront, hc.symm]

theorem isPiece_concat (h : '\n' ∉ xs) : IsPiece (xs ++ ['\n']) ∧ EndsLf (xs ++ ['\n']) :=
  ⟨⟨by simp, by rwa [List.dropLast_concat]⟩, List.getLast?_concat⟩

theorem lfLines_of_isPiece (h : IsPiece line) : lfLines line = [line] := by
  obtain ⟨front, c, rfl⟩ := (List.eq_nil_or_concat' line).resolve_left h.ne_nil
  have hfront := h.unbroken
  rw [List.dropLast_concat] at hfront
  refine lfLines_append_of_not_mem hfront ?_
  by_cases hc : c = '\n'
  · rw [lfLines, if_pos hc, lfLines]
  · rw [lfLines, if_neg hc, lfLines, inFront]

theorem lfLines_append_of_endsLf (h : IsPiece line) (hends : EndsLf line) (ys : List Char) :
    lfLines (line ++ ys) = line :: lfLines ys := by
  rw [lfLines_append (.inr hends), lfLines_of_isPiece h, List.singleton_append]

/-- What is put together from whole lines falls into these lines. -/
theorem lfLines_flatten_append (h : ∀ line ∈ lines, IsPiece line ∧ EndsLf line) (ys : List Char) :
    lfLines (lines.flatten ++ ys) = lines ++ lfLines ys := by
  induction lines with
  | nil => rfl
  | cons line lines ih =>
    obtain ⟨⟨hpiece, hends⟩, hlines⟩ := List.forall_mem_cons.mp h
    rw [List.flatten_cons, List.append_assoc, lfLines_append_of_endsLf hpiece hends, ih hlines,
      List.cons_append]

/-- Only the last of the pieces of a text may lack its LF. -/
theorem lfLines_flatten (h : ∀ line ∈ lines, IsPiece line)
    (hends : ∀ line ∈ lines.dropLast, EndsLf line) :
    lfLines lines.flatten = lines := by
  rcases List.eq_nil_or_concat' lines with rfl | ⟨front, line, rfl⟩
  · rfl
  · rw [List.dropLast_concat] at hends
    rw [List.forall_mem_append] at h
    rw [List.flatten_append, lfLines_flatten_append fun l hl => ⟨h.1 l hl, hends l hl⟩,
      List.flatten_singleton, lfLines_of_isPiece (h.2 line List.mem_cons_self)]

end Lines

/-! ## The reader -/

/-- How a line of a hunk is marked. -/
inductive Mark where
  | same
  | removed
  | added
deriving DecidableEq, Repr

def Mark.char : Mark → Char
  | same => ' '
  | removed => '-'
  | added => '+'

/-- A line of a hunk behind its mark. -/
structure Entry where
  mark : Mark
  line : List Char
deriving DecidableEq, Repr

def Entry.text (e : Entry) : List Char :=
  e.mark.char :: e.line

def Entry.isOld (e : Entry) : Bool :=
  decide (e.mark ≠ .added)

def Entry.isNew (e : Entry) : Bool :=
  decide (e.mark ≠ .removed)

/-- A hunk as it is read: its ranges in both texts, by the index of the first line and the number
of lines, and its marked lines. -/
structure Edit where
  oldStart : Nat
  oldCount : Nat
  newStart : Nat
  newCount : Nat
  entries : List Entry := []
deriving DecidableEq, Repr

namespace Edit

def oldLines (e : Edit) : List (List Char) :=
  (e.entries.filter Entry.isOld).map Entry.line

def newLines (e : Edit) : List (List Char) :=
  (e.entries.filter Entry.isNew).map Entry.line

/-- The heading of the hunk as it is written. -/
def heading (e : Edit) : String :=
  "@@ -" ++ rangeText e.oldStart (e.oldStart + e.oldCount) ++
    " +" ++ rangeText e.newStart (e.newStart + e.newCount) ++ " @@\n"

/-- The lines of the hunk as they are written. -/
def lines (e : Edit) : List (List Char) :=
  e.heading.toList :: e.entries.map Entry.text

end Edit

/-- Reads a decimal number. -/
def readNumber (cs : List Char) : Option Nat :=
  if cs ≠ [] ∧ cs.all Char.isDigit then some (Nat.ofDigitChars 10 cs 0) else none

/-- Reads a range: the number of its first line and the number of lines, 1 if it is left out. An
empty range has the number of the line before it. -/
def readRange (cs : List Char) : Option (Nat × Nat) :=
  match cs.splitOn ',' with
  | [first] => (readNumber first).bind fun n => if n = 0 then none else some (n - 1, 1)
  | [first, count] => (readNumber first).bind fun n => (readNumber count).bind fun count =>
    if count = 0 then some (n, 0) else if n = 0 then none else some (n - 1, count)
  | _ => none

/-- Reads the heading of a hunk. -/
def readHeading (line : List Char) : Option Edit :=
  match line.splitOn ' ' with
  | [['@', '@'], '-' :: old, '+' :: new, ['@', '@', '\n']] =>
    (readRange old).bind fun (oldStart, oldCount) => (readRange new).map fun (newStart, newCount) =>
      { oldStart, oldCount, newStart, newCount }
  | _ => none

/-- Reads a marked line. -/
def readEntry : List Char → Option Entry
  | ' ' :: line => some ⟨.same, line⟩
  | '-' :: line => some ⟨.removed, line⟩
  | '+' :: line => some ⟨.added, line⟩
  | _ => none

/-- Reads hunks, and the marked lines before the first heading. -/
def readEdits : List (List Char) → Option (List Entry × List Edit)
  | [] => some ([], [])
  | line :: rest => (readEdits rest).bind fun (entries, edits) =>
    if line.head? = some '@' then (readHeading line).map fun edit =>
      ([], { edit with entries } :: edits)
    else (readEntry line).map fun entry => (entry :: entries, edits)

/-- Reads a difference. No text at all is one without hunks. -/
def readDiff (diff : List Char) : Option (List Edit) :=
  match lfLines diff with
  | [] => some []
  | old :: new :: rest =>
    if "--- ".toList <+: old ∧ "+++ ".toList <+: new then
      match readEdits rest with
      | some ([], edits) => some edits
      | _ => none
    else none
  | _ => none

/-- Carries out hunks on the lines of the old text from an index on, to which an index of the new
text corresponds. -/
def applyEdits : List Edit → Nat → Nat → List (List Char) → Option (List (List Char))
  | [], _, _, lines => some lines
  | e :: rest, old, new, lines =>
    let gap := e.oldStart - old
    if (old ≤ e.oldStart ∧ gap ≤ lines.length ∧ e.newStart = new + gap) ∧
        (e.oldLines.length = e.oldCount ∧ e.newLines.length = e.newCount) ∧
        (lines.drop gap).take e.oldCount = e.oldLines then
      (applyEdits rest (e.oldStart + e.oldCount) (e.newStart + e.newCount)
        (lines.drop (gap + e.oldCount))).map fun later => lines.take gap ++ e.newLines ++ later
    else none

/-- The text that a difference makes of the old text. -/
def readBack (diff text : List Char) : Option (List Char) :=
  (readDiff diff).bind fun edits => (applyEdits edits 0 0 (lfLines text)).map List.flatten

/-! ## Headings -/

section Headings

theorem not_mem_toDigits {c : Char} (hc : c.isDigit = false) (n : Nat) : c ∉ Nat.toDigits 10 n := by
  intro hmem
  rw [Nat.isDigit_of_mem_toDigits (by decide) (by decide) hmem] at hc
  cases hc

theorem readNumber_toDigits (n : Nat) : readNumber (Nat.toDigits 10 n) = some n := by
  have hdigits : (Nat.toDigits 10 n).all Char.isDigit = true :=
    List.all_eq_true.mpr fun c hc => Nat.isDigit_of_mem_toDigits (by decide) (by decide) hc
  rw [readNumber, if_pos ⟨Nat.toDigits_ne_nil, hdigits⟩, Nat.ofDigitChars_ten_toDigits]

/-- A range is written with one number, or with two and a comma between them. -/
theorem toList_rangeText (start count : Nat) :
    (rangeText start (start + count)).toList = [','].intercalate
    (if count = 1 then [Nat.toDigits 10 (start + 1)]
    else [Nat.toDigits 10 (if count = 0 then start else start + 1), Nat.toDigits 10 count]) := by
  rw [rangeText, Nat.add_sub_cancel_left]
  by_cases hone : count = 1
  · simp [hone, List.intercalate]
  · by_cases hzero : count = 0
    · simp [hzero, List.intercalate]
    · simp [hone, hzero, List.intercalate]

theorem readRange_rangeText (start count : Nat) :
    readRange (rangeText start (start + count)).toList = some (start, count) := by
  have hcomma : ∀ n, ',' ∉ Nat.toDigits 10 n := not_mem_toDigits rfl
  rw [readRange, toList_rangeText]
  by_cases hone : count = 1
  · rw [if_pos hone, List.splitOn_intercalate ',' (by simpa using hcomma _) (List.cons_ne_nil _ _)]
    simp [hone, readNumber_toDigits]
  · rw [if_neg hone, List.splitOn_intercalate ',' (by simp [hcomma]) (List.cons_ne_nil _ _)]
    by_cases hzero : count = 0
    · have hdigit : readNumber ['0'] = some 0 := readNumber_toDigits 0
      simp [hzero, hdigit, readNumber_toDigits]
    · simp [hzero, readNumber_toDigits]

theorem not_mem_rangeText {c : Char} (hc : c.isDigit = false) (hcomma : c ≠ ',')
    (start count : Nat) :
    c ∉ (rangeText start (start + count)).toList := by
  rw [toList_rangeText]
  split <;> simp [List.intercalate, not_mem_toDigits hc, hcomma]

variable (e : Edit)

theorem readHeading_heading : readHeading e.heading.toList = some { e with entries := [] } := by
  have hheading : e.heading.toList = [' '].intercalate [['@', '@'],
      '-' :: (rangeText e.oldStart (e.oldStart + e.oldCount)).toList,
      '+' :: (rangeText e.newStart (e.newStart + e.newCount)).toList, ['@', '@', '\n']] := by
    simp [Edit.heading, List.intercalate]
  rw [readHeading, hheading,
    List.splitOn_intercalate ' ' (by simp [not_mem_rangeText]) (List.cons_ne_nil _ _)]
  simp [readRange_rangeText]

theorem isPiece_heading : IsPiece e.heading.toList ∧ EndsLf e.heading.toList := by
  have hlast : e.heading.toList = ("@@ -" ++ rangeText e.oldStart (e.oldStart + e.oldCount) ++
      " +" ++ rangeText e.newStart (e.newStart + e.newCount) ++ " @@").toList ++ ['\n'] := by
    simp [Edit.heading]
  rw [hlast]
  exact isPiece_concat (by simp [not_mem_rangeText])

end Headings

/-! ## Hunks -/

section Edits

variable {entries : List Entry} {edits : List Edit}

theorem readEntry_text (e : Entry) : readEntry e.text = some e := by
  obtain ⟨mark, line⟩ := e
  cases mark <;> rfl

theorem readEdits_entries {lines : List (List Char)} {later : List Entry}
    (h : readEdits lines = some (later, edits)) :
    readEdits (entries.map Entry.text ++ lines) = some (entries ++ later, edits) := by
  induction entries with
  | nil => exact h
  | cons e entries ih =>
    have hmark : e.text.head? ≠ some '@' := by
      obtain ⟨mark, line⟩ := e
      cases mark <;> simp [Entry.text, Mark.char]
    rw [List.map_cons, List.cons_append, readEdits, ih, Option.bind_some]
    simp only [if_neg hmark, readEntry_text]
    rfl

/-- Hunks that are written line by line are read back. -/
theorem readEdits_lines (edits : List Edit) :
    readEdits (edits.flatMap Edit.lines) = some ([], edits) := by
  induction edits with
  | nil => rfl
  | cons e edits ih =>
    have hhead : e.heading.toList.head? = some '@' := by simp [Edit.heading]
    rw [List.flatMap_cons, Edit.lines, List.cons_append, readEdits, readEdits_entries ih,
      Option.bind_some]
    simp only [if_pos hhead, readHeading_heading, List.append_nil]
    rfl

theorem isPiece_text {e : Entry} (h : IsPiece e.line) : IsPiece e.text := by
  refine ⟨List.cons_ne_nil _ _, ?_⟩
  rw [Entry.text, List.dropLast_cons_of_ne_nil h.ne_nil, List.mem_cons, not_or]
  refine ⟨?_, h.unbroken⟩
  obtain ⟨mark, line⟩ := e
  cases mark <;> simp [Mark.char]

theorem endsLf_text_iff {e : Entry} (h : IsPiece e.line) : EndsLf e.text ↔ EndsLf e.line := by
  rw [EndsLf, EndsLf, Entry.text, List.getLast?_cons_of_ne_nil h.ne_nil]

/-- Marked lines are read as no more marked lines than they are, and as fewer if one runs on into
the next. -/
theorem exists_merged (h : ∀ e ∈ entries, IsPiece e.line) : ∃ merged : List Entry,
    lfLines (entries.map Entry.text).flatten = merged.map Entry.text ∧
      (merged.map Entry.mark).Sublist (entries.map Entry.mark) ∧
      (merged.length = entries.length → ∀ e ∈ entries.dropLast, EndsLf e.line) ∧
      ((∀ e ∈ entries.dropLast, EndsLf e.line) → merged = entries) := by
  induction entries with
  | nil => exact ⟨[], rfl, .slnil, by simp, fun _ => rfl⟩
  | cons e entries ih =>
    obtain ⟨he, hrest⟩ := List.forall_mem_cons.mp h
    rcases eq_or_ne entries [] with rfl | hne
    · refine ⟨[e], ?_, .refl _, by simp, fun _ => rfl⟩
      rw [List.map_singleton, List.flatten_singleton, lfLines_of_isPiece (isPiece_text he)]
    · obtain ⟨merged, hlines, hmarks, hall, heq⟩ := ih hrest
      rw [List.map_cons, List.flatten_cons, List.dropLast_cons_of_ne_nil hne]
      by_cases hends : EndsLf e.line
      · refine ⟨e :: merged, ?_, hmarks.cons_cons _, fun hlength => ?_, fun hlf => ?_⟩
        · rw [lfLines_append_of_endsLf (isPiece_text he) ((endsLf_text_iff he).mpr hends), hlines,
            List.map_cons]
        · exact List.forall_mem_cons.mpr ⟨hends, hall (Nat.succ_injective hlength)⟩
        · rw [heq (List.forall_mem_cons.mp hlf).2]
      -- The line runs on into the next one, so there is one line less.
      · have hopen : '\n' ∉ e.text :=
          (isPiece_text he).not_mem fun hlf => hends ((endsLf_text_iff he).mp hlf)
        obtain ⟨next, merged, rfl⟩ : ∃ next later, merged = next :: later := by
          obtain ⟨d, later, rfl⟩ := List.exists_cons_of_ne_nil hne
          refine List.exists_cons_of_ne_nil ?_
          rintro rfl
          exact lfLines_ne_nil (List.cons_ne_nil _ _) hlines
        have hshort := hmarks.length_le
        rw [List.map_cons, List.length_cons, List.length_map, List.length_map] at hshort
        refine ⟨⟨e.mark, e.line ++ next.text⟩ :: merged, ?_, ?_, fun hlength => ?_, fun hlf => ?_⟩
        · rw [lfLines_append_of_not_mem hopen hlines]
          rfl
        · exact ((List.sublist_cons_self _ _).trans hmarks).cons_cons _
        · rw [List.length_cons, List.length_cons] at hlength
          omega
        · exact absurd (List.forall_mem_cons.mp hlf).1 hends

/-- A hunk is read with its ranges and no more marked lines than it has. -/
structure Edit.Merges (e merged : Edit) : Prop where
  oldCount : merged.oldCount = e.oldCount
  newCount : merged.newCount = e.newCount
  marks : (merged.entries.map Entry.mark).Sublist (e.entries.map Entry.mark)

/-- The lines of a hunk are as many as its ranges say. -/
def Edit.Counted (e : Edit) : Prop :=
  e.oldLines.length = e.oldCount ∧ e.newLines.length = e.newCount

/-- A hunk whose old lines are where it has them is carried out. -/
theorem applyEdits_append {e : Edit} (hcounted : e.Counted) {old new : Nat}
    {before : List (List Char)} (hold : e.oldStart = old + before.length)
    (hnew : e.newStart = new + before.length) (edits : List Edit) (after : List (List Char)) :
    applyEdits (e :: edits) old new (before ++ (e.oldLines ++ after)) =
      (applyEdits edits (e.oldStart + e.oldCount) (e.newStart + e.newCount) after).map fun later =>
        before ++ e.newLines ++ later := by
  have hgap : e.oldStart - old = before.length := by omega
  rw [applyEdits]
  simp only [hgap]
  rw [if_pos
    ⟨⟨by omega, by simp, hnew⟩, hcounted, by rw [List.drop_left, ← hcounted.1, List.take_left]⟩,
    List.take_left, ← List.drop_drop, List.drop_left, ← hcounted.1, List.drop_left]

/-- What can be carried out has as many lines as its ranges say. -/
theorem counted_of_applyEdits {edits : List Edit} {old new : Nat} {lines result : List (List Char)}
    (h : applyEdits edits old new lines = some result) : ∀ e ∈ edits, e.Counted := by
  induction edits generalizing old new lines result with
  | nil => simp
  | cons e edits ih =>
    rw [applyEdits] at h
    split at h
    · rename_i hfits
      obtain ⟨later, hlater, -⟩ := Option.map_eq_some_iff.mp h
      exact List.forall_mem_cons.mpr ⟨hfits.2.1, ih hlater⟩
    · cases h

/-- The marks of a hunk count its lines. -/
theorem length_lines_eq (e : Edit) :
    e.oldLines.length =
      (e.entries.map Entry.mark).count .same + (e.entries.map Entry.mark).count .removed ∧
      e.newLines.length =
        (e.entries.map Entry.mark).count .same + (e.entries.map Entry.mark).count .added ∧
      e.entries.length =
        (e.entries.map Entry.mark).count .same + (e.entries.map Entry.mark).count .removed +
        (e.entries.map Entry.mark).count .added := by
  unfold Edit.oldLines Edit.newLines
  induction e.entries with
  | nil => exact ⟨rfl, rfl, rfl⟩
  | cons x entries ih =>
    obtain ⟨mark, line⟩ := x
    cases mark <;> simp [Entry.isOld, Entry.isNew] at ih ⊢ <;> omega

theorem Edit.Merges.length_eq {e merged : Edit} (h : e.Merges merged) (he : e.Counted)
    (hmerged : merged.Counted) :
    merged.entries.length = e.entries.length := by
  obtain ⟨hold, hnew⟩ := he
  obtain ⟨hold', hnew'⟩ := hmerged
  obtain ⟨hlength, hlength', hall⟩ := length_lines_eq e
  obtain ⟨hmerged, hmerged', hmergedAll⟩ := length_lines_eq merged
  have hsame := h.marks.count_le .same
  have hremoved := h.marks.count_le .removed
  have hadded := h.marks.count_le .added
  have := h.oldCount
  have := h.newCount
  omega

theorem endsLf_flatten (hpiece : ∀ e ∈ entries, IsPiece e.line)
    (h : ∀ e ∈ entries.getLast?, EndsLf e.line) :
    (entries.map Entry.text).flatten = [] ∨ EndsLf (entries.map Entry.text).flatten := by
  rcases List.eq_nil_or_concat' entries with rfl | ⟨front, e, rfl⟩
  · exact .inl rfl
  · have hlast := isPiece_text (hpiece e (by simp))
    have he : EndsLf e.text := (endsLf_text_iff (hpiece e (by simp))).mpr (h e (by simp))
    right
    rw [EndsLf, List.map_append, List.flatten_append, List.map_singleton, List.flatten_singleton,
      List.getLast?_append_of_ne_nil _ hlast.ne_nil]
    exact he

/-- All items but the last, of two lists in a row. -/
theorem forall_mem_dropLast_append {p : Entry → Prop} {xs ys : List Entry}
    (h : ∀ x ∈ (xs ++ ys).dropLast, p x) :
    (∀ x ∈ xs.dropLast, p x) ∧ ∀ y ∈ ys.dropLast, p y := by
  rcases eq_or_ne ys [] with rfl | hys
  · rw [List.append_nil] at h
    exact ⟨h, by simp⟩
  · rw [List.dropLast_append_of_ne_nil hys, List.forall_mem_append] at h
    exact ⟨fun x hx => h.1 x (List.dropLast_subset xs hx), h.2⟩

theorem forall_mem_of_dropLast {p : Entry → Prop} (h : ∀ x ∈ entries.dropLast, p x)
    (hlast : ∀ x ∈ entries.getLast?, p x) : ∀ x ∈ entries, p x := by
  rcases List.eq_nil_or_concat' entries with rfl | ⟨front, y, rfl⟩
  · simp
  · rw [List.dropLast_concat] at h
    exact List.forall_mem_append.mpr
      ⟨h, List.forall_mem_singleton.mpr (hlast y List.getLast?_concat)⟩

theorem forall_mem_dropLast_of_append {p : Entry → Prop} {xs ys : List Entry} (hxs : ∀ x ∈ xs, p x)
    (hys : ∀ y ∈ ys.dropLast, p y) : ∀ z ∈ (xs ++ ys).dropLast, p z := by
  rcases eq_or_ne ys [] with rfl | hne
  · rw [List.append_nil]
    exact fun z hz => hxs z (List.dropLast_subset _ hz)
  · rw [List.dropLast_append_of_ne_nil hne]
    exact List.forall_mem_append.mpr ⟨hxs, hys⟩

/-- **Reading hunks.** If each hunk that others follow ends with LF, then every hunk is read, and
with all of its lines just if each of these ends with LF, the very last one excepted. -/
theorem exists_merged_edits (hpiece : ∀ e ∈ edits, ∀ x ∈ e.entries, IsPiece x.line)
    (hlast : ∀ e ∈ edits.dropLast, ∀ x ∈ e.entries.getLast?, EndsLf x.line) : ∃ merged : List Edit,
    lfLines (edits.flatMap Edit.lines).flatten = merged.flatMap Edit.lines ∧
      List.Forall₂ Edit.Merges edits merged ∧
      (List.Forall₂ (fun e m : Edit => m.entries.length = e.entries.length) edits merged →
        ∀ x ∈ (edits.flatMap Edit.entries).dropLast, EndsLf x.line) ∧
      ((∀ x ∈ (edits.flatMap Edit.entries).dropLast, EndsLf x.line) → merged = edits) := by
  induction edits with
  | nil => exact ⟨[], rfl, .nil, by simp, fun _ => rfl⟩
  | cons e edits ih =>
    obtain ⟨he, hrest⟩ := List.forall_mem_cons.mp hpiece
    obtain ⟨entries, hentries, hmarks, hall, heq⟩ := exists_merged he
    obtain ⟨hheading, hheadingEnds⟩ := isPiece_heading e
    have hmerges : e.Merges { e with entries } := ⟨rfl, rfl, hmarks⟩
    have hlines : ({ e with entries } : Edit).lines = e.heading.toList :: entries.map Entry.text :=
      rfl
    rw [List.flatMap_cons, List.flatMap_cons, Edit.lines, List.flatten_append, List.flatten_cons,
      List.append_assoc, lfLines_append_of_endsLf hheading hheadingEnds]
    rcases eq_or_ne edits [] with rfl | hne
    -- Nothing follows the last hunk, so it may end without LF.
    · refine ⟨[{ e with entries }], ?_, .cons hmerges .nil, fun hlength => ?_, fun hlf => ?_⟩
      · rw [List.flatMap_singleton, hlines, List.flatMap_nil, List.flatten_nil,
          List.append_nil, hentries]
      · rw [List.flatMap_nil, List.append_nil]
        cases hlength with
        | cons hlength _ => exact hall hlength
      · rw [heq (forall_mem_dropLast_append hlf).1]
    · rw [List.dropLast_cons_of_ne_nil hne] at hlast
      obtain ⟨hend, hlast⟩ := List.forall_mem_cons.mp hlast
      obtain ⟨merged, hmerged, hforall, hallRest, heqRest⟩ := ih hrest hlast
      refine ⟨{ e with entries } :: merged, ?_, .cons hmerges hforall, fun hlength => ?_,
        fun hlf => ?_⟩
      · rw [List.flatMap_cons, hlines, lfLines_append (endsLf_flatten he hend), hentries, hmerged,
          List.cons_append]
      · cases hlength with
        | cons hlength hlengths =>
          exact forall_mem_dropLast_of_append (forall_mem_of_dropLast (hall hlength) hend)
            (hallRest hlengths)
      · rw [heq (forall_mem_dropLast_append hlf).1, heqRest (forall_mem_dropLast_append hlf).2]

end Edits

/-! ## Differences -/

/-- The heading of a difference. -/
def headingOf (path : String) : List Char :=
  ("--- a/" ++ path ++ "\n+++ b/" ++ path ++ "\n").toList

theorem readDiff_append {path : String} {body : List Char} {edits : List Edit}
    (hpath : '\n' ∉ path.toList) (hbody : lfLines body = edits.flatMap Edit.lines) :
    readDiff (headingOf path ++ body) = some edits := by
  have hname : '\n' ∉ ("--- a/" ++ path).toList ∧ '\n' ∉ ("+++ b/" ++ path).toList := by
    simp [hpath]
  obtain ⟨hold, holdEnds⟩ := isPiece_concat hname.1
  obtain ⟨hnew, hnewEnds⟩ := isPiece_concat hname.2
  have hheading : headingOf path = (("--- a/" ++ path).toList ++ ['\n']) ++
      (("+++ b/" ++ path).toList ++ ['\n']) := by
    simp [headingOf]
  have hlines : lfLines (headingOf path ++ body) =
      (("--- a/" ++ path).toList ++ ['\n']) :: (("+++ b/" ++ path).toList ++ ['\n']) ::
        edits.flatMap Edit.lines := by
    rw [hheading, List.append_assoc, lfLines_append_of_endsLf hold holdEnds,
      lfLines_append_of_endsLf hnew hnewEnds, hbody]
  rw [readDiff, hlines]
  simp only
  rw [if_pos (by simp [String.toList_append]), readEdits_lines]

end AccessPatch.Diff
