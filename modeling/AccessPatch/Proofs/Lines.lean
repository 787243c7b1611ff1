import AccessPatch.Lines
import Mathlib.Data.List.Basic
import Mathlib.Data.List.Induction

/-!
# Reading lines in parts

`lineBreaks` goes through a document from left to right and takes CR LF for one terminator. So a
document may be read in two parts wherever the cut between them is clean, that is, where it does
not lie within such a pair: its terminators are those of the one part and those of the other
(`lineBreaksFrom_append`).

It follows which line holds a clean cut (`lineAt_append`), where a line starts (`startOf?_append`)
and what it holds (`isLine_of_split`). Any bytes fall into whole lines and the beginning of one
(`exists_lastLine`).
-/

namespace AccessPatch

/-- No pair of CR and LF lies across the cut between two parts of a document. -/
def CleanCut (xs ys : Bytes) : Prop :=
  xs.getLast? = some 0x0D → ys.head? ≠ some 0x0A

/-- None of the bytes belongs to a terminator. -/
def Unbroken (bs : Bytes) : Prop :=
  ∀ b ∈ bs, isLineEnd b = false

instance (bs : Bytes) : Decidable (Unbroken bs) :=
  List.decidableBAll (fun b => isLineEnd b = false) bs

/-- The terminators of a document. -/
def newlinesOf (bs : Bytes) : List Newline :=
  (lineBreaks bs).map Prod.fst

section Cut

variable {xs ys zs : Bytes}

theorem CleanCut.append (h : CleanCut xs ys) (hne : ys ≠ []) (zs : Bytes) :
    CleanCut xs (ys ++ zs) := by
  intro hlast
  rw [List.head?_append_of_ne_nil _ hne]
  exact h hlast

/-- The last of the bytes before a cut decides. -/
theorem CleanCut.prepend (h : CleanCut ys zs) (hne : ys ≠ []) (xs : Bytes) :
    CleanCut (xs ++ ys) zs := by
  intro hlast
  rw [List.getLast?_append_of_ne_nil _ hne] at hlast
  exact h hlast

theorem CleanCut.tail {b : UInt8} (h : CleanCut (b :: xs) ys) : CleanCut xs ys := by
  intro hlast
  refine h ?_
  rw [List.getLast?_cons, hlast]
  rfl

theorem Unbroken.append (hxs : Unbroken xs) (hys : Unbroken ys) : Unbroken (xs ++ ys) :=
  List.forall_mem_append.mpr ⟨hxs, hys⟩

theorem Unbroken.cut_after (h : Unbroken xs) (ys : Bytes) : CleanCut xs ys := by
  intro hlast
  cases h _ (List.mem_of_getLast? hlast)

theorem Unbroken.cut_before (h : Unbroken ys) (xs : Bytes) : CleanCut xs ys := by
  intro _ hhead
  cases h _ (List.mem_of_head? hhead)

/-- Where what follows a line may be cut off, so may the line. -/
theorem CleanCut.before_line (h : CleanCut (xs ++ ys) zs) (hline : Unbroken ys) :
    CleanCut xs (ys ++ zs) := by
  cases ys with
  | nil => rwa [List.append_nil] at h
  | cons b ys => exact (hline.cut_before xs).append (List.cons_ne_nil _ _) zs

end Cut

/-! ## Terminators -/

section Breaks

variable {start : Nat} {b : UInt8} {xs ys rest : Bytes}

theorem lineBreaksFrom_cr (h : rest.head? ≠ some 0x0A) :
    lineBreaksFrom start (0x0D :: rest) = (.cr, start + 1) :: lineBreaksFrom (start + 1) rest := by
  cases rest with
  | nil => rfl
  | cons c rest =>
    have hc : c ≠ 0x0A := by simpa using h
    rw [lineBreaksFrom]
    simpa using hc

theorem lineBreaksFrom_of_not_isLineEnd (h : isLineEnd b = false) :
    lineBreaksFrom start (b :: rest) = lineBreaksFrom (start + 1) rest := by
  have hb : b ≠ 0x0A ∧ b ≠ 0x0D := by simpa [isLineEnd] using h
  rw [lineBreaksFrom]
  · simp [hb.2]
  · simp [hb.2]
  · simp [hb.1]

/-- Where the cut is clean, the terminators are those of both parts. -/
theorem lineBreaksFrom_append (h : CleanCut xs ys) :
    lineBreaksFrom start (xs ++ ys) =
      lineBreaksFrom start xs ++ lineBreaksFrom (start + xs.length) ys := by
  have hlength : ∀ n k m : Nat, n + (m + k) = n + k + m := by omega
  fun_induction lineBreaksFrom start xs with
  | case1 start => rfl
  | case2 start rest ih =>
    rw [List.cons_append, List.cons_append, lineBreaksFrom, ih h.tail.tail, List.length_cons,
      List.length_cons, Nat.add_assoc rest.length, hlength]
    rfl
  | case3 start rest hno ih =>
    have hhead : (rest ++ ys).head? ≠ some 0x0A := by
      cases rest with
      | nil => exact h rfl
      | cons c rest => simpa using fun hc => hno rest (by rw [hc])
    rw [List.cons_append, lineBreaksFrom_cr hhead, ih h.tail, List.length_cons, hlength]
    rfl
  | case4 start rest ih =>
    rw [List.cons_append, lineBreaksFrom, ih h.tail, List.length_cons, hlength]
    rfl
  | case5 start b rest _ hcr hlf ih =>
    have hb : isLineEnd b = false := by
      simpa [isLineEnd] using And.intro hlf hcr
    rw [List.cons_append, lineBreaksFrom_of_not_isLineEnd hb, ih h.tail, List.length_cons, hlength]

theorem lineBreaksFrom_of_unbroken (h : Unbroken xs) : lineBreaksFrom start xs = [] := by
  induction xs generalizing start with
  | nil => rfl
  | cons b xs ih =>
    obtain ⟨hb, hxs⟩ := List.forall_mem_cons.mp h
    rw [lineBreaksFrom_of_not_isLineEnd hb, ih hxs]

theorem lineBreaksFrom_newline (start : Nat) (newline : Newline) :
    lineBreaksFrom start newline.bytes = [(newline, start + newline.bytes.length)] := by
  cases newline <;> rfl

/-- A terminator ends in the document that holds it. -/
theorem snd_of_mem_lineBreaksFrom (start : Nat) (bs : Bytes) :
    ∀ p ∈ lineBreaksFrom start bs, start < p.2 ∧ p.2 ≤ start + bs.length := by
  have hcons : ∀ {newline : Newline} {start width : Nat} {rest : Bytes}, 0 < width →
      (∀ p ∈ lineBreaksFrom (start + width) rest, start + width < p.2 ∧
        p.2 ≤ start + width + rest.length) →
      ∀ p ∈ (newline, start + width) :: lineBreaksFrom (start + width) rest,
        start < p.2 ∧ p.2 ≤ start + (rest.length + width) := by
    intro newline start width rest hwidth hrest
    refine List.forall_mem_cons.mpr ⟨⟨Nat.lt_add_of_pos_right hwidth, by simp only; omega⟩,
      fun p hp => ?_⟩
    have := hrest p hp
    omega
  fun_induction lineBreaksFrom start bs with
  | case1 => simp
  | case2 start rest ih => exact hcons Nat.two_pos ih
  | case3 start rest _ ih => exact hcons Nat.one_pos ih
  | case4 start rest ih => exact hcons Nat.one_pos ih
  | case5 start b rest _ _ _ ih =>
    intro p hp
    have := ih p hp
    simp only [List.length_cons]
    omega

theorem map_fst_lineBreaksFrom (start : Nat) (bs : Bytes) :
    (lineBreaksFrom start bs).map Prod.fst = newlinesOf bs := by
  have hstart : ∀ start start', (lineBreaksFrom start bs).map Prod.fst =
      (lineBreaksFrom start' bs).map Prod.fst := by
    intro start start'
    fun_induction lineBreaksFrom start bs generalizing start' with
    | case1 => rfl
    | case2 start rest ih => rw [lineBreaksFrom, List.map_cons, List.map_cons, ih]
    | case3 start rest hno ih =>
      rw [lineBreaksFrom_cr, List.map_cons, List.map_cons, ih]
      intro hhead
      obtain ⟨rest, rfl⟩ := List.head?_eq_some_iff.mp hhead
      exact hno rest rfl
    | case4 start rest ih => rw [lineBreaksFrom, List.map_cons, List.map_cons, ih]
    | case5 start b rest _ hcr hlf ih =>
      have hb : isLineEnd b = false := by
        simpa [isLineEnd] using And.intro hlf hcr
      rw [lineBreaksFrom_of_not_isLineEnd hb, ih]
  exact hstart start 0

theorem newlinesOf_append (h : CleanCut xs ys) :
    newlinesOf (xs ++ ys) = newlinesOf xs ++ newlinesOf ys := by
  rw [newlinesOf, lineBreaks, lineBreaksFrom_append h, List.map_append, map_fst_lineBreaksFrom,
    map_fst_lineBreaksFrom]

theorem newlinesOf_of_unbroken (h : Unbroken xs) : newlinesOf xs = [] := by
  rw [newlinesOf, lineBreaks, lineBreaksFrom_of_unbroken h, List.map_nil]

theorem newlinesOf_newline (newline : Newline) : newlinesOf newline.bytes = [newline] := by
  rw [newlinesOf, lineBreaks, lineBreaksFrom_newline, List.map_cons, List.map_nil]

theorem newlinesOf_line {newline : Newline} (hxs : Unbroken xs) (h : CleanCut newline.bytes ys) :
    newlinesOf (xs ++ (newline.bytes ++ ys)) = newline :: newlinesOf ys := by
  have hbytes : newline.bytes ≠ [] := by cases newline <;> simp [Newline.bytes]
  rw [newlinesOf_append (hxs.cut_after _), newlinesOf_of_unbroken hxs, newlinesOf_append h,
    newlinesOf_newline]
  rfl

end Breaks

/-! ## Lines -/

/-- A whole number of lines, each with its terminator. -/
inductive EndsLine : Bytes → Prop where
  | nil : EndsLine []
  | newline {front : Bytes} (newline : Newline) (cut : CleanCut front newline.bytes) :
      EndsLine (front ++ newline.bytes)

/-- The line with a number, and its terminator. -/
structure IsLine (document : Bytes) (number : Nat) (text : Bytes) (newline : Newline) : Prop where
  unbroken : Unbroken text
  place : ∃ start stop, (LineTable.ofBytes document).startOf? number = some start ∧
    (LineTable.ofBytes document).startOf? (number + 1) = some stop ∧
    (document.take stop).drop start = text ++ newline.bytes

section Lines

variable {xs ys before line text after : Bytes} {newline : Newline}

theorem size_ofBytes (bs : Bytes) : (LineTable.ofBytes bs).size = 1 + (newlinesOf bs).length := by
  rw [LineTable.size, LineTable.ofBytes, newlinesOf, List.length_cons, List.length_map,
    List.length_map, Nat.add_comm]

theorem starts_append (h : CleanCut xs ys) : (LineTable.ofBytes (xs ++ ys)).starts =
    0 :: ((lineBreaks xs).map Prod.snd ++ (lineBreaksFrom xs.length ys).map Prod.snd) := by
  simp only [LineTable.ofBytes, lineBreaks, lineBreaksFrom_append h, List.map_append, Nat.zero_add]

/-- The line that holds a clean cut is found by counting the terminators before it. -/
theorem lineAt_append (h : CleanCut xs ys) :
    (LineTable.ofBytes (xs ++ ys)).lineAt xs.length = 1 + (newlinesOf xs).length := by
  have hbefore : ((lineBreaks xs).map Prod.snd).countP (· ≤ xs.length) =
      (newlinesOf xs).length := by
    rw [newlinesOf, List.length_map, ← List.length_map (f := Prod.snd), List.countP_eq_length]
    intro offset hoffset
    obtain ⟨p, hp, rfl⟩ := List.mem_map.mp hoffset
    have := snd_of_mem_lineBreaksFrom _ _ p hp
    simp only [decide_eq_true_eq]
    omega
  have hafter : ((lineBreaksFrom xs.length ys).map Prod.snd).countP (· ≤ xs.length) = 0 := by
    rw [List.countP_eq_zero]
    intro offset hoffset
    obtain ⟨p, hp, rfl⟩ := List.mem_map.mp hoffset
    have := snd_of_mem_lineBreaksFrom _ _ p hp
    simp only [decide_eq_true_eq]
    omega
  rw [LineTable.lineAt, starts_append h, Int.toNat_natCast, List.countP_cons, List.countP_append,
    hbefore, hafter]
  simp [Nat.add_comm]

/-- A line starts after the terminators of the lines before it. -/
theorem startOf?_append (hends : EndsLine xs) (h : CleanCut xs ys) :
    (LineTable.ofBytes (xs ++ ys)).startOf? (1 + (newlinesOf xs).length : Nat) =
      some xs.length := by
  have hindex : (((1 + (newlinesOf xs).length : Nat) : Int) - 1).toNat =
      (newlinesOf xs).length := by omega
  rw [LineTable.startOf?, if_pos (by omega), starts_append h, hindex]
  cases hends with
  | nil => rfl
  | @newline front newline cut =>
    have hlength : ((lineBreaks front).map Prod.snd).length = (newlinesOf front).length := by
      rw [newlinesOf, List.length_map, List.length_map]
    have hcount : (newlinesOf (front ++ newline.bytes)).length = (newlinesOf front).length + 1 := by
      rw [newlinesOf_append cut, newlinesOf_newline, List.length_append, List.length_singleton]
    rw [hcount, List.getElem?_cons_succ, lineBreaks, lineBreaksFrom_append cut,
      lineBreaksFrom_newline, ← lineBreaks, List.map_append, List.append_assoc,
      List.getElem?_append_right (by omega), hlength]
    simp

theorem lineAt_line (hline : Unbroken line) (h : CleanCut (before ++ line) after) :
    (LineTable.ofBytes (before ++ (line ++ after))).lineAt (before.length + line.length : Nat) =
      1 + (newlinesOf before).length := by
  rw [← List.append_assoc, ← List.length_append, lineAt_append h,
    newlinesOf_append (hline.cut_before before), newlinesOf_of_unbroken hline, List.append_nil]

/-- One more line. -/
theorem endsLine_line (before : Bytes) (htext : Unbroken text) (hne : text ≠ [])
    (newline : Newline) :
    EndsLine (before ++ (text ++ newline.bytes)) ∧
      newlinesOf (before ++ (text ++ newline.bytes)) = newlinesOf before ++ [newline] := by
  have hcut : CleanCut (before ++ text) newline.bytes := (htext.cut_after _).prepend hne before
  rw [← List.append_assoc]
  refine ⟨.newline newline hcut, ?_⟩
  rw [newlinesOf_append hcut, newlinesOf_append (htext.cut_before before),
    newlinesOf_of_unbroken htext, newlinesOf_newline, List.append_nil]

/-- One line, between the lines before it and the beginning of the next one. -/
theorem isLine_of_split {document : Bytes} (hends : EndsLine before) (htext : Unbroken text)
    (hne : text ≠ []) (hline : Unbroken line) (h : CleanCut (newline.bytes ++ line) after)
    (hdocument : document = before ++ (text ++ newline.bytes) ++ (line ++ after)) :
    ∃ number, IsLine document number text newline ∧
      (LineTable.ofBytes document).lineAt
        ((before ++ (text ++ newline.bytes)).length + line.length : Nat) =
        number + 1 ∧
      (LineTable.ofBytes document).startOf? (number + 1 : Nat) =
        some (before ++ (text ++ newline.bytes)).length := by
  obtain ⟨hends', hcount⟩ := endsLine_line before htext hne newline
  have hfirst : CleanCut before (text ++ (newline.bytes ++ (line ++ after))) :=
    (htext.cut_before before).append hne _
  have hnext : CleanCut (before ++ (text ++ newline.bytes) ++ line) after := by
    have hbytes : newline.bytes ++ line ≠ [] := by cases newline <;> simp [Newline.bytes]
    have hall := h.prepend hbytes (before ++ text)
    simpa only [List.append_assoc] using hall
  have hnumber : (newlinesOf (before ++ (text ++ newline.bytes))).length =
      (newlinesOf before).length + 1 := by
    rw [hcount, List.length_append, List.length_singleton]
  have hstart := startOf?_append hends' (hnext.before_line hline)
  have hat := lineAt_line hline hnext
  rw [hnumber, ← hdocument, ← Nat.add_assoc] at hstart hat
  refine ⟨1 + (newlinesOf before).length, ⟨htext, before.length, _, ?_, hstart, ?_⟩, hat, hstart⟩
  · rw [hdocument]
    have hbefore := startOf?_append hends hfirst
    simpa only [List.append_assoc] using hbefore
  · rw [hdocument, List.take_left, List.drop_left]

theorem endsLine_concat (bs : Bytes) {b : UInt8} (hb : isLineEnd b = true) :
    EndsLine (bs ++ [b]) := by
  simp only [isLineEnd, Bool.or_eq_true, beq_iff_eq] at hb
  rcases hb with rfl | rfl
  · by_cases hlast : bs.getLast? = some 0x0D
    · obtain ⟨front, rfl⟩ := List.getLast?_eq_some_iff.mp hlast
      rw [List.append_assoc]
      exact .newline .crlf (by simp [CleanCut, Newline.bytes])
    · exact .newline .lf fun hcr => absurd hcr hlast
  · exact .newline .cr (by simp [CleanCut, Newline.bytes])

theorem EndsLine.eq_nil_or (h : EndsLine xs) :
    xs = [] ∨ ∃ front b, isLineEnd b = true ∧ xs = front ++ [b] := by
  cases h with
  | nil => exact .inl rfl
  | @newline front newline cut =>
    right
    cases newline with
    | lf => exact ⟨front, 0x0A, rfl, rfl⟩
    | cr => exact ⟨front, 0x0D, rfl, rfl⟩
    | crlf => exact ⟨front ++ [0x0D], 0x0A, rfl, by simp [Newline.bytes]⟩

/-- Bytes are whole lines and the beginning of one more. -/
theorem exists_lastLine (bs : Bytes) :
    ∃ before line, bs = before ++ line ∧ EndsLine before ∧ Unbroken line := by
  induction bs using List.reverseRecOn with
  | nil => exact ⟨[], [], rfl, .nil, by simp [Unbroken]⟩
  | append_singleton bs b ih =>
    cases hb : isLineEnd b with
    | true => exact ⟨bs ++ [b], [], by simp, endsLine_concat bs hb, by simp [Unbroken]⟩
    | false =>
      obtain ⟨before, line, rfl, hends, hline⟩ := ih
      exact ⟨before, line ++ [b], List.append_assoc _ _ _, hends,
        hline.append (by simpa [Unbroken] using hb)⟩

/-- The line that holds a clean cut starts after the whole lines before it. -/
theorem exists_lineStart (h : CleanCut xs ys) :
    ∃ before line, xs = before ++ line ∧ EndsLine before ∧
    Unbroken line ∧
    (LineTable.ofBytes (xs ++ ys)).startOf? ((LineTable.ofBytes (xs ++ ys)).lineAt xs.length) =
      some before.length := by
  obtain ⟨before, line, rfl, hends, hline⟩ := exists_lastLine xs
  refine ⟨before, line, rfl, hends, hline, ?_⟩
  rw [List.append_assoc, List.length_append, lineAt_line hline h]
  exact startOf?_append hends (h.before_line hline)

end Lines

end AccessPatch
