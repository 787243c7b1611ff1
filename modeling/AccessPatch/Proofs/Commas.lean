import AccessPatch.Proofs.Store.Path
import AccessPatch.Text.Blank
import Mathlib.Data.List.Forall2
import Mathlib.Data.List.TakeWhile

/-!
# Comma-separated lists

A text is cut at its commas, the white space at the ends of each piece is taken away, and a piece
of which nothing is left is no part. `Parts` says this of a text and its parts, not how they are
found; `splitCommas` finds them, and there are no others (`splitCommas_eq_iff`).
-/

namespace AccessPatch.Text

variable {cs core : List Char} {s : String} {parts : List String}

/-! ## White space at the ends -/

/-- What is left of a text when the white space at its two ends is taken away. -/
structure Trimmed (cs core : List Char) : Prop where
  around : ∃ front back, cs = front ++ core ++ back ∧ (∀ c ∈ front, isBlank c = true) ∧
    ∀ c ∈ back, isBlank c = true
  head : ∀ c ∈ core.head?, isBlank c = false
  last : ∀ c ∈ core.getLast?, isBlank c = false

theorem isBlank_of_head_dropWhile (cs : List Char) :
    ∀ c ∈ (cs.dropWhile isBlank).head?, isBlank c = false := by
  intro c hc
  have hhead := List.head?_dropWhile_not isBlank cs
  rw [Option.mem_def.mp hc] at hhead
  exact hhead

theorem trimmed_trim (cs : List Char) : Trimmed cs (trim cs) := by
  let rest := cs.dropWhile isBlank
  let back := (rest.reverse.takeWhile isBlank).reverse
  have hcs : cs.takeWhile isBlank ++ rest = cs := List.takeWhile_append_dropWhile
  have hrest : trim cs ++ back = rest := by
    rw [trim, ← List.reverse_append, List.takeWhile_append_dropWhile, List.reverse_reverse]
  refine ⟨⟨cs.takeWhile isBlank, back, ?_, fun c hc => List.mem_takeWhile_imp hc,
    fun c hc => List.mem_takeWhile_imp (List.mem_reverse.mp hc)⟩, fun c hc => ?_, fun c hc => ?_⟩
  · rw [List.append_assoc, hrest, hcs]
  · refine isBlank_of_head_dropWhile cs c ?_
    show c ∈ rest.head?
    rw [← hrest, List.head?_append, Option.mem_def.mp hc]
    rfl
  · rw [trim, List.getLast?_reverse] at hc
    exact isBlank_of_head_dropWhile _ c hc

/-- White space before a text that has none at its beginning is what is dropped. -/
theorem dropWhile_append_eq {front rest : List Char} (hfront : ∀ c ∈ front, isBlank c = true)
    (hrest : ∀ c ∈ rest.head?, isBlank c = false) : (front ++ rest).dropWhile isBlank = rest := by
  rw [List.dropWhile_append_of_pos hfront]
  cases rest with
  | nil => rfl
  | cons c rest =>
    have hc : isBlank c = false := hrest c rfl
    rw [List.dropWhile_cons_of_neg (by simp [hc])]

theorem Trimmed.trim_eq (h : Trimmed cs core) : trim cs = core := by
  obtain ⟨front, back, rfl, hfront, hback⟩ := h.around
  unfold trim
  by_cases hcore : core = []
  · have hblank : ∀ c ∈ front ++ back, isBlank c = true :=
      fun c hc => (List.mem_append.mp hc).elim (hfront c) (hback c)
    rw [hcore, List.append_nil, List.dropWhile_eq_nil_iff.mpr hblank]
    rfl
  · have hhead : ∀ c ∈ (core ++ back).head?, isBlank c = false := by
      rw [List.head?_append_of_ne_nil _ hcore]
      exact h.head
    have hlast : ∀ c ∈ core.reverse.head?, isBlank c = false := by
      rw [List.head?_reverse]
      exact h.last
    have hback' : ∀ c ∈ back.reverse, isBlank c = true :=
      fun c hc => hback c (List.mem_reverse.mp hc)
    rw [List.append_assoc, dropWhile_append_eq hfront hhead, List.reverse_append,
      dropWhile_append_eq hback' hlast, List.reverse_reverse]

/-! ## Pieces and parts -/

/-- The parts of a comma-separated list: what is left of the pieces between its commas, where
something is left. -/
def Parts (s : String) (parts : List String) : Prop :=
  ∃ pieces cores : List (List Char),
    (pieces ≠ [] ∧ (∀ piece ∈ pieces, ',' ∉ piece) ∧ s.toList = [','].intercalate pieces) ∧
      List.Forall₂ Trimmed pieces cores ∧ parts = (cores.filter (· ≠ [])).map String.ofList

theorem forall₂_trimmed_iff {pieces cores : List (List Char)} :
    List.Forall₂ Trimmed pieces cores ↔ cores = pieces.map trim := by
  constructor
  · intro h
    induction h with
    | nil => rfl
    | cons h _ ih => rw [List.map_cons, h.trim_eq, ih]
  · rintro rfl
    rw [List.forall₂_map_right_iff, List.forall₂_same]
    exact fun piece _ => trimmed_trim piece

theorem splitCommas_eq_iff : splitCommas s = parts ↔ Parts s parts := by
  unfold splitCommas
  constructor
  · rintro rfl
    refine ⟨s.toList.splitOn ',', _, ⟨List.splitOn_ne_nil _ _, ?_, ?_⟩,
      forall₂_trimmed_iff.mpr rfl, rfl⟩
    · exact fun piece hpiece => Path.not_mem_of_mem_splitOn hpiece
    · exact (List.intercalate_splitOn ',').symm
  · rintro ⟨pieces, cores, ⟨hsome, hcomma, hs⟩, hcores, rfl⟩
    rw [forall₂_trimmed_iff.mp hcores, hs, List.splitOn_intercalate ',' hcomma hsome]

theorem parts_splitCommas (s : String) : Parts s (splitCommas s) :=
  splitCommas_eq_iff.mp rfl

example : splitCommas " button,, text field ,\t" = ["button", "text field"] := by
  decide

end AccessPatch.Text
