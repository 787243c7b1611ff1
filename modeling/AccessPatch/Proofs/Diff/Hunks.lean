import AccessPatch.Diff.Unified
import AccessPatch.Proofs.Diff.Runs

/-!
# Hunks as a way through two texts

The stretches between the runs lead through both texts without a gap (`Path`). Hunks are what is
left of them when stretches that are the same are cut down, so the hunks of two texts lead through
both with nothing but equal lines left out, and a hunk that others follow ends with lines of
context (`script_hunks`).
-/

namespace AccessPatch.Diff

/-! ## Slices -/

section Slice

variable {lines : List String} {i j k : Nat}

theorem slice_self (lines : List String) (i : Nat) : slice lines i i = [] := by
  rw [slice, Nat.sub_self, List.take_zero]

theorem slice_append_slice (lines : List String) (hij : i ≤ j) (hjk : j ≤ k) :
    slice lines i j ++ slice lines j k = slice lines i k := by
  obtain ⟨m, rfl⟩ := Nat.exists_eq_add_of_le hij
  obtain ⟨n, rfl⟩ := Nat.exists_eq_add_of_le hjk
  have hcut : i + m + n - i = m + n := by omega
  rw [slice, slice, slice, Nat.add_sub_cancel_left, Nat.add_sub_cancel_left, hcut, List.take_add,
    List.drop_drop]

theorem slice_append_drop (lines : List String) (hij : i ≤ j) :
    slice lines i j ++ lines.drop j = lines.drop i := by
  obtain ⟨m, rfl⟩ := Nat.exists_eq_add_of_le hij
  rw [slice, Nat.add_sub_cancel_left, ← List.drop_drop, List.take_append_drop]

end Slice

/-! ## Stretches one behind the other -/

/-- A stretch lies in both texts, and if it is the same in both, then they have the same lines
there. -/
structure Stretch.Within (a b : List String) (s : Stretch) : Prop where
  old_le : s.oldStart ≤ s.oldStop
  old_le_length : s.oldStop ≤ a.length
  new_le : s.newStart ≤ s.newStop
  new_le_length : s.newStop ≤ b.length
  same : s.same = true → slice a s.oldStart s.oldStop = slice b s.newStart s.newStop

/-- The stretch of equal lines between two places. -/
def common (oldStart oldStop newStart newStop : Nat) : Stretch :=
  { same := true, oldStart, oldStop, newStart, newStop }

/-- Stretches that lead through both texts, from one pair of places to another. -/
inductive Path (a b : List String) : Nat → Nat → List Stretch → Nat → Nat → Prop where
  | nil {i i' : Nat} (hold : i ≤ a.length) (hnew : i' ≤ b.length) : Path a b i i' [] i i'
  | cons {i i' j j' : Nat} {s : Stretch} {rest : List Stretch} (hold : s.oldStart = i)
      (hnew : s.newStart = i') (within : s.Within a b)
      (next : Path a b s.oldStop s.newStop rest j j') : Path a b i i' (s :: rest) j j'

section Path

variable {a b : List String} {i i' j j' k k' n : Nat} {s : Stretch} {xs ys : List Stretch}

theorem within_common_self (hold : i ≤ a.length) (hnew : i' ≤ b.length) :
    (common i i i' i').Within a b :=
  ⟨le_rfl, hold, le_rfl, hnew, fun _ => by simp only [common, slice_self]⟩

theorem Stretch.Within.trans (h : (common i j i' j').Within a b)
    (h' : (common j k j' k').Within a b) :
    (common i k i' k').Within a b := by
  obtain ⟨hold, -, hnew, -, hsame⟩ := h
  obtain ⟨hold', hlength, hnew', hlength', hsame'⟩ := h'
  refine ⟨hold.trans hold', hlength, hnew.trans hnew', hlength', fun _ => ?_⟩
  have hfirst := hsame rfl
  have hsecond := hsame' rfl
  dsimp only [common] at *
  rw [← slice_append_slice a hold hold', ← slice_append_slice b hnew hnew', hfirst, hsecond]

/-- Texts go on alike if they do after equal lines. -/
theorem Stretch.Within.drop_eq (h : (common i j i' j').Within a b) (hrest : a.drop j = b.drop j') :
    a.drop i = b.drop i' := by
  obtain ⟨hold, -, hnew, -, hsame⟩ := h
  have hlines := hsame rfl
  dsimp only [common] at hold hnew hlines
  rw [← slice_append_drop a hold, ← slice_append_drop b hnew, hlines, hrest]

theorem Stretch.Within.length_eq (h : s.Within a b) (hsame : s.same = true) :
    s.oldStop - s.oldStart = s.newStop - s.newStart := by
  have hlength := congrArg List.length (h.same hsame)
  rw [length_slice, length_slice, Nat.min_eq_left h.old_le_length,
    Nat.min_eq_left h.new_le_length] at hlength
  exact hlength

/-- Equal lines may be cut anywhere, at the same place in both texts. -/
theorem Stretch.Within.cut (h : s.Within a b) (hsame : s.same = true)
    (hn : n ≤ s.oldStop - s.oldStart) :
    (common s.oldStart (s.oldStart + n) s.newStart (s.newStart + n)).Within a b ∧
      (common (s.oldStart + n) s.oldStop (s.newStart + n) s.newStop).Within a b := by
  have hlength := h.length_eq hsame
  obtain ⟨hold, holdLength, hnew, hnewLength, hlines⟩ := h
  have hslices := hlines hsame
  rw [← slice_append_slice a (Nat.le_add_right _ n) (by omega),
    ← slice_append_slice b (Nat.le_add_right _ n) (by omega)] at hslices
  obtain ⟨hfirst, hsecond⟩ := List.append_inj hslices (by rw [length_slice, length_slice]; omega)
  exact ⟨⟨by simp [common], by simp only [common]; omega, by simp [common],
      by simp only [common]; omega, fun _ => hfirst⟩,
    ⟨by simp only [common]; omega, holdLength, by simp only [common]; omega, hnewLength,
      fun _ => hsecond⟩⟩

theorem Stretch.Within.firstLines_eq (h : s.Within a b) (hsame : s.same = true) :
    s.firstLines = common s.oldStart (s.oldStart + min context (s.oldStop - s.oldStart))
      s.newStart (s.newStart + min context (s.oldStop - s.oldStart)) := by
  have hlength := h.length_eq hsame
  have hold := h.old_le
  have hnew := h.new_le
  simp only [Stretch.firstLines, common, Stretch.mk.injEq, hsame, true_and]
  omega

theorem Stretch.Within.lastLines_eq (h : s.Within a b) (hsame : s.same = true) :
    s.lastLines = common (s.oldStart + (s.oldStop - s.oldStart - context)) s.oldStop
      (s.newStart + (s.oldStop - s.oldStart - context)) s.newStop := by
  have hlength := h.length_eq hsame
  have hold := h.old_le
  have hnew := h.new_le
  simp only [Stretch.lastLines, common, Stretch.mk.injEq, hsame, true_and, and_true]
  omega

theorem Path.bounds (h : Path a b i i' xs j j') :
    i ≤ j ∧ j ≤ a.length ∧ i' ≤ j' ∧ j' ≤ b.length := by
  induction h with
  | nil hold hnew => exact ⟨le_rfl, hold, le_rfl, hnew⟩
  | cons hold hnew within _ ih =>
    have := within.old_le
    have := within.new_le
    omega

theorem path_singleton (h : s.Within a b) :
    Path a b s.oldStart s.newStart [s] s.oldStop s.newStop :=
  .cons rfl rfl h (.nil h.old_le_length h.new_le_length)

theorem Path.append (hxs : Path a b i i' xs j j') (hys : Path a b j j' ys k k') :
    Path a b i i' (xs ++ ys) k k' := by
  induction hxs with
  | nil => exact hys
  | cons hold hnew within _ ih => exact .cons hold hnew within (ih hys)

theorem path_concat_inv (h : Path a b i i' (xs ++ [s]) j j') :
    Path a b i i' xs s.oldStart s.newStart ∧ s.Within a b ∧ s.oldStop = j ∧ s.newStop = j' := by
  induction xs generalizing i i' with
  | nil =>
    cases h with
    | cons hold hnew within next =>
      cases next
      subst hold hnew
      have hold := within.old_le.trans within.old_le_length
      have hnew := within.new_le.trans within.new_le_length
      exact ⟨.nil hold hnew, within, rfl, rfl⟩
  | cons t xs ih =>
    cases h with
    | cons hold hnew within next =>
      obtain ⟨hxs, hs⟩ := ih next
      exact ⟨.cons hold hnew within hxs, hs⟩

/-- Where all is the same, the way leads over equal lines. -/
theorem Path.within_common (h : Path a b i i' xs j j') (hsame : ∀ s ∈ xs, s.same = true) :
    (common i j i' j').Within a b := by
  induction h with
  | nil hold hnew => exact within_common_self hold hnew
  | @cons i i' j j' s rest hold hnew within _ ih =>
    obtain ⟨hs, hrest⟩ := List.forall_mem_cons.mp hsame
    subst hold hnew
    have hfirst : (common s.oldStart s.oldStop s.newStart s.newStop).Within a b :=
      ⟨within.old_le, within.old_le_length, within.new_le, within.new_le_length,
        fun _ => within.same hs⟩
    exact hfirst.trans (ih hrest)

end Path

/-! ## From runs to stretches -/

section Stretches

variable {a b : List String} {i i' j j' : Nat} {l : List Stretch}

theorem path_changed (hold : i ≤ j) (hlength : j ≤ a.length) (hnew : i' ≤ j')
    (hlength' : j' ≤ b.length) :
    Path a b i i' (stretchesFrom.changed i j i' j') j j' := by
  unfold stretchesFrom.changed
  split
  · exact .cons rfl rfl ⟨hold, hlength, hnew, hlength', nofun⟩ (.nil hlength hlength')
  · obtain ⟨rfl, rfl⟩ : i = j ∧ i' = j' := by omega
    exact .nil hlength hlength'

theorem slice_eq_of_fits {oldStart oldStop newStart newStop : Nat} {block : Block}
    (h : Fits a b oldStart oldStop newStart newStop block) :
    slice a block.old (block.old + block.size) = slice b block.new (block.new + block.size) := by
  refine List.ext_getElem? fun m => ?_
  rw [getElem?_slice, getElem?_slice, Nat.add_sub_cancel_left, Nat.add_sub_cancel_left]
  split
  · rename_i hm
    exact h.same m hm
  · rfl

theorem Chain.path {blocks : List Block} (h : Chain a b a.length b.length i i' blocks) :
    Path a b i i' (stretchesFrom a.length b.length i i' blocks) a.length b.length := by
  induction h with
  | nil hold hnew => exact path_changed hold le_rfl hnew le_rfl
  | @cons i i' block rest fits _ ih =>
    have hold := fits.old_le
    have hnew := fits.new_le
    refine (path_changed fits.oldStart_le (by omega) fits.newStart_le (by omega)).append ?_
    exact .cons rfl rfl ⟨Nat.le_add_right _ _, hold, Nat.le_add_right _ _, hnew,
      fun _ => slice_eq_of_fits fits⟩ ih

theorem Path.trimStart {s : Stretch} (h : Path a b i i' (s :: l) j j') : ∃ i₁ i₁',
    (common i i₁ i' i₁').Within a b ∧
    Path a b i₁ i₁' ((if s.same then s.lastLines else s) :: l) j j' := by
  cases h with
  | cons hold hnew within next =>
    subst hold hnew
    split
    · rename_i hsame
      obtain ⟨hcut, hlines⟩ := within.cut hsame (Nat.sub_le (s.oldStop - s.oldStart) context)
      rw [within.lastLines_eq hsame]
      exact ⟨_, _, hcut, .cons rfl rfl hlines next⟩
    · have hold := within.old_le.trans within.old_le_length
      have hnew := within.new_le.trans within.new_le_length
      exact ⟨_, _, within_common_self hold hnew, .cons rfl rfl within next⟩

theorem Path.trimStop {s : Stretch} (h : Path a b i i' (l ++ [s]) j j') : ∃ j₁ j₁',
    Path a b i i' (l ++ [if s.same then s.firstLines else s]) j₁ j₁' ∧
    (common j₁ j j₁' j').Within a b := by
  obtain ⟨hl, within, rfl, rfl⟩ := path_concat_inv h
  split
  · rename_i hsame
    obtain ⟨hlines, hcut⟩ := within.cut hsame (Nat.min_le_right context (s.oldStop - s.oldStart))
    rw [within.firstLines_eq hsame]
    exact ⟨_, _, hl.append (path_singleton hlines), hcut⟩
  · exact ⟨_, _, hl.append (path_singleton within),
      within_common_self within.old_le_length within.new_le_length⟩

/-- What is left out at the two ends is the same in both texts. -/
theorem Path.trimEnds (h : Path a b i i' l j j') :
    ∃ i₁ i₁' j₁ j₁', (common i i₁ i' i₁').Within a b ∧
    Path a b i₁ i₁' (trimEnds l) j₁ j₁' ∧ (common j₁ j j₁' j').Within a b := by
  cases l with
  | nil =>
    cases h with
    | nil hold hnew =>
      exact ⟨_, _, _, _, within_common_self hold hnew, .nil hold hnew, within_common_self hold hnew⟩
  | cons s rest =>
    obtain ⟨i₁, i₁', hstart, hpath⟩ := h.trimStart
    obtain ⟨front, t, hsplit⟩ :=
      (List.eq_nil_or_concat' ((if s.same then s.lastLines else s) :: rest)).resolve_left
      (List.cons_ne_nil _ _)
    rw [hsplit] at hpath
    obtain ⟨j₁, j₁', hpath', hstop⟩ := hpath.trimStop
    refine ⟨i₁, i₁', j₁, j₁', hstart, ?_, hstop⟩
    simpa only [Diff.trimEnds, hsplit, List.reverse_append, List.reverse_cons, List.reverse_nil,
      List.nil_append, List.cons_append, List.reverse_reverse] using hpath'

end Stretches

/-! ## From stretches to hunks -/

/-- A hunk ends with lines that both texts have, and that are not the last ones. -/
def EndsInContext (a : List String) (hunk : List Stretch) : Prop :=
  ∃ s, hunk.getLast? = some s ∧ s.same = true ∧ s.oldStart < s.oldStop ∧ s.oldStop < a.length

/-- Hunks that lead through both texts, as far as the end of the last one, with equal lines before
each. -/
inductive Script (a b : List String) : Nat → Nat → List (List Stretch) → Nat → Nat → Prop where
  | nil {i i' : Nat} : Script a b i i' [] i i'
  | cons {i i' j j' k k' n n' : Nat} {hunk : List Stretch} {rest : List (List Stretch)}
      (gap : (common i j i' j').Within a b) (path : Path a b j j' hunk k k')
      (ends : rest ≠ [] → EndsInContext a hunk) (next : Script a b k k' rest n n') :
      Script a b i i' (hunk :: rest) n n'

section Script

variable {a b : List String} {i i' j j' k k' n n' : Nat} {hunk l : List Stretch}
  {hs : List (List Stretch)}

/-- A hunk ends with the first lines of a long stretch that is the same, and the next one begins
with its last lines. -/
theorem Path.script (gap : (common i j i' j').Within a b) (hpath : Path a b j j' hunk k k')
    (hl : Path a b k k' l n n') : Script a b i i' (hunksFrom hunk l) n n' := by
  induction l generalizing i i' j j' k k' hunk with
  | nil =>
    cases hl
    exact .cons gap hpath (fun h => absurd rfl h) .nil
  | cons s rest ih =>
    cases hl with
    | cons hold hnew within next =>
      subst hold hnew
      rw [hunksFrom]
      split
      · rename_i hlong
        obtain ⟨hsame, hlong⟩ := hlong
        obtain ⟨hfirst, -⟩ := within.cut hsame (Nat.min_le_right context (s.oldStop - s.oldStart))
        obtain ⟨hbefore, hlast⟩ := within.cut hsame (Nat.sub_le (s.oldStop - s.oldStart) context)
        -- Between its first and its last lines nothing of the stretch is shown.
        have hshort : min context (s.oldStop - s.oldStart) ≤ s.oldStop - s.oldStart - context := by
          omega
        obtain ⟨-, hgap⟩ := hbefore.cut rfl
          (n := min context (s.oldStop - s.oldStart))
            (by simpa only [common, Nat.add_sub_cancel_left] using hshort)
        rw [within.firstLines_eq hsame, within.lastLines_eq hsame]
        refine .cons gap (hpath.append (path_singleton hfirst))
          (fun _ => ⟨_, List.getLast?_concat, rfl, ?_⟩)
          (ih hgap (path_singleton hlast) next)
        have := within.old_le_length
        simp only [common, context] at hlong ⊢
        omega
      · exact ih gap (hpath.append (path_singleton within)) next

/-- Equal lines before the first hunk. -/
theorem Script.since (h : Script a b j j' hs n n') (gap : (common i j i' j').Within a b)
    (hrest : a.drop n = b.drop n') :
    ∃ m m', Script a b i i' hs m m' ∧ a.drop m = b.drop m' := by
  cases h with
  | nil => exact ⟨i, i', .nil, gap.drop_eq hrest⟩
  | cons gap' path ends next => exact ⟨n, n', .cons (gap.trans gap') path ends next, hrest⟩

/-- Hunks without a change may be left out. -/
theorem Script.filter (h : Script a b i i' hs n n') (hrest : a.drop n = b.drop n') :
    ∃ m m', Script a b i i' (hs.filter fun hunk => hunk.any (! ·.same)) m m' ∧
      a.drop m = b.drop m' := by
  induction h with
  | nil => exact ⟨_, _, .nil, hrest⟩
  | @cons i i' j j' k k' n n' hunk rest gap path ends _ ih =>
    obtain ⟨m, m', hscript, hrest'⟩ := ih hrest
    by_cases hany : hunk.any (! ·.same) = true
    · rw [List.filter_cons, if_pos hany]
      refine ⟨m, m', .cons gap path (fun hne => ends ?_) hscript, hrest'⟩
      rintro rfl
      exact hne rfl
    · rw [List.filter_cons, if_neg hany]
      have hsame : ∀ s ∈ hunk, s.same = true := by
        simpa using hany
      exact hscript.since (gap.trans (path.within_common hsame)) hrest'

/-- The hunks lead through both texts, and the lines after them are the same. -/
theorem script_hunks (a b : List String) :
    ∃ n n', Script a b 0 0 (hunks a b) n n' ∧ a.drop n = b.drop n' := by
  obtain ⟨i, i', j, j', hstart, hpath, hstop⟩ := (chain_blocks a b).path.trimEnds
  have hscript : Script a b 0 0 (hunksFrom [] (trimEnds (stretches a b))) j j' :=
    Path.script hstart (.nil hstart.old_le_length hstart.new_le_length) hpath
  refine hscript.filter (hstop.drop_eq ?_)
  rw [List.drop_length, List.drop_length]

theorem ne_nil_of_mem_hunks (h : hunk ∈ hunks a b) : hunk ≠ [] := by
  rintro rfl
  exact absurd (List.of_mem_filter h) Bool.false_ne_true

end Script

end AccessPatch.Diff
