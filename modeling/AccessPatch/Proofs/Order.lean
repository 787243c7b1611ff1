import Mathlib.Data.List.Forall2
import Mathlib.Data.List.Nodup
import Mathlib.Data.List.Sort

/-!
# Stable sorting by a number

Elements are sorted by where they start and operations by where their text goes, and what has one
number keeps its order. The lemmas are about `List.mergeSort` with such a comparison: the result
is sorted (`sorted_mergeSort_key`), the items with one number stand as before
(`filter_mergeSort_key`), and where no two numbers are equal the result depends on the items only
(`mergeSort_key_eq_of_perm`). The first two say all there is to say (`eq_of_filter_key_eq`), so
items may be left out before or after sorting (`mergeSort_key_filter`).
-/

namespace AccessPatch

variable {α : Type} (key : α → Int)

theorem key_trans (a b c : α) (hab : decide (key a ≤ key b) = true)
    (hbc : decide (key b ≤ key c) = true) : decide (key a ≤ key c) = true := by
  simp only [decide_eq_true_eq] at hab hbc ⊢
  exact hab.trans hbc

theorem key_total (a b : α) : (decide (key a ≤ key b) || decide (key b ≤ key a)) = true := by
  simpa using le_total (key a) (key b)

theorem sorted_mergeSort_key (l : List α) :
    (l.mergeSort fun a b => decide (key a ≤ key b)).Pairwise fun a b => key a ≤ key b := by
  have h := List.pairwise_mergeSort (key_trans key) (key_total key) l
  simpa only [decide_eq_true_eq] using h

/-- Items with one number keep their order. -/
theorem filter_mergeSort_key (l : List α) (n : Int) :
    (l.mergeSort fun a b => decide (key a ≤ key b)).filter (fun a => decide (key a = n)) =
      l.filter fun a => decide (key a = n) := by
  have hPairwise : (l.filter fun a => decide (key a = n)).Pairwise
      fun a b => decide (key a ≤ key b) = true := by
    refine List.pairwise_of_forall_mem_list fun a ha b hb => ?_
    have ha' := List.of_mem_filter ha
    have hb' := List.of_mem_filter hb
    simp only [decide_eq_true_eq] at ha' hb' ⊢
    omega
  have hSublist := List.sublist_mergeSort (key_trans key) (key_total key) hPairwise
    List.filter_sublist
  have hFilter := hSublist.filter fun a => decide (key a = n)
  rw [List.filter_filter] at hFilter
  simp only [Bool.and_self] at hFilter
  exact (hFilter.eq_of_length ((List.mergeSort_perm l _).symm.filter _).length_eq).symm

/-- A sorted list is determined by what stands under each number, in its order. -/
theorem eq_of_filter_key_eq {l m : List α} (hl : l.Pairwise fun a b => key a ≤ key b)
    (hm : m.Pairwise fun a b => key a ≤ key b)
    (h : ∀ n, l.filter (fun a => decide (key a = n)) = m.filter fun a => decide (key a = n)) :
    l = m := by
  induction l generalizing m with
  | nil =>
    cases m with
    | nil => rfl
    | cons b m => simpa using h (key b)
  | cons a l ih =>
    cases m with
    | nil => simpa using h (key a)
    | cons b m =>
      have hmem : ∀ x, x ∈ a :: l ↔ x ∈ b :: m := by
        intro x
        have hx := congrArg (x ∈ ·) (h (key x))
        simpa only [List.mem_filter, decide_true, and_true, eq_iff_iff] using hx
      obtain ⟨hfirst, hlRest⟩ := List.pairwise_cons.mp hl
      obtain ⟨hfirst', hmRest⟩ := List.pairwise_cons.mp hm
      have hab : key a ≤ key b := by
        rcases List.mem_cons.mp ((hmem b).mpr List.mem_cons_self) with rfl | hb
        · exact le_rfl
        · exact hfirst b hb
      have hba : key b ≤ key a := by
        rcases List.mem_cons.mp ((hmem a).mp List.mem_cons_self) with rfl | ha
        · exact le_rfl
        · exact hfirst' a ha
      have hkey : key b = key a := le_antisymm hba hab
      have ha := h (key a)
      rw [List.filter_cons_of_pos (by simp), List.filter_cons_of_pos (by simp [hkey])] at ha
      obtain ⟨rfl, hsame⟩ := List.cons.inj ha
      refine congrArg (a :: ·) (ih hlRest hmRest fun n => ?_)
      by_cases hn : key a = n
      · rw [← hn]
        exact hsame
      · have hrest := h n
        rwa [List.filter_cons_of_neg (by simpa using hn),
          List.filter_cons_of_neg (by simpa using hn)] at hrest

/-- Items may be left out before or after sorting. -/
theorem mergeSort_key_filter (p : α → Bool) (l : List α) :
    ((l.filter p).mergeSort fun a b => decide (key a ≤ key b)) =
      (l.mergeSort fun a b => decide (key a ≤ key b)).filter p := by
  refine eq_of_filter_key_eq key (sorted_mergeSort_key key _)
    ((sorted_mergeSort_key key l).filter p)
    fun n => ?_
  rw [filter_mergeSort_key, List.filter_comm, ← filter_mergeSort_key, List.filter_comm]

/-- Where no two items have one number, the order does not depend on how they are given. -/
theorem mergeSort_key_eq_of_perm {l l' : List α} (hPerm : l'.Perm l) (hNodup : (l.map key).Nodup) :
    l'.mergeSort (fun a b => decide (key a ≤ key b)) =
      l.mergeSort fun a b => decide (key a ≤ key b) := by
  have hAntisymm : ∀ a b, a ∈ l'.mergeSort (fun a b => decide (key a ≤ key b)) →
      b ∈ l.mergeSort (fun a b => decide (key a ≤ key b)) → key a ≤ key b →
      key b ≤ key a → a = b := by
    intro a b ha hb hab hba
    have ha' : a ∈ l := hPerm.mem_iff.mp ((List.mergeSort_perm l' _).mem_iff.mp ha)
    have hb' : b ∈ l := (List.mergeSort_perm l _).mem_iff.mp hb
    exact List.inj_on_of_nodup_map hNodup ha' hb' (le_antisymm hab hba)
  exact List.Perm.eq_of_pairwise hAntisymm (sorted_mergeSort_key key _) (sorted_mergeSort_key key _)
    (((List.mergeSort_perm l' _).trans hPerm).trans (List.mergeSort_perm l _).symm)

/-- Lists that agree item by item agree after sorting, if the numbers are in the same order in
both. -/
theorem forall₂_mergeSort_key {β : Type} {key' : β → Int} {R : α → β → Prop} {l : List α}
    {m : List β} (h : List.Forall₂ R l m)
    (hkey : ∀ a b a' b', R a b → R a' b' → (key a ≤ key a' ↔ key' b ≤ key' b')) :
    List.Forall₂ R (l.mergeSort fun a b => decide (key a ≤ key b))
      (m.mergeSort fun a b => decide (key' a ≤ key' b)) := by
  obtain ⟨hlength, hR⟩ := List.forall₂_iff_zip.mp h
  -- Both are sorted as the list of their pairs is.
  let pairs := l.zip m
  have hfst : pairs.map Prod.fst = l := List.map_fst_zip hlength.le
  have hsnd : pairs.map Prod.snd = m := List.map_snd_zip hlength.ge
  let sorted := pairs.mergeSort fun p q => decide (key p.1 ≤ key q.1)
  have hl : sorted.map Prod.fst = l.mergeSort fun a b => decide (key a ≤ key b) := by
    rw [← hfst]
    exact List.map_mergeSort fun p _ q _ => rfl
  have hm : sorted.map Prod.snd = m.mergeSort fun a b => decide (key' a ≤ key' b) := by
    rw [← hsnd]
    refine List.map_mergeSort fun p hp q hq => ?_
    exact decide_eq_decide.mpr (hkey _ _ _ _ (hR hp) (hR hq))
  rw [← hl, ← hm, List.forall₂_map_left_iff, List.forall₂_map_right_iff, List.forall₂_same]
  intro p hp
  exact hR ((List.mergeSort_perm pairs _).mem_iff.mp hp)

end AccessPatch
