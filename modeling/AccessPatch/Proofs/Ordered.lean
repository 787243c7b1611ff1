import Mathlib.Data.List.Sort

/-!
# Lists in order without repetition

Sets are kept as lists in order in which nothing stands twice. Such a list comes from any other by
leaving out what stands there already and sorting (`pairwise_lt_sortedSet`), and it is the only
one with its items (`eq_of_pairwise_lt`). The order is that of a key by which the items differ.
-/

namespace AccessPatch

variable {α β : Type}

theorem nodup_eraseDups [BEq α] [LawfulBEq α] (l : List α) : l.eraseDups.Nodup := by
  induction hn : l.length using Nat.strongRecOn generalizing l with
  | ind n ih =>
    cases l with
    | nil => exact List.nodup_nil
    | cons a rest =>
      rw [List.eraseDups_cons, List.nodup_cons]
      constructor
      · rw [List.mem_eraseDups]
        intro ha
        have hself := List.of_mem_filter ha
        simp at hself
      · have hshort := List.length_filter_le (fun b => ! b == a) rest
        refine ih _ ?_ _ rfl
        rw [← hn, List.length_cons]
        omega

section Key

variable [LinearOrder β] {key : α → β} {le : α → α → Bool} {l m : List α}

theorem pairwise_lt_mergeSort (hkey : Function.Injective key)
    (hle : ∀ a b, le a b = true ↔ key a ≤ key b) (hl : l.Nodup) :
    (l.mergeSort le).Pairwise fun a b => key a < key b := by
  have hsorted : (l.mergeSort le).Pairwise fun a b => le a b = true := by
    refine List.pairwise_mergeSort ?_ ?_ l
    · intro a b c hab hbc
      rw [hle] at hab hbc ⊢
      exact hab.trans hbc
    · intro a b
      rw [Bool.or_eq_true, hle, hle]
      exact le_total (key a) (key b)
  have hnodup : (l.mergeSort le).Nodup := (List.mergeSort_perm l le).nodup_iff.mpr hl
  refine (hsorted.and hnodup).imp ?_
  rintro a b ⟨hab, hne⟩
  exact lt_of_le_of_ne ((hle a b).mp hab) fun heq => hne (hkey heq)

/-- The items of a list, in order and each once. -/
theorem pairwise_lt_sortedSet [BEq α] [LawfulBEq α] (hkey : Function.Injective key)
    (hle : ∀ a b, le a b = true ↔ key a ≤ key b) (l : List α) :
    (l.eraseDups.mergeSort le).Pairwise fun a b => key a < key b :=
  pairwise_lt_mergeSort hkey hle (nodup_eraseDups l)

theorem mem_sortedSet [BEq α] [LawfulBEq α] (le : α → α → Bool) (l : List α) (a : α) :
    a ∈ l.eraseDups.mergeSort le ↔ a ∈ l := by
  rw [List.mem_mergeSort, List.mem_eraseDups]

/-- A list in order without repetition is given by its items. -/
theorem eq_of_pairwise_lt (key : α → β) (hl : l.Pairwise fun a b => key a < key b)
    (hm : m.Pairwise fun a b => key a < key b) (h : ∀ a, a ∈ l ↔ a ∈ m) : l = m := by
  have : Std.Irrefl fun a b : α => key a < key b := ⟨fun a => lt_irrefl (key a)⟩
  have : Std.Antisymm fun a b : α => key a < key b := ⟨fun a b hab hba => absurd hba hab.not_gt⟩
  exact hl.eq_of_mem_iff hm h

end Key

end AccessPatch
