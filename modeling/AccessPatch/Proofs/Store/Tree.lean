import AccessPatch.Proofs.Store.Frame

/-!
# Stores that are trees

In a store that `IsTree` every entry is in a directory and has a name that a file can have. From a
directory, the path with the names of what is below it leads there (`locate_below`), and so what a
directory holds and the directories below it are those that are there (`mem_names_iff`,
`mem_directoriesBelow_iff`).
-/

namespace AccessPatch

namespace Path

/-- The path with more components after it. -/
def below (p : Path) (parts : List String) : Path :=
  { p with parts := p.parts ++ parts }

theorem child_eq_below (p : Path) (name : String) : p.child name = p.below [name] := rfl

theorem below_below (p : Path) (parts more : List String) :
    (p.below parts).below more = p.below (parts ++ more) := by
  simp only [below, List.append_assoc]

end Path

namespace Store

/-- Files and directories in one tree, whose names are not too long. -/
structure IsTree (s : Store) : Prop where
  once : (s.entries.map Prod.fst).Nodup
  inside : ∀ e ∈ s.entries, s.entry? e.1.dropLast = some .directory
  named : ∀ e ∈ s.entries, ∀ name ∈ e.1.getLast?, name ≠ ".." ∧ name.utf8ByteSize ≤ maxNameSize
  here : s.here = [] ∨ (s.here, .directory) ∈ s.entries

variable {s : Store} {path : Path} {place : Location} {entry : Entry} {name : String}
  {parts : List String}

theorem lookup_eq_some_iff {entries : List (Location × Entry)} (h : (entries.map Prod.fst).Nodup) :
    entries.lookup place = some entry ↔ (place, entry) ∈ entries := by
  induction entries with
  | nil => simp
  | cons e entries ih =>
    obtain ⟨p, other⟩ := e
    rw [List.map_cons, List.nodup_cons] at h
    rw [List.lookup_cons, List.mem_cons, Prod.mk.injEq]
    by_cases hp : place = p
    · subst hp
      have hgone : (place, entry) ∉ entries := fun hmem => h.1 (List.mem_map.mpr ⟨_, hmem, rfl⟩)
      rw [beq_self_eq_true, Option.some_inj, eq_comm]
      simp [hgone]
    · rw [beq_false_of_ne hp, ih h.2]
      simp [hp]

/-- What is at a location is its entry, if it is not the root. -/
theorem IsTree.entry?_eq_some_iff (h : s.IsTree) (hplace : place ≠ []) :
    s.entry? place = some entry ↔ (place, entry) ∈ s.entries := by
  rw [← lookup_eq_some_iff h.once]
  unfold entry?
  split
  · rename_i hroot
    obtain rfl := hroot.resolve_left hplace
    have hhere := h.here.resolve_left hplace
    rw [(lookup_eq_some_iff h.once).mpr hhere]
  · rfl

/-- What is in a directory stands in one, and has a name that a file can have. -/
theorem IsTree.of_entry? (h : s.IsTree) (hentry : s.entry? (place ++ [name]) = some entry) :
    s.entry? place = some .directory ∧ name ≠ ".." ∧ name.utf8ByteSize ≤ maxNameSize := by
  have hmem := (h.entry?_eq_some_iff (List.concat_ne_nil _ _)).mp hentry
  have hinside := h.inside _ hmem
  rw [List.dropLast_concat] at hinside
  exact ⟨hinside, h.named _ hmem name (List.getLast?_concat)⟩

/-- The names of what is below a directory lead there from it. -/
theorem IsTree.follow_below (h : s.IsTree) (hentry : s.entry? (place ++ parts) = some entry) :
    s.follow place parts = .ok (place ++ parts) := by
  induction parts using List.reverseRecOn generalizing entry with
  | nil =>
    rw [List.append_nil]
    rfl
  | append_singleton parts name ih =>
    rw [← List.append_assoc] at hentry ⊢
    obtain ⟨hdirectory, hup, hshort⟩ := h.of_entry? hentry
    rw [follow_append, ih hdirectory]
    exact follow_child hdirectory hup hshort

/-- A path with more components goes on from where it led without them. -/
theorem locate_below_eq (h : s.locate path = .ok place) (parts : List String) :
    s.locate (path.below parts) = s.follow place parts := by
  have hpath : s.follow (s.origin path) path.parts = .ok place := h
  show s.follow (s.origin path) (path.parts ++ parts) = _
  rw [follow_append, hpath]
  rfl

theorem IsTree.locate_below (h : s.IsTree) (hlocate : s.locate path = .ok place)
    (hentry : s.entry? (place ++ parts) = some entry) :
    s.locate (path.below parts) = .ok (place ++ parts) := by
  rw [locate_below_eq hlocate]
  exact h.follow_below hentry

theorem IsTree.find_below (h : s.IsTree) (hlocate : s.locate path = .ok place)
    (hentry : s.entry? (place ++ parts) = some entry) : s.find (path.below parts) = .ok entry :=
  find_eq_ok_iff.mpr ⟨_, h.locate_below hlocate hentry, hentry⟩

theorem IsTree.mem_names_iff (h : s.IsTree) :
    name ∈ s.names place ↔ ∃ entry, s.entry? (place ++ [name]) = some entry := by
  simp only [h.entry?_eq_some_iff (List.concat_ne_nil name place), names, List.mem_filterMap,
    List.mem_filter, decide_eq_true_eq]
  constructor
  · rintro ⟨⟨p, entry⟩, ⟨hmem, hp, rfl⟩, hname⟩
    obtain ⟨front, rfl⟩ := List.getLast?_eq_some_iff.mp hname
    rw [List.dropLast_concat]
    exact ⟨entry, hmem⟩
  · rintro ⟨entry, hmem⟩
    exact ⟨(place ++ [name], entry), ⟨hmem, List.concat_ne_nil _ _, List.dropLast_concat⟩,
      List.getLast?_concat⟩

/-- The directories below a directory, itself included. -/
theorem IsTree.mem_directoriesBelow_iff (h : s.IsTree) (hplace : s.entry? place = some .directory) :
    parts ∈ s.directoriesBelow place ↔ s.entry? (place ++ parts) = some .directory := by
  rw [directoriesBelow, List.mem_cons]
  by_cases hparts : parts = []
  · rw [hparts, List.append_nil]
    exact iff_of_true (.inl rfl) hplace
  · have hne : place ++ parts ≠ [] := List.append_ne_nil_of_right_ne_nil place hparts
    rw [or_iff_right hparts, h.entry?_eq_some_iff hne, List.mem_map]
    constructor
    · rintro ⟨⟨p, entry⟩, hmem, rfl⟩
      simp only [List.mem_filter, Bool.and_eq_true, beq_iff_eq, List.isPrefixOf_iff_prefix] at hmem
      obtain ⟨hmem, ⟨rfl, more, rfl⟩, -⟩ := hmem
      show (place ++ (place ++ more).drop place.length, Entry.directory) ∈ s.entries
      rwa [List.drop_left]
    · intro hmem
      refine ⟨(place ++ parts, .directory), ?_, List.drop_left⟩
      have hlength : 0 < parts.length := List.length_pos_of_ne_nil hparts
      simp [hmem, hlength]

end Store

end AccessPatch
