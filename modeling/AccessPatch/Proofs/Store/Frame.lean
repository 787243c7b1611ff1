import AccessPatch.Proofs.Store.Writing
import AccessPatch.Store.Discover

/-!
# What stays as it is

`Keeps` says of two stores that they differ at some places only, and that paths lead where they
did: that is what a write leaves behind (`keeps_put`), and many writes (`Keeps.trans`). A search
yields paths of files (`isFile_of_mem_discover`), and in a store whose names are names of files
these are `Proper`, so they may be passed on as texts (`proper_of_mem_discover`).
-/

namespace AccessPatch.Store

variable {s t u : Store} {path root : Path} {place start q : Location} {content : Bytes}
  {entry : Entry} {touched touched' : Location → Prop}

/-! ## Frames -/

/-- Nothing has changed but at places that may be touched, and paths lead where they did. -/
structure Keeps (touched : Location → Prop) (s t : Store) : Prop where
  apart : ∀ place, ¬ touched place → t.entry? place = s.entry? place
  locate : ∀ path place, t.locate path = .ok place ↔ s.locate path = .ok place

theorem Keeps.refl (touched : Location → Prop) (s : Store) : s.Keeps touched s :=
  ⟨fun _ _ => rfl, fun _ _ => Iff.rfl⟩

theorem Keeps.trans (h : s.Keeps touched t) (h' : t.Keeps touched u) : s.Keeps touched u :=
  ⟨fun place hplace => (h'.apart place hplace).trans (h.apart place hplace),
    fun path place => (h'.locate path place).trans (h.locate path place)⟩

theorem Keeps.mono (h : s.Keeps touched t) (hmono : ∀ place, touched place → touched' place) :
    s.Keeps touched' t :=
  ⟨fun place hplace => h.apart place fun htouched => hplace (hmono place htouched), h.locate⟩

/-- A file that is put where no directory is. -/
theorem keeps_put (hplace : s.entry? q ≠ some .directory) (hq : touched q) :
    s.Keeps touched (s.put q (.file content)) := by
  refine ⟨fun place hne => entry?_put_of_ne ?_, fun path place => locate_put_eq_ok_iff hplace⟩
  rintro rfl
  exact hne hq

/-! ## Names -/

/-- The names in the store are ones that files can have. -/
structure Named (s : Store) : Prop where
  entries : ∀ e ∈ s.entries, ∀ name ∈ e.1, name ≠ "" ∧ name ≠ "." ∧ '/' ∉ name.toList
  here : ∀ name ∈ s.here, name ≠ "" ∧ name ≠ "." ∧ '/' ∉ name.toList

theorem Named.of_entry? (h : s.Named) (hentry : s.entry? place = some entry) :
    ∀ name ∈ place, name ≠ "" ∧ name ≠ "." ∧ '/' ∉ name.toList := by
  unfold Store.entry? at hentry
  split at hentry
  · rename_i hroot
    rcases hroot with rfl | rfl
    · simp
    · exact h.here
  · have hthere : s.entries.lookup place ≠ none := by simp [hentry]
    obtain ⟨e, he, rfl⟩ := List.mem_map.mp (mem_keys_of_lookup hthere)
    exact h.entries e he

theorem proper_of_follow {parts : List String} (h : s.Named)
    (hfollow : s.follow start parts = .ok place) (hentry : s.entry? place = some entry) :
    ∀ part ∈ parts, part ≠ "" ∧ part ≠ "." ∧ '/' ∉ part.toList := by
  induction parts generalizing start with
  | nil => simp
  | cons part rest ih =>
    -- What the first component leads to is there, since the path goes on to what is.
    have hfirst : ∃ next, s.follow start [part] = .ok next ∧ s.follow next rest = .ok place :=
      bind_eq_ok_iff.mp ((s.follow_append start [part] rest).symm.trans hfollow)
    obtain ⟨next, hnext, hrest⟩ := hfirst
    have hthere : ∃ found, s.entry? next = some found := by
      cases rest with
      | nil =>
        obtain rfl := Except.ok.inj hrest
        exact ⟨entry, hentry⟩
      | cons part' rest =>
        have hkind := kindAt_of_follow hrest (List.nil_prefix) (List.cons_ne_nil _ _).symm rfl
        exact ⟨.directory, kindAt_eq_some_true_iff.mp hkind⟩
    obtain ⟨found, hfound⟩ := hthere
    refine List.forall_mem_cons.mpr ⟨?_, ih hrest⟩
    rcases follow_singleton hnext with ⟨rfl, -⟩ | ⟨-, rfl⟩
    · decide
    · exact h.of_entry? hfound part (List.mem_append_right _ (List.mem_singleton_self _))

/-- A path that leads to something has proper components. -/
theorem proper_of_find (h : s.Named) (hfind : s.find path = .ok entry) : path.Proper := by
  obtain ⟨place, hlocate, hentry⟩ := find_eq_ok_iff.mp hfind
  exact proper_of_follow h hlocate hentry

/-! ## Searching -/

theorem find_of_isFile (h : s.isFile path = .ok true) :
    ∃ content, s.find path = .ok (.file content) := by
  obtain ⟨found, hprobe, hfile⟩ := bind_eq_ok_iff.mp h
  split at hfile
  · rename_i content
    unfold probe at hprobe
    split at hprobe
    · rename_i entry hfind
      cases hprobe
      exact ⟨content, hfind⟩
    · cases hprobe
    · cases hprobe
  · cases hfile

theorem holds_of_mem_filterM {α ε : Type} {p : α → Except ε Bool} {xs ys : List α} {y : α}
    (h : xs.filterM p = .ok ys) (hy : y ∈ ys) : p y = .ok true := by
  have haux : ∀ (xs acc : List α) {zs : List α}, xs.filterAuxM p acc = .ok zs →
      ∀ z ∈ zs, z ∈ acc ∨ p z = .ok true := by
    intro xs
    induction xs with
    | nil =>
      intro acc zs hzs z hz
      cases hzs
      exact .inl hz
    | cons x xs ih =>
      intro acc zs hzs z hz
      obtain ⟨kept, hkept, hrest⟩ := bind_eq_ok_iff.mp hzs
      cases kept with
      | false => exact ih acc hrest z hz
      | true =>
        rcases ih (x :: acc) hrest z hz with hmem | hp
        · rcases List.mem_cons.mp hmem with rfl | hacc
          · exact .inr hkept
          · exact .inl hacc
        · exact .inr hp
  obtain ⟨kept, hkept, hys⟩ := bind_eq_ok_iff.mp h
  cases hys
  exact (haux xs [] hkept y (List.mem_reverse.mp hy)).resolve_left List.not_mem_nil

theorem isFile_of_mem_filesMatching {pattern : String} {paths : List Path}
    (h : s.filesMatching root pattern = .ok paths) (hpath : path ∈ paths) :
    s.isFile path = .ok true := by
  obtain ⟨parsed, -, h⟩ := bind_eq_ok_iff.mp h
  obtain ⟨isDirectory, -, h⟩ := bind_eq_ok_iff.mp h
  cases isDirectory with
  | false =>
    cases h
    cases hpath
  | true =>
    obtain ⟨found, -, h⟩ := bind_eq_ok_iff.mp h
    have hkept :=
      holds_of_mem_filterM (p := fun path => (s.isFile path).mapError DiscoveryFault.access) h hpath
    exact mapError_eq_ok_iff.mp hkept

/-- A search finds files. -/
theorem isFile_of_mem_discover {patterns : List String} {paths : List Path}
    (h : s.discover root patterns = .ok paths) (hpath : path ∈ paths) :
    s.isFile path = .ok true := by
  obtain ⟨isFile, hroot, h⟩ := bind_eq_ok_iff.mp h
  cases isFile with
  | true =>
    cases h
    rw [List.mem_singleton.mp hpath]
    exact mapError_eq_ok_iff.mp hroot
  | false =>
    obtain ⟨found, hfound, h⟩ := bind_eq_ok_iff.mp h
    cases h
    rw [List.mem_mergeSort, List.mem_eraseDups] at hpath
    obtain ⟨matching, hmatching, hpath⟩ := List.mem_flatten.mp hpath
    obtain ⟨pattern, -, hpattern⟩ := (mem_iff_of_mapM hfound matching).mp hmatching
    exact isFile_of_mem_filesMatching hpattern hpath

/-- The paths that a search finds may be passed on as texts. -/
theorem proper_of_mem_discover {patterns : List String} {paths : List Path} (hnamed : s.Named)
    (h : s.discover root patterns = .ok paths) (hpath : path ∈ paths) : path.Proper := by
  obtain ⟨content, hfind⟩ := find_of_isFile (isFile_of_mem_discover h hpath)
  exact proper_of_find hnamed hfind

end AccessPatch.Store
