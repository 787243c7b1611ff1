import AccessPatch.Proofs.FreeNames
import AccessPatch.Proofs.Store.Locating

/-!
# Writing a file

A write goes through a temporary file, for which there is always a free name
(`entry?_temporaryPlace`). What it comes to is one step (`write_eq`): the file is put at the
`target` of its path, or the store stays as it is. The target is a location to which the path
leads and which holds no directory. A document and its backup have different targets, and writing
one of them does not move the other (`target_put_backup`).
-/

namespace AccessPatch.Store

variable {s : Store} {path bak : Path} {place folder q : Location} {content : Bytes}

/-! ## The temporary file -/

theorem temporaryName_injective (name : String) : Function.Injective (temporaryName name) := by
  intro m n h
  have hchars : (temporaryName name m).toList = (temporaryName name n).toList := congrArg _ h
  simp only [temporaryName, String.toList_append, List.append_assoc, List.append_cancel_left_eq,
    List.append_cancel_right_eq, String.toList_inj] at hchars
  exact Nat.add_left_cancel (toString_injective hchars)

theorem mem_keys_of_lookup {entries : List (Location × Entry)} (h : entries.lookup place ≠ none) :
    place ∈ entries.map Prod.fst := by
  by_contra hmem
  apply h
  rw [List.lookup_eq_none_iff]
  rintro ⟨p, e⟩ hpair
  have hne : place ≠ p := by
    rintro rfl
    exact hmem (List.mem_map_of_mem hpair)
  simpa using hne

/-- There is always a free name: fewer locations are taken than are tried. -/
theorem entry?_temporaryPlace (s : Store) (folder : Location) (name : String) :
    s.entry? (s.temporaryPlace folder name) = none := by
  let candidate (number : Nat) : Location := folder ++ [temporaryName name number]
  cases hfind : (List.range (s.entries.length + 2)).find? fun number =>
    (s.entry? (candidate number)).isNone with
  | some number =>
    have hfree := List.find?_some hfind
    unfold temporaryPlace
    simp only [candidate] at hfind
    rw [hfind]
    exact Option.isNone_iff_eq_none.mp hfree
  | none =>
    have hcandidate : Function.Injective candidate := fun m n h =>
      temporaryName_injective name (List.singleton_inj.mp (List.append_cancel_left h))
    have hfew : (s.here :: s.entries.map Prod.fst).length < s.entries.length + 2 := by simp
    obtain ⟨number, hnumber, hfree⟩ := exists_free hcandidate hfew
    obtain ⟨hhere, hkeys⟩ := not_or.mp (List.mem_cons.not.mp hfree)
    have hsome := List.find?_eq_none.mp hfind number hnumber
    have hroot : candidate number ≠ [] := by simp [candidate]
    unfold entry? at hsome
    rw [if_neg (not_or.mpr ⟨hroot, hhere⟩)] at hsome
    refine absurd (mem_keys_of_lookup fun hnone => hsome ?_) hkeys
    rw [hnone]
    rfl

/-! ## What a write comes to -/

theorem temporaryFolder_eq_ok_iff : s.temporaryFolder path = .ok folder ↔
    s.locate path.parent = .ok folder ∧ s.entry? folder = some .directory ∧
      path.name.utf8ByteSize + temporaryExtra ≤ maxNameSize := by
  unfold temporaryFolder
  rw [bind_eq_ok_iff]
  constructor
  · rintro ⟨folder', hlocate, h⟩
    cases hentry : s.entry? folder' with
    | none =>
      rw [hentry] at h
      cases h
    | some entry =>
      rw [hentry] at h
      cases entry with
      | file content => cases h
      | directory =>
        simp only at h
        split at h
        · cases h
        · rename_i hshort
          cases h
          exact ⟨hlocate, hentry, Nat.le_of_not_lt hshort⟩
  · rintro ⟨hlocate, hentry, hshort⟩
    refine ⟨folder, hlocate, ?_⟩
    rw [hentry]
    exact if_neg (Nat.not_lt_of_le hshort)

/-- The location that a write to `path` fills. -/
def target (s : Store) (path : Path) : Except AccessFault Location := do
  let folder ← s.temporaryFolder path
  if path.name = "" ∨ path.name = ".." then .error .busy
  else if s.entry? (folder ++ [path.name]) = some .directory then .error .isDirectory
  else .ok (folder ++ [path.name])

theorem target_of_folder (h : s.temporaryFolder path = .ok folder) : s.target path =
    if path.name = "" ∨ path.name = ".." then .error .busy
    else if s.entry? (folder ++ [path.name]) = some .directory then .error .isDirectory
    else .ok (folder ++ [path.name]) := by
  unfold target
  rw [h]
  rfl

/-- The temporary file changes nothing for the move that follows. -/
theorem rename_temporary (hfolder : s.temporaryFolder path = .ok folder)
    (hfree : s.entry? q = none) :
    (s.put q (.file content)).rename q path = (s.target path).map fun place =>
      s.put place (.file content) := by
  have hq : s.entry? q ≠ some .directory := by
    rw [hfree]
    exact (Option.some_ne_none _).symm
  have hlocate : (s.put q (.file content)).locate path.parent = .ok folder :=
    (locate_put_eq_ok_iff hq).mpr (temporaryFolder_eq_ok_iff.mp hfolder).1
  have hdirectory : entry? (s.put q (.file content)) (folder ++ [path.name]) = some .directory ↔
      s.entry? (folder ++ [path.name]) = some .directory := by
    by_cases hplace : folder ++ [path.name] = q
    · rw [hplace, entry?_put_self hq, hfree]
      simp
    · rw [entry?_put_of_ne hplace]
  unfold rename
  rw [hlocate, target_of_folder hfolder]
  simp only [bind, Except.bind, entry?_put_self hq, hdirectory, remove_put hfree]
  by_cases hname : path.name = "" ∨ path.name = ".."
  · rw [if_pos hname, if_pos hname]
    rfl
  · rw [if_neg hname, if_neg hname]
    split <;> rfl

/-- **A write is one step.** The file is put at its target, or nothing changes. -/
theorem write_eq (s : Store) (path : Path) (content : Bytes) : s.write path content =
    match s.target path with
    | .ok place => (.ok (), s.put place (.file content))
    | .error fault => (.error fault, s) := by
  unfold write
  cases hfolder : s.temporaryFolder path with
  | error fault =>
    have htarget : s.target path = .error fault := by
      unfold target
      rw [hfolder]
      rfl
    rw [htarget]
  | ok folder =>
    have hfree := s.entry?_temporaryPlace folder path.name
    simp only [rename_temporary hfolder hfree]
    cases s.target path with
    | error fault => simp only [Except.map, remove_put hfree]
    | ok place => rfl

/-! ## Targets -/

theorem target_eq_ok_iff :
    s.target path = .ok place ↔ ∃ folder, s.temporaryFolder path = .ok folder ∧
    path.name ≠ "" ∧ path.name ≠ ".." ∧ s.entry? (folder ++ [path.name]) ≠ some .directory ∧
      place = folder ++ [path.name] := by
  constructor
  · intro h
    obtain ⟨folder, hfolder, -⟩ := bind_eq_ok_iff.mp h
    rw [target_of_folder hfolder] at h
    split at h
    · cases h
    · rename_i hname
      split at h
      · cases h
      · rename_i hentry
        cases h
        exact ⟨folder, hfolder, (not_or.mp hname).1, (not_or.mp hname).2, hentry, rfl⟩
  · rintro ⟨folder, hfolder, hname, hup, hentry, rfl⟩
    rw [target_of_folder hfolder, if_neg (not_or.mpr ⟨hname, hup⟩), if_neg hentry]

theorem entry?_of_target (h : s.target path = .ok place) : s.entry? place ≠ some .directory := by
  obtain ⟨folder, -, -, -, hentry, rfl⟩ := target_eq_ok_iff.mp h
  exact hentry

/-- One step up from a directory, or down. -/
theorem follow_singleton {name : String} (h : s.follow folder [name] = .ok place) :
    (name = ".." ∧ place = folder.dropLast) ∨ (name ≠ ".." ∧ place = folder ++ [name]) := by
  rw [follow_cons] at h
  split at h
  · cases h
  · cases h
  · split at h
    · rename_i hup
      exact .inl ⟨hup, (Except.ok.inj h).symm⟩
    · rename_i hup
      split at h
      · cases h
      · exact .inr ⟨hup, (Except.ok.inj h).symm⟩

theorem follow_child {name : String} (h : s.entry? folder = some .directory) (hup : name ≠ "..")
    (hshort : name.utf8ByteSize ≤ maxNameSize) :
    s.follow folder [name] = .ok (folder ++ [name]) := by
  rw [follow_cons, kindAt_eq_some_true_iff.mpr h]
  simp only [if_neg hup, if_neg (Nat.not_lt_of_le hshort)]
  rfl

/-- A path leads to its target. -/
theorem locate_of_target (h : s.target path = .ok place) : s.locate path = .ok place := by
  obtain ⟨folder, hfolder, hname, hup, -, rfl⟩ := target_eq_ok_iff.mp h
  obtain ⟨hlocate, hentry, hshort⟩ := temporaryFolder_eq_ok_iff.mp hfolder
  rw [locate_eq_bind (Path.parts_ne_nil_of_name hname), hlocate]
  exact follow_child hentry hup (by omega)

/-- A file that is put somewhere does not change the target of a path that stands in a directory,
unless the path leads there. -/
theorem target_put (hplace : s.entry? q ≠ some .directory)
    (hlocate : s.locate path.parent = .ok folder) (hfolder : s.entry? folder = some .directory)
    (hne : s.locate path ≠ .ok q) :
    (s.put q (.file content)).target path = s.target path := by
  have hlocate' : (s.put q (.file content)).locate path.parent = .ok folder :=
    (locate_put_eq_ok_iff hplace).mpr hlocate
  have hfolder' : entry? (s.put q (.file content)) folder = some .directory := by
    rw [entry?_put_of_ne, hfolder]
    rintro rfl
    exact hplace hfolder
  by_cases hshort : path.name.utf8ByteSize + temporaryExtra ≤ maxNameSize
  · rw [target_of_folder (temporaryFolder_eq_ok_iff.mpr ⟨hlocate', hfolder', hshort⟩),
      target_of_folder (temporaryFolder_eq_ok_iff.mpr ⟨hlocate, hfolder, hshort⟩)]
    by_cases hname : path.name = "" ∨ path.name = ".."
    · rw [if_pos hname, if_pos hname]
    · obtain ⟨hname, hup⟩ := not_or.mp hname
      have hchild : folder ++ [path.name] ≠ q := by
        rintro rfl
        apply hne
        rw [locate_eq_bind (Path.parts_ne_nil_of_name hname), hlocate]
        exact follow_child hfolder hup (by omega)
      rw [entry?_put_of_ne hchild]
  · unfold target temporaryFolder
    rw [hlocate, hlocate']
    simp only [bind, Except.bind, hfolder, hfolder', if_pos (Nat.lt_of_not_le hshort)]

theorem target_put_eq_ok_iff (hplace : s.entry? q ≠ some .directory) :
    (s.put q (.file content)).target path = .ok place ↔
      s.target path = .ok place := by
  have hentry : ∀ p, entry? (s.put q (.file content)) p = some .directory ↔
      s.entry? p = some .directory := by
    intro p
    by_cases hp : p = q
    · subst hp
      rw [entry?_put_self hplace]
      simpa using hplace
    · rw [entry?_put_of_ne hp]
  simp only [target_eq_ok_iff, temporaryFolder_eq_ok_iff, locate_put_eq_ok_iff hplace,
    hentry, ne_eq]

/-- What was written is read. -/
theorem read_put (h : s.target path = .ok place) :
    (s.put place (.file content)).read path = .ok content := by
  have hentry := entry?_of_target h
  exact read_eq_ok_iff.mpr
    ⟨place, (locate_put_eq_ok_iff hentry).mpr (locate_of_target h), entry?_put_self hentry⟩

/-- A file that is put elsewhere does not change what is read. -/
theorem read_put_of_ne {found : Bytes} (hplace : s.entry? q ≠ some .directory)
    (hne : s.locate path ≠ .ok q) (h : s.read path = .ok found) :
    (s.put q (.file content)).read path = .ok found := by
  obtain ⟨place, hlocate, hentry⟩ := read_eq_ok_iff.mp h
  refine read_eq_ok_iff.mpr ⟨place, (locate_put_eq_ok_iff hplace).mpr hlocate, ?_⟩
  rw [entry?_put_of_ne, hentry]
  rintro rfl
  exact hne hlocate

/-! ## Backups -/

theorem name_backup_ne (name : String) : name ++ backupEnding ≠ name := by
  intro h
  have hlength := congrArg String.length h
  simp only [String.length_append, backupEnding] at hlength
  have hending : ".bak".length = 4 := by decide
  omega

theorem backup_ne_up (name : String) : name ++ backupEnding ≠ ".." := by
  intro h
  have hlength := congrArg String.length h
  have hending : backupEnding.length = 4 := by decide
  have hup : "..".length = 2 := by decide
  rw [String.length_append, hending, hup] at hlength
  omega

/-- Two documents with one backup are one document. -/
theorem locate_eq_of_backup {other bak' : Path} (hbak : path.backup? = some bak)
    (hbak' : other.backup? = some bak') (h : s.target bak = .ok q) (h' : s.locate bak' = .ok q) :
    s.locate other = s.locate path := by
  obtain ⟨hparts, -, -, hparent, hname⟩ := Path.of_backup? hbak
  obtain ⟨hparts', hbakparts, -, hparent', hname'⟩ := Path.of_backup? hbak'
  obtain ⟨folder, hfolder, -, -, -, rfl⟩ := target_eq_ok_iff.mp h
  have hlocate := (temporaryFolder_eq_ok_iff.mp hfolder).1
  rw [locate_eq_bind hbakparts] at h'
  obtain ⟨folder', hlocate', hchild⟩ := bind_eq_ok_iff.mp h'
  rw [hname'] at hchild
  obtain ⟨-, hplace⟩ := (follow_singleton hchild).resolve_left fun h => backup_ne_up _ h.1
  rw [hname] at hplace
  obtain ⟨rfl, hsame⟩ := List.append_inj' hplace rfl
  have hnames : other.name = path.name := by
    have hchars := congrArg String.toList (List.singleton_inj.mp hsame)
    rw [String.toList_append, String.toList_append, List.append_cancel_right_eq] at hchars
    exact (String.toList_injective hchars).symm
  rw [locate_eq_bind hparts', locate_eq_bind hparts, ← hparent', ← hparent, hlocate',
    hlocate, hnames]

/-- A document is not its own backup. -/
theorem locate_ne_backup (hbak : path.backup? = some bak) (h : s.target bak = .ok q) :
    s.locate path ≠ .ok q := by
  obtain ⟨hparts, -, -, hparent, hname⟩ := Path.of_backup? hbak
  obtain ⟨folder, hfolder, -, -, -, rfl⟩ := target_eq_ok_iff.mp h
  intro hpath
  rw [locate_eq_bind hparts, ← hparent, (temporaryFolder_eq_ok_iff.mp hfolder).1] at hpath
  rcases follow_singleton hpath with ⟨-, hup⟩ | ⟨-, hdown⟩
  · have hlength := congrArg List.length hup
    simp only [List.length_append, List.length_dropLast, List.length_singleton] at hlength
    omega
  · rw [hname] at hdown
    exact name_backup_ne _ (List.singleton_inj.mp (List.append_cancel_left hdown))

/-- Writing the backup of a document leaves the target of the document as it is. -/
theorem target_put_backup (hbak : path.backup? = some bak) (h : s.target bak = .ok q) :
    (s.put q (.file content)).target path = s.target path := by
  obtain ⟨-, -, -, hparent, -⟩ := Path.of_backup? hbak
  obtain ⟨folder, hfolder, -⟩ := target_eq_ok_iff.mp h
  obtain ⟨hlocate, hentry, -⟩ := temporaryFolder_eq_ok_iff.mp hfolder
  rw [hparent] at hlocate
  exact target_put (entry?_of_target h) hlocate hentry (locate_ne_backup hbak h)

end AccessPatch.Store
