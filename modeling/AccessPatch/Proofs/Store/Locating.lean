import AccessPatch.Proofs.Outcome
import AccessPatch.Proofs.Store.Path

/-!
# Where paths lead

A path is followed through directories, so it matters for where it leads which locations hold a
directory, a file or nothing (`kindAt`), and not what the files hold. A file that is put where no
directory is leaves every path that leads somewhere as it is (`locate_put_eq_ok_iff`). Only a path
that has failed because nothing was there can fail in another way (`locate_put`).
-/

namespace AccessPatch.Store

variable {s t : Store} {place q start : Location} {entry : Entry} {content : Bytes}

/-! ## What is at a location -/

theorem lookup_filter_ne (h : q ≠ place) (entries : List (Location × Entry)) :
    (entries.filter fun (p, _) => p ≠ place).lookup q = entries.lookup q := by
  induction entries with
  | nil => rfl
  | cons pair rest ih =>
    obtain ⟨p, e⟩ := pair
    by_cases hp : p = place
    · have hq : (q == p) = false := by
        rw [hp]
        exact beq_false_of_ne h
      rw [List.filter_cons_of_neg (by simpa using hp), ih, List.lookup_cons, hq]
    · rw [List.filter_cons_of_pos (by simpa using hp), List.lookup_cons, List.lookup_cons, ih]

theorem filter_eq_self_of_lookup {entries : List (Location × Entry)}
    (h : entries.lookup place = none) :
    (entries.filter fun (p, _) => p ≠ place) = entries := by
  rw [List.filter_eq_self]
  rintro ⟨p, e⟩ hmem
  have hne := List.lookup_eq_none_iff.mp h ⟨p, e⟩ hmem
  rw [decide_eq_true_iff]
  rintro rfl
  simp at hne

/-- The root and the working directory are directories. -/
theorem ne_of_entry? (h : s.entry? place ≠ some .directory) : place ≠ [] ∧ place ≠ s.here := by
  unfold entry? at h
  split at h
  · exact absurd rfl h
  · rename_i hne
    exact not_or.mp hne

@[simp] theorem here_put : (s.put place entry).here = s.here := rfl

theorem entry?_put_self (h : s.entry? place ≠ some .directory) :
    entry? (s.put place entry) place = some entry := by
  obtain ⟨hroot, hhere⟩ := ne_of_entry? h
  unfold entry? put
  rw [if_neg (not_or.mpr ⟨hroot, hhere⟩), List.lookup_cons, beq_self_eq_true]

theorem entry?_put_of_ne (h : q ≠ place) : entry? (s.put place entry) q = s.entry? q := by
  have hq : (q == place) = false := beq_false_of_ne h
  unfold entry? put
  simp only [List.lookup_cons, hq]
  rw [lookup_filter_ne h]

/-- What was put where nothing is, is gone when it is removed again. -/
theorem remove_put (h : s.entry? place = none) : (s.put place entry).remove place = s := by
  have hlookup : s.entries.lookup place = none := by
    unfold entry? at h
    split at h
    · cases h
    · exact h
  have hself : s.entries.filter (fun (p, _) => p ≠ place) = s.entries :=
    filter_eq_self_of_lookup hlookup
  have hentries : ((s.put place entry).remove place).entries = s.entries := by
    show ((place, entry) :: s.entries.filter fun (p, _) => p ≠ place).filter
      (fun (p, _) => p ≠ place) = _
    rw [List.filter_cons_of_neg (by simp), hself, hself]
  exact congrArg (fun entries => { s with entries }) hentries

/-- Whether a location holds a directory, if it holds anything. -/
def kindAt (s : Store) (place : Location) : Option Bool :=
  (s.entry? place).map (· == .directory)

theorem kindAt_eq_some_true_iff :
    s.kindAt place = some true ↔ s.entry? place = some .directory := by
  unfold kindAt
  cases s.entry? place with
  | none => simp
  | some entry => simp

theorem kindAt_eq_some_false_iff :
    s.kindAt place = some false ↔ ∃ content, s.entry? place = some (.file content) := by
  unfold kindAt
  cases s.entry? place with
  | none => simp
  | some entry =>
    cases entry with
    | file content => simp
    | directory => simp

theorem kindAt_put_self (h : s.entry? place ≠ some .directory) :
    (s.put place (.file content)).kindAt place = some false := by
  rw [kindAt, entry?_put_self h]
  rfl

theorem kindAt_put_of_ne (h : q ≠ place) : (s.put place entry).kindAt q = s.kindAt q := by
  rw [kindAt, entry?_put_of_ne h, kindAt]

/-! ## Following a path -/

/-- One step is taken only from a directory. -/
theorem follow_cons (part : String) (rest : List String) : s.follow start (part :: rest) =
    match s.kindAt start with
    | none => .error .missing
    | some false => .error .notDirectory
    | some true =>
      if part = ".." then s.follow start.dropLast rest
      else if maxNameSize < part.utf8ByteSize then .error .nameTooLong
      else s.follow (start ++ [part]) rest := by
  rw [follow, kindAt]
  cases s.entry? start with
  | none => rfl
  | some entry => cases entry <;> rfl

theorem follow_append (start : Location) (parts more : List String) :
    s.follow start (parts ++ more) =
      (s.follow start parts >>= fun place => s.follow place more) := by
  induction parts generalizing start with
  | nil => rfl
  | cons part rest ih =>
    rw [List.cons_append, follow_cons, follow_cons]
    cases s.kindAt start with
    | none => rfl
    | some isDirectory =>
      cases isDirectory with
      | false => rfl
      | true =>
        simp only
        by_cases hup : part = ".."
        · rw [if_pos hup, if_pos hup, ih]
        · rw [if_neg hup, if_neg hup]
          by_cases hlong : maxNameSize < part.utf8ByteSize
          · rw [if_pos hlong, if_pos hlong]
            rfl
          · rw [if_neg hlong, if_neg hlong, ih]

/-- Two stores lead a path to the same location if they have the same kinds of entries on its way.
-/
theorem follow_congr {parts : List String}
    (h : ∀ first place, first <+: parts → first ≠ parts → s.follow start first = .ok place →
      t.kindAt place = s.kindAt place) : t.follow start parts = s.follow start parts := by
  induction parts generalizing start with
  | nil => rfl
  | cons part rest ih =>
    have hstart : t.kindAt start = s.kindAt start :=
      h [] start List.nil_prefix (List.cons_ne_nil _ _).symm rfl
    rw [follow_cons, follow_cons, hstart]
    cases hkind : s.kindAt start with
    | none => rfl
    | some isDirectory =>
      cases isDirectory with
      | false => rfl
      | true =>
        -- What lies on the way from the next location lies on the way from here.
        have hnext : ∀ next, (∀ more, s.follow start (part :: more) = s.follow next more) →
            t.follow next rest = s.follow next rest := by
          intro next hstep
          apply ih
          intro first place hfirst hne hplace
          exact h (part :: first) place ((List.prefix_cons_inj part).mpr hfirst)
            (fun heq => hne (List.cons.inj heq).2) ((hstep first).trans hplace)
        simp only
        by_cases hup : part = ".."
        · rw [if_pos hup, if_pos hup]
          apply hnext
          intro more
          rw [follow_cons, hkind]
          exact if_pos hup
        · rw [if_neg hup, if_neg hup]
          by_cases hlong : maxNameSize < part.utf8ByteSize
          · rw [if_pos hlong, if_pos hlong]
          · rw [if_neg hlong, if_neg hlong]
            apply hnext
            intro more
            rw [follow_cons, hkind]
            simp only [if_neg hup, if_neg hlong]

/-- What lies on the way of a path that leads somewhere is a directory. -/
theorem kindAt_of_follow {parts first : List String} (h : s.follow start parts = .ok q)
    (hfirst : first <+: parts) (hne : first ≠ parts) (hplace : s.follow start first = .ok place) :
    s.kindAt place = some true := by
  obtain ⟨more, rfl⟩ := hfirst
  rw [follow_append, hplace] at h
  cases more with
  | nil => exact absurd (List.append_nil first).symm hne
  | cons part rest =>
    change s.follow place (part :: rest) = .ok q at h
    rw [follow_cons] at h
    cases hkind : s.kindAt place with
    | none =>
      rw [hkind] at h
      cases h
    | some isDirectory =>
      cases isDirectory with
      | false =>
        rw [hkind] at h
        cases h
      | true => rfl

/-- A file that takes the place of a file changes no way, and neither does one that the path does
not lead through. -/
theorem follow_put {parts : List String} (h : s.entry? place ≠ some .directory)
    (hclear : s.entry? place = none → ∀ first, first <+: parts → s.follow start first ≠ .ok place) :
    (s.put place (.file content)).follow start parts = s.follow start parts := by
  apply follow_congr
  intro first q hfirst _ hq
  by_cases hplace : q = place
  · subst hplace
    rw [kindAt_put_self h, eq_comm, kindAt_eq_some_false_iff]
    cases hentry : s.entry? q with
    | none => exact absurd hq (hclear hentry first hfirst)
    | some entry =>
      cases entry with
      | file content => exact ⟨content, rfl⟩
      | directory => exact absurd hentry h
  · exact kindAt_put_of_ne hplace

/-- A file that is put where no directory is leaves a path that leads somewhere as it is. -/
theorem follow_put_eq_ok_iff {parts : List String} (h : s.entry? place ≠ some .directory) :
    (s.put place (.file content)).follow start parts = .ok q ↔ s.follow start parts = .ok q := by
  have hkind : s.kindAt place ≠ some true := fun hkind => h (kindAt_eq_some_true_iff.mp hkind)
  constructor
  · intro hq
    rw [← hq]
    symm
    refine (follow_congr fun first p hfirst hne hp => ?_).symm
    by_cases hplace : p = place
    · subst hplace
      have hdirectory := kindAt_of_follow hq hfirst hne hp
      rw [kindAt_put_self h] at hdirectory
      cases hdirectory
    · exact (kindAt_put_of_ne hplace).symm
  · intro hq
    rw [← hq]
    refine follow_congr fun first p hfirst hne hp => ?_
    by_cases hplace : p = place
    · subst hplace
      exact absurd (kindAt_of_follow hq hfirst hne hp) hkind
    · exact kindAt_put_of_ne hplace

/-! ## Locating and reading -/

variable {path : Path}

/-- Where a path begins. -/
def origin (s : Store) (path : Path) : Location :=
  if path.anchor = .relative then s.here else []

theorem locate_eq (s : Store) (path : Path) :
    s.locate path = s.follow (s.origin path) path.parts := rfl

@[simp] theorem origin_put : (s.put place entry).origin path = s.origin path := rfl

/-- A path leads to what its last component names in the directory around it. -/
theorem locate_eq_bind (h : path.parts ≠ []) : s.locate path =
    (s.locate path.parent >>= fun folder => s.follow folder [path.name]) := by
  rw [locate_eq, Path.parts_eq_concat h, follow_append]
  rfl

theorem locate_put_eq_ok_iff (h : s.entry? place ≠ some .directory) :
    (s.put place (.file content)).locate path = .ok q ↔ s.locate path = .ok q := by
  rw [locate_eq, locate_eq, origin_put]
  exact follow_put_eq_ok_iff h

/-- The path leads through a location, or to it. -/
def LeadsThrough (s : Store) (path : Path) (place : Location) : Prop :=
  ∃ first, first <+: path.parts ∧ s.locate { path with parts := first } = .ok place

/-- A path that leads somewhere leads there through directories. -/
theorem eq_or_directory_of_leadsThrough (h : s.locate path = .ok q)
    (hthrough : s.LeadsThrough path place) :
    place = q ∨ s.entry? place = some .directory := by
  obtain ⟨first, hfirst, hplace⟩ := hthrough
  by_cases hne : first = path.parts
  · subst hne
    exact .inl (Except.ok.inj (hplace.symm.trans h))
  · exact .inr (kindAt_eq_some_true_iff.mp (kindAt_of_follow h hfirst hne hplace))

theorem locate_put (h : s.entry? place ≠ some .directory)
    (hclear : s.entry? place = none → ¬ s.LeadsThrough path place) :
    (s.put place (.file content)).locate path = s.locate path := by
  rw [locate_eq, locate_eq, origin_put]
  apply follow_put h
  intro hnone first hfirst hplace
  exact hclear hnone ⟨first, hfirst, hplace⟩

theorem find_eq_ok_iff : s.find path = .ok entry ↔
    ∃ place, s.locate path = .ok place ∧ s.entry? place = some entry := by
  unfold find
  rw [bind_eq_ok_iff]
  refine exists_congr fun place => and_congr_right fun _ => ?_
  cases s.entry? place with
  | none => simp
  | some entry => simp

theorem read_eq_ok_iff : s.read path = .ok content ↔
    ∃ place, s.locate path = .ok place ∧ s.entry? place = some (.file content) := by
  have hfind : s.read path = .ok content ↔ s.find path = .ok (.file content) := by
    unfold read
    rw [bind_eq_ok_iff]
    constructor
    · rintro ⟨entry, hentry, hcontent⟩
      cases entry with
      | directory => cases hcontent
      | file content' =>
        cases hcontent
        exact hentry
    · intro hentry
      exact ⟨_, hentry, rfl⟩
  rw [hfind, find_eq_ok_iff]

/-- What can be read has a name. -/
theorem parts_ne_nil_of_read (h : s.read path = .ok content) : path.parts ≠ [] := by
  intro hparts
  obtain ⟨place, hlocate, hentry⟩ := read_eq_ok_iff.mp h
  rw [locate_eq, hparts] at hlocate
  have hplace : s.origin path = place := Except.ok.inj hlocate
  have hne : s.entry? place ≠ some .directory := by simp [hentry]
  obtain ⟨hroot, hhere⟩ := ne_of_entry? hne
  unfold origin at hplace
  split at hplace
  · exact hhere hplace.symm
  · exact hroot hplace.symm

/-- What can be read stands in a directory. -/
theorem folder_of_read (h : s.read path = .ok content) :
    ∃ folder, s.locate path.parent = .ok folder ∧ s.entry? folder = some .directory := by
  obtain ⟨place, hlocate, -⟩ := read_eq_ok_iff.mp h
  rw [locate_eq_bind (parts_ne_nil_of_read h)] at hlocate
  obtain ⟨folder, hfolder, hname⟩ := bind_eq_ok_iff.mp hlocate
  refine ⟨folder, hfolder, kindAt_eq_some_true_iff.mp ?_⟩
  exact kindAt_of_follow hname List.nil_prefix (List.cons_ne_nil _ _).symm rfl

/-- Reading depends on where the path leads and what is there. -/
theorem read_congr (hlocate : t.locate path = s.locate path)
    (hentry : ∀ place, s.locate path = .ok place → t.entry? place = s.entry? place) :
    t.read path = s.read path := by
  unfold read find
  rw [hlocate]
  cases hplace : s.locate path with
  | error fault => rfl
  | ok place =>
    simp only [bind, Except.bind, hentry place hplace]

end AccessPatch.Store
