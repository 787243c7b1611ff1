import AccessPatch.Proofs.Store.Tree

/-!
# What a pattern selects

`Selects` says which paths below a directory fit the components of a pattern, by what is there and
not by how it is looked for. In a tree, `select` finds these paths, unless a component is a name
that no file can have (`IsTree.searches`): this is shown for one component and the rest after it,
and so it holds of them all.
-/

namespace AccessPatch

open Pattern (Component)

/-! ## Names of a form -/

namespace Glyph

theorem matchAll_star_iff {glyphs : List Glyph} {cs : List Char} :
    matchAll (star :: glyphs) cs = true ↔ ∃ rest, rest <:+ cs ∧ matchAll glyphs rest = true := by
  induction cs with
  | nil => simp [matchAll]
  | cons c cs ih =>
    rw [matchAll, Bool.or_eq_true, ih]
    constructor
    · rintro (h | ⟨rest, hrest, h⟩)
      · exact ⟨c :: cs, List.suffix_refl _, h⟩
      · exact ⟨rest, hrest.trans (List.suffix_cons c cs), h⟩
    · rintro ⟨rest, hrest, h⟩
      rcases List.suffix_cons_iff.mp hrest with rfl | hrest
      · exact .inl h
      · exact .inr ⟨rest, hrest, h⟩

theorem matchAll_chars_iff {cs ds : List Char} : matchAll (cs.map char) ds = true ↔ ds = cs := by
  induction cs generalizing ds with
  | nil => simp [matchAll]
  | cons c cs ih =>
    cases ds with
    | nil => simp [matchAll]
    | cons d ds => simp [matchAll, admits, ih]

/-- A star before some characters stands for the names that end in them. -/
theorem matchAll_ending_iff {ending cs : List Char} :
    matchAll (star :: ending.map char) cs = true ↔ ending <:+ cs := by
  rw [matchAll_star_iff]
  constructor
  · rintro ⟨rest, hrest, h⟩
    rwa [← matchAll_chars_iff.mp h]
  · intro h
    exact ⟨ending, h, matchAll_chars_iff.mpr rfl⟩

end Glyph

namespace Store

variable {s : Store} {root base path : Path} {place : Location} {entry : Entry} {name : String}
  {component : Component} {comps rest : List Component}

/-! ## What the components of a pattern select -/

/-- A path is one of those below `base` that fit the components of a pattern. -/
inductive Selects (s : Store) : List Component → Path → Path → Prop
  | here (base : Path) : Selects s [] base base
  /-- A slash at the end selects the directory before it. -/
  | self (rest : List Component) (base : Path) : Selects s (.self :: rest) base base
  /-- `base` is a directory, and the rest is below it or below a directory in it, at any depth. -/
  | tree {rest : List Component} {base path : Path} {place : Location} {parts : List String}
      (leads : s.locate base = .ok place) (there : s.entry? (place ++ parts) = some .directory)
      (selects : Selects s rest (base.below parts) path) : Selects s (.tree :: rest) base path
  /-- The name is in `base`, and it is that of a directory if the pattern goes on. -/
  | name {rest : List Component} {base path : Path} {name : String} {entry : Entry}
      (there : s.find (base.child name) = .ok entry) (enters : rest = [] ∨ entry = .directory)
      (selects : Selects s rest (base.child name) path) : Selects s (.name name :: rest) base path
  /-- A name of the form is in `base`, and likewise. -/
  | form {rest : List Component} {base path : Path} {place : Location} {glyphs : List Glyph}
      {name : String} {entry : Entry} (leads : s.locate base = .ok place)
      (there : s.entry? (place ++ [name]) = some entry)
      (fits : Glyph.matchAll glyphs name.toList = true) (enters : rest = [] ∨ entry = .directory)
      (selects : Selects s rest (base.child name) path) : Selects s (.form glyphs :: rest) base path

/-- A component is a name that no file can have. -/
def HasLongName (comps : List Component) : Prop :=
  ∃ name, .name name ∈ comps ∧ maxNameSize < name.utf8ByteSize

theorem HasLongName.tail (h : HasLongName rest) : HasLongName (component :: rest) := by
  obtain ⟨name, hmem, hlong⟩ := h
  exact ⟨name, .tail _ hmem, hlong⟩

/-- A search ends with the paths that have a property, or with a fault for a certain reason. -/
inductive Answers {ε : Type} (fault : ε) (reason : Prop) (P : Path → Prop) :
    Except ε (List Path) → Prop
  | found {paths : List Path} (mem : ∀ path, path ∈ paths ↔ P path) :
      Answers fault reason P (.ok paths)
  | refused (because : reason) : Answers fault reason P (.error fault)

section Answers

variable {ε α : Type} {fault : ε} {reason reason' : Prop} {P Q : Path → Prop}
  {result : Except ε (List Path)}

theorem Answers.congr (h : Answers fault reason P result) (hreason : reason → reason')
    (hPQ : ∀ path, P path ↔ Q path) :
    Answers fault reason' Q result := by
  cases h with
  | found hmem => exact .found fun path => (hmem path).trans (hPQ path)
  | refused hbecause => exact .refused (hreason hbecause)

/-- One path is found. -/
theorem answers_one (h : ∀ p, P p ↔ p = path) : Answers fault reason P (.ok [path]) :=
  .found fun p => List.mem_singleton.trans (h p).symm

/-- Where no path goes on, none is found. -/
theorem answers_none (h : ∀ path, ¬ P path) : Answers fault reason P (.ok []) :=
  .found fun path => iff_of_false List.not_mem_nil (h path)

theorem Answers.mem_iff {paths : List Path} (h : Answers fault reason P (.ok paths)) :
    path ∈ paths ↔ P path := by
  cases h with
  | found hmem => exact hmem path

theorem Answers.error {fault' : ε} (h : Answers fault reason P (.error fault')) :
    fault' = fault ∧ reason := by
  cases h with
  | refused hbecause => exact ⟨rfl, hbecause⟩

/-- Several searches one after the other find what each of them finds. -/
theorem answers_flatten {xs : List α} {f : α → Except ε (List Path)} {Q : α → Path → Prop}
    (h : ∀ x ∈ xs, Answers fault reason (Q x) (f x)) :
    Answers fault reason (fun path => ∃ x ∈ xs, Q x path) (do
      let found ← xs.mapM f
      return found.flatten) := by
  induction xs with
  | nil => exact .found fun path => by simp
  | cons x xs ih =>
    obtain ⟨hx, hxs⟩ := List.forall_mem_cons.mp h
    have hrest := ih hxs
    rw [List.mapM_cons]
    generalize f x = first at hx ⊢
    generalize xs.mapM f = others at hrest ⊢
    cases hx with
    | refused hbecause => exact .refused hbecause
    | found hfirst =>
      cases others with
      | error fault' =>
        obtain ⟨rfl, hbecause⟩ := hrest.error
        exact .refused hbecause
      | ok others =>
        refine .found fun path => ?_
        rw [List.flatten_cons, List.mem_append, hfirst, hrest.mem_iff, List.exists_mem_cons_iff]

end Answers

/-- The search for components goes right wherever it may begin. -/
def Searches (s : Store) (comps : List Component) : Prop :=
  ∀ base entry, s.find base = .ok entry → (comps = [] ∨ entry = .directory) →
    Answers AccessFault.nameTooLong (HasLongName comps) (s.Selects comps base) (s.select comps base)

theorem searches_nil (s : Store) : s.Searches [] := by
  intro base entry _ _
  refine answers_one fun path => ⟨?_, ?_⟩
  · rintro ⟨⟩
    rfl
  · rintro rfl
    exact .here path

theorem searches_self (s : Store) (rest : List Component) : s.Searches (.self :: rest) := by
  intro base entry hfind _
  obtain ⟨place, hlocate, -⟩ := find_eq_ok_iff.mp hfind
  rw [select, hlocate]
  refine answers_one fun path => ⟨?_, ?_⟩
  · rintro ⟨⟩
    rfl
  · rintro rfl
    exact .self rest path

theorem IsTree.searches_tree (hs : s.IsTree) (hrest : s.Searches rest) :
    s.Searches (.tree :: rest) := by
  intro base entry hfind henters
  obtain rfl := henters.resolve_left (List.cons_ne_nil _ _)
  obtain ⟨place, hlocate, hplace⟩ := find_eq_ok_iff.mp hfind
  have hfound : Answers AccessFault.nameTooLong (HasLongName rest)
      (fun path => ∃ parts ∈ s.directoriesBelow place, s.Selects rest (base.below parts) path) (do
        let found ← (s.directoriesBelow place).mapM fun parts => s.select rest (base.below parts)
        return found.flatten) := by
    refine answers_flatten fun parts hparts => ?_
    have hthere := (hs.mem_directoriesBelow_iff hplace).mp hparts
    exact hrest (base.below parts) .directory (hs.find_below hlocate hthere) (.inr rfl)
  rw [select, hlocate]
  refine hfound.congr HasLongName.tail fun path => ⟨?_, ?_⟩
  · rintro ⟨parts, hparts, hselects⟩
    exact .tree hlocate ((hs.mem_directoriesBelow_iff hplace).mp hparts) hselects
  · intro hselects
    cases hselects with
    | @tree _ _ _ place' parts hlocate' hthere hselects =>
      obtain rfl := Except.ok.inj (hlocate.symm.trans hlocate')
      exact ⟨parts, (hs.mem_directoriesBelow_iff hplace).mpr hthere, hselects⟩

theorem probe_of_find (h : s.find path = .ok entry) : s.probe path = .ok (some entry) := by
  rw [probe, h]

theorem isFile_of_find (h : s.find path = .ok entry) :
    s.isFile path = .ok (entry != .directory) := by
  rw [isFile, probe_of_find h]
  cases entry <;> rfl

theorem isDirectory_of_find (h : s.find path = .ok entry) :
    s.isDirectory path = .ok (entry == .directory) := by
  rw [isDirectory, probe_of_find h]
  rfl

/-- A name is too long by itself, wherever it is looked for. -/
theorem long_of_find_child (h : s.find base = .ok .directory)
    (hchild : s.find (base.child name) = .error .nameTooLong) :
    maxNameSize < name.utf8ByteSize := by
  obtain ⟨place, hlocate, hplace⟩ := find_eq_ok_iff.mp h
  by_contra hshort
  have hstep : ∃ next, s.follow place [name] = .ok next := by
    by_cases hup : name = ".."
    · rw [follow_cons, kindAt_eq_some_true_iff.mpr hplace]
      simp only [if_pos hup]
      exact ⟨_, rfl⟩
    · exact ⟨_, follow_child hplace hup (Nat.le_of_not_lt hshort)⟩
  obtain ⟨next, hnext⟩ := hstep
  rw [find, Path.child_eq_below, locate_below_eq hlocate, hnext] at hchild
  simp only [bind, Except.bind] at hchild
  split at hchild <;> cases hchild

/-- The search goes on from a path if there are no more components, or if the path leads to a
directory. -/
theorem Searches.go (hrest : s.Searches rest) {P : Path → Prop} (hfind : s.find path = .ok entry)
    (hP : ∀ p, P p ↔ (rest = [] ∨ entry = .directory) ∧ s.Selects rest path p) :
    Answers .nameTooLong (HasLongName rest) P
      (if rest = [] ∨ entry = .directory then s.select rest path else .ok []) := by
  by_cases hgoes : rest = [] ∨ entry = .directory
  · rw [if_pos hgoes]
    exact (hrest path entry hfind hgoes).congr id fun p => ((hP p).trans (and_iff_right hgoes)).symm
  · rw [if_neg hgoes]
    exact answers_none fun p hp => hgoes ((hP p).mp hp).1

theorem searches_name (hrest : s.Searches rest) (name : String) :
    s.Searches (.name name :: rest) := by
  intro base entry hfind henters
  obtain rfl := henters.resolve_left (List.cons_ne_nil _ _)
  obtain ⟨place, hlocate, -⟩ := find_eq_ok_iff.mp hfind
  have hselects : ∀ path, s.Selects (.name name :: rest) base path ↔
      ∃ entry, s.find (base.child name) = .ok entry ∧ (rest = [] ∨ entry = .directory) ∧
        s.Selects rest (base.child name) path := by
    intro path
    constructor
    · intro h
      cases h with
      | name there enters selects => exact ⟨_, there, enters, selects⟩
    · rintro ⟨entry, there, enters, selects⟩
      exact .name there enters selects
  rw [select, hlocate]
  dsimp only [bind, Except.bind]
  cases hchild : s.find (base.child name) with
  | ok entry =>
    rw [probe_of_find hchild]
    refine (hrest.go hchild fun path => ?_).congr HasLongName.tail fun _ => Iff.rfl
    rw [hselects]
    constructor
    · rintro ⟨entry', hchild', h⟩
      obtain rfl := Except.ok.inj (hchild.symm.trans hchild')
      exact h
    · exact fun h => ⟨entry, hchild, h⟩
  | error fault =>
    have hnone : ∀ path, ¬ s.Selects (.name name :: rest) base path := by
      intro path h
      obtain ⟨entry, hchild', -⟩ := (hselects path).mp h
      cases hchild.symm.trans hchild'
    rw [probe, hchild]
    cases fault with
    | nameTooLong => exact .refused ⟨name, .head _, long_of_find_child hfind hchild⟩
    | _ => exact answers_none hnone

theorem IsTree.searches_form (hs : s.IsTree) (hrest : s.Searches rest) (glyphs : List Glyph) :
    s.Searches (.form glyphs :: rest) := by
  intro base entry hfind henters
  obtain rfl := henters.resolve_left (List.cons_ne_nil _ _)
  obtain ⟨place, hlocate, -⟩ := find_eq_ok_iff.mp hfind
  have hfound : Answers AccessFault.nameTooLong (HasLongName rest)
      (fun path => ∃ name ∈ (s.names place).filter fun name => Glyph.matchAll glyphs name.toList,
        ∃ entry, s.entry? (place ++ [name]) = some entry ∧ (rest = [] ∨ entry = .directory) ∧
          s.Selects rest (base.child name) path) (do
        let found ← ((s.names place).filter fun name => Glyph.matchAll glyphs name.toList).mapM
          fun name => do
          let path := base.child name
          if rest = [] || (← s.isDirectory path) then s.select rest path else return []
        return found.flatten) := by
    refine answers_flatten fun name hname => ?_
    obtain ⟨entry, hentry⟩ := hs.mem_names_iff.mp (List.mem_filter.mp hname).1
    have hchild : s.find (base.child name) = .ok entry := hs.find_below hlocate hentry
    have hgoes : (decide (rest = []) || entry == .directory) = true ↔
        rest = [] ∨ entry = .directory := by simp
    dsimp only
    rw [isDirectory_of_find hchild]
    dsimp only [bind, Except.bind]
    rw [if_congr hgoes rfl rfl]
    refine hrest.go hchild fun path => ?_
    rw [hentry]
    simp
  rw [select, hlocate]
  refine hfound.congr HasLongName.tail fun path => ⟨?_, ?_⟩
  · rintro ⟨name, hname, entry, hentry, henters, hselects⟩
    exact .form hlocate hentry (List.mem_filter.mp hname).2 henters hselects
  · intro h
    cases h with
    | @form _ _ _ place' _ name entry hlocate' hentry hfits henters hselects =>
      obtain rfl := Except.ok.inj (hlocate.symm.trans hlocate')
      have hname : name ∈ s.names place := hs.mem_names_iff.mpr ⟨entry, hentry⟩
      exact ⟨name, List.mem_filter.mpr ⟨hname, hfits⟩, entry, hentry, henters, hselects⟩

/-- A search for the components of a pattern finds what they select, unless one of them is a name
that no file can have. -/
theorem IsTree.searches (hs : s.IsTree) (comps : List Component) : s.Searches comps := by
  induction comps with
  | nil => exact searches_nil s
  | cons component rest ih =>
    cases component with
    | tree => exact hs.searches_tree ih
    | form glyphs => exact hs.searches_form ih glyphs
    | name name => exact searches_name ih name
    | self => exact searches_self s rest

/-- What is selected is there. -/
theorem IsTree.find_of_selects (hs : s.IsTree) (h : s.Selects comps base path)
    (hfind : s.find base = .ok entry) :
    ∃ entry, s.find path = .ok entry := by
  induction h generalizing entry with
  | here base => exact ⟨entry, hfind⟩
  | self rest base => exact ⟨entry, hfind⟩
  | tree hlocate hthere _ ih => exact ih (hs.find_below hlocate hthere)
  | name hthere _ _ ih => exact ih hthere
  | form hlocate hthere _ _ _ ih => exact ih (hs.find_below hlocate hthere)

/-- A star and an ending below a directory: what is in it, at any depth, and has a name with the
ending. -/
theorem IsTree.selects_ending_iff (hs : s.IsTree) (hlocate : s.locate base = .ok place)
    {ending : List Char} :
    s.Selects [.tree, .form (.star :: ending.map .char)] base path ↔
      ∃ parts name entry, path = base.below (parts ++ [name]) ∧
        s.entry? (place ++ (parts ++ [name])) = some entry ∧ ending <:+ name.toList := by
  constructor
  · intro h
    cases h with
    | @tree _ _ _ place' parts hlocate' hthere hselects =>
      obtain rfl := Except.ok.inj (hlocate.symm.trans hlocate')
      cases hselects with
      | @form _ _ _ folder _ name entry hfolder hentry hfits _ hselects =>
        obtain rfl := Except.ok.inj ((hs.locate_below hlocate hthere).symm.trans hfolder)
        cases hselects
        rw [List.append_assoc] at hentry
        exact ⟨parts, name, entry, Path.below_below _ _ _, hentry,
          Glyph.matchAll_ending_iff.mp hfits⟩
  · rintro ⟨parts, name, entry, rfl, hentry, hending⟩
    rw [← List.append_assoc] at hentry
    have hfolder := (hs.of_entry? hentry).1
    refine .tree hlocate hfolder (.form (hs.locate_below hlocate hfolder) hentry
      (Glyph.matchAll_ending_iff.mpr hending) (.inl rfl) ?_)
    rw [Path.child_eq_below, Path.below_below]
    exact .here _

end Store

end AccessPatch
