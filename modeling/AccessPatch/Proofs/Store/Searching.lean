import AccessPatch.Config.Basic
import AccessPatch.Proofs.Ordered
import AccessPatch.Proofs.Store.Selecting
import Mathlib.Data.List.Lex
import Mathlib.Data.String.Basic

/-!
# What a search finds

A search collects the files that its patterns select, in the order of their paths and each once:
what it finds is given by which paths are found for some pattern (`discover_eq_ok_iff`), so
neither the order nor the number of the patterns counts. With the patterns for documents these are
the files with certain endings at any depth (`IsTree.mem_discover_documents_iff`).

Main result: `IsTree.discovers`.
-/

namespace AccessPatch

/-! ## The order of paths -/

namespace Path

/-- What paths are ordered by. -/
def key (p : Path) : List String :=
  p.anchor.text :: p.parts

theorem Anchor.text_injective : Function.Injective Anchor.text := by
  intro a b h
  cases a <;> cases b <;> first | rfl | exact absurd h (by decide)

theorem key_injective : Function.Injective key := by
  rintro ⟨anchor, parts⟩ ⟨anchor', parts'⟩ h
  obtain ⟨htext, rfl⟩ := List.cons.inj h
  obtain rfl := Anchor.text_injective htext
  rfl

theorem lt_iff {p q : Path} : p.lt q = true ↔ p.key < q.key := by
  show (p.key.lex q.key fun a b => decide (a < b)) = true ↔ List.lt p.key q.key
  rw [List.lex_eq_true_iff_lex, List.lt_iff_lex_lt]
  simp only [decide_eq_true_eq]

theorem le_iff (p q : Path) : p.le q = true ↔ p.key ≤ q.key := by
  rw [← not_lt, ← lt_iff, le, Bool.not_eq_true', Bool.not_eq_true]

end Path

namespace Store

variable {s : Store} {root base path : Path} {place : Location} {entry : Entry}

/-! ## The files among what is selected -/

theorem ne_directory_iff : (entry != .directory) = true ↔ ∃ content, entry = .file content := by
  cases entry <;> simp

/-- A root that is no file is a directory, or there is nothing to search. -/
theorem directory_or_of_isFile (h : s.isFile root = .ok false) :
    s.find root = .ok .directory ∨ s.isDirectory root = .ok false := by
  unfold isFile at h
  unfold isDirectory
  unfold probe at h ⊢
  cases hfind : s.find root with
  | ok entry =>
    rw [hfind] at h
    cases entry with
    | file content => cases h
    | directory => exact .inl rfl
  | error fault =>
    rw [hfind] at h
    cases fault with
    | nameTooLong => cases h
    | _ => exact .inr rfl

variable {pattern : String} {parsed : Pattern}

theorem filesMatching_of_not_directory (hpattern : Pattern.ofString pattern = .ok parsed)
    (h : s.isDirectory root = .ok false) : s.filesMatching root pattern = .ok [] := by
  rw [filesMatching, hpattern, h]
  rfl

theorem IsTree.answers_filesMatching (hs : s.IsTree)
    (hpattern : Pattern.ofString pattern = .ok parsed) (hroot : s.find root = .ok .directory) :
    Answers (.access .nameTooLong) (HasLongName parsed.components)
      (fun path => s.Selects parsed.components root path ∧ ∃ content,
        s.find path = .ok (.file content))
      (s.filesMatching root pattern) := by
  have hsearch := hs.searches parsed.components root .directory hroot (.inr rfl)
  rw [filesMatching, hpattern, isDirectory_of_find hroot]
  show Answers _ _ _ (do
    let found ← (s.select parsed.components root).mapError DiscoveryFault.access
    found.filterM fun path => (s.isFile path).mapError DiscoveryFault.access)
  cases hfound : s.select parsed.components root with
  | error fault =>
    rw [hfound] at hsearch
    obtain ⟨rfl, hlong⟩ := hsearch.error
    exact .refused hlong
  | ok found =>
    rw [hfound] at hsearch
    have hthere : ∀ path ∈ found, ∃ entry, s.find path = .ok entry :=
      fun path hpath => hs.find_of_selects (hsearch.mem_iff.mp hpath) hroot
    have hkept : found.filterM (fun path => (s.isFile path).mapError DiscoveryFault.access) =
        .ok (found.filter fun path => (s.isFile path).toOption.getD false) := by
      refine filterM_eq_ok fun path hpath => ?_
      obtain ⟨entry, hentry⟩ := hthere path hpath
      rw [isFile_of_find hentry]
      rfl
    show Answers _ _ _ (found.filterM fun path => (s.isFile path).mapError DiscoveryFault.access)
    rw [hkept]
    refine .found fun path => ?_
    rw [List.mem_filter, hsearch.mem_iff]
    refine and_congr_right fun hselects => ?_
    obtain ⟨entry, hentry⟩ := hs.find_of_selects hselects hroot
    rw [isFile_of_find hentry, hentry]
    exact ne_directory_iff.trans (exists_congr fun content => ⟨congrArg Except.ok, Except.ok.inj⟩)

/-! ## What is discovered -/

/-- In order, and each once. -/
def Ascending (paths : List Path) : Prop :=
  paths.Pairwise fun p q => p.lt q = true

theorem Ascending.unique {paths paths' : List Path} (h : Ascending paths) (h' : Ascending paths')
    (hmem : ∀ path, path ∈ paths ↔ path ∈ paths') : paths = paths' :=
  eq_of_pairwise_lt Path.key (h.imp Path.lt_iff.mp) (h'.imp Path.lt_iff.mp) hmem

theorem Ascending.nodup {paths : List Path} (h : Ascending paths) : paths.Nodup := by
  refine h.imp fun hlt heq => ?_
  rw [heq, Path.lt_iff] at hlt
  exact lt_irrefl _ hlt

variable {patterns more : List String} {found : List Path}

theorem discover_of_file (hroot : s.isFile root = .ok true) (patterns : List String) :
    s.discover root patterns = .ok [root] := by
  rw [discover, hroot]
  rfl

theorem discover_of_error {fault : AccessFault} (hroot : s.isFile root = .error fault)
    (patterns : List String) :
    s.discover root patterns = .error (.access fault) := by
  rw [discover, hroot]
  rfl

theorem discover_of_not_file (hroot : s.isFile root = .ok false) (patterns : List String) :
    s.discover root patterns =
      (patterns.mapM (s.filesMatching root)).map fun all =>
        all.flatten.eraseDups.mergeSort Path.le := by
  rw [discover, hroot]
  rfl

theorem exists_discover_iff (hroot : s.isFile root = .ok false) :
    (∃ found, s.discover root patterns = .ok found) ↔
    ∀ pattern ∈ patterns, ∃ paths, s.filesMatching root pattern = .ok paths := by
  rw [← exists_mapM_iff, discover_of_not_file hroot]
  simp only [map_eq_ok_iff]
  constructor
  · rintro ⟨_, all, hall, -⟩
    exact ⟨all, hall⟩
  · rintro ⟨all, hall⟩
    exact ⟨_, all, hall, rfl⟩

/-- A path is found for one of the patterns. -/
def Finds (s : Store) (root : Path) (patterns : List String) (path : Path) : Prop :=
  ∃ pattern ∈ patterns, ∃ paths, s.filesMatching root pattern = .ok paths ∧ path ∈ paths

theorem finds_append_iff :
    s.Finds root (patterns ++ more) path ↔ s.Finds root patterns path ∨ s.Finds root more path := by
  simp only [Finds, List.mem_append, or_and_right, exists_or]

theorem of_discover (hroot : s.isFile root = .ok false) (h : s.discover root patterns = .ok found) :
    Ascending found ∧ ∀ path, path ∈ found ↔ s.Finds root patterns path := by
  rw [discover_of_not_file hroot] at h
  obtain ⟨all, hall, rfl⟩ := map_eq_ok_iff.mp h
  refine ⟨(pairwise_lt_sortedSet Path.key_injective Path.le_iff _).imp Path.lt_iff.mpr,
    fun path => ?_⟩
  rw [mem_sortedSet, List.mem_flatten]
  constructor
  · rintro ⟨paths, hpaths, hpath⟩
    obtain ⟨pattern, hpattern, hmatching⟩ := (mem_iff_of_mapM hall paths).mp hpaths
    exact ⟨pattern, hpattern, paths, hmatching, hpath⟩
  · rintro ⟨pattern, hpattern, paths, hmatching, hpath⟩
    exact ⟨paths, (mem_iff_of_mapM hall paths).mpr ⟨pattern, hpattern, hmatching⟩, hpath⟩

/-- A search collects what is found for each pattern. -/
theorem discover_eq_ok_iff (hroot : s.isFile root = .ok false) :
    s.discover root patterns = .ok found ↔
    (∀ pattern ∈ patterns, ∃ paths, s.filesMatching root pattern = .ok paths) ∧ Ascending found ∧
      ∀ path, path ∈ found ↔ s.Finds root patterns path := by
  constructor
  · exact fun h => ⟨(exists_discover_iff hroot).mp ⟨found, h⟩, of_discover hroot h⟩
  · rintro ⟨hall, hascending, hmem⟩
    obtain ⟨found', hfound'⟩ := (exists_discover_iff hroot).mpr hall
    obtain ⟨hascending', hmem'⟩ := of_discover hroot hfound'
    rw [hfound', hascending'.unique hascending fun path => (hmem' path).trans (hmem path).symm]

theorem probe_error {fault : AccessFault} (h : s.probe path = .error fault) :
    fault = .nameTooLong ∧ s.find path = .error .nameTooLong := by
  unfold probe at h
  cases hfind : s.find path with
  | ok entry =>
    rw [hfind] at h
    cases h
  | error fault' =>
    rw [hfind] at h
    cases fault' with
    | nameTooLong =>
      cases h
      exact ⟨rfl, rfl⟩
    | _ => cases h

theorem isFile_error {fault : AccessFault} (h : s.isFile path = .error fault) :
    fault = .nameTooLong ∧ s.find path = .error .nameTooLong := by
  unfold isFile at h
  cases hprobe : s.probe path with
  | error fault' =>
    rw [hprobe] at h
    cases h
    exact probe_error hprobe
  | ok found =>
    rw [hprobe] at h
    cases found with
    | none => cases h
    | some entry => cases entry <;> cases h

/-- A search in a tree fails only over a name that is too long. -/
theorem IsTree.discover_error (hs : s.IsTree)
    (hpatterns : ∀ p ∈ patterns, ∃ parsed, Pattern.ofString p = .ok parsed) {fault : DiscoveryFault}
    (h : s.discover root patterns = .error fault) :
    fault = .access .nameTooLong ∧
      (s.find root = .error .nameTooLong ∨
        ∃ p ∈ patterns, ∃ parsed, Pattern.ofString p = .ok parsed ∧
        HasLongName parsed.components) := by
  cases hroot : s.isFile root with
  | error fault' =>
    obtain ⟨rfl, hfind⟩ := isFile_error hroot
    cases h.symm.trans (discover_of_error hroot patterns)
    exact ⟨rfl, .inl hfind⟩
  | ok isFile =>
    cases isFile with
    | true => cases h.symm.trans (discover_of_file hroot patterns)
    | false =>
      rw [discover_of_not_file hroot] at h
      cases hall : patterns.mapM (s.filesMatching root) with
      | ok all =>
        rw [hall] at h
        cases h
      | error fault' =>
        rw [hall] at h
        cases h
        obtain ⟨p, hp, hmatching⟩ := error_of_mapM hall
        obtain ⟨parsed, hparsed⟩ := hpatterns p hp
        rcases directory_or_of_isFile hroot with hdirectory | hnone
        · have hanswers := hs.answers_filesMatching hparsed hdirectory
          rw [hmatching] at hanswers
          obtain ⟨rfl, hlong⟩ := hanswers.error
          exact ⟨rfl, .inr ⟨p, hp, parsed, hparsed, hlong⟩⟩
        · rw [filesMatching_of_not_directory hparsed hnone] at hmatching
          cases hmatching

theorem discover_eq_ok_congr (hsame : ∀ p, p ∈ patterns ↔ p ∈ more) (found : List Path) :
    s.discover root patterns = .ok found ↔ s.discover root more = .ok found := by
  cases hroot : s.isFile root with
  | error fault => rw [discover_of_error hroot, discover_of_error hroot]
  | ok isFile =>
    cases isFile with
    | true => rw [discover_of_file hroot, discover_of_file hroot]
    | false =>
      rw [discover_eq_ok_iff hroot, discover_eq_ok_iff hroot]
      simp only [Finds, hsame]

/-- Patterns in another order, or some of them again, find the same. -/
theorem IsTree.discover_congr (hs : s.IsTree)
    (hpatterns : ∀ p ∈ patterns, ∃ parsed, Pattern.ofString p = .ok parsed)
    (hsame : ∀ p, p ∈ patterns ↔ p ∈ more) : s.discover root patterns = s.discover root more := by
  cases hfound : s.discover root patterns with
  | ok found => exact ((discover_eq_ok_congr hsame found).mp hfound).symm
  | error fault =>
    cases hfound' : s.discover root more with
    | ok found => cases hfound.symm.trans ((discover_eq_ok_congr hsame found).mpr hfound')
    | error fault' =>
      rw [(hs.discover_error hpatterns hfound).1,
        (hs.discover_error (fun p hp => hpatterns p ((hsame p).mpr hp)) hfound').1]

/-- The patterns of two lists find together what each list finds. -/
theorem discover_append_iff : s.discover root (patterns ++ more) = .ok found ↔
    ∃ first second, s.discover root patterns = .ok first ∧ s.discover root more = .ok second ∧
      Ascending found ∧
      ∀ path, path ∈ found ↔ path ∈ first ∨ path ∈ second := by
  cases hroot : s.isFile root with
  | error fault => simp [discover_of_error hroot]
  | ok isFile =>
    cases isFile with
    | true =>
      have hascending : Ascending [root] := List.pairwise_singleton _ _
      rw [discover_of_file hroot, discover_of_file hroot, discover_of_file hroot]
      constructor
      · rintro ⟨⟩
        exact ⟨_, _, rfl, rfl, hascending, fun path => (or_self_iff).symm⟩
      · rintro ⟨_, _, ⟨⟩, ⟨⟩, hfound, hmem⟩
        rw [hascending.unique hfound fun path => or_self_iff.symm.trans (hmem path).symm]
    | false =>
      constructor
      · intro h
        obtain ⟨hall, hascending, hmem⟩ := (discover_eq_ok_iff hroot).mp h
        rw [List.forall_mem_append] at hall
        obtain ⟨first, hfirst⟩ := (exists_discover_iff hroot).mpr hall.1
        obtain ⟨second, hsecond⟩ := (exists_discover_iff hroot).mpr hall.2
        refine ⟨first, second, hfirst, hsecond, hascending, fun path => ?_⟩
        rw [hmem, finds_append_iff, (of_discover hroot hfirst).2, (of_discover hroot hsecond).2]
      · rintro ⟨first, second, hfirst, hsecond, hascending, hmem⟩
        refine (discover_eq_ok_iff hroot).mpr ⟨?_, hascending, fun path => ?_⟩
        · rw [List.forall_mem_append]
          exact ⟨(exists_discover_iff hroot).mp ⟨first, hfirst⟩,
            (exists_discover_iff hroot).mp ⟨second, hsecond⟩⟩
        · rw [hmem, finds_append_iff, (of_discover hroot hfirst).2, (of_discover hroot hsecond).2]

/-- What is found in a directory are the files that a pattern selects. -/
theorem IsTree.mem_discover_iff (hs : s.IsTree) (hroot : s.find root = .ok .directory)
    (h : s.discover root patterns = .ok found) (path : Path) : path ∈ found ↔
      (∃ content, s.find path = .ok (.file content)) ∧
        ∃ p ∈ patterns, ∃ parsed, Pattern.ofString p = .ok parsed ∧
          s.Selects parsed.components root path := by
  rw [(of_discover (isFile_of_find hroot) h).2]
  constructor
  · rintro ⟨p, hp, paths, hmatching, hpath⟩
    obtain ⟨parsed, hparsed, -⟩ := bind_eq_ok_iff.mp hmatching
    have hanswers := hs.answers_filesMatching (mapError_eq_ok_iff.mp hparsed) hroot
    rw [hmatching] at hanswers
    obtain ⟨hselects, hfile⟩ := hanswers.mem_iff.mp hpath
    exact ⟨hfile, p, hp, parsed, mapError_eq_ok_iff.mp hparsed, hselects⟩
  · rintro ⟨hfile, p, hp, parsed, hparsed, hselects⟩
    obtain ⟨hall, -⟩ := (discover_eq_ok_iff (isFile_of_find hroot)).mp h
    obtain ⟨paths, hmatching⟩ := hall p hp
    have hanswers := hs.answers_filesMatching hparsed hroot
    rw [hmatching] at hanswers
    exact ⟨p, hp, paths, hmatching, hanswers.mem_iff.mpr ⟨hselects, hfile⟩⟩

/-- The endings of the names of documents. -/
def documentEndings : List String :=
  [".storyboard", ".xib"]

theorem patterns_eq : ({} : Config).patterns = documentEndings.map ("**/*" ++ ·) := by decide

theorem ofString_pattern : ∀ ending ∈ documentEndings,
    Pattern.ofString ("**/*" ++ ending) =
      .ok ⟨[.tree, .form (.star :: ending.toList.map .char)]⟩ := by
  decide +kernel

/-- Nothing is amiss with a search for documents in a directory. -/
theorem IsTree.exists_discover_documents (hs : s.IsTree) (hroot : s.find root = .ok .directory) :
    ∃ found, s.discover root ({} : Config).patterns = .ok found := by
  rw [patterns_eq]
  cases h : s.discover root (documentEndings.map ("**/*" ++ ·)) with
  | ok found => exact ⟨found, rfl⟩
  | error fault =>
    exfalso
    have hpatterns : ∀ p ∈ documentEndings.map ("**/*" ++ ·), ∃ parsed,
        Pattern.ofString p = .ok parsed :=
      List.forall_mem_map.mpr fun ending hending => ⟨_, ofString_pattern ending hending⟩
    rcases (hs.discover_error hpatterns h).2 with hlong | ⟨p, hp, parsed, hparsed, name, hname, -⟩
    · cases hroot.symm.trans hlong
    · obtain ⟨ending, hending, rfl⟩ := List.mem_map.mp hp
      cases hparsed.symm.trans (ofString_pattern ending hending)
      simp at hname

/-- The documents in a directory are the files in it, at any depth, whose names have one of the
endings. -/
theorem IsTree.mem_discover_documents_iff (hs : s.IsTree) (hlocate : s.locate root = .ok place)
    (hplace : s.entry? place = some .directory)
    (h : s.discover root ({} : Config).patterns = .ok found) (path : Path) :
    path ∈ found ↔ ∃ parts name content, path = root.below (parts ++ [name]) ∧
      s.entry? (place ++ (parts ++ [name])) = some (.file content) ∧
        ∃ ending ∈ documentEndings, ending.toList <:+ name.toList := by
  have hroot : s.find root = .ok .directory := find_eq_ok_iff.mpr ⟨place, hlocate, hplace⟩
  rw [patterns_eq] at h
  rw [hs.mem_discover_iff hroot h]
  constructor
  · rintro ⟨⟨content, hfile⟩, p, hp, parsed, hparsed, hselects⟩
    obtain ⟨ending, hending, rfl⟩ := List.mem_map.mp hp
    cases hparsed.symm.trans (ofString_pattern ending hending)
    obtain ⟨parts, name, entry, rfl, hentry, hsuffix⟩ := (hs.selects_ending_iff hlocate).mp hselects
    obtain rfl := Except.ok.inj ((hs.find_below hlocate hentry).symm.trans hfile)
    exact ⟨parts, name, content, rfl, hentry, ending, hending, hsuffix⟩
  · rintro ⟨parts, name, content, rfl, hentry, ending, hending, hsuffix⟩
    refine ⟨⟨content, hs.find_below hlocate hentry⟩, "**/*" ++ ending,
      List.mem_map_of_mem hending, _, ofString_pattern ending hending,
      (hs.selects_ending_iff hlocate).mpr ?_⟩
    exact ⟨parts, name, .file content, rfl, hentry, hsuffix⟩

/-- **Searching.** In a tree, the search for documents in a directory finds the files in it, at
any depth, whose names have one of the endings, in the order of their paths and each once.
Whatever the patterns are, their order and number do not matter, two lists of them find together
what each finds, and only a name that is too long for any file can be in the way. A file that is
searched is all that is found. -/
theorem IsTree.discovers (hs : s.IsTree) (root : Path) :
    (∀ place, s.locate root = .ok place → s.entry? place = some .directory →
      ∃ found, s.discover root ({} : Config).patterns = .ok found ∧ Ascending found ∧ found.Nodup ∧
        ∀ path, path ∈ found ↔ ∃ parts name content, path = root.below (parts ++ [name]) ∧
          s.entry? (place ++ (parts ++ [name])) = some (.file content) ∧
            ∃ ending ∈ documentEndings, ending.toList <:+ name.toList) ∧
    (∀ patterns, (∀ p ∈ patterns, ∃ parsed, Pattern.ofString p = .ok parsed) →
      (∀ more, (∀ p, p ∈ patterns ↔ p ∈ more) → s.discover root patterns = s.discover root more) ∧
      ∀ fault, s.discover root patterns = .error fault → fault = .access .nameTooLong ∧
        (s.find root = .error .nameTooLong ∨
          ∃ p ∈ patterns, ∃ parsed, Pattern.ofString p = .ok parsed ∧
          HasLongName parsed.components)) ∧
    (∀ patterns more found, s.discover root (patterns ++ more) = .ok found ↔
      ∃ first second, s.discover root patterns = .ok first ∧ s.discover root more = .ok second ∧
      Ascending found ∧
        ∀ path, path ∈ found ↔ path ∈ first ∨ path ∈ second) ∧
    ∀ content, s.find root = .ok (.file content) →
      ∀ patterns, s.discover root patterns = .ok [root] := by
  refine ⟨fun place hlocate hplace => ?_, fun patterns hpatterns => ⟨?_, ?_⟩, ?_,
    fun content hfile patterns => ?_⟩
  · have hroot : s.find root = .ok .directory := find_eq_ok_iff.mpr ⟨place, hlocate, hplace⟩
    obtain ⟨found, hfound⟩ := hs.exists_discover_documents hroot
    have hascending := (of_discover (isFile_of_find hroot) hfound).1
    exact ⟨found, hfound, hascending, hascending.nodup,
      hs.mem_discover_documents_iff hlocate hplace hfound⟩
  · exact fun more hsame => hs.discover_congr hpatterns hsame
  · exact fun fault hfault => hs.discover_error hpatterns hfault
  · exact fun patterns more found => discover_append_iff
  · exact discover_of_file (isFile_of_find hfile) patterns

/-- Documents in a directory, in a hidden one and in one that is named like a document. -/
def documentTree : Store where
  entries :=
    [(["docs"], .directory), (["docs", "c.xib"], .directory),
      (["docs", "c.xib", "d.xib"], .file []),
    (["docs", "a.xib"], .file []), (["docs", "a.txt"], .file []), (["docs", ".old"], .directory),
    (["docs", ".old", "b.storyboard"], .file [])]

theorem discovers_documentTree :
    documentTree.IsTree ∧
    ∃ found, documentTree.discover (.ofString "docs") ({} : Config).patterns = .ok found ∧
      Ascending found ∧ Path.ofString "docs/.old/b.storyboard" ∈ found ∧
      Path.ofString "docs/c.xib/d.xib" ∈ found ∧
      Path.ofString "docs/c.xib" ∉ found ∧
      documentTree.discover (.ofString "docs") ["**/*.xib", "**/*.storyboard", "**/*.xib"] =
        .ok found ∧
      documentTree.discover (.ofString "docs/a.txt") ["*.xib"] = .ok [.ofString "docs/a.txt"] := by
  have hs : documentTree.IsTree := ⟨by decide, by decide, by decide +kernel, by decide⟩
  obtain ⟨hdocuments, hpatterns, -, -⟩ := IsTree.discovers hs (.ofString "docs")
  obtain ⟨found, hfound, hascending, -, hmem⟩ := hdocuments ["docs"] (by decide +kernel) (by decide)
  have hmore := (hpatterns ({} : Config).patterns (by
    rw [patterns_eq]
    exact List.forall_mem_map.mpr fun ending hending => ⟨_, ofString_pattern ending hending⟩)).1
    ["**/*.xib", "**/*.storyboard", "**/*.xib"] (by simp [or_comm])
  refine ⟨hs, found, hfound, hascending, ?_, ?_, ?_, hmore.symm.trans hfound, ?_⟩
  · exact (hmem _).mpr ⟨[".old"], "b.storyboard", [], by decide +kernel, by decide,
      ".storyboard", by decide, by decide +kernel⟩
  · exact (hmem _).mpr ⟨["c.xib"], "d.xib", [], by decide +kernel, by decide,
      ".xib", by decide, by decide +kernel⟩
  · rw [hmem]
    rintro ⟨parts, name, content, hpath, hentry, -⟩
    have hbelow : Path.ofString "docs/c.xib" = (Path.ofString "docs").below ["c.xib"] := by
      decide +kernel
    have hdirectory : documentTree.entry? (["docs"] ++ ["c.xib"]) = some .directory := by decide
    have hparts : ["c.xib"] = parts ++ [name] :=
      List.append_cancel_left (congrArg Path.parts (hbelow.symm.trans hpath))
    rw [← hparts, hdirectory] at hentry
    cases hentry
  · exact (IsTree.discovers hs (.ofString "docs/a.txt")).2.2.2 [] (by decide +kernel) ["*.xib"]

end Store

end AccessPatch
