import AccessPatch.Proofs.Batch
import AccessPatch.Proofs.Predicting
import AccessPatch.Proofs.Store.Footprint
import AccessPatch.Store.Change

/-!
# The order of a batch

What is done with a document puts files at most in the place of the document and of its backup,
and comes to the same in every store that agrees about its path (`exists_footprint`). Documents
whose paths are `Unrelated` do not concern each other, so a batch of them can be taken in any
order (`annotateAll_perm`). It is not enough that they are different files and none is the backup
of another: the way to one may lead through what becomes the backup of another
(`nestedScene_depends_on_order`).
-/

namespace AccessPatch

open Patch (Applies Outcome Replaces Saves)
open Run (Ends accessed accessed_eq_ok_iff)
open Store (Agrees Clear Settled)

variable {path p q : Path} {config : Config} {s t u : Store} {content patched : Bytes}
  {r : DocumentReport} {ws : List (Location × Bytes)}

/-! ## One document -/

/-- A file is put in the place of a document that was read, or of its backup. -/
structure Within (s : Store) (path : Path) (place : Location) : Prop where
  read : ∃ content, s.read path = .ok content
  place : s.target path = .ok place ∨ ∃ bak, path.backup? = some bak ∧ s.target bak = .ok place

/-- Saving a document puts a file at most in the place of its backup, and the place of the
document stays. -/
theorem exists_footprint_of_saves {result : Except Failure (Option Path)} (hproper : path.Proper)
    (hread : s.read path = .ok content)
    (h : Saves content (applicationFor path config true none) s result u) :
    ∃ ws, (∀ w ∈ ws, w.2 = content ∧ ∃ bak, path.backup? = some bak ∧ s.target bak = .ok w.1) ∧
      ∀ t, Agrees s t path →
        Saves content (applicationFor path config true none) t result (t.putAll ws) ∧
        (t.putAll ws).target path = s.target path := by
  cases h with
  | nameless h => exact ⟨[], by simp, fun t ht => ⟨.nameless h, ht.target content hread⟩⟩
  | unwanted h => exact ⟨[], by simp, fun t ht => ⟨.unwanted h, ht.target content hread⟩⟩
  | @refused bak f h hwrite =>
    refine ⟨[], by simp, fun t ht => ⟨.refused h ?_, ht.target content hread⟩⟩
    rw [ht.backup content bak hread (backup?_of_savePath hproper h)]
    exact hwrite
  | @saved bak place h hwrite =>
    have hbak := backup?_of_savePath hproper h
    have htarget := (accessed_eq_ok_iff.mp hwrite).2
    refine ⟨[(place, content)], ?_, fun t ht => ⟨.saved h ?_, ?_⟩⟩
    · intro w hw
      obtain rfl := List.mem_singleton.mp hw
      exact ⟨rfl, bak, hbak, htarget⟩
    · rw [ht.backup content bak hread hbak]
      exact hwrite
    · rw [← ht.backup content bak hread hbak] at htarget
      exact (Store.target_put_backup hbak htarget).trans (ht.target content hread)

section Backups

variable (h : ∀ w ∈ ws, w.2 = content ∧ ∃ bak, path.backup? = some bak ∧ s.target bak = .ok w.1)

include h

theorem settled_backups : Settled s ws := by
  refine ⟨fun w hw => ?_, fun w hw w' hw' hplace => ?_⟩
  · obtain ⟨-, bak, -, htarget⟩ := h w hw
    exact Store.entry?_of_target htarget
  · exact Prod.ext hplace ((h w hw).1.trans (h w' hw').1.symm)

/-- The result does not take the place of a backup. -/
theorem settled_result {place : Location} (htarget : s.target path = .ok place) :
    Settled s (ws ++ [(place, patched)]) := by
  obtain ⟨hfiles, hsingle⟩ := settled_backups h
  have hne : ∀ w ∈ ws, w.1 ≠ place := by
    rintro w hw rfl
    obtain ⟨-, bak, hbak, htarget'⟩ := h w hw
    exact Store.locate_ne_backup hbak htarget' (Store.locate_of_target htarget)
  refine ⟨fun w hw => ?_, fun w hw w' hw' hplace => ?_⟩
  · rcases List.mem_append.mp hw with hw | hw
    · exact hfiles w hw
    · rw [List.mem_singleton.mp hw]
      exact Store.entry?_of_target htarget
  · rcases List.mem_append.mp hw with hw | hw
    · rcases List.mem_append.mp hw' with hw' | hw'
      · exact hsingle w hw w' hw' hplace
      · rw [List.mem_singleton.mp hw'] at hplace
        exact absurd hplace (hne w hw)
    · rcases List.mem_append.mp hw' with hw' | hw'
      · rw [List.mem_singleton.mp hw] at hplace
        exact absurd hplace.symm (hne w' hw')
      · exact (List.mem_singleton.mp hw).trans (List.mem_singleton.mp hw').symm

theorem within_backups (hread : s.read path = .ok content) : ∀ w ∈ ws, Within s path w.1 :=
  fun w hw => ⟨⟨content, hread⟩, .inr (h w hw).2⟩

end Backups

/-- Writing a result puts files at most in the places of the document and of its backup. -/
theorem exists_footprint_of_replaces {result : Except Failure Outcome} {count : Nat}
    (hproper : path.Proper) (hread : s.read path = .ok content)
    (h : Replaces content patched (applicationFor path config true none) count s result u) :
    ∃ ws, (∀ w ∈ ws, Within s path w.1) ∧ Settled s ws ∧
      ∀ t, Agrees s t path →
        Replaces content patched (applicationFor path config true none) count t result
          (t.putAll ws) := by
  have hpath := target_applicationFor config true hproper
  have hsettled : Settled s [] := ⟨by simp, by simp⟩
  cases h with
  | aimless h => exact ⟨[], by simp, hsettled, fun t _ => .aimless h⟩
  | unsaved h hsaves =>
    obtain ⟨ws, hws, hsame⟩ := exists_footprint_of_saves hproper hread hsaves
    exact ⟨ws, within_backups hws hread, settled_backups hws, fun t ht => .unsaved h (hsame t ht).1⟩
  | unwritten h hsaves hwrite =>
    obtain rfl := Except.ok.inj (hpath.symm.trans h)
    obtain ⟨ws, hws, hsame⟩ := exists_footprint_of_saves hproper hread hsaves
    obtain ⟨hsaves', htarget⟩ := hsame s (.refl s _)
    obtain ⟨-, rfl⟩ := (Patch.ends_of_saves hsaves).unique (Patch.ends_of_saves hsaves')
    rw [htarget] at hwrite
    refine ⟨ws, within_backups hws hread, settled_backups hws,
      fun t ht => .unwritten h (hsame t ht).1 ?_⟩
    rw [(hsame t ht).2]
    exact hwrite
  | @written _ backup place t' h hsaves hwrite =>
    obtain rfl := Except.ok.inj (hpath.symm.trans h)
    obtain ⟨ws, hws, hsame⟩ := exists_footprint_of_saves hproper hread hsaves
    have htarget : s.target path = .ok place :=
      hsaves.target_eq_ok_iff.mp (accessed_eq_ok_iff.mp hwrite).2
    refine ⟨ws ++ [(place, patched)], ?_, settled_result hws htarget, fun t ht => ?_⟩
    · intro w hw
      rcases List.mem_append.mp hw with hw | hw
      · exact within_backups hws hread w hw
      · rw [List.mem_singleton.mp hw]
        exact ⟨⟨content, hread⟩, .inl htarget⟩
    · obtain ⟨hsaves', htarget'⟩ := hsame t ht
      rw [Store.putAll_append]
      refine .written h hsaves' ?_
      rw [htarget', htarget]
      exact accessed_eq_ok_iff.mpr ⟨(accessed_eq_ok_iff.mp hwrite).1, rfl⟩

/-- **What work on a document does**: it puts settled files in the places of the document and of
its backup, and comes to the same in every store that agrees about its path. -/
theorem exists_footprint {result : Except Failure DocumentReport} (hproper : path.Proper)
    (h : Reports path config true none s result u) :
    ∃ ws, (∀ w ∈ ws, Within s path w.1) ∧ Settled s ws ∧
      ∀ t, Agrees s t path → Reports path config true none t result (t.putAll ws) := by
  have hsettled : Settled s [] := ⟨by simp, by simp⟩
  cases h with
  | unread h =>
    refine ⟨[], by simp, hsettled, fun t ht => ?_⟩
    rw [← ht.read] at h
    exact .unread h
  | unpaired hread h =>
    refine ⟨[], by simp, hsettled, fun t ht => ?_⟩
    rw [← ht.read] at hread
    exact .unpaired hread h
  | @applied content elements result u hread helements happlies =>
    obtain ⟨husable, hcontent⟩ := accessed_eq_ok_iff.mp hread
    have hreports : ∀ {t ws}, Agrees s t path → Applies content (opsFor config content elements)
        (applicationFor path config true none) t result (t.putAll ws) →
        Reports path config true none t
          (conclude { path, content, elements, ops := opsFor config content elements } result)
            (t.putAll ws) := by
      intro t ws ht happlies
      rw [← ht.read] at hread
      exact .applied hread helements happlies
    cases happlies with
    | idle hnil => exact ⟨[], by simp, hsettled, fun t ht => hreports ht (.idle hnil)⟩
    | refused hne hprepare =>
      exact ⟨[], by simp, hsettled, fun t ht => hreports ht (.refused hne hprepare)⟩
    | shown _ _ hdry => cases hdry
    | replaced hne hprepare hdry hreplaces =>
      obtain ⟨ws, hwithin, hsettled, hsame⟩ :=
        exists_footprint_of_replaces hproper hcontent hreplaces
      exact ⟨ws, hwithin, hsettled,
        fun t ht => hreports ht (.replaced hne hprepare hdry (hsame t ht))⟩

/-! ## Documents that do not concern each other -/

/-- The way to `q` does not end at the backup of `p`, and does not lead through it where there is
nothing yet. -/
def Avoids (s : Store) (p q : Path) : Prop :=
  ∀ bak place, p.backup? = some bak → s.locate bak = .ok place →
    s.locate q ≠ .ok place ∧ (s.entry? place = none → ¬ s.LeadsThrough q place)

/-- It is enough for a path that leads somewhere that it does not lead to the backup. -/
theorem avoids_of_locate {there : Location} (hlocate : s.locate q = .ok there)
    (h : ∀ bak, p.backup? = some bak → s.locate bak ≠ .ok there) : Avoids s p q := by
  intro bak place hbak hplace
  have hne : place ≠ there := by
    rintro rfl
    exact h bak hbak hplace
  refine ⟨fun hthere => hne (Except.ok.inj (hthere.symm.trans hlocate)), fun hnone hthrough => ?_⟩
  have hdirectory := (Store.eq_or_directory_of_leadsThrough hlocate hthrough).resolve_left hne
  rw [hnone] at hdirectory
  cases hdirectory

/-- Two paths lead to different files, and neither to the backup of the other, or through it where
it is missing. -/
structure Unrelated (s : Store) (p q : Path) : Prop where
  different : ∀ place, s.locate p = .ok place → s.locate q ≠ .ok place
  avoids : Avoids s p q
  avoided : Avoids s q p

theorem Unrelated.symm (h : Unrelated s p q) : Unrelated s q p :=
  ⟨fun place hq hp => h.different place hp hq, h.avoided, h.avoids⟩

instance (s : Store) : Std.Symm (Unrelated s) := ⟨fun _ _ h => h.symm⟩

/-- What is done with a document is clear of every unrelated path. -/
theorem Unrelated.clear {place : Location} (h : Unrelated s p q) (hplace : Within s p place) :
    s.Clear q place := by
  obtain ⟨⟨content, hread⟩, hplace⟩ := hplace
  obtain ⟨own, hlocate, hentry⟩ := Store.read_eq_ok_iff.mp hread
  rcases hplace with htarget | ⟨bak, hbak, htarget⟩
  · obtain rfl := Except.ok.inj (hlocate.symm.trans (Store.locate_of_target htarget))
    refine ⟨Store.entry?_of_target htarget, h.different _ hlocate, fun hnone => ?_,
      fun bak hbak hlocate' => ?_⟩
    · rw [hentry] at hnone
      cases hnone
    · exact (h.avoided bak _ hbak hlocate').1 hlocate
  · obtain ⟨helsewhere, haside⟩ := h.avoids bak place hbak (Store.locate_of_target htarget)
    refine ⟨Store.entry?_of_target htarget, helsewhere, haside, fun bak' hbak' hlocate' => ?_⟩
    exact h.different _ hlocate
      ((Store.locate_eq_of_backup hbak hbak' htarget hlocate').trans hlocate)

theorem Store.Clear.ne {place place' : Location} (h : s.Clear q place)
    (hplace : Within s q place') :
    place ≠ place' := by
  rintro rfl
  rcases hplace.place with htarget | ⟨bak, hbak, htarget⟩
  · exact h.elsewhere (Store.locate_of_target htarget)
  · exact h.spared bak hbak (Store.locate_of_target htarget)

/-! ## Many documents -/

/-- Work on some documents, each by itself: their reports, and the files that are put. -/
structure Works (s : Store) (config : Config) (paths : List Path) (report : Path → DocumentReport)
    (puts : Path → List (Location × Bytes)) : Prop where
  within : ∀ p ∈ paths, ∀ w ∈ puts p, Within s p w.1
  settled : ∀ p ∈ paths, Settled s (puts p)
  reports : ∀ p ∈ paths, ∀ t, Agrees s t p →
    Reports p config true none t (.ok (report p)) (t.putAll (puts p))

variable {paths order : List Path} {report : Path → DocumentReport}
  {puts : Path → List (Location × Bytes)}

theorem Works.of_perm (h : Works s config paths report puts) (hperm : order.Perm paths) :
    Works s config order report puts :=
  ⟨fun p hp => h.within p (hperm.mem_iff.mp hp), fun p hp => h.settled p (hperm.mem_iff.mp hp),
    fun p hp => h.reports p (hperm.mem_iff.mp hp)⟩

/-- Each document is taken as if it were alone. -/
theorem Works.processes (before : List (Location × Bytes)) (h : Works s config paths report puts)
    (hunrelated : paths.Pairwise (Unrelated s))
    (hbefore : ∀ p ∈ paths, ∀ w ∈ before, s.Clear p w.1) :
    Processes config true paths (s.putAll before) (paths.map report)
      (s.putAll (before ++ paths.flatMap puts)) := by
  induction paths generalizing before with
  | nil =>
    rw [List.flatMap_nil, List.append_nil]
    exact .nil
  | cons p paths ih =>
    obtain ⟨hfirst, hrest⟩ := List.pairwise_cons.mp hunrelated
    have hturn :=
      h.reports p List.mem_cons_self _ (Store.agrees_putAll (hbefore p List.mem_cons_self))
    rw [← Store.putAll_append] at hturn
    have hnext := ih (before ++ puts p)
      ⟨fun q hq => h.within q (List.mem_cons_of_mem _ hq),
        fun q hq => h.settled q (List.mem_cons_of_mem _ hq), fun q hq =>
          h.reports q (List.mem_cons_of_mem _ hq)⟩ hrest (by
      intro q hq w hw
      rcases List.mem_append.mp hw with hw | hw
      · exact hbefore q (List.mem_cons_of_mem _ hq) w hw
      · exact (hfirst q hq).clear (h.within p List.mem_cons_self w hw))
    rw [List.append_assoc] at hnext
    exact .cons hturn hnext

/-- Unrelated documents do not contend for a place. -/
theorem Works.settled_flatMap (h : Works s config paths report puts)
    (hunrelated : paths.Pairwise (Unrelated s)) :
    Settled s (paths.flatMap puts) := by
  refine ⟨fun w hw => ?_, fun w hw w' hw' hplace => ?_⟩
  · obtain ⟨p, hp, hw⟩ := List.mem_flatMap.mp hw
    exact (h.settled p hp).files w hw
  · obtain ⟨p, hp, hw⟩ := List.mem_flatMap.mp hw
    obtain ⟨q, hq, hw'⟩ := List.mem_flatMap.mp hw'
    by_cases hpq : p = q
    · subst hpq
      exact (h.settled p hp).single w hw w' hw' hplace
    · have hpair : Unrelated s p q := hunrelated.forall hp hq hpq
      exact absurd hplace ((hpair.clear (h.within p hp w hw)).ne (h.within q hq w' hw'))

theorem exists_works {journal : Journal} (hproper : ∀ p ∈ paths, p.Proper)
    (halone : ∀ p ∈ paths, ∃ r, ((annotateDocument p config true).exec ⟨s, journal⟩).1 = .ok r) :
    ∃ report puts, Works s config paths report puts ∧
      ∀ p ∈ paths, ((annotateDocument p config true).exec ⟨s, journal⟩).1 = .ok (report p) := by
  have hall : ∀ p ∈ paths, ∃ r ws, ((annotateDocument p config true).exec ⟨s, journal⟩).1 = .ok r ∧
      (∀ w ∈ ws, Within s p w.1) ∧ Settled s ws ∧
        ∀ t, Agrees s t p → Reports p config true none t (.ok r) (t.putAll ws) := by
    intro p hp
    obtain ⟨r, hr⟩ := halone p hp
    obtain ⟨result, u, hreports⟩ := exists_reports p config true none s
    obtain rfl := ((ends_of_reports hreports).exec_eq journal).1.symm.trans hr
    obtain ⟨ws, hws⟩ := exists_footprint (hproper p hp) hreports
    exact ⟨r, ws, hr, hws⟩
  have : Nonempty DocumentReport := ⟨{ path := {} }⟩
  choose! report puts h using hall
  exact ⟨report, puts,
    ⟨fun p hp => (h p hp).2.1, fun p hp => (h p hp).2.2.1, fun p hp => (h p hp).2.2.2⟩,
    fun p hp => (h p hp).1⟩

/-- **Any order will do.** If unrelated documents each get a report when they are taken alone,
then a batch of them gives each the same report and leaves the same files, in whatever order they
are taken. -/
theorem annotateAll_perm (texts : List String) (config : Config) (s : Session)
    (hunrelated : (texts.map Path.ofString).Pairwise (Unrelated s.store))
    (halone : ∀ path ∈ texts.map Path.ofString, ∃ r,
      ((annotateDocument path config true).exec s).1 = .ok r) :
    ∃ (report : Path → DocumentReport) (files : Location → Option Entry),
      (∀ path ∈ texts.map Path.ofString,
      ((annotateDocument path config true).exec s).1 = .ok (report path)) ∧
      ∀ order, order.Perm (texts.map Path.ofString) →
        ((annotateAll order config true).exec s).1 = .ok ⟨order.map report⟩ ∧
        ((annotateAll order config true).exec s).2.store.here = s.store.here ∧
        ∀ place, ((annotateAll order config true).exec s).2.store.entry? place = files place := by
  obtain ⟨report, puts, hworks, hreport⟩ := exists_works (fun _ => Path.proper_of_mem_map) halone
  refine ⟨report, Store.entry? (s.store.putAll ((texts.map Path.ofString).flatMap puts)),
    hreport, ?_⟩
  intro order hperm
  have hpairwise : order.Pairwise (Unrelated s.store) :=
    (hperm.pairwise_iff fun h => h.symm).mpr hunrelated
  have hprocesses :
      Processes config true order s.store (order.map report)
        (s.store.putAll (order.flatMap puts)) :=
    (hworks.of_perm hperm).processes [] hpairwise (by simp)
  obtain ⟨hresult, hstore⟩ := (ends_of_processes hprocesses).exec_eq s.journal
  refine ⟨hresult, ?_, fun place => ?_⟩
  · rw [hstore, Store.here_putAll]
  · rw [hstore]
    refine Store.entry?_putAll_congr (hworks.settled_flatMap hunrelated) fun w => ?_
    exact ((hperm.flatMap_right puts).mem_iff).symm

/-- Two documents beside each other. -/
def pairScene : Store where
  entries :=
    [(["a.xib"], .file (Utf8.encode "<view></view>")),
      (["b.xib"], .file (Utf8.encode "<view></view>"))]

theorem annotateAll_perm_pairScene :
    ∃ (report : Path → DocumentReport) (files : Location → Option Entry),
      (∀ path ∈ ["a.xib", "b.xib"].map Path.ofString,
        ((annotateDocument path { trackedTags := ["view"] } true).exec ⟨pairScene, []⟩).1 =
          .ok (report path)) ∧
      ∀ order, order.Perm (["a.xib", "b.xib"].map Path.ofString) →
        ((annotateAll order { trackedTags := ["view"] } true).exec ⟨pairScene, []⟩).1 =
          .ok ⟨order.map report⟩ ∧
        ((annotateAll order { trackedTags := ["view"] } true).exec ⟨pairScene, []⟩).2.store.here =
          [] ∧
        ∀ place,
          ((annotateAll order { trackedTags := ["view"] } true).exec ⟨pairScene, []⟩).2.store.entry?
            place =
            files place := by
  have hleft : pairScene.locate (.ofString "a.xib") = .ok ["a.xib"] := by decide +kernel
  have hright : pairScene.locate (.ofString "b.xib") = .ok ["b.xib"] := by decide +kernel
  have hunrelated : Unrelated pairScene (.ofString "a.xib") (.ofString "b.xib") := by
    refine ⟨fun place hplace => ?_, avoids_of_locate hright ?_, avoids_of_locate hleft ?_⟩
    · rw [← Except.ok.inj (hleft.symm.trans hplace)]
      decide +kernel
    · intro bak hbak
      rw [show (Path.ofString "a.xib").backup? =
        some (.ofString "a.xib.bak") by decide +kernel] at hbak
      rw [← Option.some.inj hbak]
      decide +kernel
    · intro bak hbak
      rw [show (Path.ofString "b.xib").backup? =
        some (.ofString "b.xib.bak") by decide +kernel] at hbak
      rw [← Option.some.inj hbak]
      decide +kernel
  have halone : ∀ path ∈ ["a.xib", "b.xib"].map Path.ofString,
      ((annotateDocument path { trackedTags := ["view"] } true).exec ⟨pairScene, []⟩).1.map
        DocumentReport.error =
        .ok none := by
    decide +kernel
  refine annotateAll_perm ["a.xib", "b.xib"] { trackedTags := ["view"] } ⟨pairScene, []⟩ ?_
    fun path hpath => ?_
  · exact List.pairwise_pair.mpr hunrelated
  · obtain ⟨r, hr, -⟩ := map_eq_ok_iff.mp (halone path hpath)
    exact ⟨r, hr⟩

/-- A document alone. -/
def nestedScene : Store where
  entries := [(["a.xib"], .file (Utf8.encode "<view></view>"))]

/-- There is nothing at the second path, and neither is a backup of the other. Yet why it cannot
be read depends on whether the backup of the document is written first. -/
theorem nestedScene_depends_on_order :
    let outer := Path.ofString "a.xib"
    let inner := Path.ofString "a.xib.bak/b.xib"
    let config : Config := { trackedTags := ["view"] }
    let alone path :=
      ((annotateDocument path config true).exec ⟨nestedScene, []⟩).1.map DocumentReport.error
    let both order := ((annotateAll order config true).exec ⟨nestedScene, []⟩).1.map
      fun report => report.files.map DocumentReport.error
    (outer.place [] ≠ inner.place [] ∧ (∀ bak ∈ outer.backup?, bak.place [] ≠ inner.place []) ∧
      ∀ bak ∈ inner.backup?, bak.place [] ≠ outer.place []) ∧
    alone outer = .ok none ∧
    alone inner = .ok (some (.inaccessible inner "No such file or directory")) ∧
    both [inner, outer] = .ok [some (.inaccessible inner "No such file or directory"), none] ∧
    both [outer, inner] = .ok [none, some (.inaccessible inner "Not a directory")] := by
  refine ⟨⟨?_, ?_, ?_⟩, ?_, ?_, ?_, ?_⟩ <;> decide +kernel

end AccessPatch
