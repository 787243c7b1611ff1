import AccessPatch.Proofs.Store.Writing

/-!
# Files that do not concern a path

Work on a document in place depends on what its path leads to, on the way there, and on its
backup. A file that is put `Clear` of these changes nothing for that work (`agrees_putAll`),
however many are put. Files that are put one after the other leave the same store in any order, if
no two of them contend for a place (`entry?_putAll_congr`).
-/

namespace AccessPatch.Store

variable {s t u : Store} {path bak : Path} {place q : Location} {content : Bytes}
  {ws ws' : List (Location × Bytes)}

/-! ## One file -/

/-- A file at `place` does not concern work on the document at a path. -/
structure Clear (s : Store) (path : Path) (place : Location) : Prop where
  file : s.entry? place ≠ some .directory
  elsewhere : s.locate path ≠ .ok place
  /-- What is new there does not bar the way. -/
  aside : s.entry? place = none → ¬ s.LeadsThrough path place
  spared : ∀ bak, path.backup? = some bak → s.locate bak ≠ .ok place

/-- A path leads through the same locations, whatever files there are. -/
theorem leadsThrough_put_iff (h : s.entry? q ≠ some .directory) :
    (s.put q (.file content)).LeadsThrough path place ↔ s.LeadsThrough path place :=
  exists_congr fun _ => and_congr_right fun _ => locate_put_eq_ok_iff h

theorem Clear.put (h : s.Clear path place) (hq : s.entry? q ≠ some .directory) :
    (s.put q (.file content)).Clear path place := by
  refine ⟨?_, ?_, ?_, ?_⟩
  · by_cases hplace : place = q
    · subst hplace
      rw [entry?_put_self hq]
      exact fun h => nomatch h
    · rw [entry?_put_of_ne hplace]
      exact h.file
  · rw [ne_eq, locate_put_eq_ok_iff hq]
    exact h.elsewhere
  · intro hnone
    have hplace : place ≠ q := by
      rintro rfl
      rw [entry?_put_self hq] at hnone
      cases hnone
    rw [entry?_put_of_ne hplace] at hnone
    rw [leadsThrough_put_iff hq]
    exact h.aside hnone
  · intro bak hbak
    rw [ne_eq, locate_put_eq_ok_iff hq]
    exact h.spared bak hbak

/-- Two stores are the same for work on the document at a path. -/
structure Agrees (s t : Store) (path : Path) : Prop where
  read : t.read path = s.read path
  target : ∀ content, s.read path = .ok content → t.target path = s.target path
  backup : ∀ content bak, s.read path = .ok content → path.backup? = some bak →
    t.target bak = s.target bak

theorem Agrees.refl (s : Store) (path : Path) : Agrees s s path :=
  ⟨rfl, fun _ _ => rfl, fun _ _ _ _ => rfl⟩

theorem Agrees.trans (h : Agrees s t path) (h' : Agrees t u path) : Agrees s u path := by
  refine ⟨h'.read.trans h.read, fun content hread => ?_, fun content bak hread hbak => ?_⟩
  · exact (h'.target content (h.read.trans hread)).trans (h.target content hread)
  · exact (h'.backup content bak (h.read.trans hread) hbak).trans (h.backup content bak hread hbak)

theorem agrees_put (h : s.Clear path q) : Agrees s (s.put q (.file content)) path := by
  refine ⟨?_, fun found hread => ?_, fun found bak hread hbak => ?_⟩
  · refine read_congr (locate_put h.file h.aside) fun place hlocate => entry?_put_of_ne ?_
    rintro rfl
    exact h.elsewhere hlocate
  · obtain ⟨folder, hlocate, hfolder⟩ := folder_of_read hread
    exact target_put h.file hlocate hfolder h.elsewhere
  · obtain ⟨folder, hlocate, hfolder⟩ := folder_of_read hread
    obtain ⟨-, -, -, hparent, -⟩ := Path.of_backup? hbak
    rw [← hparent] at hlocate
    exact target_put h.file hlocate hfolder (h.spared bak hbak)

/-! ## Many files -/

/-- The store after files were put one after the other. -/
def putAll (s : Store) (ws : List (Location × Bytes)) : Store :=
  ws.foldl (fun s w => s.put w.1 (.file w.2)) s

theorem putAll_cons (s : Store) (w : Location × Bytes) (ws : List (Location × Bytes)) :
    s.putAll (w :: ws) = (s.put w.1 (.file w.2)).putAll ws := rfl

theorem putAll_append (s : Store) (ws ws' : List (Location × Bytes)) :
    s.putAll (ws ++ ws') = (s.putAll ws).putAll ws' :=
  List.foldl_append

theorem here_putAll (s : Store) (ws : List (Location × Bytes)) : (s.putAll ws).here = s.here := by
  induction ws generalizing s with
  | nil => rfl
  | cons w ws ih => rw [putAll_cons, ih, here_put]

/-- Files that are put clear of a path change nothing for work on its document. -/
theorem agrees_putAll (h : ∀ w ∈ ws, s.Clear path w.1) : Agrees s (s.putAll ws) path := by
  induction ws generalizing s with
  | nil => exact .refl s path
  | cons w ws ih =>
    obtain ⟨hw, hws⟩ := List.forall_mem_cons.mp h
    exact (agrees_put hw).trans (ih fun w' hw' => (hws w' hw').put hw.file)

theorem entry?_putAll_of_ne (h : ∀ w ∈ ws, w.1 ≠ place) :
    entry? (s.putAll ws) place = s.entry? place := by
  induction ws generalizing s with
  | nil => rfl
  | cons w ws ih =>
    obtain ⟨hw, hws⟩ := List.forall_mem_cons.mp h
    rw [putAll_cons, ih hws, entry?_put_of_ne hw.symm]

/-- No two files contend for a place, and none for that of a directory. -/
structure Settled (s : Store) (ws : List (Location × Bytes)) : Prop where
  files : ∀ w ∈ ws, s.entry? w.1 ≠ some .directory
  single : ∀ w ∈ ws, ∀ w' ∈ ws, w.1 = w'.1 → w = w'

theorem entry?_putAll_of_mem (h : s.Settled ws) (hmem : (place, content) ∈ ws) :
    entry? (s.putAll ws) place = some (.file content) := by
  induction ws generalizing s with
  | nil => cases hmem
  | cons w ws ih =>
    obtain ⟨hw, hws⟩ := List.forall_mem_cons.mp h.files
    rw [putAll_cons]
    by_cases hlater : (place, content) ∈ ws
    · refine ih ⟨fun w' hw' => ?_, fun w₁ h₁ w₂ h₂ => ?_⟩ hlater
      · by_cases hplace : w'.1 = w.1
        · rw [hplace, entry?_put_self hw]
          exact fun h => nomatch h
        · rw [entry?_put_of_ne hplace]
          exact hws w' hw'
      · exact h.single w₁ (List.mem_cons_of_mem _ h₁) w₂ (List.mem_cons_of_mem _ h₂)
    · obtain rfl := (List.mem_cons.mp hmem).resolve_right hlater
      -- What is put later goes elsewhere, or it would be the same file.
      rw [entry?_putAll_of_ne, entry?_put_self hw]
      intro w' hw' hplace
      have hsame := h.single w' (List.mem_cons_of_mem _ hw') _ List.mem_cons_self hplace
      rw [hsame] at hw'
      exact hlater hw'

/-- The order in which files are put does not matter. -/
theorem entry?_putAll_congr (h : s.Settled ws) (hmem : ∀ w, w ∈ ws ↔ w ∈ ws') :
    entry? (s.putAll ws') place = entry? (s.putAll ws) place := by
  have h' : s.Settled ws' :=
    ⟨fun w hw => h.files w ((hmem w).mpr hw),
      fun w hw w' hw' => h.single w ((hmem w).mpr hw) w' ((hmem w').mpr hw')⟩
  by_cases hplace : ∃ content, (place, content) ∈ ws
  · obtain ⟨content, hin⟩ := hplace
    rw [entry?_putAll_of_mem h hin, entry?_putAll_of_mem h' ((hmem _).mp hin)]
  · have hne : ∀ w ∈ ws, w.1 ≠ place := by
      rintro ⟨p, content⟩ hw rfl
      exact hplace ⟨content, hw⟩
    rw [entry?_putAll_of_ne hne, entry?_putAll_of_ne fun w hw => hne w ((hmem w).mpr hw)]

end AccessPatch.Store
