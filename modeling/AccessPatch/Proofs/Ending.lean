import AccessPatch.Proofs.Run
import AccessPatch.Proofs.Store.Writing

/-!
# How runs end

An action takes one store to another and ends with a value or a failure. Neither depends on what
the journal holds, so `Run.Ends` is about stores only; an action has one end (`Ends.unique`), and
the end of a sequence comes from those of its parts. A file is accessed by a path that has to be
usable (`accessed`): reading ends with the content of the file and keeps the store
(`ends_contentOf`), and writing puts the file at its target or keeps the store (`ends_writeFile`,
`ends_writeFile_error`).
-/

namespace AccessPatch.Run

variable {α β ε : Type} {action : Run α} {k : α → Run β} {s t u : Store} {a : α} {f : Failure}
  {path bak : Path} {place : Location} {content : Bytes}

/-- Whatever the journal holds, the action ends with the result and takes one store to the other. -/
def Ends (action : Run α) (s : Store) (result : Except Failure α) (t : Store) : Prop :=
  ∀ journal, ∃ journal', action.exec ⟨s, journal⟩ = (result, ⟨t, journal'⟩)

theorem Ends.exec_eq {result : Except Failure α} (h : Ends action s result t) (journal : Journal) :
    (action.exec ⟨s, journal⟩).1 = result ∧ (action.exec ⟨s, journal⟩).2.store = t := by
  obtain ⟨journal', hexec⟩ := h journal
  rw [hexec]
  exact ⟨rfl, rfl⟩

theorem Ends.unique {result result' : Except Failure α} (h : Ends action s result t)
    (h' : Ends action s result' u) : result = result' ∧ t = u := by
  obtain ⟨hresult, hstore⟩ := h.exec_eq []
  obtain ⟨hresult', hstore'⟩ := h'.exec_eq []
  exact ⟨hresult.symm.trans hresult', hstore.symm.trans hstore'⟩

theorem Returns.ends (h : Returns action a) (s : Store) : Ends action s (.ok a) s := by
  intro journal
  obtain ⟨⟨t, journal'⟩, hexec, hstore⟩ := h ⟨s, journal⟩
  obtain rfl : t = s := hstore
  exact ⟨journal', hexec⟩

theorem ends_pure (a : α) (s : Store) : Ends (pure a) s (.ok a) s :=
  (returns_pure a).ends s

theorem ends_note (n : Note) (s : Store) : Ends (note n) s (.ok ()) s :=
  (returns_note n).ends s

theorem ends_remark (r : Remark) (s : Store) : Ends (remark r) s (.ok ()) s :=
  fun journal => ⟨journal ++ [r], rfl⟩

theorem ends_throw (f : Failure) (s : Store) : Ends (throw f : Run α) s (.error f) s :=
  fun journal => ⟨journal, rfl⟩

theorem ends_ofExcept (g : ε → Failure) (x : Except ε α) (s : Store) :
    Ends (ofExcept g x) s (x.mapError g) s := by
  cases x with
  | ok a => exact ends_pure a s
  | error e => exact ends_throw (g e) s

theorem ends_ofExcept_ok {g : ε → Failure} {x : Except ε α} (h : x = .ok a) (s : Store) :
    Ends (ofExcept g x) s (.ok a) s :=
  (returns_ofExcept h).ends s

theorem ends_ofExcept_error {g : ε → Failure} {x : Except ε α} {e : ε} (h : x = .error e)
    (s : Store) :
    Ends (ofExcept g x) s (.error (g e)) s := by
  subst h
  exact ends_throw (g e) s

theorem Ends.bind {result : Except Failure β} (h : Ends action s (.ok a) t)
    (hk : Ends (k a) t result u) :
    Ends (action >>= k) s result u := by
  intro journal
  obtain ⟨journal₁, hfirst⟩ := h journal
  obtain ⟨journal₂, hrest⟩ := hk journal₁
  exact ⟨journal₂, (exec_bind_of_ok hfirst).trans hrest⟩

/-- A failure ends a sequence. -/
theorem Ends.bind_error (h : Ends action s (.error f) t) : Ends (action >>= k) s (.error f) t := by
  intro journal
  obtain ⟨journal', hfirst⟩ := h journal
  have hrun : StateT.run action.run ⟨s, journal⟩ = (.error f, ⟨t, journal'⟩) := hfirst
  refine ⟨journal', ?_⟩
  simp only [exec, ExceptT.run_bind, StateT.run_bind, hrun]
  rfl

theorem Ends.map (h : Ends action s (.ok a) t) (g : α → β) :
    Ends (g <$> action) s (.ok (g a)) t := by
  rw [map_eq_pure_bind]
  exact h.bind (ends_pure _ _)

theorem Ends.map_error (h : Ends action s (.error f) t) (g : α → β) :
    Ends (g <$> action) s (.error f) t := by
  rw [map_eq_pure_bind]
  exact h.bind_error

/-- An action that reads the store first. -/
theorem ends_get (act : Store → Run α) {result : Except Failure α} (h : Ends (act s) s result t) :
    Ends (get >>= fun session => act session.store) s result t := by
  intro journal
  obtain ⟨journal', hexec⟩ := h journal
  exact ⟨journal', hexec⟩

/-- A handler has nothing to do with a value. -/
theorem Ends.tryCatch_ok (h : Ends action s (.ok a) t) (handler : Failure → Run α) :
    Ends (tryCatch action handler) s (.ok a) t := by
  intro journal
  obtain ⟨journal', hexec⟩ := h journal
  have hrun : StateT.run action.run ⟨s, journal⟩ = (.ok a, ⟨t, journal'⟩) := hexec
  refine ⟨journal', ?_⟩
  simp only [exec, ExceptT.run_tryCatch, StateT.run_bind, hrun]
  rfl

/-- A handler goes on from a failure. -/
theorem Ends.tryCatch_error {handler : Failure → Run α} {result : Except Failure α}
    (h : Ends action s (.error f) t) (hhandler : Ends (handler f) t result u) :
    Ends (tryCatch action handler) s result u := by
  intro journal
  obtain ⟨journal₁, hfirst⟩ := h journal
  obtain ⟨journal₂, hrest⟩ := hhandler journal₁
  have hrun : StateT.run action.run ⟨s, journal⟩ = (.error f, ⟨t, journal₁⟩) := hfirst
  refine ⟨journal₂, ?_⟩
  simp only [exec, ExceptT.run_tryCatch, StateT.run_bind, hrun]
  exact hrest

/-- What comes of a result when the errors of documents are caught. -/
def caught : Except Failure α → Except Failure (Except DocumentError α)
  | .ok a => .ok (.ok a)
  | .error (.document e) => .ok (.error e)
  | .error f => .error f

theorem Ends.catchDocument {result : Except Failure α} (h : Ends action s result t) :
    Ends (catchDocument action) s (caught result) t := by
  intro journal
  obtain ⟨journal', hexec⟩ := h journal
  have hrun : StateT.run action.run ⟨s, journal⟩ = (result, ⟨t, journal'⟩) := hexec
  refine ⟨journal', ?_⟩
  simp only [Run.catchDocument, exec, ExceptT.run_tryCatch, StateT.run_bind, ExceptT.run_map,
    StateT.run_map, hrun]
  cases result with
  | ok a => rfl
  | error f => cases f <;> rfl

/-! ## Files -/

/-- What an attempt on the file at a path comes to. -/
def accessed (path : Path) (x : Except AccessFault α) : Except Failure α :=
  if path.parts.any fun part => part.toList.contains '\x00' then .error (.unusablePath path)
  else x.mapError (inaccessible path)

theorem accessed_of_usable (h : path.Usable) (x : Except AccessFault α) :
    accessed path x = x.mapError (inaccessible path) :=
  if_neg (Path.usable_iff.mp h)

theorem accessed_of_not_usable (h : ¬ path.Usable) (x : Except AccessFault α) :
    accessed path x = .error (.unusablePath path) :=
  if_pos (by_contra fun hnone => h (Path.usable_iff.mpr hnone))

theorem accessed_eq_ok_iff {x : Except AccessFault α} :
    accessed path x = .ok a ↔ path.Usable ∧ x = .ok a := by
  by_cases h : path.Usable
  · rw [accessed_of_usable h, mapError_eq_ok_iff]
    exact (and_iff_right h).symm
  · rw [accessed_of_not_usable h]
    constructor
    · rintro ⟨⟩
    · rintro ⟨husable, -⟩
      exact absurd husable h

/-- An attempt fails because of the path, or because of what is in the store. -/
theorem accessed_eq_error {x : Except AccessFault α} (h : accessed path x = .error f) :
    (¬ path.Usable ∧ f = .unusablePath path) ∨
      (path.Usable ∧ ∃ fault, x = .error fault ∧ f = inaccessible path fault) := by
  by_cases husable : path.Usable
  · rw [accessed_of_usable husable] at h
    cases x with
    | ok a => cases h
    | error fault =>
      cases h
      exact .inr ⟨husable, fault, rfl, rfl⟩
  · rw [accessed_of_not_usable husable] at h
    cases h
    exact .inl ⟨husable, rfl⟩

theorem ends_contentOf (path : Path) (s : Store) :
    Ends (contentOf path) s (accessed path (s.read path)) s := by
  unfold contentOf checkUsable accessed
  split
  · exact (ends_throw _ s).bind_error
  · refine (ends_pure () s).bind ?_
    intro journal
    obtain ⟨journal', h⟩ := ends_ofExcept (inaccessible path) (s.read path) s journal
    exact ⟨journal', h⟩

/-- What a write of a usable path does to the store. -/
theorem ends_write (path : Path) (content : Bytes) (s : Store) :
    Ends (do
      let (result, store) := (← get).store.write path content
      modify fun session => { session with store }
      ofExcept (inaccessible path) result) s ((s.write path content).1.mapError (inaccessible path))
      (s.write path content).2 := by
  intro journal
  obtain ⟨journal', h⟩ :=
    ends_ofExcept (inaccessible path) (s.write path content).1 (s.write path content).2 journal
  exact ⟨journal', h⟩

theorem ends_writeFile (h : accessed path (s.target path) = .ok place) :
    Ends (writeFile path content) s (.ok ()) (s.put place (.file content)) := by
  unfold accessed at h
  unfold writeFile checkUsable
  split at h
  · cases h
  · rename_i husable
    rw [if_neg husable]
    have htarget : s.target path = .ok place := mapError_eq_ok_iff.mp h
    have hwrite := ends_write path content s
    rw [s.write_eq, htarget] at hwrite
    exact (ends_pure () s).bind hwrite

theorem ends_writeFile_error (h : accessed path (s.target path) = .error f) :
    Ends (writeFile path content) s (.error f) s := by
  unfold accessed at h
  unfold writeFile checkUsable
  split at h
  · rename_i hunusable
    rw [if_pos hunusable]
    cases h
    exact (ends_throw _ s).bind_error
  · rename_i husable
    rw [if_neg husable]
    have hwrite := ends_write path content s
    rw [s.write_eq] at hwrite
    cases htarget : s.target path with
    | ok place =>
      rw [htarget] at h
      cases h
    | error fault =>
      rw [htarget] at h hwrite
      cases h
      exact (ends_pure () s).bind hwrite

end AccessPatch.Run
