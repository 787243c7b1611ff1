import AccessPatch.Proofs.Ending

/-!
# What applying a plan does to the files

`Applies` says all that `apply` can do from a store: it ends before anything is written, it saves
the document and then cannot write the result, or it writes both. Every run is one of these
(`exists_applies`, `ends_of_applies`). From that follows what a caller relies on
(`guarded_apply`): the result is written as a whole or not at all, the document is saved first,
and no other location changes, so that no temporary file is left either.
-/

namespace AccessPatch.Patch

open Run (Ends accessed accessed_eq_error accessed_eq_ok_iff ends_note ends_ofExcept_error
  ends_ofExcept_ok ends_pure ends_writeFile ends_writeFile_error)

/-! ## The steps -/

/-- What saving a document comes to, from one store to another. -/
inductive Saves (buffer : Bytes) (o : Application) (s : Store) :
    Except Failure (Option Path) → Store → Prop
  | nameless {f : Failure} (h : o.savePath = .error f) : Saves buffer o s (.error f) s
  | unwanted (h : o.savePath = .ok none) : Saves buffer o s (.ok none) s
  | refused {bak : Path} {f : Failure} (h : o.savePath = .ok (some bak))
      (hwrite : accessed bak (s.target bak) = .error f) : Saves buffer o s (.error f) s
  | saved {bak : Path} {place : Location} (h : o.savePath = .ok (some bak))
      (hwrite : accessed bak (s.target bak) = .ok place) :
      Saves buffer o s (.ok (some bak)) (s.put place (.file buffer))

/-- What writing a result comes to, the document being saved first. -/
inductive Replaces (buffer patched : Bytes) (o : Application) (count : Nat) (s : Store) :
    Except Failure Outcome → Store → Prop
  | aimless {f : Failure} (h : o.target = .error f) : Replaces buffer patched o count s (.error f) s
  | unsaved {path : Path} {f : Failure} {t : Store} (h : o.target = .ok path)
      (hsaves : Saves buffer o s (.error f) t) : Replaces buffer patched o count s (.error f) t
  | unwritten {path : Path} {backup : Option Path} {f : Failure} {t : Store}
      (h : o.target = .ok path) (hsaves : Saves buffer o s (.ok backup) t)
      (hwrite : accessed path (t.target path) = .error f) :
      Replaces buffer patched o count s (.error f) t
  | written {path : Path} {backup : Option Path} {place : Location} {t : Store}
      (h : o.target = .ok path) (hsaves : Saves buffer o s (.ok backup) t)
      (hwrite : accessed path (t.target path) = .ok place) :
      Replaces buffer patched o count s
        (.ok { applied := count, patched, dryRun := false, backup, out := some path })
        (t.put place (.file patched))

/-- What applying operations to a document comes to, from one store to another. -/
inductive Applies (buffer : Bytes) (ops : List Op) (o : Application) (s : Store) :
    Except Failure Outcome → Store → Prop
  | idle (h : ops = []) :
      Applies buffer ops o s (.ok { applied := 0, patched := buffer, dryRun := o.dryRun }) s
  | refused {f : Failure} (h : ops ≠ []) (hprepare : prepare buffer ops o = .error f) :
      Applies buffer ops o s (.error f) s
  | shown {patched : Bytes} (h : ops ≠ []) (hprepare : prepare buffer ops o = .ok patched)
      (hdry : o.dryRun = true) : Applies buffer ops o s (.ok { applied := ops.length, patched }) s
  | replaced {patched : Bytes} {result : Except Failure Outcome} {t : Store} (h : ops ≠ [])
      (hprepare : prepare buffer ops o = .ok patched) (hdry : o.dryRun = false)
      (hreplaces : Replaces buffer patched o ops.length s result t) :
      Applies buffer ops o s result t

variable {buffer patched : Bytes} {ops : List Op} {o : Application} {s t : Store} {path bak : Path}
  {place : Location} {f : Failure}

theorem exists_saves (buffer : Bytes) (o : Application) (s : Store) :
    ∃ result t, Saves buffer o s result t := by
  cases hpath : o.savePath with
  | error f => exact ⟨_, _, .nameless hpath⟩
  | ok path? =>
    cases path? with
    | none => exact ⟨_, _, .unwanted hpath⟩
    | some bak =>
      cases hwrite : accessed bak (s.target bak) with
      | error f => exact ⟨_, _, .refused hpath hwrite⟩
      | ok place => exact ⟨_, _, .saved hpath hwrite⟩

theorem ends_of_saves {result : Except Failure (Option Path)} (h : Saves buffer o s result t) :
    Ends (saveBackup buffer o) s result t := by
  unfold saveBackup
  cases h with
  | nameless h => exact (ends_ofExcept_error h s).bind_error
  | unwanted h => exact (ends_ofExcept_ok h s).bind (ends_pure _ _)
  | refused h hwrite => exact (ends_ofExcept_ok h s).bind (ends_writeFile_error hwrite).bind_error
  | saved h hwrite =>
    exact (ends_ofExcept_ok h s).bind
      ((ends_writeFile hwrite).bind ((ends_note _ _).bind (ends_pure _ _)))

theorem exists_replaces (buffer patched : Bytes) (o : Application) (count : Nat) (s : Store) :
    ∃ result t, Replaces buffer patched o count s result t := by
  cases htarget : o.target with
  | error f => exact ⟨_, _, .aimless htarget⟩
  | ok path =>
    obtain ⟨result, t, hsaves⟩ := exists_saves buffer o s
    cases result with
    | error f => exact ⟨_, _, .unsaved htarget hsaves⟩
    | ok backup =>
      cases hwrite : accessed path (t.target path) with
      | error f => exact ⟨_, _, .unwritten htarget hsaves hwrite⟩
      | ok place => exact ⟨_, _, .written htarget hsaves hwrite⟩

theorem ends_of_replaces {count : Nat} {result : Except Failure Outcome}
    (h : Replaces buffer patched o count s result t) : Ends (do
      let target ← Run.ofExcept id o.target
      let backup ← saveBackup buffer o
      Run.writeFile target patched
      Run.note (.wrote count target)
      return { applied := count, patched, dryRun := false, backup, out := some target }) s
        result t := by
  cases h with
  | aimless h => exact (ends_ofExcept_error h s).bind_error
  | unsaved h hsaves => exact (ends_ofExcept_ok h s).bind (ends_of_saves hsaves).bind_error
  | unwritten h hsaves hwrite =>
    exact (ends_ofExcept_ok h s).bind
      ((ends_of_saves hsaves).bind (ends_writeFile_error hwrite).bind_error)
  | written h hsaves hwrite =>
    exact (ends_ofExcept_ok h s).bind ((ends_of_saves hsaves).bind
      ((ends_writeFile hwrite).bind ((ends_note _ _).bind (ends_pure _ _))))

theorem exists_applies (buffer : Bytes) (ops : List Op) (o : Application) (s : Store) :
    ∃ result t, Applies buffer ops o s result t := by
  by_cases h : ops = []
  · exact ⟨_, _, .idle h⟩
  cases hprepare : prepare buffer ops o with
  | error f => exact ⟨_, _, .refused h hprepare⟩
  | ok patched =>
    cases hdry : o.dryRun with
    | true => exact ⟨_, _, .shown h hprepare hdry⟩
    | false =>
      obtain ⟨result, t, hreplaces⟩ := exists_replaces buffer patched o ops.length s
      exact ⟨_, _, .replaced h hprepare hdry hreplaces⟩

theorem ends_of_applies {result : Except Failure Outcome} (h : Applies buffer ops o s result t) :
    Ends (apply buffer ops o) s result t := by
  have hsome : ops ≠ [] → ¬ ops.isEmpty = true := fun hne => by simpa using hne
  unfold apply
  cases h with
  | idle h =>
    subst h
    exact (ends_note _ _).bind (ends_pure _ _)
  | refused h hprepare =>
    rw [if_neg (hsome h)]
    exact (ends_ofExcept_error hprepare s).bind_error
  | shown h hprepare hdry =>
    rw [if_neg (hsome h), hdry]
    exact (ends_ofExcept_ok hprepare s).bind (ends_pure _ _)
  | replaced h hprepare hdry hreplaces =>
    rw [if_neg (hsome h), hdry]
    exact (ends_ofExcept_ok hprepare s).bind (ends_of_replaces hreplaces)

/-! ## The store afterwards -/

/-- The path at which the document is saved before the result is written. -/
def Application.SavesTo (o : Application) (bak : Path) : Prop :=
  o.backup = true ∧ ∃ source, o.source = some source ∧ (Path.ofString source).backup? = some bak

theorem savesTo_iff : o.SavesTo bak ↔ o.savePath = .ok (some bak) := by
  unfold Application.SavesTo Application.savePath
  cases o.source with
  | none => simp
  | some source =>
    cases o.backup with
    | false => simp
    | true =>
      cases hbak : (Path.ofString source).backup? with
      | none => simp [hbak]
      | some path => simp [hbak]

theorem Saves.of_error (h : Saves buffer o s (.error f) t) : t = s := by
  cases h with
  | nameless _ => rfl
  | refused _ _ => rfl

/-- Saving changes at most the backup. -/
theorem Saves.entry? {result : Except Failure (Option Path)} (h : Saves buffer o s result t)
    (place : Location) :
    t.entry? place = s.entry? place ∨
      ∃ bak, o.SavesTo bak ∧ s.locate bak = .ok place ∧ t.entry? place = some (.file buffer) := by
  cases h with
  | nameless _ => exact .inl rfl
  | unwanted _ => exact .inl rfl
  | refused _ _ => exact .inl rfl
  | @saved bak q h hwrite =>
    have htarget := (accessed_eq_ok_iff.mp hwrite).2
    by_cases hplace : place = q
    · subst hplace
      exact .inr ⟨bak, savesTo_iff.mpr h, Store.locate_of_target htarget,
        Store.entry?_put_self (Store.entry?_of_target htarget)⟩
    · exact .inl (Store.entry?_put_of_ne hplace)

theorem Saves.target_eq_ok_iff {result : Except Failure (Option Path)}
    (h : Saves buffer o s result t) :
    t.target path = .ok place ↔ s.target path = .ok place := by
  cases h with
  | nameless _ => exact Iff.rfl
  | unwanted _ => exact Iff.rfl
  | refused _ _ => exact Iff.rfl
  | saved _ hwrite =>
    exact Store.target_put_eq_ok_iff (Store.entry?_of_target (accessed_eq_ok_iff.mp hwrite).2)

/-- Where a document is to be saved, it is. -/
theorem Saves.of_wanted {backup : Option Path} {source : String}
    (h : Saves buffer o s (.ok backup) t) (hbackup : o.backup = true)
    (hsource : o.source = some source) :
    ∃ bak saved, o.SavesTo bak ∧ (Path.ofString source).backup? = some bak ∧
      s.target bak = .ok saved ∧
      t = s.put saved (.file buffer) := by
  cases h with
  | unwanted h =>
    unfold Application.savePath at h
    rw [hsource, hbackup] at h
    cases hbak : (Path.ofString source).backup? with
    | none => simp [hbak] at h
    | some bak => simp [hbak] at h
  | @saved bak place h hwrite =>
    have hsaves := savesTo_iff.mpr h
    obtain ⟨-, source', hsource', hbak⟩ := hsaves
    obtain rfl := Option.some.inj (hsource.symm.trans hsource')
    exact ⟨bak, place, savesTo_iff.mpr h, hbak, (accessed_eq_ok_iff.mp hwrite).2, rfl⟩

/-- The backup stays when the result is written elsewhere. -/
theorem Saves.holds {backup : Option Path} {source : String} (h : Saves buffer o s (.ok backup) t)
    (hbackup : o.backup = true) (hsource : o.source = some source)
    (hentry : t.entry? place ≠ some .directory)
    (hother : ∀ bak, o.SavesTo bak → s.locate bak ≠ .ok place) :
    ∃ bak saved, (Path.ofString source).backup? = some bak ∧ s.locate bak = .ok saved ∧
      (t.put place (.file patched)).read bak = .ok buffer ∧
        Store.entry? (t.put place (.file patched)) saved = some (.file buffer) := by
  obtain ⟨bak, saved, hsaved, hbak, htarget, rfl⟩ := h.of_wanted hbackup hsource
  have hlocate := Store.locate_of_target htarget
  have hfile := Store.entry?_of_target htarget
  have hne : saved ≠ place := by
    rintro rfl
    exact hother bak hsaved hlocate
  refine ⟨bak, saved, hbak, hlocate, ?_, ?_⟩
  · refine Store.read_put_of_ne hentry ?_ (Store.read_put htarget)
    rw [(Store.locate_put_eq_ok_iff hfile).mpr hlocate]
    exact fun heq => hne (Except.ok.inj heq)
  · rw [Store.entry?_put_of_ne hne, Store.entry?_put_self hfile]

/-- What a caller may rely on when operations are applied to a document. -/
structure Guarded (buffer : Bytes) (ops : List Op) (o : Application) (s : Store)
    (result : Except Failure Outcome) (t : Store) : Prop where
  /-- Where nothing is to be written, or nothing that may be, no file changes. -/
  idle : ops = [] ∨ o.dryRun = true ∨ (∃ misfit, splice buffer ops = .error misfit) ∨
    (o.verify = true ∧ ∃ patched f, splice buffer ops = .ok patched ∧
      verifyResult patched o.identity = .error f) ∨ (o.source = none ∧ o.out = none) → t = s
  /-- After a write the target holds the result and the backup holds the document. All else is as
  it was. -/
  written : ∀ outcome, result = .ok outcome → ops ≠ [] → o.dryRun = false →
    ∃ path patched place, o.target = .ok path ∧ splice buffer ops = .ok patched ∧
      s.locate path = .ok place ∧
      ((∀ bak, o.SavesTo bak → s.locate bak ≠ .ok place) →
        t.read path = .ok patched ∧ t.entry? place = some (.file patched) ∧
        (∀ source, o.backup = true → o.source = some source → ∃ bak saved,
          (Path.ofString source).backup? = some bak ∧ s.locate bak = .ok saved ∧
            t.read bak = .ok buffer ∧ t.entry? saved = some (.file buffer)) ∧
        ∀ other, other ≠ place → (∀ bak, o.SavesTo bak → s.locate bak ≠ .ok other) →
          t.entry? other = s.entry? other)
  /-- A run that fails leaves everything as it was but the backup, which may hold the document
  now. -/
  failed : ∀ f, result = .error f → ∀ place, t.entry? place = s.entry? place ∨
    ∃ bak, o.SavesTo bak ∧ s.locate bak = .ok place ∧ t.entry? place = some (.file buffer)
  /-- Where the document is to be saved, nothing changes before that is done. -/
  saved : o.backup = true → o.source ≠ none → t ≠ s → ∃ bak u, o.SavesTo bak ∧
    s.write bak buffer = (.ok (), u) ∧ u.read bak = .ok buffer ∧
      (t = u ∨ ∃ path patched, o.target = .ok path ∧ splice buffer ops = .ok patched ∧
        u.write path patched = (.ok (), t))

theorem splice_of_prepare (h : prepare buffer ops o = .ok patched) :
    splice buffer ops = .ok patched :=
  (prepare_eq_ok_iff.mp h).1

/-- Operations do not fit, or what they make of the document is not well-formed. -/
theorem prepare_eq_error (h : prepare buffer ops o = .error f) :
    (∃ misfit, splice buffer ops = .error misfit ∧ f = .misfit misfit) ∨
      ∃ patched diagnostic, splice buffer ops = .ok patched ∧ o.verify = true ∧
        Xml.check patched = .error diagnostic ∧
        f = .document (.unverified o.identity diagnostic) := by
  unfold prepare at h
  cases hsplice : splice buffer ops with
  | error misfit =>
    rw [hsplice] at h
    cases h
    exact .inl ⟨misfit, rfl, rfl⟩
  | ok patched =>
    rw [hsplice] at h
    cases hverify : o.verify with
    | false =>
      rw [hverify] at h
      cases h
    | true =>
      rw [hverify] at h
      change (verifyResult patched o.identity >>= fun _ => Except.ok patched) = .error f at h
      unfold verifyResult at h
      cases hcheck : Xml.check patched with
      | ok _ =>
        rw [hcheck] at h
        cases h
      | error diagnostic =>
        rw [hcheck] at h
        cases h
        exact .inr ⟨patched, diagnostic, rfl, rfl, hcheck, rfl⟩

theorem prepare_of_check_error {diagnostic : String} (hsplice : splice buffer ops = .ok patched)
    (hverify : o.verify = true) (hcheck : Xml.check patched = .error diagnostic) :
    prepare buffer ops o = .error (.document (.unverified o.identity diagnostic)) := by
  unfold prepare verifyResult
  rw [hsplice, hverify]
  simp only [Except.mapError, bind, Except.bind, hcheck]
  rfl

/-- Operations that are carried out pass the checks. -/
theorem prepare_ne_ok (h : (∃ misfit, splice buffer ops = .error misfit) ∨
    (o.verify = true ∧ ∃ patched f, splice buffer ops = .ok patched ∧
      verifyResult patched o.identity = .error f)) : prepare buffer ops o ≠ .ok patched := by
  intro hprepare
  obtain ⟨hsplice, hverify⟩ := prepare_eq_ok_iff.mp hprepare
  rcases h with ⟨misfit, hmisfit⟩ | ⟨hon, patched', f, hsplice', hf⟩
  · rw [hsplice] at hmisfit
    cases hmisfit
  · obtain rfl := Except.ok.inj (hsplice.symm.trans hsplice')
    rw [hverify hon] at hf
    cases hf

theorem store_of_idle {result : Except Failure Outcome} (h : Applies buffer ops o s result t)
    (hidle : ops = [] ∨ o.dryRun = true ∨ (∃ misfit, splice buffer ops = .error misfit) ∨
      (o.verify = true ∧ ∃ patched f, splice buffer ops = .ok patched ∧
        verifyResult patched o.identity = .error f) ∨ (o.source = none ∧ o.out = none)) :
    t = s := by
  cases h with
  | idle _ => rfl
  | refused _ _ => rfl
  | shown _ _ _ => rfl
  | replaced hne hprepare hdry hreplaces =>
    rcases hidle with hnil | hdry' | hmisfit | hverify | ⟨hsource, hout⟩
    · exact absurd hnil hne
    · rw [hdry] at hdry'
      cases hdry'
    · exact absurd hprepare (prepare_ne_ok (.inl hmisfit))
    · exact absurd hprepare (prepare_ne_ok (.inr hverify))
    · have htarget : o.target = .error .noDestination := by
        unfold Application.target
        rw [hsource, hout]
        rfl
      cases hreplaces with
      | aimless _ => rfl
      | unsaved h _ =>
        rw [htarget] at h
        cases h
      | unwritten h _ _ =>
        rw [htarget] at h
        cases h
      | written h _ _ =>
        rw [htarget] at h
        cases h

theorem guarded_of_applies {result : Except Failure Outcome} (h : Applies buffer ops o s result t) :
    Guarded buffer ops o s result t where
  idle hidle := store_of_idle h hidle
  written outcome hresult hne hdry := by
    subst hresult
    cases h with
    | idle hnil => exact absurd hnil hne
    | shown _ _ hdry' =>
      rw [hdry] at hdry'
      cases hdry'
    | replaced _ hprepare _ hreplaces =>
      cases hreplaces with
      | @written path backup place u htarget hsaves hwrite =>
        obtain ⟨husable, hplace⟩ := accessed_eq_ok_iff.mp hwrite
        have hlocate := Store.locate_of_target (hsaves.target_eq_ok_iff.mp hplace)
        refine ⟨path, _, place, htarget, splice_of_prepare hprepare, hlocate, fun hother => ?_⟩
        have hentry := Store.entry?_of_target hplace
        refine ⟨Store.read_put hplace, Store.entry?_put_self hentry, ?_, ?_⟩
        · intro source hbackup hsource
          exact hsaves.holds hbackup hsource hentry hother
        · intro other hne hbak
          rw [Store.entry?_put_of_ne hne]
          rcases hsaves.entry? other with hsame | ⟨bak, hsaves, hlocate, -⟩
          · exact hsame
          · exact absurd hlocate (hbak bak hsaves)
  failed f hresult place := by
    subst hresult
    cases h with
    | refused _ _ => exact .inl rfl
    | replaced _ _ _ hreplaces =>
      cases hreplaces with
      | aimless _ => exact .inl rfl
      | unsaved _ hsaves => exact hsaves.entry? place
      | unwritten _ hsaves _ => exact hsaves.entry? place
  saved hbackup hsource hchange := by
    obtain ⟨source, hsource⟩ := Option.ne_none_iff_exists'.mp hsource
    cases h with
    | idle _ => exact absurd rfl hchange
    | refused _ _ => exact absurd rfl hchange
    | shown _ _ _ => exact absurd rfl hchange
    | replaced _ hprepare _ hreplaces =>
      cases hreplaces with
      | aimless _ => exact absurd rfl hchange
      | unsaved _ hsaves => exact absurd hsaves.of_error hchange
      | unwritten _ hsaves _ =>
        obtain ⟨bak, saved, hsaved, -, htarget, rfl⟩ := hsaves.of_wanted hbackup hsource
        refine ⟨bak, _, hsaved, ?_, Store.read_put htarget, .inl rfl⟩
        rw [Store.write_eq, htarget]
      | written htarget hsaves hwrite =>
        obtain ⟨bak, saved, hsaved, -, htarget', rfl⟩ := hsaves.of_wanted hbackup hsource
        refine ⟨bak, _, hsaved, ?_, Store.read_put htarget',
          .inr ⟨_, _, htarget, splice_of_prepare hprepare, ?_⟩⟩
        · rw [Store.write_eq, htarget']
        · rw [Store.write_eq, (accessed_eq_ok_iff.mp hwrite).2]

/-- **What applying a plan does to the files**, in every run. -/
theorem guarded_apply (buffer : Bytes) (ops : List Op) (o : Application) (s : Session) :
    Guarded buffer ops o s.store ((apply buffer ops o).exec s).1
      ((apply buffer ops o).exec s).2.store := by
  obtain ⟨result, t, happlies⟩ := exists_applies buffer ops o s.store
  obtain ⟨hresult, hstore⟩ := (ends_of_applies happlies).exec_eq s.journal
  rw [hresult, hstore]
  exact guarded_of_applies happlies

/-- A result that would have to take the place of a directory: the document is saved, and stays. -/
example :
    let source : Element :=
      { tag := "view", extent := ⟨0, 1, 1, 2, by decide, by decide, by decide⟩,
                              startLine := 1, endLine := 1 }
    let s : Store := { entries := [(["a"], .file [0x61]), (["d"], .directory)] }
    let o : Application := { source := some "a", out := some "d", dryRun := false, verify := false }
    ((apply [0x61] [⟨1, [0x62], source, 0⟩] o).exec { store := s }).2.store =
      { entries := [(["a.bak"], .file [0x61]), (["a"], .file [0x61]), (["d"], .directory)] } := by
  decide +kernel

end AccessPatch.Patch
