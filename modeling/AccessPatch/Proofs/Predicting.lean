import AccessPatch.Proofs.Reporting

/-!
# The dry run and the real run

A dry run of a document goes the same way as the real run up to the point where something is
written. What it tells is therefore what the real run does (`predicts_annotateDocument`), except
that the real run may find that the backup or the document cannot be written. In that case the
document is as it was.
-/

namespace AccessPatch

open Patch (Applies Outcome Replaces Saves)
open Run (Ends accessed accessed_eq_error accessed_eq_ok_iff)

/-- What a run on a document in place tells about a second one from the same store. -/
structure Predicts (path : Path) (s : Store)
    (dry real : Except Failure DocumentReport × Store) : Prop where
  /-- The first run changes no file. -/
  harmless : dry.2 = s
  /-- Neither run raises, or both raise the same. -/
  raises : ∀ f, dry.1 = .error f ↔ real.1 = .error f
  same : ∀ r r', dry.1 = .ok r → real.1 = .ok r' →
    r'.content = r.content ∧ r'.elements = r.elements ∧ r'.ops = r.ops
  /-- Where the first run reports an error, the second one reports it too and changes no file. -/
  refuses : ∀ r, dry.1 = .ok r → r.error ≠ none → ∃ r', real.1 = .ok r' ∧
    r'.error = r.error ∧ real.2 = s
  /-- Where the first run succeeds, the second one does as it said, or it cannot write and leaves
  the document. -/
  succeeds : ∀ r, dry.1 = .ok r → r.error = none → ∃ r', real.1 = .ok r' ∧
    (r.ops = [] → real.2 = s) ∧
    ((∃ p reason, r'.error = some (.inaccessible p reason) ∧ s.read path = .ok r.content ∧
        real.2.read path = .ok r.content) ∨
      (r'.error = none ∧ r'.applied = r.applied ∧ ∃ outcome outcome', r.outcome = some outcome ∧
        r'.outcome = some outcome' ∧ outcome'.patched = outcome.patched ∧
          real.2.read path = .ok outcome'.patched))

variable {path : Path} {config : Config} {s t : Store} {content patched : Bytes} {f : Failure}

/-! ## Writing in place -/

/-- A document that was read can be saved, or its backup cannot be written. Either way it stays as
it is. -/
theorem read_of_saves {result : Except Failure (Option Path)} {write : Bool} (hproper : path.Proper)
    (husable : path.Usable) (hread : s.read path = .ok content)
    (h : Saves content (applicationFor path config write none) s result t) :
    t.read path = .ok content ∧ ∀ f, result = .error f →
    ∃ p fault, f = Run.inaccessible p fault := by
  have hsave := savePath_applicationFor config write none hproper (Store.parts_ne_nil_of_read hread)
  cases h with
  | nameless h =>
    rw [hsave] at h
    cases h
  | unwanted _ => exact ⟨hread, by rintro f ⟨⟩⟩
  | refused h hwrite =>
    refine ⟨hread, ?_⟩
    rintro f ⟨⟩
    rcases accessed_eq_error hwrite with ⟨hunusable, -⟩ | ⟨-, fault, -, hf⟩
    · exact absurd (Path.usable_of_backup? (backup?_of_savePath hproper h) husable) hunusable
    · exact ⟨_, fault, hf⟩
  | saved h hwrite =>
    have htarget := (accessed_eq_ok_iff.mp hwrite).2
    refine ⟨Store.read_put_of_ne (Store.entry?_of_target htarget) ?_ hread, by rintro f ⟨⟩⟩
    exact Store.locate_ne_backup (backup?_of_savePath hproper h) htarget

/-- A result takes the place of its document, or the document stays as it is. -/
theorem read_of_replaces {result : Except Failure Outcome} {write : Bool} {count : Nat}
    (hproper : path.Proper) (husable : path.Usable) (hread : s.read path = .ok content)
    (h : Replaces content patched (applicationFor path config write none) count s result t) :
    (∃ p fault, result = .error (Run.inaccessible p fault) ∧ t.read path = .ok content) ∨
      ∃ outcome, result = .ok outcome ∧ outcome.applied = count ∧ outcome.patched = patched ∧
        t.read path = .ok patched := by
  have hpath := target_applicationFor config write hproper
  cases h with
  | aimless h =>
    rw [hpath] at h
    cases h
  | unsaved _ hsaves =>
    obtain ⟨hstays, herror⟩ := read_of_saves hproper husable hread hsaves
    obtain ⟨p, fault, rfl⟩ := herror _ rfl
    exact .inl ⟨p, fault, rfl, hstays⟩
  | unwritten h hsaves hwrite =>
    obtain rfl := Except.ok.inj (hpath.symm.trans h)
    obtain ⟨hstays, -⟩ := read_of_saves hproper husable hread hsaves
    rcases accessed_eq_error hwrite with ⟨hunusable, -⟩ | ⟨-, fault, -, rfl⟩
    · exact absurd husable hunusable
    · exact .inl ⟨_, fault, rfl, hstays⟩
  | written h hsaves hwrite =>
    obtain rfl := Except.ok.inj (hpath.symm.trans h)
    exact .inr ⟨_, rfl, rfl, rfl, Store.read_put (accessed_eq_ok_iff.mp hwrite).2⟩

/-! ## The two runs -/

/-- Runs that end alike before anything is written. -/
theorem predicts_of_failure (report : DocumentReport) (f : Failure) :
    Predicts path s (blame report f, s) (blame report f, s) := by
  have hsame : ∀ r r', blame report f = .ok r → blame report f = .ok r' → r' = r := by
    intro r r' h h'
    exact Except.ok.inj (h'.symm.trans h)
  refine ⟨rfl, fun f => Iff.rfl, ?_, fun r h _ => ⟨r, h, rfl, rfl⟩, ?_⟩
  · intro r r' h h'
    rw [hsame r r' h h']
    exact ⟨rfl, rfl, rfl⟩
  · intro r h hnone
    exfalso
    cases f with
    | document e =>
      obtain rfl := Except.ok.inj h
      cases hnone
    | _ => cases h

/-- Runs of which the first is dry, where the operations can be carried out. -/
theorem predicts_of_success {report : DocumentReport} {outcome : Outcome}
    {result : Except Failure Outcome} (hnone : report.error = none)
    (hread : s.read path = .ok report.content) (hidle : report.ops = [] → t = s)
    (h : (∃ p fault, result = .error (Run.inaccessible p fault) ∧
      t.read path = .ok report.content) ∨
      ∃ outcome', result = .ok outcome' ∧ outcome'.applied = outcome.applied ∧
        outcome'.patched = outcome.patched ∧ t.read path = .ok outcome.patched) :
    Predicts path s (conclude report (.ok outcome), s) (conclude report result, t) := by
  -- Either way the second run ends with a report.
  have hreal : ∃ r', conclude report result = .ok r' ∧ r'.content = report.content ∧
      r'.elements = report.elements ∧ r'.ops = report.ops := by
    rcases h with ⟨p, fault, rfl, -⟩ | ⟨outcome', rfl, -⟩
    · exact ⟨_, rfl, rfl, rfl, rfl⟩
    · exact ⟨_, rfl, rfl, rfl, rfl⟩
  obtain ⟨real, hreal, hcontent, helements, hops⟩ := hreal
  refine ⟨rfl, ?_, ?_, ?_, ?_⟩
  · intro f
    rw [hreal]
    constructor
    · rintro ⟨⟩
    · rintro ⟨⟩
  · rintro r r' ⟨⟩ hr'
    obtain rfl := Except.ok.inj (hreal.symm.trans hr')
    exact ⟨hcontent, helements, hops⟩
  · rintro r ⟨⟩ herror
    exact absurd hnone herror
  · rintro r ⟨⟩ _
    rcases h with ⟨p, fault, rfl, hstays⟩ | ⟨outcome', rfl, happlied, hpatched, hwritten⟩
    · exact ⟨_, rfl, hidle, .inl ⟨p, fault.message, rfl, hread, hstays⟩⟩
    · refine ⟨_, rfl, hidle, .inr ⟨hnone, happlied, outcome, outcome', rfl, rfl, hpatched, ?_⟩⟩
      rw [hpatched]
      exact hwritten

/-- The operations are prepared alike in both runs. Only then do the runs part. -/
theorem exists_applies_predicts (config : Config) (elements : List Element) (hproper : path.Proper)
    (hread : accessed path (s.read path) = .ok content) :
    let report : DocumentReport :=
      { path, content, elements, ops := opsFor config content elements }
    ∃ dry real t, Applies content report.ops (applicationFor path config false none) s dry s ∧
      Applies content report.ops (applicationFor path config true none) s real t ∧
        Predicts path s (conclude report dry, s) (conclude report real, t) := by
  intro report
  obtain ⟨husable, hcontent⟩ := accessed_eq_ok_iff.mp hread
  by_cases hnil : report.ops = []
  · exact ⟨_, _, _, .idle hnil, .idle hnil,
      predicts_of_success rfl hcontent (fun _ => rfl) (.inr ⟨_, rfl, rfl, rfl, hcontent⟩)⟩
  · cases hprepare : Patch.prepare content report.ops (applicationFor path config false none) with
    | error f =>
      exact ⟨_, _, _, .refused hnil hprepare, .refused hnil hprepare, predicts_of_failure report f⟩
    | ok patched =>
      obtain ⟨result, t, hreplaces⟩ :=
        Patch.exists_replaces content patched (applicationFor path config true none)
        report.ops.length s
      exact ⟨_, _, _, .shown hnil hprepare rfl, .replaced hnil hprepare rfl hreplaces,
        predicts_of_success rfl hcontent (fun h => absurd h hnil)
          (read_of_replaces hproper husable hcontent hreplaces)⟩

/-- The dry run and the real run of a document. -/
theorem exists_reports_predicts (config : Config) (s : Store) (hproper : path.Proper) :
    ∃ dry real t, Reports path config false none s dry s ∧ Reports path config true none s real t ∧
      Predicts path s (dry, s) (real, t) := by
  cases hread : accessed path (s.read path) with
  | error f => exact ⟨_, _, _, .unread hread, .unread hread, predicts_of_failure _ f⟩
  | ok content =>
    cases helements : elementsOf content (toString path) config.tagsInForce with
    | error f =>
      exact ⟨_, _, _, .unpaired hread helements, .unpaired hread helements, predicts_of_failure _ f⟩
    | ok elements =>
      obtain ⟨dry, real, t, hdry, hreal, hpredicts⟩ :=
        exists_applies_predicts config elements hproper hread
      exact ⟨_, _, _, .applied hread helements hdry, .applied hread helements hreal, hpredicts⟩

/-- **The dry run predicts the real run**, for every document and every store. -/
theorem predicts_annotateDocument (text : String) (config : Config) (s : Session) :
    let path := Path.ofString text
    let dry := (annotateDocument path config false).exec s
    let real := (annotateDocument path config true).exec s
    Predicts path s.store (dry.1, dry.2.store) (real.1, real.2.store) := by
  intro path dry real
  obtain ⟨result, result', t, hdry, hreal, hpredicts⟩ :=
    exists_reports_predicts config s.store (Path.proper_ofString text)
  obtain ⟨hresult, hstore⟩ := (ends_of_reports hdry).exec_eq s.journal
  obtain ⟨hresult', hstore'⟩ := (ends_of_reports hreal).exec_eq s.journal
  rw [hresult, hstore, hresult', hstore']
  exact hpredicts

end AccessPatch
