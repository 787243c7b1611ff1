import AccessPatch.Proofs.Reporting

/-!
# Batches

`annotateAll` takes the documents of a batch one after the other, each from the store that those
before it have left (`Processes`). It comes to its end with one report for each of them, in their
order (`ends_of_processes`), or it ends in the turn of one document (`ends_of_stop`).
-/

namespace AccessPatch

open Run (Ends)

variable {path : Path} {paths first rest : List Path} {config : Config} {write : Bool}
  {s t u : Store} {r : DocumentReport} {rs before : List DocumentReport} {f : Failure}

/-! ## Turns -/

/-- Documents are taken one after the other, from one store to another, and each gets a report. -/
inductive Processes (config : Config) (write : Bool) :
    List Path → Store → List DocumentReport → Store → Prop
  | nil {s : Store} : Processes config write [] s [] s
  | cons {path : Path} {paths : List Path} {s t u : Store} {r : DocumentReport}
      {rs : List DocumentReport} (turn : Reports path config write none s (.ok r) t)
      (next : Processes config write paths t rs u) :
      Processes config write (path :: paths) s (r :: rs) u

theorem ends_mapM_of_processes (h : Processes config write paths s rs t) :
    Ends (paths.mapM fun path => annotateDocument path config write) s (.ok rs) t := by
  induction h with
  | nil => exact Run.ends_pure _ _
  | cons turn _ ih =>
    rw [List.mapM_cons]
    exact (ends_of_reports turn).bind (ih.bind (Run.ends_pure _ _))

theorem ends_of_processes (h : Processes config write paths s rs t) :
    Ends (annotateAll paths config write) s (.ok ⟨rs⟩) t :=
  (ends_mapM_of_processes h).bind (Run.ends_pure _ _)

/-- A batch that is stopped ends in the turn of the document that stops it. -/
theorem ends_of_stop (h : Processes config write first s before t)
    (hstop : Reports path config write none t (.error f) u) (rest : List Path) :
    Ends (annotateAll (first ++ path :: rest) config write) s (.error f) u := by
  have hmap :
      Ends ((first ++ path :: rest).mapM fun path => annotateDocument path config write) s
        (.error f) u := by
    induction h with
    | nil =>
      rw [List.nil_append, List.mapM_cons]
      exact (ends_of_reports hstop).bind_error
    | cons turn _ ih =>
      rw [List.cons_append, List.mapM_cons]
      exact (ends_of_reports turn).bind (ih hstop).bind_error
  exact hmap.bind_error

/-- A batch comes to its end, or one of its documents stops it. -/
theorem processes_or_stops (paths : List Path) (config : Config) (write : Bool) (s : Store) :
    (∃ rs t, Processes config write paths s rs t) ∨
      ∃ first path rest before t f u, paths = first ++ path :: rest ∧
        Processes config write first s before t ∧
        Reports path config write none t (.error f) u := by
  induction paths generalizing s with
  | nil => exact .inl ⟨_, _, .nil⟩
  | cons path paths ih =>
    obtain ⟨result, t, hturn⟩ := exists_reports path config write none s
    cases result with
    | error f => exact .inr ⟨[], path, paths, [], s, f, t, rfl, .nil, hturn⟩
    | ok r =>
      rcases ih t with ⟨rs, u, hrest⟩ | ⟨first, path', rest, before, t', f, u, rfl, hbefore, hstop⟩
      · exact .inl ⟨_, _, .cons hturn hrest⟩
      · exact .inr ⟨path :: first, path', rest, _, t', f, u, rfl, .cons hturn hbefore, hstop⟩

theorem Processes.paths_eq (h : Processes config write paths s rs t) : rs.map (·.path) = paths := by
  induction h with
  | nil => rfl
  | cons turn _ ih => rw [List.map_cons, turn.path_eq, ih]

/-- In a batch that comes to its end each document has its turn, from the store that those before
it leave. -/
theorem Processes.turn (h : Processes config write (first ++ path :: rest) s rs u) :
    ∃ before t r t', Processes config write first s before t ∧
      Reports path config write none t (.ok r) t' ∧
      rs[first.length]? = some r := by
  induction first generalizing s rs with
  | nil =>
    cases h with
    | cons turn next => exact ⟨[], s, _, _, .nil, turn, rfl⟩
  | cons q first ih =>
    cases h with
    | cons turn next =>
      obtain ⟨before, t, r, t', hbefore, hturn, hget⟩ := ih next
      exact ⟨_, t, r, t', .cons turn hbefore, hturn, hget⟩

end AccessPatch
