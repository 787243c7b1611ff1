import AccessPatch.Document
import AccessPatch.Patch.Apply
import AccessPatch.Proofs.Outcome

/-!
# Runs

Finding elements, planning, and a dry run of a plan note what they do and change nothing else.
They `Returns` their values, so they can be followed without the session they run in. Whatever
else a plan is carried out for, what is returned is the document with its operations
(`splice_of_apply`).
-/

namespace AccessPatch

namespace Run

variable {α β ε : Type} {s s' : Session}

theorem exec_bind_of_ok {action : Run α} {k : α → Run β} {a : α} (h : action.exec s = (.ok a, s')) :
    (action >>= k).exec s = (k a).exec s' := by
  have hrun : StateT.run action.run s = (.ok a, s') := h
  simp only [exec, ExceptT.run_bind, StateT.run_bind, hrun]
  rfl

/-- A sequence that ends with a value is one run after the other. -/
theorem exec_bind_eq_ok_iff {action : Run α} {k : α → Run β} {b : β} :
    (action >>= k).exec s = (.ok b, s') ↔
      ∃ a t, action.exec s = (.ok a, t) ∧ (k a).exec t = (.ok b, s') := by
  constructor
  · intro h
    cases hrun : action.exec s with
    | mk result t =>
      cases result with
      | ok a =>
        rw [exec_bind_of_ok hrun] at h
        exact ⟨a, t, rfl, h⟩
      | error e =>
        have hrun : StateT.run action.run s = (.error e, t) := hrun
        simp only [exec, ExceptT.run_bind, StateT.run_bind, hrun] at h
        cases h
  · rintro ⟨a, t, haction, hrest⟩
    exact (exec_bind_of_ok haction).trans hrest

theorem exec_ofExcept_eq_ok {f : ε → Failure} {x : Except ε α} {a : α}
    (h : (ofExcept f x).exec s = (.ok a, s')) : x = .ok a := by
  cases x with
  | error e => cases h
  | ok a' =>
    cases h
    rfl

/-- In any session the action ends with the value and leaves the files as they are. -/
def Returns (action : Run α) (a : α) : Prop :=
  ∀ s : Session, ∃ s', action.exec s = (.ok a, s') ∧ s'.store = s.store

theorem returns_pure (a : α) : Returns (pure a) a :=
  fun s => ⟨s, rfl, rfl⟩

theorem Returns.bind {action : Run α} {k : α → Run β} {a : α} {b : β} (h : Returns action a)
    (hk : Returns (k a) b) : Returns (action >>= k) b := by
  intro s
  obtain ⟨s₁, haction, hstore⟩ := h s
  obtain ⟨s₂, hrest, hstore'⟩ := hk s₁
  exact ⟨s₂, (exec_bind_of_ok haction).trans hrest, hstore'.trans hstore⟩

theorem returns_note (n : Note) : Returns (note n) () :=
  fun s => ⟨{ s with journal := s.journal ++ [.note n] }, rfl, rfl⟩

theorem returns_ofExcept {f : ε → Failure} {x : Except ε α} {a : α} (h : x = .ok a) :
    Returns (ofExcept f x) a := by
  subst h
  exact returns_pure a

end Run

open Run (Returns exec_bind_eq_ok_iff exec_ofExcept_eq_ok returns_note returns_ofExcept
  returns_pure)

/-- The elements of a document are found. -/
theorem returns_findElements {buffer : Bytes} {identity : String} {tags : List String}
    {elements : List Element} (h : elementsOf buffer identity tags = .ok elements) :
    Returns (findElements buffer identity tags) elements := by
  obtain ⟨ranges, hranges, htracked⟩ := bind_eq_ok_iff.mp h
  exact (returns_ofExcept hranges).bind ((returns_note _).bind
    ((returns_ofExcept (mapError_eq_ok_iff.mp htracked)).bind
      ((returns_note _).bind (returns_pure _))))

theorem returns_planAnnotations (buffer : Bytes) (elements : List Element) (naming : Patch.Naming) :
    Returns (planAnnotations buffer elements naming)
      (Patch.planDetected buffer elements naming) := by
  have hplanned : ∀ m n, Returns (do
      Run.note (.planned m n)
      return Patch.planDetected buffer elements naming)
        (Patch.planDetected buffer elements naming) :=
    fun m n => (returns_note _).bind (returns_pure _)
  unfold planAnnotations
  split
  · exact (returns_note _).bind (hplanned _ _)
  · exact (returns_pure _).bind (hplanned _ _)

namespace Patch

theorem splice_nil (buffer : Bytes) : splice buffer [] = .ok buffer := by
  have hnone : inOrder [] = [] := List.mergeSort_nil
  rw [splice, hnone]
  rfl

theorem prepare_eq_ok_iff {buffer patched : Bytes} {ops : List Op} {o : Application} :
    prepare buffer ops o = .ok patched ↔
      splice buffer ops = .ok patched ∧
      (o.verify = true → verifyResult patched o.identity = .ok ()) := by
  rw [prepare, bind_eq_ok_iff]
  simp only [mapError_eq_ok_iff]
  cases hverify : o.verify with
  | false =>
    simp only [Bool.false_eq_true, false_implies, and_true]
    constructor
    · rintro ⟨bytes, hsplice, hreturn⟩
      cases hreturn
      exact hsplice
    · intro hsplice
      exact ⟨patched, hsplice, rfl⟩
  | true =>
    simp only [true_implies, if_true, bind_eq_ok_iff]
    constructor
    · rintro ⟨bytes, hsplice, _, hcheck, hreturn⟩
      cases hreturn
      exact ⟨hsplice, hcheck⟩
    · rintro ⟨hsplice, hcheck⟩
      exact ⟨patched, hsplice, (), hcheck, rfl⟩

/-- A dry run returns the document as it is prepared. -/
theorem returns_apply {buffer patched : Bytes} {ops : List Op} {o : Application}
    (hdry : o.dryRun = true) (h : prepare buffer ops o = .ok patched) :
    ∃ outcome, Returns (apply buffer ops o) outcome ∧ outcome.patched = patched ∧
      outcome.applied = ops.length := by
  unfold apply
  cases ops with
  | nil =>
    obtain ⟨hsplice, -⟩ := prepare_eq_ok_iff.mp h
    obtain rfl := Except.ok.inj ((splice_nil buffer).symm.trans hsplice)
    exact ⟨_, (returns_note _).bind (returns_pure _), rfl, rfl⟩
  | cons op ops =>
    refine ⟨{ applied := (op :: ops).length, patched }, (returns_ofExcept h).bind ?_, rfl, rfl⟩
    rw [hdry]
    exact returns_pure _

/-- What is returned is the document with the operations carried out. -/
theorem splice_of_apply {buffer : Bytes} {ops : List Op} {o : Application} {outcome : Outcome}
    {s s' : Session} (h : (apply buffer ops o).exec s = (.ok outcome, s')) :
    splice buffer ops = .ok outcome.patched := by
  unfold apply at h
  cases ops with
  | nil =>
    obtain ⟨_, t, -, hreturn⟩ := exec_bind_eq_ok_iff.mp h
    cases hreturn
    exact splice_nil buffer
  | cons op ops =>
    obtain ⟨patched, t, hprepare, hrest⟩ := exec_bind_eq_ok_iff.mp h
    obtain ⟨hsplice, -⟩ := prepare_eq_ok_iff.mp (exec_ofExcept_eq_ok hprepare)
    have hpatched : outcome.patched = patched := by
      split at hrest
      · cases hrest
        rfl
      · obtain ⟨target, t₁, -, hrest⟩ := exec_bind_eq_ok_iff.mp hrest
        obtain ⟨saved, t₂, -, hrest⟩ := exec_bind_eq_ok_iff.mp hrest
        obtain ⟨_, t₃, -, hrest⟩ := exec_bind_eq_ok_iff.mp hrest
        obtain ⟨_, t₄, -, hreturn⟩ := exec_bind_eq_ok_iff.mp hrest
        cases hreturn
        rfl
    rw [hpatched, hsplice]

end Patch

end AccessPatch
