import AccessPatch.Proofs.Ending
import AccessPatch.Proofs.Store.Frame

/-!
# What actions leave as it is

An action is `Idle` if it changes no file, and `Confined` from a store if it changes files at some
places only, whatever it ends with. Both go from the parts of an action to the whole: a sequence
is confined if its first part is, and if the rest is from each store and each value that the first
part may leave (`Confined.bind`).
-/

namespace AccessPatch.Run

open Store (Keeps)

variable {α β γ : Type} {action : Run α} {k : α → Run β} {s t u : Store} {touched : Location → Prop}

/-! ## Idle actions -/

/-- The action changes no file. -/
def Idle (action : Run α) : Prop :=
  ∀ s, ∃ result, Ends action s result s

theorem idle_pure (a : α) : Idle (pure a) :=
  fun s => ⟨_, ends_pure a s⟩

theorem idle_throw (f : Failure) : Idle (throw f : Run α) :=
  fun s => ⟨_, ends_throw f s⟩

theorem idle_remark (r : Remark) : Idle (remark r) :=
  fun s => ⟨_, ends_remark r s⟩

theorem idle_ofExcept {ε : Type} (g : ε → Failure) (x : Except ε α) : Idle (ofExcept g x) :=
  fun s => ⟨_, ends_ofExcept g x s⟩

theorem Idle.bind (h : Idle action) (hk : ∀ a, Idle (k a)) : Idle (action >>= k) := by
  intro s
  obtain ⟨result, hfirst⟩ := h s
  cases result with
  | error f => exact ⟨_, hfirst.bind_error⟩
  | ok a =>
    obtain ⟨result, hrest⟩ := hk a s
    exact ⟨_, hfirst.bind hrest⟩

theorem Idle.tryCatch {handler : Failure → Run α} (h : Idle action)
    (hhandler : ∀ f, Idle (handler f)) :
    Idle (tryCatch action handler) := by
  intro s
  obtain ⟨result, hfirst⟩ := h s
  cases result with
  | ok a => exact ⟨_, hfirst.tryCatch_ok handler⟩
  | error f =>
    obtain ⟨result, hrest⟩ := hhandler f s
    exact ⟨_, hfirst.tryCatch_error hrest⟩

theorem Idle.map (h : Idle action) (g : α → β) : Idle (g <$> action) := by
  rw [map_eq_pure_bind]
  exact h.bind fun a => idle_pure (g a)

theorem Idle.catchDocument (h : Idle action) : Idle (catchDocument action) := by
  intro s
  obtain ⟨result, hends⟩ := h s
  exact ⟨_, hends.catchDocument⟩

/-- An action that reads the store first. -/
theorem idle_get (act : Store → Run α) (h : ∀ s, Idle (act s)) :
    Idle (get >>= fun session => act session.store) := by
  intro s
  obtain ⟨result, hends⟩ := h s s
  exact ⟨result, ends_get act hends⟩

theorem idle_mapM {f : β → Run γ} (h : ∀ x, Idle (f x)) (xs : List β) : Idle (xs.mapM f) := by
  induction xs with
  | nil => exact idle_pure []
  | cons x xs ih =>
    rw [List.mapM_cons]
    exact (h x).bind fun y => ih.bind fun ys => idle_pure (y :: ys)

theorem idle_forM {f : β → Run PUnit} (h : ∀ x, Idle (f x)) (xs : List β) : Idle (xs.forM f) := by
  induction xs with
  | nil => exact idle_pure _
  | cons x xs ih => exact (h x).bind fun _ => ih

theorem idle_checkUsable (path : Path) : Idle (checkUsable path) := by
  unfold checkUsable
  split
  · exact idle_throw _
  · exact idle_pure ()

theorem idle_contentOf (path : Path) : Idle (contentOf path) :=
  fun s => ⟨_, ends_contentOf path s⟩

/-! ## Confined actions -/

/-- From the store, the action changes files at some places only, whatever it ends with. -/
def Confined (touched : Location → Prop) (action : Run α) (s : Store) : Prop :=
  ∃ result t, Ends action s result t ∧ s.Keeps touched t

theorem Idle.confined (h : Idle action) (s : Store) : Confined touched action s := by
  obtain ⟨result, hends⟩ := h s
  exact ⟨result, s, hends, .refl touched s⟩

theorem Confined.bind (h : Confined touched action s)
    (hk : ∀ a t, Ends action s (.ok a) t → s.Keeps touched t → Confined touched (k a) t) :
    Confined touched (action >>= k) s := by
  obtain ⟨result, t, hfirst, hkeeps⟩ := h
  cases result with
  | error f => exact ⟨_, t, hfirst.bind_error, hkeeps⟩
  | ok a =>
    obtain ⟨result, u, hrest, hkeeps'⟩ := hk a t hfirst hkeeps
    exact ⟨result, u, hfirst.bind hrest, hkeeps.trans hkeeps'⟩

theorem Confined.discard (h : Confined touched action s) : Confined touched (discard action) s := by
  change Confined touched ((fun _ => PUnit.unit) <$> action) s
  rw [map_eq_pure_bind]
  exact h.bind fun _ t _ _ => (idle_pure PUnit.unit).confined t

/-- Before the rest of an action nothing changes. -/
theorem Idle.bind_confined (h : Idle action)
    (hk : ∀ a, Ends action s (.ok a) s → Confined touched (k a) s) :
    Confined touched (action >>= k) s := by
  obtain ⟨result, hfirst⟩ := h s
  cases result with
  | error f => exact ⟨_, s, hfirst.bind_error, .refl touched s⟩
  | ok a =>
    obtain ⟨result, u, hrest, hkeeps⟩ := hk a hfirst
    exact ⟨result, u, hfirst.bind hrest, hkeeps⟩

theorem confined_mapM {f : β → Run γ} {xs : List β}
    (h : ∀ x ∈ xs, ∀ t, s.Keeps touched t → Confined touched (f x) t) :
    Confined touched (xs.mapM f) s := by
  induction xs generalizing s with
  | nil => exact (idle_pure []).confined s
  | cons x xs ih =>
    obtain ⟨hx, hxs⟩ := List.forall_mem_cons.mp h
    rw [List.mapM_cons]
    refine (hx s (.refl touched s)).bind fun y t _ hkeeps => ?_
    refine (ih fun x' hx' u hkeeps' => hxs x' hx' u (hkeeps.trans hkeeps')).bind fun ys u _ _ => ?_
    exact (idle_pure (y :: ys)).confined u

/-- A file is written where its path leads. -/
theorem confined_writeFile {path : Path} (h : ∀ place, s.locate path = .ok place → touched place)
    (content : Bytes) :
    Confined touched (writeFile path content) s := by
  cases htarget : accessed path (s.target path) with
  | error f => exact ⟨_, s, ends_writeFile_error htarget, .refl touched s⟩
  | ok place =>
    have hplace := (accessed_eq_ok_iff.mp htarget).2
    refine ⟨_, _, ends_writeFile htarget,
      Store.keeps_put (Store.entry?_of_target hplace) (h place ?_)⟩
    exact Store.locate_of_target hplace

end AccessPatch.Run
