/-!
# Runs that succeed

The readers of the library answer with `Except`. The lemmas here take a run that succeeds apart: a
sequence into its parts (`bind_eq_ok_iff`), and a fold into its steps (`foldlM_cons_eq_ok_iff`,
`foldlM_append_eq_ok_iff`). What each step keeps, the whole fold keeps (`foldlM_keeps`), and where
another machine can follow each step, it can follow the whole fold (`foldlM_simulates`). A fold
that fails does so in one of its steps (`exists_step_of_foldlM_error`). A list whose items are
mapped succeeds if each of them does (`exists_mapM_iff`), and the results are theirs
(`mem_iff_of_mapM`).
-/

namespace AccessPatch

variable {α β ε σ τ : Type}

theorem bind_eq_ok_iff {x : Except ε α} {k : α → Except ε β} {b : β} :
    x >>= k = .ok b ↔ ∃ a, x = .ok a ∧ k a = .ok b := by
  constructor
  · intro h
    cases x with
    | error e => cases h
    | ok a => exact ⟨a, rfl, h⟩
  · rintro ⟨a, rfl, h⟩
    exact h

theorem map_eq_ok_iff {x : Except ε α} {k : α → β} {b : β} :
    x.map k = .ok b ↔ ∃ a, x = .ok a ∧ k a = b := by
  cases x with
  | error e => simp [Except.map]
  | ok a => simp [Except.map]

theorem mapError_eq_ok_iff {x : Except ε α} {k : ε → σ} {a : α} :
    x.mapError k = .ok a ↔ x = .ok a := by
  cases x with
  | error e =>
    constructor
    · rintro ⟨⟩
    · rintro ⟨⟩
  | ok b =>
    constructor
    · rintro ⟨⟩
      rfl
    · rintro ⟨⟩
      rfl

theorem mapError_eq_error_iff {x : Except ε α} {k : ε → σ} {e : σ} :
    x.mapError k = .error e ↔ ∃ e', x = .error e' ∧ k e' = e := by
  cases x with
  | error e' =>
    constructor
    · rintro ⟨⟩
      exact ⟨e', rfl, rfl⟩
    · rintro ⟨_, ⟨⟩, rfl⟩
      rfl
  | ok a =>
    constructor
    · rintro ⟨⟩
    · rintro ⟨_, ⟨⟩, _⟩

section Fold

variable {step : σ → α → Except ε σ} {s s' : σ}

theorem foldlM_cons_eq_ok_iff {a : α} {l : List α} :
    (a :: l).foldlM step s = .ok s' ↔ ∃ t, step s a = .ok t ∧ l.foldlM step t = .ok s' := by
  rw [List.foldlM_cons, bind_eq_ok_iff]

theorem foldlM_append_eq_ok_iff {l m : List α} :
    (l ++ m).foldlM step s = .ok s' ↔ ∃ t, l.foldlM step s = .ok t ∧ m.foldlM step t = .ok s' := by
  rw [List.foldlM_append, bind_eq_ok_iff]

theorem foldlM_keeps {P : σ → Prop} (hstep : ∀ s a s', step s a = .ok s' → P s → P s')
    {l : List α} (h : l.foldlM step s = .ok s') (hs : P s) : P s' := by
  induction l generalizing s with
  | nil =>
    cases h
    exact hs
  | cons a l ih =>
    obtain ⟨t, hstart, hrest⟩ := foldlM_cons_eq_ok_iff.mp h
    exact ih hrest (hstep s a t hstart hs)

/-- A fold that fails fails in a step. -/
theorem exists_step_of_foldlM_error {l : List α} {e : ε} (h : l.foldlM step s = .error e) :
    ∃ t a, step t a = .error e := by
  induction l generalizing s with
  | nil => cases h
  | cons a l ih =>
    rw [List.foldlM_cons] at h
    cases hfirst : step s a with
    | error e' =>
      rw [hfirst] at h
      cases h
      exact ⟨s, a, hfirst⟩
    | ok t =>
      rw [hfirst] at h
      exact ih h

/-- If each step can be followed from a related state, the fold can be followed. -/
theorem foldlM_simulates {f : τ → β → Except ε τ} {R : σ → τ → Prop} {k : α → β}
    (hstep : ∀ s t a s', R s t → step s a = .ok s' → ∃ t', f t (k a) = .ok t' ∧ R s' t')
    {l : List α} {t : τ} (h : l.foldlM step s = .ok s') (hR : R s t) :
    ∃ t', (l.map k).foldlM f t = .ok t' ∧ R s' t' := by
  induction l generalizing s t with
  | nil =>
    cases h
    exact ⟨t, rfl, hR⟩
  | cons a l ih =>
    obtain ⟨s₁, hfirst, hrest⟩ := foldlM_cons_eq_ok_iff.mp h
    obtain ⟨t₁, hfirst', hR₁⟩ := hstep s t a s₁ hR hfirst
    obtain ⟨t', hrest', hR'⟩ := ih hrest hR₁
    exact ⟨t', foldlM_cons_eq_ok_iff.mpr ⟨t₁, hfirst', hrest'⟩, hR'⟩

/-- If states and items can be sent to others so that each step goes along, the fold goes along. -/
theorem foldlM_map_eq_ok {step' : τ → β → Except ε τ} {g : σ → τ} {k : α → β}
    (hstep : ∀ s a s', step s a = .ok s' → step' (g s) (k a) = .ok (g s')) {l : List α}
    (h : l.foldlM step s = .ok s') : (l.map k).foldlM step' (g s) = .ok (g s') := by
  obtain ⟨_, hfold, rfl⟩ := foldlM_simulates (R := fun s t => t = g s) (k := k)
    (by rintro s _ a s' rfl hs; exact ⟨_, hstep s a s' hs, rfl⟩) h rfl
  exact hfold

end Fold

section Map

variable {f : α → Except ε β} {xs : List α} {ys : List β}

theorem mapM_cons_eq_ok_iff {x : α} :
    (x :: xs).mapM f = .ok ys ↔ ∃ z zs, f x = .ok z ∧ xs.mapM f = .ok zs ∧ ys = z :: zs := by
  constructor
  · intro h
    rw [List.mapM_cons] at h
    obtain ⟨z, hz, h⟩ := bind_eq_ok_iff.mp h
    obtain ⟨zs, hzs, h⟩ := bind_eq_ok_iff.mp h
    cases h
    exact ⟨z, zs, hz, hzs, rfl⟩
  · rintro ⟨z, zs, hz, hzs, rfl⟩
    rw [List.mapM_cons, hz, hzs]
    rfl

theorem mem_iff_of_mapM (h : xs.mapM f = .ok ys) (y : β) : y ∈ ys ↔ ∃ x ∈ xs, f x = .ok y := by
  induction xs generalizing ys with
  | nil =>
    cases h
    simp
  | cons x xs ih =>
    obtain ⟨z, zs, hz, hzs, rfl⟩ := mapM_cons_eq_ok_iff.mp h
    simp [ih hzs, hz, eq_comm]

theorem exists_mapM_iff : (∃ ys, xs.mapM f = .ok ys) ↔ ∀ x ∈ xs, ∃ y, f x = .ok y := by
  induction xs with
  | nil => simp [pure, Except.pure]
  | cons x xs ih =>
    rw [List.forall_mem_cons, ← ih]
    constructor
    · rintro ⟨ys, hys⟩
      obtain ⟨z, zs, hz, hzs, -⟩ := mapM_cons_eq_ok_iff.mp hys
      exact ⟨⟨z, hz⟩, zs, hzs⟩
    · rintro ⟨⟨z, hz⟩, zs, hzs⟩
      exact ⟨z :: zs, mapM_cons_eq_ok_iff.mpr ⟨z, zs, hz, hzs, rfl⟩⟩

theorem error_of_mapM {e : ε} (h : xs.mapM f = .error e) : ∃ x ∈ xs, f x = .error e := by
  induction xs with
  | nil => cases h
  | cons x xs ih =>
    rw [List.mapM_cons] at h
    cases hx : f x with
    | error e' =>
      rw [hx] at h
      cases h
      exact ⟨x, .head _, hx⟩
    | ok z =>
      rw [hx] at h
      cases hxs : xs.mapM f with
      | error e' =>
        rw [hxs] at h
        cases h
        obtain ⟨x', hx', hfx'⟩ := ih hxs
        exact ⟨x', .tail _ hx', hfx'⟩
      | ok zs =>
        rw [hxs] at h
        cases h

theorem filterM_eq_ok {p : α → Except ε Bool} {q : α → Bool} (h : ∀ x ∈ xs, p x = .ok (q x)) :
    xs.filterM p = .ok (xs.filter q) := by
  have haux : ∀ acc, xs.filterAuxM p acc = .ok ((xs.filter q).reverse ++ acc) := by
    induction xs with
    | nil => exact fun acc => rfl
    | cons x xs ih =>
      intro acc
      obtain ⟨hx, hxs⟩ := List.forall_mem_cons.mp h
      rw [List.filterAuxM, hx]
      show xs.filterAuxM p (bif q x then x :: acc else acc) = _
      rw [ih hxs]
      cases hq : q x <;> simp [hq]
  rw [List.filterM, haux]
  simp [bind, Except.bind, pure, Except.pure]

end Map

end AccessPatch
