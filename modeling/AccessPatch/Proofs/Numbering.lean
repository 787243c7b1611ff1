import AccessPatch.Proofs.FreeNames
import AccessPatch.Proofs.Identifier
import Mathlib.Order.Bounds.Basic

/-!
# Numbering

`numberRepeats` makes identifiers different from one another (`nodup_numberRepeats`): a number is
looked for until it makes a name that is not taken, and the search ends, since there are fewer
taken names than numbers (`seeks_freeNumber`). Where it ends is the least number that is free
(`Seeks.isLeast`).

Main result: `numberRepeats_spec`. It says of each place what becomes of the identifier there.
Names with a number may look like identifiers that are still to come, and so all identifiers are
taken from the start.
-/

namespace AccessPatch.Identifier

/-! ## Looking for a number -/

theorem numbered_injective (identifier : String) : Function.Injective (numbered identifier) := by
  intro m n h
  have hchars : (numbered identifier m).toList = (numbered identifier n).toList := congrArg _ h
  simp only [numbered, String.toList_append, List.append_assoc, List.append_cancel_left_eq,
    String.toList_inj] at hchars
  exact toString_injective hchars

/-- Numbers are tried from `n` on, one after the other, until one makes a name that is not taken.
That one is `m`. -/
inductive Seeks (taken : List String) (identifier : String) : (n m : Nat) → Prop where
  | free {n : Nat} (unused : numbered identifier n ∉ taken) : Seeks taken identifier n n
  | next {n m : Nat} (used : numbered identifier n ∈ taken)
      (rest : Seeks taken identifier (n + 1) m) :
      Seeks taken identifier n m

section Seeks

variable {taken taken' : List String} {identifier : String} {n m : Nat}

theorem Seeks.isLeast (h : Seeks taken identifier n m) :
    IsLeast {k | n ≤ k ∧ numbered identifier k ∉ taken} m := by
  induction h with
  | free unused => exact ⟨⟨le_rfl, unused⟩, fun k hk => hk.1⟩
  | @next n m used rest ih =>
    obtain ⟨⟨hle, hunused⟩, hleast⟩ := ih
    refine ⟨⟨by omega, hunused⟩, fun k hk => hleast ⟨?_, hk.2⟩⟩
    have hne : k ≠ n := by
      rintro rfl
      exact hk.2 used
    have := hk.1
    omega

theorem seeks_of_isLeast (h : IsLeast {k | n ≤ k ∧ numbered identifier k ∉ taken} m) :
    Seeks taken identifier n m := by
  obtain ⟨⟨hle, hunused⟩, hleast⟩ := h
  induction hgap : m - n generalizing n with
  | zero =>
    obtain rfl : n = m := by omega
    exact .free hunused
  | succ gap ih =>
    have hused : numbered identifier n ∈ taken := by
      by_contra hno
      have := hleast ⟨le_rfl, hno⟩
      omega
    refine .next hused (ih (fun k hk => hleast ⟨?_, hk.2⟩) (by omega) (by omega))
    exact Nat.le_of_succ_le hk.1

/-- What is taken matters, and not in which order. -/
theorem Seeks.congr (hsame : ∀ s, s ∈ taken ↔ s ∈ taken') (h : Seeks taken identifier n m) :
    Seeks taken' identifier n m := by
  induction h with
  | free unused => exact .free fun hmem => unused ((hsame _).mpr hmem)
  | next used rest ih => exact .next ((hsame _).mp used) ih

end Seeks

/-- The search ends, since one of the numbers that are tried is free. -/
theorem seeks_freeNumber (taken : List String) (identifier : String) (n : Nat) :
    Seeks taken identifier n (freeNumber taken identifier n) := by
  have hinjective : Function.Injective fun k => numbered identifier (n + k) := fun _ _ h =>
    Nat.add_left_cancel (numbered_injective identifier h)
  obtain ⟨k, hk, hunused⟩ := exists_free hinjective (Nat.lt_succ_self taken.length)
  obtain ⟨j, hfind⟩ : ∃ j, ((List.range (taken.length + 1)).find? fun k =>
      ! taken.contains (numbered identifier (n + k))) = some j := by
    refine Option.isSome_iff_exists.mp (List.find?_isSome.mpr ⟨k, hk, ?_⟩)
    simpa using hunused
  have hnumber : freeNumber taken identifier n = n + j := by
    rw [freeNumber, List.find?_map, Function.comp_def, hfind]
    rfl
  obtain ⟨hfree, -, hbefore⟩ := List.find?_range_eq_some.mp hfind
  rw [hnumber]
  refine seeks_of_isLeast ⟨⟨by omega, by simpa using hfree⟩, fun i ⟨hle, hi⟩ => ?_⟩
  by_contra hlt
  have hused := hbefore (i - n) (by omega)
  rw [Nat.add_sub_cancel' hle] at hused
  exact hi (by simpa using hused)

theorem numbered_freeNumber (taken : List String) (identifier : String) (n : Nat) :
    numbered identifier (freeNumber taken identifier n) ∉ taken :=
  (seeks_freeNumber taken identifier n).isLeast.1.2

/-! ## Numbering -/

/-- What numbering gives from some point on is different from one another, and from what has been
dealt with before: each name is a first occurrence, or was not taken. -/
theorem numberRepeatsFrom_fresh (seen : List String) {taken identifiers : List String}
    (h : ∀ x ∈ identifiers, x ∈ taken) :
    (numberRepeatsFrom seen taken identifiers).Nodup ∧
      ∀ s ∈ numberRepeatsFrom seen taken identifiers, (s ∈ identifiers ∧ s ∉ seen) ∨ s ∉ taken := by
  induction identifiers generalizing seen taken with
  | nil => simp [numberRepeatsFrom]
  | cons x rest ih =>
    obtain ⟨hx, hrest⟩ := List.forall_mem_cons.mp h
    rw [numberRepeatsFrom]
    split
    · have hfree := numbered_freeNumber taken x (seen.count x + 1)
      obtain ⟨name, hname⟩ : ∃ name, name = numbered x (freeNumber taken x (seen.count x + 1)) :=
        ⟨_, rfl⟩
      rw [← hname] at hfree
      simp only [← hname]
      have hlater : ∀ y ∈ rest, y ∈ name :: taken := fun y hy => List.mem_cons_of_mem _ (hrest y hy)
      obtain ⟨hnodup, horigin⟩ := ih (x :: seen) hlater
      refine ⟨List.nodup_cons.mpr ⟨fun hmem => ?_, hnodup⟩,
        List.forall_mem_cons.mpr ⟨.inr hfree, ?_⟩⟩
      · rcases horigin name hmem with ⟨hin, -⟩ | hout
        · exact hfree (hrest name hin)
        · exact hout List.mem_cons_self
      · intro s hs
        rcases horigin s hs with ⟨hin, hseen⟩ | hout
        · exact .inl ⟨List.mem_cons_of_mem _ hin, fun hs => hseen (List.mem_cons_of_mem _ hs)⟩
        · exact .inr fun hs => hout (List.mem_cons_of_mem _ hs)
    · rename_i hnew
      obtain ⟨hnodup, horigin⟩ := ih (x :: seen) hrest
      refine ⟨List.nodup_cons.mpr ⟨fun hmem => ?_, hnodup⟩,
        List.forall_mem_cons.mpr ⟨.inl ⟨?_, ?_⟩, ?_⟩⟩
      · rcases horigin x hmem with ⟨-, hseen⟩ | hout
        · exact hseen List.mem_cons_self
        · exact hout hx
      · exact List.mem_cons_self
      · simpa using hnew
      · intro s hs
        rcases horigin s hs with ⟨hin, hseen⟩ | hout
        · exact .inl ⟨List.mem_cons_of_mem _ hin, fun hs => hseen (List.mem_cons_of_mem _ hs)⟩
        · exact .inr hout

theorem nodup_numberRepeats (identifiers : List String) : (numberRepeats identifiers).Nodup :=
  (numberRepeatsFrom_fresh [] fun _ hx => hx).1

/-- What becomes of the identifier `x` at its `k`-th occurrence, where `before` has been given
out: the first one stays, and a later one gets the number that is found from `k` on. -/
structure Becomes (taken before : List String) (x : String) (k : Nat)
    (name : Option String) : Prop where
  first : k = 1 → name = some x
  later : 2 ≤ k → ∃ n, Seeks (taken ++ before) x k n ∧ name = some (numbered x n)

/-- What becomes of each identifier. The induction is on the identifiers that are still to come:
`seen` counts the occurrences before them, and `taken` grows by each name with a number. -/
theorem becomes_numberRepeatsFrom (seen : List String) {taken identifiers : List String}
    (h : ∀ x ∈ identifiers, x ∈ taken) {i : Nat} {x : String} (hi : identifiers[i]? = some x) :
    Becomes taken ((numberRepeatsFrom seen taken identifiers).take i) x
      (seen.count x + (identifiers.take (i + 1)).count x)
      (numberRepeatsFrom seen taken identifiers)[i]? := by
  induction identifiers generalizing seen taken i with
  | nil => cases hi
  | cons y rest ih =>
    obtain ⟨hy, hrest⟩ := List.forall_mem_cons.mp h
    have hlater : ∀ name : String, ∀ z ∈ rest, z ∈ name :: taken := fun name z hz =>
      List.mem_cons_of_mem _ (hrest z hz)
    cases i with
    | zero =>
      obtain rfl : y = x := Option.some.inj hi
      have hcount : seen.count y + ((y :: rest).take (0 + 1)).count y = seen.count y + 1 := by simp
      rw [hcount, numberRepeatsFrom]
      split
      · rename_i hseen
        have hpos : 0 < seen.count y := List.count_pos_iff.mpr (List.contains_iff_mem.mp hseen)
        refine ⟨fun hone => by omega, fun _ => ⟨freeNumber taken y (seen.count y + 1), ?_, rfl⟩⟩
        rw [List.take_zero, List.append_nil]
        exact seeks_freeNumber _ _ _
      · rename_i hnew
        have hzero : seen.count y = 0 := List.count_eq_zero.mpr (by simpa using hnew)
        exact ⟨fun _ => rfl, fun htwo => by omega⟩
    | succ i =>
      have hcount : seen.count x + ((y :: rest).take (i + 1 + 1)).count x =
          (y :: seen).count x + (rest.take (i + 1)).count x := by
        rw [List.take_succ_cons, List.count_cons, List.count_cons]
        omega
      have hi : rest[i]? = some x := hi
      rw [hcount, numberRepeatsFrom]
      split
      · obtain ⟨hfirst, hnext⟩ := ih (y :: seen) (hlater _) hi
        refine ⟨hfirst, fun htwo => ?_⟩
        obtain ⟨n, hseeks, hname⟩ := hnext htwo
        refine ⟨n, hseeks.congr fun s => ?_, hname⟩
        simp only [List.take_succ_cons, List.cons_append, List.mem_cons, List.mem_append]
        tauto
      · obtain ⟨hfirst, hnext⟩ := ih (y :: seen) hrest hi
        refine ⟨hfirst, fun htwo => ?_⟩
        obtain ⟨n, hseeks, hname⟩ := hnext htwo
        -- A first occurrence is taken from the start.
        refine ⟨n, hseeks.congr fun s => ?_, hname⟩
        simp only [List.take_succ_cons, List.mem_cons, List.mem_append]
        constructor
        · tauto
        · rintro (hs | rfl | hs)
          · exact .inl hs
          · exact .inl hy
          · exact .inr hs

/-- Where nothing occurs twice, nothing is numbered. -/
theorem numberRepeatsFrom_of_nodup {seen identifiers : List String} (taken : List String)
    (h : identifiers.Nodup) (hseen : ∀ x ∈ identifiers, x ∉ seen) :
    numberRepeatsFrom seen taken identifiers = identifiers := by
  induction identifiers generalizing seen with
  | nil => rfl
  | cons x rest ih =>
    obtain ⟨hx, hrest⟩ := List.nodup_cons.mp h
    obtain ⟨hnew, hlater⟩ := List.forall_mem_cons.mp hseen
    rw [numberRepeatsFrom, if_neg (by simpa using hnew), ih hrest]
    intro y hy hmem
    rcases List.mem_cons.mp hmem with rfl | hmem
    · exact hx hy
    · exact hlater y hy hmem

theorem numberRepeats_of_nodup {identifiers : List String} (h : identifiers.Nodup) :
    numberRepeats identifiers = identifiers :=
  numberRepeatsFrom_of_nodup _ h (by simp)

/-- **Numbering.** There are as many names as identifiers, all different. The first occurrence of
an identifier stays. For the `k`-th one the search from `k` on ends, with the least number that
makes a name which is neither one of the identifiers nor given out before. Identifiers that are
different stay, so numbering twice is numbering once. -/
theorem numberRepeats_spec (identifiers : List String) :
    (numberRepeats identifiers).length = identifiers.length ∧
    (numberRepeats identifiers).Nodup ∧
    (∀ i x, identifiers[i]? = some x → (identifiers.take (i + 1)).count x = 1 →
      (numberRepeats identifiers)[i]? = some x) ∧
    (∀ i x k, identifiers[i]? = some x → (identifiers.take (i + 1)).count x = k → 2 ≤ k →
      ∃ n, Seeks (identifiers ++ (numberRepeats identifiers).take i) x k n ∧
        IsLeast {n | k ≤ n ∧ numbered x n ∉ identifiers ∧
          numbered x n ∉ (numberRepeats identifiers).take i} n ∧
        (numberRepeats identifiers)[i]? = some (numbered x n)) ∧
    (identifiers.Nodup → numberRepeats identifiers = identifiers) ∧
    numberRepeats (numberRepeats identifiers) = numberRepeats identifiers := by
  have hbecomes : ∀ i x, identifiers[i]? = some x →
      Becomes identifiers ((numberRepeats identifiers).take i) x
        ((identifiers.take (i + 1)).count x)
        (numberRepeats identifiers)[i]? := by
    intro i x hi
    have h := becomes_numberRepeatsFrom [] (fun _ hx => hx) hi
    rwa [List.count_nil, Nat.zero_add] at h
  refine ⟨length_numberRepeatsFrom _ _ _, nodup_numberRepeats _,
    fun i x hi hone => (hbecomes i x hi).first hone, ?_, numberRepeats_of_nodup,
    numberRepeats_of_nodup (nodup_numberRepeats _)⟩
  rintro i x k hi rfl htwo
  obtain ⟨n, hseeks, hname⟩ := (hbecomes i x hi).later htwo
  refine ⟨n, hseeks, ?_, hname⟩
  simpa only [List.mem_append, not_or] using hseeks.isLeast

example : numberRepeats ["a", "a", "a_2", "a_2", "a_2_2", "a"] =
    ["a", "a_3", "a_2", "a_2_3", "a_2_2", "a_4"] := by
  decide +kernel

end AccessPatch.Identifier
