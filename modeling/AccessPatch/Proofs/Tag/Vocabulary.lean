import AccessPatch.Proofs.Tag.Paired
import AccessPatch.Proofs.Xml.Trail

/-!
# One document, several vocabularies

The open elements do not depend on the tags that are tracked. So stretches that nest can be paired
whatever is tracked (`exists_paired_of_nests`), in one way only (`Paired.unique`); to track fewer
tags is to leave elements out (`Paired.restrict`); and there are as many tracked elements as start
tags of them (`length_endedWith`).
-/

namespace AccessPatch.Pairing

open Xml

variable {index : LineTable} {tags wide : List String} {stack : List Unclosed} {pos : Nat}
  {ps : List (Stretch × Option Element)} {sts : List Stretch}

/-! ## Any vocabulary -/

/-- The open elements have begun, and their start tags are over. -/
def Below (pos : Nat) (stack : List Unclosed) : Prop :=
  ∀ u ∈ stack, u.start ≤ u.openEnd ∧ u.openEnd ≤ pos

theorem Below.mono {pos' : Nat} (h : Below pos stack) (hle : pos ≤ pos') : Below pos' stack := by
  intro u hu
  have := h u hu
  omega

theorem below_marked (st : Stretch) (h : Below pos stack) : Below pos (marked st stack) := by
  unfold marked
  split
  · cases stack with
    | nil => exact h
    | cons u stack => exact List.forall_mem_cons.mpr (List.forall_mem_cons.mp h)
  · exact h

theorem below_begun [Code] (st : Stretch) (h : Below pos stack) :
    Below (pos + st.size) (begun st pos :: stack) := by
  refine List.forall_mem_cons.mpr ⟨?_, h.mono (by omega)⟩
  have hstop := stop_eq st pos
  simp only [begun]
  omega

theorem tags_marked (st : Stretch) (stack : List Unclosed) :
    (marked st stack).map Unclosed.tag = stack.map Unclosed.tag := by
  unfold marked
  split
  · cases stack <;> rfl
  · rfl

theorem exists_yields (index : LineTable) (tags : List String) {u : Unclosed}
    {closeStart stop : Int} (hopen : u.start ≤ u.openEnd) (hinside : u.openEnd ≤ closeStart)
    (hclose : closeStart ≤ stop) :
    ∃ o, Yields index tags u closeStart stop o := by
  cases htracked : tags.contains u.tag with
  | true =>
    obtain ⟨e, he⟩ : ∃ e, IsClosed index u closeStart stop e := exists_isClosed hopen hinside hclose
    exact ⟨some e, .tracked htracked he⟩
  | false => exact ⟨none, .untracked htracked⟩

/-- Stretches that nest can be paired. -/
theorem exists_paired_of_nests [Code] (index : LineTable) (tags : List String)
    (hnests : Nests (stack.map Unclosed.tag) sts) (hbelow : Below pos stack) :
    ∃ ps, ps.map Prod.fst = sts ∧ Paired index tags stack pos ps := by
  induction sts generalizing stack pos with
  | nil => exact hnests.elim
  | cons st sts ih =>
    obtain ⟨names, hafter, hrest⟩ := hnests
    have hsize := TagRange.size_eq st
    -- What is paired after the first stretch, which leaves `stack'` open.
    have hnext : ∀ stack' : List Unclosed, stack'.map Unclosed.tag = names →
        Below (pos + st.size) stack' →
        ∃ ps, ps.map Prod.fst = sts ∧ Paired index tags stack' (pos + st.size) ps := by
      intro stack' hnames hbelow'
      by_cases hend : names = []
      · rw [if_pos hend] at hrest
        exact ⟨[], hrest.symm, .nil⟩
      · rw [if_neg hend, ← hnames] at hrest
        exact ih hrest hbelow'
    cases hform : st.form with
    | opening =>
      simp only [Stretch.stackAfter?, hform, Option.some.injEq] at hafter
      obtain ⟨ps, rfl, hps⟩ := hnext (begun st pos :: marked st stack)
        (by rw [List.map_cons, tags_marked]; exact hafter) (below_begun st (below_marked st hbelow))
      exact ⟨(st, none) :: ps, rfl, .opening hform hps⟩
    | empty =>
      simp only [Stretch.stackAfter?, hform, Option.some.injEq] at hafter
      obtain ⟨ps, rfl, hps⟩ := hnext (marked st stack) (by rw [tags_marked]; exact hafter)
        ((below_marked st hbelow).mono (by omega))
      obtain ⟨hbegun, -⟩ := List.forall_mem_cons.mp (below_begun st hbelow)
      obtain ⟨o, ho⟩ := exists_yields index tags hbegun.1 hbegun.2 le_rfl
      exact ⟨(st, o) :: ps, rfl, .empty hform ho hps⟩
    | closing =>
      cases stack with
      | nil =>
        simp only [Stretch.stackAfter?, hform, List.map_nil] at hafter
        cases hafter
      | cons u stack =>
        simp only [Stretch.stackAfter?, hform, List.map_cons] at hafter
        split at hafter
        · cases hafter
          obtain ⟨hopen, hbelow'⟩ := List.forall_mem_cons.mp hbelow
          obtain ⟨ps, rfl, hps⟩ := hnext stack rfl (Below.mono hbelow' (by omega))
          obtain ⟨o, ho⟩ : ∃ o, Yields index tags u (pos + (inCode st.gap).length : Nat)
              (pos + st.size : Nat) o :=
            exists_yields index tags hopen.1 (by omega) (by omega)
          exact ⟨(st, o) :: ps, rfl, .closing hform ho hps⟩
        · cases hafter

/-! ## Only one pairing -/

theorem IsClosed.unique {u : Unclosed} {closeStart stop : Int} {e e' : Element}
    (h : IsClosed index u closeStart stop e) (h' : IsClosed index u closeStart stop e') :
    e = e' := by
  let range : TagRange := { kind := .closing, name := u.tag, start := closeStart, stop }
  have hclose : close index u range = .ok e := close_eq_ok_iff.mpr h
  have hclose' : close index u range = .ok e' := close_eq_ok_iff.mpr h'
  exact Except.ok.inj (hclose.symm.trans hclose')

theorem Yields.unique {u : Unclosed} {closeStart stop : Int} {o o' : Option Element}
    (h : Yields index tags u closeStart stop o) (h' : Yields index tags u closeStart stop o') :
    o = o' := by
  cases h with
  | untracked untracked =>
    cases h' with
    | untracked _ => rfl
    | tracked tracked _ => cases untracked.symm.trans tracked
  | tracked tracked closed =>
    cases h' with
    | untracked untracked => cases untracked.symm.trans tracked
    | tracked _ closed' => rw [closed.unique closed']

/-- The stretches and the vocabulary determine the elements. -/
theorem Paired.unique [Code] {qs : List (Stretch × Option Element)}
    (h : Paired index tags stack pos ps) (h' : Paired index tags stack pos qs)
    (hsame : ps.map Prod.fst = qs.map Prod.fst) : ps = qs := by
  induction h generalizing qs with
  | nil => exact (List.map_eq_nil_iff.mp hsame.symm).symm
  | opening form rest ih =>
    cases h' with
    | nil => cases hsame
    | opening form' rest' =>
      obtain ⟨rfl, hrest⟩ := List.cons.inj hsame
      rw [ih rest' hrest]
    | empty form' yields' rest' =>
      obtain ⟨rfl, -⟩ := List.cons.inj hsame
      cases form.symm.trans form'
    | closing form' yields' rest' =>
      obtain ⟨rfl, -⟩ := List.cons.inj hsame
      cases form.symm.trans form'
  | empty form yields rest ih =>
    cases h' with
    | nil => cases hsame
    | opening form' rest' =>
      obtain ⟨rfl, -⟩ := List.cons.inj hsame
      cases form.symm.trans form'
    | empty form' yields' rest' =>
      obtain ⟨rfl, hrest⟩ := List.cons.inj hsame
      rw [ih rest' hrest, yields.unique yields']
    | closing form' yields' rest' =>
      obtain ⟨rfl, -⟩ := List.cons.inj hsame
      cases form.symm.trans form'
  | closing form yields rest ih =>
    cases h' with
    | nil => cases hsame
    | opening form' rest' =>
      obtain ⟨rfl, -⟩ := List.cons.inj hsame
      cases form.symm.trans form'
    | empty form' yields' rest' =>
      obtain ⟨rfl, -⟩ := List.cons.inj hsame
      cases form.symm.trans form'
    | closing form' yields' rest' =>
      obtain ⟨rfl, hrest⟩ := List.cons.inj hsame
      rw [ih rest' hrest, yields.unique yields']

/-! ## Fewer tags -/

/-- The same stretches, where fewer tags are tracked. -/
def restrict (tags : List String) (ps : List (Stretch × Option Element)) :
    List (Stretch × Option Element) :=
  ps.map fun p => (p.1, p.2.filter fun e => tags.contains e.tag)

theorem restrict_cons (st : Stretch) (o : Option Element) (ps : List (Stretch × Option Element)) :
    restrict tags ((st, o) :: ps) =
      (st, o.filter fun e => tags.contains e.tag) :: restrict tags ps :=
  rfl

theorem map_fst_restrict (tags : List String) (ps : List (Stretch × Option Element)) :
    (restrict tags ps).map Prod.fst = ps.map Prod.fst := by
  rw [restrict, List.map_map]
  rfl

theorem spelled_restrict {alphabet : Alphabet} (h : ∀ p ∈ ps, p.1.Spelled alphabet) :
    ∀ p ∈ restrict tags ps, p.1.Spelled alphabet := by
  intro p hp
  obtain ⟨q, hq, rfl⟩ := List.mem_map.mp hp
  exact h q hq

theorem endedWith_restrict (tags : List String) (ps : List (Stretch × Option Element)) :
    endedWith (restrict tags ps) = (endedWith ps).filter fun e => tags.contains e.tag := by
  induction ps with
  | nil => rfl
  | cons p ps ih =>
    obtain ⟨st, o⟩ := p
    rw [restrict_cons, endedWith_cons, endedWith_cons, List.filter_append, ih, Option.toList_filter]

theorem Yields.restrict {u : Unclosed} {closeStart stop : Int} {o : Option Element}
    (h : Yields index wide u closeStart stop o)
    (hsub : tags.contains u.tag = true → wide.contains u.tag = true) :
    Yields index tags u closeStart stop (o.filter fun e => tags.contains e.tag) := by
  cases h with
  | untracked untracked =>
    refine .untracked ?_
    cases htracked : tags.contains u.tag with
    | true => exact untracked ▸ (hsub htracked).symm
    | false => rfl
  | @tracked e tracked closed =>
    cases htracked : tags.contains u.tag with
    | true =>
      have hfilter : (some e).filter (fun e => tags.contains e.tag) = some e := by
        simp only [Option.filter, closed.tag, htracked, if_true]
      rw [hfilter]
      exact .tracked htracked closed
    | false =>
      have hfilter : (some e).filter (fun e => tags.contains e.tag) = none := by
        simp only [Option.filter, closed.tag, htracked, Bool.false_eq_true, if_false]
      rw [hfilter]
      exact .untracked htracked

theorem Paired.restrict [Code] (h : Paired index wide stack pos ps)
    (hsub : ∀ tag, tags.contains tag = true → wide.contains tag = true) :
    Paired index tags stack pos (restrict tags ps) := by
  induction h with
  | nil => exact .nil
  | opening form rest ih => exact .opening form ih
  | empty form yields rest ih => exact .empty form (yields.restrict (hsub _)) ih
  | closing form yields rest ih => exact .closing form (yields.restrict (hsub _)) ih

theorem Paired.tracked [Code] (h : Paired index tags stack pos ps) :
    ∀ e ∈ endedWith ps, tags.contains e.tag = true := by
  induction h with
  | nil => simp [endedWith]
  | opening form rest ih => exact ih
  | empty form yields rest ih =>
    rw [endedWith_cons]
    cases yields with
    | untracked untracked => exact ih
    | tracked tracked closed => exact List.forall_mem_cons.mpr ⟨closed.tag ▸ tracked, ih⟩
  | closing form yields rest ih =>
    rw [endedWith_cons]
    cases yields with
    | untracked untracked => exact ih
    | tracked tracked closed => exact List.forall_mem_cons.mpr ⟨closed.tag ▸ tracked, ih⟩

/-! ## Counting -/

/-- Whether a stretch is the start tag of a tracked element. -/
def begins (tags : List String) (st : Stretch) : Bool :=
  st.form != .closing && tags.contains st.name

theorem Yields.length_eq {u : Unclosed} {closeStart stop : Int} {o : Option Element}
    (h : Yields index tags u closeStart stop o) :
    o.toList.length = if tags.contains u.tag = true then 1 else 0 := by
  cases h with
  | untracked untracked => rw [untracked]; rfl
  | tracked tracked closed => rw [tracked]; rfl

/-- Each element that is tracked has been open before or begins. -/
theorem length_endedWith [Code] (h : Paired index tags stack pos ps)
    (hnests : Nests (stack.map Unclosed.tag) (ps.map Prod.fst)) : (endedWith ps).length =
      (stack.map Unclosed.tag).countP tags.contains + (ps.map Prod.fst).countP (begins tags) := by
  -- Either nothing is left open and nothing follows, or the rest nests.
  have hnext : ∀ {stack : List Unclosed} {ps : List (Stretch × Option Element)},
      (if stack.map Unclosed.tag = [] then ps.map Prod.fst = []
        else Nests (stack.map Unclosed.tag) (ps.map Prod.fst)) →
      (Nests (stack.map Unclosed.tag) (ps.map Prod.fst) → (endedWith ps).length =
        (stack.map Unclosed.tag).countP tags.contains + (ps.map Prod.fst).countP (begins tags)) →
      (endedWith ps).length =
        (stack.map Unclosed.tag).countP tags.contains + (ps.map Prod.fst).countP (begins tags) := by
    intro stack ps hrest ih
    split at hrest
    · rename_i hend
      obtain rfl : ps = [] := List.map_eq_nil_iff.mp hrest
      rw [hend]
      rfl
    · exact ih hrest
  induction h with
  | nil => exact hnests.elim
  | @opening stack pos st ps form rest ih =>
    obtain ⟨names, hafter, hrest⟩ := hnests
    have hnames : (begun st pos :: marked st stack).map Unclosed.tag = names := by
      simp only [Stretch.stackAfter?, form, Option.some.injEq] at hafter
      rw [List.map_cons, tags_marked]
      exact hafter
    have hcount := hnext (hnames.symm ▸ hrest) ih
    have hbegins : begins tags st = tags.contains (begun st pos).tag := by
      simp [begins, form, begun]
    rw [List.map_cons, List.countP_cons, tags_marked] at hcount
    rw [endedWith_cons, List.length_append, hcount, List.map_cons, List.countP_cons, hbegins]
    simp only [Option.toList_none, List.length_nil]
    omega
  | @empty stack pos st o ps form yields rest ih =>
    obtain ⟨names, hafter, hrest⟩ := hnests
    have hnames : (marked st stack).map Unclosed.tag = names := by
      simp only [Stretch.stackAfter?, form, Option.some.injEq] at hafter
      rw [tags_marked]
      exact hafter
    have hcount := hnext (hnames.symm ▸ hrest) ih
    have hbegins : begins tags st = tags.contains (begun st pos).tag := by
      simp [begins, form, begun]
    rw [tags_marked] at hcount
    rw [endedWith_cons, List.length_append, yields.length_eq, hcount, List.map_cons,
      List.countP_cons, hbegins]
    omega
  | @closing u stack pos st o ps form yields rest ih =>
    obtain ⟨names, hafter, hrest⟩ := hnests
    have hnames : stack.map Unclosed.tag = names := by
      simp only [Stretch.stackAfter?, form, List.map_cons] at hafter
      split at hafter
      · exact Option.some.inj hafter
      · cases hafter
    have hcount := hnext (hnames.symm ▸ hrest) ih
    have hbegins : begins tags st = false := by simp [begins, form]
    rw [endedWith_cons, List.length_append, yields.length_eq, hcount, List.map_cons, List.map_cons,
      List.countP_cons, List.countP_cons, hbegins]
    simp only [Bool.false_eq_true, if_false]
    omega

end AccessPatch.Pairing
