import AccessPatch.Proofs.Matching
import AccessPatch.Proofs.Tag.Ranges

/-!
# The elements of stretches

`Paired` follows the open elements through the stretches of a document and names the tracked
element that ends with each of them. It has one constructor for each form of a tag, and says what
tracking does: each run of `step` that succeeds is one (`paired_of_foldlM`), and each one is a run
(`foldlM_of_paired`).
-/

namespace AccessPatch.Pairing

open Xml

/-! ## The end of an element -/

/-- The element that `u` has become, with its end tag in the given place. -/
structure IsClosed (index : LineTable) (u : Unclosed) (endStart endStop : Int)
    (e : Element) : Prop where
  tag : e.tag = u.tag
  attributes : e.attributes = u.attributes
  start : e.extent.start = u.start
  openEnd : e.extent.openEnd = u.openEnd
  closeStart : e.extent.closeStart = endStart
  stop : e.extent.stop = endStop
  annotated : e.annotated = u.annotated
  accessibility : e.accessibility = u.accessibility
  startLine : e.startLine = index.lineAt u.start
  endLine : e.endLine = index.lineAt (max (endStop - 1) u.start)

variable {index : LineTable} {tags : List String}

theorem close_eq_ok_iff {u : Unclosed} {range : TagRange} {e : Element} :
    close index u range = .ok e ↔ IsClosed index u range.start range.stop e := by
  unfold close
  constructor
  · intro h
    split at h
    · cases h
    · rename_i extent hextent
      cases h
      obtain ⟨hstart, hopenEnd, hcloseStart, hstop⟩ := ofOffsets?_eq_some hextent
      exact ⟨rfl, rfl, hstart, hopenEnd, hcloseStart, hstop, rfl, rfl, rfl, rfl⟩
  · intro h
    obtain ⟨tag, attributes, extent, startLine, endLine, annotated, accessibility⟩ := e
    obtain ⟨htag, hattributes, hstart, hopenEnd, hcloseStart, hstop, hannotated,
      haccessibility, hfirst, hlast⟩ := h
    simp only
      at htag hattributes hstart hopenEnd hcloseStart hstop hannotated haccessibility hfirst hlast
    subst htag hattributes hannotated haccessibility hfirst hlast
    rw [← hstart, ← hopenEnd, ← hcloseStart, ← hstop, Extent.ofOffsets?, dif_pos
      ⟨extent.start_le_openEnd, extent.openEnd_le_closeStart, extent.closeStart_le_stop⟩]

theorem exists_isClosed {u : Unclosed} {closeStart stop : Int} (hopen : u.start ≤ u.openEnd)
    (hinside : u.openEnd ≤ closeStart) (hclose : closeStart ≤ stop) :
    ∃ e, IsClosed index u closeStart stop e := by
  refine ⟨{
    tag := u.tag
    attributes := u.attributes
    extent := ⟨u.start, u.openEnd, closeStart, stop, hopen, hinside, hclose⟩
    startLine := index.lineAt u.start
    endLine := index.lineAt (max (stop - 1) u.start)
    annotated := u.annotated
    accessibility := u.accessibility }, ?_⟩
  exact ⟨rfl, rfl, rfl, rfl, rfl, rfl, rfl, rfl, rfl, rfl⟩

/-- What the end of an element in the given place yields, if the element is tracked. -/
inductive Yields (index : LineTable) (tags : List String) (u : Unclosed) (closeStart stop : Int) :
    Option Element → Prop where
  | untracked (untracked : tags.contains u.tag = false) : Yields index tags u closeStart stop none
  | tracked {e : Element} (tracked : tags.contains u.tag = true)
      (closed : IsClosed index u closeStart stop e) : Yields index tags u closeStart stop (some e)

theorem step_opening {s : State} {range : TagRange} (hkind : range.kind = .opening) :
    step index tags s range =
      .ok ⟨⟨range.name, range.attributes, range.start, range.stop, false, none⟩ ::
      (if range.name = Accessibility.tag then annotate range.attributes s.stack else s.stack),
      s.ended⟩ := by
  simp only [step, hkind]

theorem step_closing_iff {u : Unclosed} {stack : List Unclosed} {ended : List Element}
    {range : TagRange} {t : State} (hkind : range.kind = .closing) :
    step index tags ⟨u :: stack, ended⟩ range = .ok t ↔
      ∃ o, Yields index tags u range.start range.stop o ∧ t = ⟨stack, o.toList ++ ended⟩ := by
  simp only [step, hkind]
  cases htracked : tags.contains u.tag with
  | true =>
    rw [if_pos rfl, bind_eq_ok_iff]
    constructor
    · rintro ⟨e, hclose, ht⟩
      cases ht
      exact ⟨some e, .tracked htracked (close_eq_ok_iff.mp hclose), rfl⟩
    · rintro ⟨o, hyields, rfl⟩
      cases hyields with
      | untracked huntracked => rw [htracked] at huntracked; cases huntracked
      | @tracked e _ hclosed => exact ⟨e, close_eq_ok_iff.mpr hclosed, rfl⟩
  | false =>
    rw [if_neg (by simp)]
    constructor
    · intro ht
      cases ht
      exact ⟨none, .untracked htracked, rfl⟩
    · rintro ⟨o, hyields, rfl⟩
      cases hyields with
      | untracked _ => rfl
      | tracked htracked' => rw [htracked] at htracked'; cases htracked'

/-! ## Stretches -/

/-- The tracked elements that end with some stretches, in the order of their ends. -/
def endedWith (sts : List (Stretch × Option Element)) : List Element :=
  sts.filterMap Prod.snd

theorem endedWith_cons (st : Stretch) (o : Option Element) (sts : List (Stretch × Option Element)) :
    endedWith ((st, o) :: sts) = o.toList ++ endedWith sts := by
  cases o <;> rfl

variable [Code]

/-- The element that begins with the tag of a stretch at `pos`. -/
def begun (st : Stretch) (pos : Nat) : Unclosed :=
  let start := pos + (inCode st.gap).length
  let stop := start + (inCode st.text).length
  ⟨st.name, st.attributes, start, stop, false, none⟩

/-- The open elements, with an annotation noted at the innermost if a stretch begins one. -/
def marked (st : Stretch) (stack : List Unclosed) : List Unclosed :=
  if st.name = Accessibility.tag then annotate st.attributes stack else stack

/-- Stretches from `pos` on, each with the tracked element that it ends, where the elements of
`stack` are open. -/
inductive Paired (index : LineTable) (tags : List String) :
    List Unclosed → Nat → List (Stretch × Option Element) → Prop where
  | nil {stack : List Unclosed} {pos : Nat} : Paired index tags stack pos []
  | opening {stack : List Unclosed} {pos : Nat} {st : Stretch}
      {sts : List (Stretch × Option Element)} (form : st.form = .opening)
      (rest : Paired index tags (begun st pos :: marked st stack) (pos + st.size) sts) :
      Paired index tags stack pos ((st, none) :: sts)
  | empty {stack : List Unclosed} {pos : Nat} {st : Stretch} {o : Option Element}
      {sts : List (Stretch × Option Element)} (form : st.form = .empty)
      (yields : Yields index tags (begun st pos) (pos + st.size : Nat) (pos + st.size : Nat) o)
      (rest : Paired index tags (marked st stack) (pos + st.size) sts) :
      Paired index tags stack pos ((st, o) :: sts)
  | closing {u : Unclosed} {stack : List Unclosed} {pos : Nat} {st : Stretch} {o : Option Element}
      {sts : List (Stretch × Option Element)} (form : st.form = .closing)
      (yields : Yields index tags u (pos + (inCode st.gap).length : Nat) (pos + st.size : Nat) o)
      (rest : Paired index tags stack (pos + st.size) sts) :
      Paired index tags (u :: stack) pos ((st, o) :: sts)

section Stretch

variable {st : Stretch} {pos : Nat} {s t : State}

theorem stop_eq (st : Stretch) (pos : Nat) :
    pos + (inCode st.gap).length + (inCode st.text).length = pos + st.size := by
  rw [TagRange.size_eq, Nat.add_assoc]

theorem foldlM_opening (hform : st.form = .opening) :
    (st.ranges pos).foldlM (step index tags) s =
      .ok ⟨begun st pos :: marked st s.stack, s.ended⟩ := by
  simp only [Stretch.ranges, hform]
  exact foldlM_cons_eq_ok_iff.mpr ⟨_, step_opening rfl, rfl⟩

theorem foldlM_empty_iff (hform : st.form = .empty) :
    (st.ranges pos).foldlM (step index tags) s = .ok t ↔
      ∃ o, Yields index tags (begun st pos) (pos + st.size : Nat) (pos + st.size : Nat) o ∧
        t = ⟨marked st s.stack, o.toList ++ s.ended⟩ := by
  simp only [Stretch.ranges, hform]
  rw [← stop_eq, foldlM_cons_eq_ok_iff]
  constructor
  · rintro ⟨s', hopening, hclosing⟩
    obtain rfl := Except.ok.inj ((step_opening rfl).symm.trans hopening)
    obtain ⟨t', hstep, ht⟩ := foldlM_cons_eq_ok_iff.mp hclosing
    cases ht
    exact (step_closing_iff rfl).mp hstep
  · intro hyields
    exact ⟨_, step_opening rfl,
      foldlM_cons_eq_ok_iff.mpr ⟨t, (step_closing_iff rfl).mpr hyields, rfl⟩⟩

theorem foldlM_closing_iff {u : Unclosed} {stack : List Unclosed} {ended : List Element}
    (hform : st.form = .closing) :
    (st.ranges pos).foldlM (step index tags) ⟨u :: stack, ended⟩ = .ok t ↔
      ∃ o, Yields index tags u (pos + (inCode st.gap).length : Nat) (pos + st.size : Nat) o ∧
        t = ⟨stack, o.toList ++ ended⟩ := by
  simp only [Stretch.ranges, hform]
  rw [← stop_eq, foldlM_cons_eq_ok_iff]
  constructor
  · rintro ⟨t', hstep, ht⟩
    cases ht
    exact (step_closing_iff rfl).mp hstep
  · intro hyields
    exact ⟨t, (step_closing_iff rfl).mpr hyields, rfl⟩

end Stretch

theorem paired_of_foldlM {sts : List Stretch} {pos : Nat} {s t : State}
    (h : (trailRanges pos sts).foldlM (step index tags) s = .ok t) :
    ∃ ps, ps.map Prod.fst = sts ∧ Paired index tags s.stack pos ps ∧
      t.ended = (endedWith ps).reverse ++ s.ended := by
  induction sts generalizing pos s with
  | nil =>
    cases h
    exact ⟨[], rfl, .nil, rfl⟩
  | cons st sts ih =>
    obtain ⟨m, hfirst, hrest⟩ := foldlM_append_eq_ok_iff.mp h
    obtain ⟨ps, rfl, hps, hended⟩ := ih hrest
    obtain ⟨stack, ended⟩ := s
    -- What has ended after the first stretch, and after all.
    have hall : ∀ o : Option Element, m.ended = o.toList ++ ended →
        t.ended = (endedWith ((st, o) :: ps)).reverse ++ ended := by
      intro o ho
      rw [hended, ho, endedWith_cons, List.reverse_append]
      cases o <;> simp
    cases hform : st.form with
    | opening =>
      obtain rfl := Except.ok.inj ((foldlM_opening hform).symm.trans hfirst)
      exact ⟨(st, none) :: ps, rfl, .opening hform hps, hall none rfl⟩
    | empty =>
      obtain ⟨o, hyields, rfl⟩ := (foldlM_empty_iff hform).mp hfirst
      exact ⟨(st, o) :: ps, rfl, .empty hform hyields hps, hall o rfl⟩
    | closing =>
      cases stack with
      | nil =>
        simp only [Stretch.ranges, hform] at hfirst
        obtain ⟨m', hstep, -⟩ := foldlM_cons_eq_ok_iff.mp hfirst
        cases hstep
      | cons u stack =>
        obtain ⟨o, hyields, rfl⟩ := (foldlM_closing_iff hform).mp hfirst
        exact ⟨(st, o) :: ps, rfl, .closing hform hyields hps, hall o rfl⟩

theorem foldlM_of_paired {ps : List (Stretch × Option Element)} {stack : List Unclosed} {pos : Nat}
    (h : Paired index tags stack pos ps) (ended : List Element) :
    ∃ stack', (trailRanges pos (ps.map Prod.fst)).foldlM (step index tags) ⟨stack, ended⟩ =
      .ok ⟨stack', (endedWith ps).reverse ++ ended⟩ := by
  induction h generalizing ended with
  | @nil stack pos => exact ⟨stack, rfl⟩
  | opening form rest ih =>
    obtain ⟨stack', hrest⟩ := ih ended
    exact ⟨stack', foldlM_append_eq_ok_iff.mpr ⟨_, foldlM_opening form, hrest⟩⟩
  | @empty stack pos st o ps form yields rest ih =>
    obtain ⟨stack', hrest⟩ := ih (o.toList ++ ended)
    refine ⟨stack', foldlM_append_eq_ok_iff.mpr
      ⟨_, (foldlM_empty_iff form).mpr ⟨o, yields, rfl⟩, hrest.trans ?_⟩⟩
    rw [endedWith_cons, List.reverse_append]
    cases o <;> simp
  | @closing u stack pos st o ps form yields rest ih =>
    obtain ⟨stack', hrest⟩ := ih (o.toList ++ ended)
    refine ⟨stack', foldlM_append_eq_ok_iff.mpr
      ⟨_, (foldlM_closing_iff form).mpr ⟨o, yields, rfl⟩, hrest.trans ?_⟩⟩
    rw [endedWith_cons, List.reverse_append]
    cases o <;> simp

end AccessPatch.Pairing
