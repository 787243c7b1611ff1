import AccessPatch.Proofs.Planning
import AccessPatch.Proofs.Tag.Vocabulary
import Mathlib.Algebra.Ring.Int.Defs

/-!
# Annotating a document

Once a plan is carried out, the document is read again. Its stretches are the old ones, filled,
and the elements they end are the old elements, with annotations in those that were due one
(`becomes_fill`): the induction follows the open elements of both documents side by side
(`Mirrors`), and an offset of the new one is the old offset `shifted` by the operations before it.

The plan may be one for some of the tracked tags only, so that the elements of a document can be
followed whatever is annotated in it. `nodup_starts` and `exists_identifies` let the place of an
element stand for the identifier planned for it.
-/

namespace AccessPatch.Patch

open Identifier (Safe)
open Pairing (Below IsClosed Paired Unclosed Yields begun below_begun below_marked endedWith
  endedWith_cons marked restrict restrict_cons spelled_restrict)
open Xml

/-! ## Where things stand afterwards -/

/-- By how much the operations that end before an offset make the document longer. -/
def growthBefore (ops : List Op) (offset : Int) : Int :=
  ((ops.filter fun op => op.stop ≤ offset).map Op.growth).sum

/-- Where an offset is after the operations. -/
def shifted (ops : List Op) (offset : Int) : Int :=
  offset + growthBefore ops offset

theorem growthBefore_append {done later : List Op} {offset : Int}
    (hdone : ∀ op ∈ done, op.stop ≤ offset) (hlater : ∀ op ∈ later, offset < op.stop) :
    growthBefore (done ++ later) offset = (done.map Op.growth).sum := by
  have hall : done.filter (fun op => op.stop ≤ offset) = done :=
    List.filter_eq_self.mpr fun op hop => by simpa using hdone op hop
  have hnone : later.filter (fun op => op.stop ≤ offset) = [] :=
    List.filter_eq_nil_iff.mpr fun op hop => by simpa using hlater op hop
  rw [growthBefore, List.filter_append, hall, hnone, List.append_nil]

theorem growthBefore_mono {ops : List Op} (hgrows : ∀ op ∈ ops, 0 ≤ op.growth) {x y : Int}
    (h : x ≤ y) :
    growthBefore ops x ≤ growthBefore ops y := by
  induction ops with
  | nil => exact le_rfl
  | cons op ops ih =>
    have hop := hgrows op List.mem_cons_self
    have ih := ih fun o ho => hgrows o (List.mem_cons_of_mem _ ho)
    simp only [growthBefore] at ih ⊢
    by_cases hx : op.stop ≤ x
    · have hy : op.stop ≤ y := hx.trans h
      simp only [List.filter_cons, hx, hy, decide_true, if_true, List.map_cons, List.sum_cons]
      omega
    · by_cases hy : op.stop ≤ y
      · simp only [List.filter_cons, hx, hy, decide_true, decide_false, if_true, Bool.false_eq_true,
          if_false, List.map_cons, List.sum_cons]
        omega
      · simp only [List.filter_cons, hx, hy, decide_false, Bool.false_eq_true, if_false]
        exact ih

theorem shifted_le_iff {ops : List Op} (hgrows : ∀ op ∈ ops, 0 ≤ op.growth) {x y : Int} :
    shifted ops x ≤ shifted ops y ↔ x ≤ y := by
  constructor
  · intro h
    by_contra hlt
    have := growthBefore_mono hgrows (show y ≤ x by omega)
    simp only [shifted] at h
    omega
  · intro h
    have := growthBefore_mono hgrows h
    simp only [shifted]
    omega

/-! ## The same elements in both documents -/

/-- An open element before and after. -/
structure Mirrors (ops : List Op) (u u' : Unclosed) : Prop where
  tag : u'.tag = u.tag
  attributes : u'.attributes = u.attributes
  start : u'.start = shifted ops u.start
  annotated : u'.annotated = u.annotated
  accessibility : u'.accessibility = u.accessibility

/-- An element before, and the same element after annotations have been put into those with the
given tags: it keeps its own, or has the one for its identifier if it is one of them. -/
structure Annotates (dtd : Dtd) (ops : List Op) (identify : Int → String) (tags : List String)
    (e e' : Element) : Prop where
  tag : e'.tag = e.tag
  attributes : e'.attributes = e.attributes
  start : e'.extent.start = shifted ops e.extent.start
  annotated : e'.annotated = (e.annotated || tags.contains e.tag)
  accessibility : e'.accessibility = if e.annotated || ! tags.contains e.tag then e.accessibility
    else some (dtd.completed Accessibility.tag (Accessibility.attributes (identify e.extent.start)))

section Elements

variable {dtd : Dtd} {identify : Int → String} {index index' : LineTable} {tags : List String}

theorem mirrors_marked {ops : List Op} {stack stack' : List Unclosed} (st : Stretch)
    (h : List.Forall₂ (Mirrors ops) stack stack') :
    List.Forall₂ (Mirrors ops) (marked st stack) (marked st stack') := by
  unfold marked
  split
  · cases h with
    | nil => exact .nil
    | cons hu hrest => exact .cons ⟨hu.tag, hu.attributes, hu.start, rfl, rfl⟩ hrest
  · exact h

theorem annotates_own {ops : List Op} {u u' : Unclosed} {a b a' b' : Int} {e e' : Element}
    (hu : Mirrors ops u u') (he : IsClosed index u a b e) (he' : IsClosed index' u' a' b' e')
    (hkept : e.annotated = true ∨ tags.contains e.tag = false) :
    Annotates dtd ops identify tags e e' where
  tag := by rw [he'.tag, hu.tag, he.tag]
  attributes := by rw [he'.attributes, hu.attributes, he.attributes]
  start := by rw [he'.start, hu.start, he.start]
  annotated := by
    rw [he'.annotated, hu.annotated, ← he.annotated]
    rcases hkept with hkept | hkept <;> simp only [hkept, Bool.true_or, Bool.or_false]
  accessibility := by
    have hkept : (e.annotated || ! tags.contains e.tag) = true := by
      rcases hkept with hkept | hkept <;> simp only [hkept, Bool.true_or, Bool.not_false,
        Bool.or_true]
    rw [he'.accessibility, hu.accessibility, if_pos hkept, he.accessibility]

theorem annotates_new {ops : List Op} {u u' : Unclosed} {a b a' b' : Int} {e e' : Element}
    (hu : Mirrors ops u u') (he : IsClosed index u a b e)
    (he' : IsClosed index' { u' with
      annotated := true
      accessibility := some (dtd.completed Accessibility.tag
        (Accessibility.attributes (identify e.extent.start))) } a' b' e')
    (hannotated : e.annotated = false) (hdue : tags.contains e.tag = true) :
    Annotates dtd ops identify tags e e' where
  tag := by rw [he'.tag, hu.tag, he.tag]
  attributes := by rw [he'.attributes, hu.attributes, he.attributes]
  start := by rw [he'.start, hu.start, he.start]
  annotated := by rw [he'.annotated, hdue, Bool.or_true]
  accessibility := by
    have hnew : (e.annotated || ! tags.contains e.tag) = false := by
      rw [hannotated, hdue]
      rfl
    rw [he'.accessibility, hnew, if_neg (by simp)]

end Elements

/-- The stretches before `pos` have been dealt with, by the operations `done`, and take the bytes
before `pos'` now. -/
structure Reaches (done : List Op) (pos pos' : Nat) : Prop where
  before : ∀ op ∈ done, op.stop ≤ pos
  place : (pos' : Int) = pos + (done.map Op.growth).sum

theorem Reaches.shifted {done later : List Op} {pos pos' : Nat}
    (h : Reaches done pos pos') (n : Nat) (hlater : ∀ op ∈ later, (pos + n : Int) < op.stop) :
    shifted (done ++ later) ((pos + n : Nat) : Int) = ((pos' + n : Nat) : Int) := by
  have hbefore : ∀ op ∈ done, op.stop ≤ ((pos + n : Nat) : Int) := by
    intro op hop
    have := h.before op hop
    omega
  have hplace := h.place
  rw [Patch.shifted, growthBefore_append hbefore (by simpa using hlater)]
  omega

section Simulation

variable [Code] (buffer : Bytes) {newline : Bytes} {identify : Int → String} {index : LineTable}
  {tags : List String} {alphabet : Alphabet}

theorem Reaches.keep {done : List Op} {pos pos' : Nat} (h : Reaches done pos pos') (st : Stretch) :
    Reaches done (pos + st.size) (pos' + st.size) := by
  have hplace := h.place
  refine ⟨fun op hop => ?_, by omega⟩
  have := h.before op hop
  omega

theorem Reaches.fill {done : List Op} {pos pos' : Nat} (h : Reaches done pos pos') {st : Stretch}
    {filling : Filling} {op : Op} (hplaces : Places st pos filling op) :
    Reaches (done ++ [op]) (pos + st.size) (pos' + trailSize (st.filled (some filling))) := by
  have hplace := h.place
  have hgrowth := hplaces.growth_eq
  have hwithin := hplaces.within
  refine ⟨fun o ho => ?_, ?_⟩
  · rcases List.mem_append.mp ho with ho | ho
    · have := h.before o ho
      omega
    · rw [List.mem_singleton.mp ho]
      exact hwithin.2.2.2
  · simp only [List.map_append, List.map_cons, List.map_nil, List.sum_append, List.sum_cons,
      List.sum_nil]
    omega

/-- The operations from a start tag on end after its beginning. -/
theorem after_start {stack : List Unclosed} {pos : Nat} {st : Stretch} {o : Option Element}
    {ps : List (Stretch × Option Element)} (hspelled : ∀ p ∈ (st, o) :: ps, p.1.Spelled alphabet)
    (hlegible : Legible newline identify tags)
    (h : Paired index tags stack pos ((st, o) :: ps)) (hform : st.form ≠ .closing) :
    ∀ op ∈ opsOf buffer newline identify ((st, o) :: ps),
      (pos + (inCode st.gap).length : Int) < op.stop := by
  have hst : st.Spelled alphabet := hspelled (st, o) List.mem_cons_self
  have hspelled' : ∀ q ∈ ps, q.1.Spelled alphabet :=
    fun q hq => hspelled q (List.mem_cons_of_mem _ hq)
  obtain ⟨hplaces, stack', hrest⟩ := places_head {} buffer hst hlegible h
  have hlater := opsOf_within buffer hspelled' hlegible hrest
  intro op hop
  rw [opsOf_cons] at hop
  rcases List.mem_append.mp hop with hop | hop
  · obtain ⟨e, he, rfl⟩ := Option.map_eq_some_iff.mp (Option.mem_toList.mp hop)
    exact (hplaces e (Option.filter_eq_some_iff.mp he).1).after hform
  · have hlength := length_text_pos hst
    have hsize := TagRange.size_eq st
    have := hlater op hop
    simp only [Op.stop]
    omega

end Simulation

/-- Where annotations are not tracked, the tag of a tracked element is none. -/
theorem marked_of_tracked {tags : List String} {st : Stretch}
    (hno : tags.contains Accessibility.tag = false) (htracked : tags.contains st.name = true)
    (stack : List Unclosed) : marked st stack = stack := by
  refine if_neg fun heq => ?_
  rw [heq, hno] at htracked
  cases htracked

/-- From `pos` on the stretches `sts` end the elements that end with `ps`, after annotations have
been put into those with the tags `due`. -/
def Becomes [Code] (dtd : Dtd) (ops : List Op) (identify : Int → String) (due : List String)
    (index : LineTable) (tags : List String) (stack : List Unclosed) (pos : Nat)
    (ps : List (Stretch × Option Element)) (sts : List Stretch) : Prop :=
  ∃ ps', ps'.map Prod.fst = sts ∧ Paired index tags stack pos ps' ∧
    List.Forall₂ (Annotates dtd ops identify due) (endedWith ps) (endedWith ps')

namespace Becomes

variable [Code] {dtd : Dtd} {ops : List Op} {identify : Int → String} {due : List String}
  {index : LineTable} {tags : List String} {u : Unclosed} {stack : List Unclosed} {pos : Nat}
  {ps : List (Stretch × Option Element)} {st : Stretch} {sts : List Stretch}

theorem opening (hform : st.form = .opening)
    (h : Becomes dtd ops identify due index tags (begun st pos :: marked st stack)
      (pos + st.size) ps sts) :
    Becomes dtd ops identify due index tags stack pos ps (st :: sts) := by
  obtain ⟨ps', rfl, hps', hended⟩ := h
  exact ⟨(st, none) :: ps', rfl, .opening hform hps', hended⟩

theorem empty (hform : st.form = .empty) (huntracked : tags.contains st.name = false)
    (h : Becomes dtd ops identify due index tags (marked st stack) (pos + st.size) ps sts) :
    Becomes dtd ops identify due index tags stack pos ps (st :: sts) := by
  obtain ⟨ps', rfl, hps', hended⟩ := h
  exact ⟨(st, none) :: ps', rfl, .empty hform (.untracked huntracked) hps', hended⟩

theorem untracked (hform : st.form = .closing) (huntracked : tags.contains u.tag = false)
    (h : Becomes dtd ops identify due index tags stack (pos + st.size) ps sts) :
    Becomes dtd ops identify due index tags (u :: stack) pos ps (st :: sts) := by
  obtain ⟨ps', rfl, hps', hended⟩ := h
  exact ⟨(st, none) :: ps', rfl, .closing hform (.untracked huntracked) hps', hended⟩

/-- An element that is written as one tag, and stays so. -/
theorem kept {old : Stretch} {e : Element} (hform : st.form = .empty)
    (htracked : tags.contains st.name = true)
    (hannotates : ∀ e',
      IsClosed index (begun st pos) (pos + st.size : Nat) (pos + st.size : Nat) e' →
      Annotates dtd ops identify due e e')
    (h : Becomes dtd ops identify due index tags (marked st stack) (pos + st.size) ps sts) :
    Becomes dtd ops identify due index tags stack pos ((old, some e) :: ps) (st :: sts) := by
  obtain ⟨ps', rfl, hps', hended⟩ := h
  have hbegun : Below (pos + st.size) [begun st pos] := below_begun st (by simp [Below])
  obtain ⟨hopen, -⟩ := List.forall_mem_cons.mp hbegun
  obtain ⟨e', he'⟩ : ∃ e',
      IsClosed index (begun st pos) (pos + st.size : Nat) (pos + st.size : Nat) e' :=
    Pairing.exists_isClosed hopen.1 hopen.2 le_rfl
  refine ⟨(st, some e') :: ps', rfl, .empty hform (.tracked htracked he') hps', ?_⟩
  rw [endedWith_cons, endedWith_cons]
  exact .cons (hannotates e' he') hended

/-- An element ends where its end tag stands now. -/
theorem tracked {old : Stretch} {e : Element} (hform : st.form = .closing)
    (htracked : tags.contains u.tag = true) (hopen : u.start ≤ u.openEnd ∧ u.openEnd ≤ pos)
    (hannotates : ∀ e',
      IsClosed index u (pos + (inCode st.gap).length : Nat) (pos + st.size : Nat) e' →
      Annotates dtd ops identify due e e')
    (h : Becomes dtd ops identify due index tags stack (pos + st.size) ps sts) :
    Becomes dtd ops identify due index tags (u :: stack) pos ((old, some e) :: ps) (st :: sts) := by
  obtain ⟨ps', rfl, hps', hended⟩ := h
  have hsize := TagRange.size_eq st
  obtain ⟨e', he'⟩ : ∃ e', IsClosed index u (pos + (inCode st.gap).length : Nat)
      (pos + st.size : Nat) e' :=
    Pairing.exists_isClosed hopen.1 (by omega) (by omega)
  refine ⟨(st, some e') :: ps', rfl, .closing hform (.tracked htracked he') hps', ?_⟩
  rw [endedWith_cons, endedWith_cons]
  exact .cons (hannotates e' he') hended

/-- An annotation marks the element it is put into. -/
theorem child {filling : Filling} {gap : List Char} {notes : List Event}
    (hname : filling.name = Accessibility.tag) (hno : tags.contains Accessibility.tag = false)
    (h : Becomes dtd ops identify due index tags
      ({ u with annotated := true, accessibility := some filling.resolved } :: stack)
      (pos + (filling.child gap notes).size) ps sts) :
    Becomes dtd ops identify due index tags (u :: stack) pos ps
      (filling.child gap notes :: sts) := by
  have hmarked : marked (filling.child gap notes) (u :: stack) =
      { u with annotated := true, accessibility := some filling.resolved } :: stack := by
    simp only [marked, Filling.child, hname, if_true]
    rfl
  have huntracked : tags.contains (filling.child gap notes).name = false := by
    show tags.contains filling.name = false
    rw [hname, hno]
  refine .empty rfl huntracked ?_
  rw [hmarked]
  exact h

/-- An element that is opened up for an annotation. -/
theorem opened {old : Stretch} {filling : Filling} {e : Element} (hform : st.form = .empty)
    (htracked : tags.contains st.name = true) (hno : tags.contains Accessibility.tag = false)
    (hname : filling.name = Accessibility.tag)
    (hannotates : ∀ a b e', IsClosed index { begun st.openUp pos with
      annotated := true
      accessibility := some filling.resolved } a b e' → Annotates dtd ops identify due e e')
    (h : Becomes dtd ops identify due index tags stack
      (pos + trailSize (st.filled (some filling))) ps
      sts) :
    Becomes dtd ops identify due index tags stack pos ((old, some e) :: ps)
      (st.filled (some filling) ++ sts) := by
  let child := filling.child filling.lead []
  let close : Stretch := ⟨filling.trail, [], .closing, st.name, [], endTagChars st.name⟩
  have hfilled : st.filled (some filling) = [st.openUp, child, close] := by
    simp only [Stretch.filled, hform]
    rfl
  rw [hfilled, trailSize_cons, trailSize_cons, trailSize_cons, trailSize_nil, Nat.add_zero,
    ← Nat.add_assoc, ← Nat.add_assoc] at h
  rw [hfilled]
  -- The start tag is as it was, but for the slash.
  have hbegun : Below (pos + st.openUp.size) [begun st.openUp pos] :=
    below_begun st.openUp (by simp [Below])
  obtain ⟨hopen, -⟩ := List.forall_mem_cons.mp hbegun
  refine .opening rfl ?_
  rw [marked_of_tracked hno (show tags.contains st.openUp.name = true from htracked)]
  exact .child hname hno (.tracked rfl htracked ⟨hopen.1, hopen.2.trans (by omega)⟩
    (hannotates _ _) h)

/-- An element that gets an annotation before its end tag. -/
theorem filled {old : Stretch} {filling : Filling} {e : Element} (hform : st.form = .closing)
    (htracked : tags.contains u.tag = true) (hopen : u.start ≤ u.openEnd ∧ u.openEnd ≤ pos)
    (hno : tags.contains Accessibility.tag = false) (hname : filling.name = Accessibility.tag)
    (hannotates : ∀ a b e', IsClosed index { u with
      annotated := true
      accessibility := some filling.resolved } a b e' → Annotates dtd ops identify due e e')
    (h : Becomes dtd ops identify due index tags stack
      (pos + trailSize (st.filled (some filling))) ps
      sts) :
    Becomes dtd ops identify due index tags (u :: stack) pos ((old, some e) :: ps)
      (st.filled (some filling) ++ sts) := by
  let child := filling.child st.gap st.notes
  let close : Stretch := ⟨filling.trail, [], .closing, st.name, [], st.text⟩
  have hfilled : st.filled (some filling) = [child, close] := by
    simp only [Stretch.filled, hform]
    rfl
  rw [hfilled, trailSize_cons, trailSize_cons, trailSize_nil, Nat.add_zero, ← Nat.add_assoc] at h
  rw [hfilled]
  exact .child hname hno
    (.tracked rfl htracked ⟨hopen.1, hopen.2.trans (by omega)⟩ (hannotates _ _) h)

end Becomes

/-- An element is given an annotation or keeps what it has. -/
theorem filter_due (due : List String) (e : Element) :
    (((some e).filter fun e => due.contains e.tag).filter (! ·.annotated) = some e ∧
      e.annotated = false ∧ due.contains e.tag = true) ∨
    (((some e).filter fun e => due.contains e.tag).filter (! ·.annotated) = none ∧
      (e.annotated = true ∨ due.contains e.tag = false)) := by
  cases hdue : due.contains e.tag with
  | false =>
    right
    simp only [Option.filter, hdue]
    simp
  | true =>
    cases hannotated : e.annotated with
    | false =>
      left
      simp only [Option.filter, hdue, if_true, hannotated]
      simp
    | true =>
      right
      simp only [Option.filter, hdue, if_true, hannotated]
      simp

/-- The elements of the filled stretches are those of the stretches, with annotations in those
that are due. -/
theorem becomes_fill [Code] (dtd : Dtd) (buffer : Bytes) {newline : Bytes} {identify : Int → String}
    {index : LineTable} (index' : LineTable) {due tags : List String} {alphabet : Alphabet}
    {stack stack' : List Unclosed} {pos pos' : Nat} {ps : List (Stretch × Option Element)}
    {done ops : List Op} (hno : tags.contains Accessibility.tag = false)
    (hsub : ∀ tag, due.contains tag = true → tags.contains tag = true)
    (hspelled : ∀ p ∈ ps, p.1.Spelled alphabet) (hlegible : Legible newline identify due)
    (h : Paired index tags stack pos ps)
    (hops : ops = done ++ opsOf buffer newline identify (restrict due ps))
    (hreaches : Reaches done pos pos') (hstack : List.Forall₂ (Mirrors ops) stack stack')
    (hbelow : Below pos' stack') :
    Becomes dtd ops identify due index' tags stack' pos' ps
      (fill (fillings dtd buffer newline identify (restrict due ps))) := by
  have hafter : ∀ {stack : List Unclosed} {pos : Nat} {st : Stretch} {o : Option Element}
      {ps : List (Stretch × Option Element)}, (∀ p ∈ (st, o) :: ps, p.1.Spelled alphabet) →
      Paired index tags stack pos ((st, o) :: ps) → st.form ≠ .closing →
      ∀ op ∈ opsOf buffer newline identify (restrict due ((st, o) :: ps)),
        (pos + (inCode st.gap).length : Int) < op.stop := by
    intro stack pos st o ps hspelled hpaired hform
    exact after_start buffer (spelled_restrict hspelled) hlegible (hpaired.restrict hsub) hform
  induction h generalizing stack' pos' done with
  | nil => exact ⟨[], rfl, .nil, .nil⟩
  | @opening stack pos st ps form rest ih =>
    have hspelled' : ∀ p ∈ ps, p.1.Spelled alphabet :=
      fun p hp => hspelled p (List.mem_cons_of_mem _ hp)
    have hstart := hreaches.shifted (inCode st.gap).length
      (hafter hspelled (.opening form rest) (by simp [form]))
    rw [← hops] at hstart
    have hbegun : Mirrors ops (begun st pos) (begun st pos') := ⟨rfl, rfl, hstart.symm, rfl, rfl⟩
    rw [restrict_cons, opsOf_cons] at hops
    have hrest := ih hspelled' hops (hreaches.keep st)
      (.cons hbegun (mirrors_marked st hstack)) (below_begun st (below_marked st hbelow))
    rw [restrict_cons, fill_fillings_cons, Option.filter_none, Option.filter_none, Option.map_none,
      filled_none]
    exact .opening form hrest
  | @empty stack pos st o ps form yields rest ih =>
    have hst : st.Spelled alphabet := hspelled (st, o) List.mem_cons_self
    have hspelled' : ∀ p ∈ ps, p.1.Spelled alphabet :=
      fun p hp => hspelled p (List.mem_cons_of_mem _ hp)
    have hstart := hreaches.shifted (inCode st.gap).length
      (hafter hspelled (.empty form yields rest) (by simp [form]))
    rw [← hops] at hstart
    rw [restrict_cons, opsOf_cons] at hops
    rw [restrict_cons, fill_fillings_cons]
    cases yields with
    | untracked huntracked =>
      have hrest := ih hspelled' hops (hreaches.keep st) (mirrors_marked st hstack)
        ((below_marked st hbelow).mono (by omega))
      rw [Option.filter_none, Option.filter_none, Option.map_none, filled_none]
      exact .empty form huntracked hrest
    | @tracked e htracked hclosed =>
      rcases filter_due due e with ⟨hfilter, hannotated, hdue⟩ | ⟨hfilter, hkept⟩
      · have hname : due.contains st.name = true := by
          rw [hclosed.tag] at hdue
          exact hdue
        have hplaces : Places st pos (fillingOf dtd buffer newline identify e)
            (opOf buffer newline identify e) :=
          places_empty hst form hname hlegible hclosed
        rw [marked_of_tracked hno htracked] at ih
        rw [hfilter] at hops
        have hrest := ih hspelled' (by rw [hops]; simp) (hreaches.fill hplaces) hstack
          (hbelow.mono (by omega))
        have hu : Mirrors ops (begun st pos) (begun st.openUp pos') :=
          ⟨rfl, rfl, hstart.symm, rfl, rfl⟩
        rw [hfilter, Option.map_some]
        exact .opened form htracked hno rfl
          (fun _ _ e' he' => annotates_new hu hclosed he' hannotated hdue) hrest
      · rw [hfilter] at hops
        have hrest := ih hspelled' hops (hreaches.keep st) (mirrors_marked st hstack)
          ((below_marked st hbelow).mono (by omega))
        have hu : Mirrors ops (begun st pos) (begun st pos') := ⟨rfl, rfl, hstart.symm, rfl, rfl⟩
        rw [hfilter, Option.map_none, filled_none]
        exact .kept form htracked (fun e' he' => annotates_own hu hclosed he' hkept) hrest
  | @closing u stack pos st o ps form yields rest ih =>
    have hst : st.Spelled alphabet := hspelled (st, o) List.mem_cons_self
    have hspelled' : ∀ p ∈ ps, p.1.Spelled alphabet :=
      fun p hp => hspelled p (List.mem_cons_of_mem _ hp)
    rw [restrict_cons, opsOf_cons] at hops
    rw [restrict_cons, fill_fillings_cons]
    cases hstack with
    | @cons _ u' _ stack' hu hstack =>
      obtain ⟨hopen, hbelow'⟩ := List.forall_mem_cons.mp hbelow
      cases yields with
      | untracked huntracked =>
        have hrest := ih hspelled' hops (hreaches.keep st) hstack (Below.mono hbelow' (by omega))
        rw [Option.filter_none, Option.filter_none, Option.map_none, filled_none]
        exact .untracked form (hu.tag ▸ huntracked) hrest
      | @tracked e htracked hclosed =>
        have htracked' : tags.contains u'.tag = true := by rw [hu.tag, htracked]
        rcases filter_due due e with ⟨hfilter, hannotated, hdue⟩ | ⟨hfilter, hkept⟩
        · have hplaces : Places st pos (fillingOf dtd buffer newline identify e)
              (opOf buffer newline identify e) :=
            places_closing hst form hlegible hclosed
          rw [hfilter] at hops
          have hrest := ih hspelled' (by rw [hops]; simp) (hreaches.fill hplaces) hstack
            (Below.mono hbelow' (by omega))
          rw [hfilter, Option.map_some]
          exact .filled form htracked' hopen hno rfl
            (fun _ _ e' he' => annotates_new hu hclosed he' hannotated hdue) hrest
        · rw [hfilter] at hops
          have hrest := ih hspelled' hops (hreaches.keep st) hstack (Below.mono hbelow' (by omega))
          rw [hfilter, Option.map_none, filled_none]
          exact .tracked form htracked' hopen
            (fun e' he' => annotates_own hu hclosed he' hkept) hrest

/-! ## Naming what starts at an offset -/

theorem starts_marked [Code] (st : Stretch) (stack : List Unclosed) :
    (marked st stack).map Unclosed.start = stack.map Unclosed.start := by
  unfold marked
  split
  · cases stack <;> rfl
  · rfl

/-- An element that is begun starts after all that are open. -/
theorem starts_begun [Code] {alphabet : Alphabet} {st : Stretch} {stack : List Unclosed} {pos : Nat}
    (hst : st.Spelled alphabet) (hstack : (stack.map Unclosed.start).Nodup)
    (hbelow : ∀ start ∈ stack.map Unclosed.start, start < pos) :
    ((begun st pos :: marked st stack).map Unclosed.start).Nodup ∧
      ∀ start ∈ (begun st pos :: marked st stack).map Unclosed.start,
        start < (pos + st.size : Nat) := by
  have hlength := length_text_pos hst
  have hsize := TagRange.size_eq st
  have hstart : (begun st pos).start = (pos + (inCode st.gap).length : Nat) := rfl
  rw [List.map_cons, starts_marked]
  refine ⟨List.nodup_cons.mpr ⟨fun hmem => ?_, hstack⟩,
    List.forall_mem_cons.mpr ⟨by omega, fun start hmem => ?_⟩⟩
  · have := hbelow _ hmem
    omega
  · have := hbelow start hmem
    omega

/-- No two elements start at one offset: those that end later have been open before, or start
later. -/
theorem nodup_starts [Code] {alphabet : Alphabet} {index : LineTable} {tags : List String}
    {stack : List Unclosed} {pos : Nat} {ps : List (Stretch × Option Element)}
    (hspelled : ∀ p ∈ ps, p.1.Spelled alphabet) (h : Paired index tags stack pos ps)
    (hstack : (stack.map Unclosed.start).Nodup)
    (hbelow : ∀ start ∈ stack.map Unclosed.start, start < pos) :
    ((endedWith ps).map (·.extent.start)).Nodup ∧
      ∀ e ∈ endedWith ps, e.extent.start ∈ stack.map Unclosed.start ∨ pos ≤ e.extent.start := by
  induction h with
  | nil => simp [endedWith]
  | @opening stack pos st ps form rest ih =>
    have hst : st.Spelled alphabet := hspelled (st, none) List.mem_cons_self
    have hstart : (begun st pos).start = (pos + (inCode st.gap).length : Nat) := rfl
    obtain ⟨hstack', hbelow'⟩ := starts_begun hst hstack hbelow
    obtain ⟨hnodup, hstarts⟩ :=
      ih (fun q hq => hspelled q (List.mem_cons_of_mem _ hq)) hstack' hbelow'
    refine ⟨hnodup, fun e he => ?_⟩
    have he := hstarts e he
    rw [List.map_cons, starts_marked, List.mem_cons] at he
    rcases he with (he | he) | he
    · exact .inr (by omega)
    · exact .inl he
    · exact .inr (by omega)
  | @empty stack pos st o ps form yields rest ih =>
    have hst : st.Spelled alphabet := hspelled (st, o) List.mem_cons_self
    have hlength := length_text_pos hst
    have hsize := TagRange.size_eq st
    rw [starts_marked] at ih
    obtain ⟨hnodup, hstarts⟩ := ih (fun q hq => hspelled q (List.mem_cons_of_mem _ hq)) hstack
      fun start hmem => by
        have := hbelow start hmem
        omega
    have hrest : ∀ e ∈ endedWith ps, e.extent.start ∈ stack.map Unclosed.start ∨
        pos ≤ e.extent.start :=
      fun e he => (hstarts e he).imp_right (by omega)
    rw [endedWith_cons]
    cases yields with
    | untracked untracked => exact ⟨hnodup, hrest⟩
    | @tracked e tracked closed =>
      have hstart : e.extent.start = (pos + (inCode st.gap).length : Nat) := closed.start
      refine ⟨List.nodup_cons.mpr ⟨fun hmem => ?_, hnodup⟩,
        List.forall_mem_cons.mpr ⟨.inr (by omega), hrest⟩⟩
      obtain ⟨f, hf, (heq : f.extent.start = e.extent.start)⟩ := List.mem_map.mp hmem
      rcases hstarts f hf with hopen | hlater
      · have := hbelow _ hopen
        omega
      · omega
  | @closing u stack pos st o ps form yields rest ih =>
    obtain ⟨hu, hstack'⟩ := List.nodup_cons.mp hstack
    obtain ⟨hubelow, hbelow'⟩ := List.forall_mem_cons.mp hbelow
    obtain ⟨hnodup, hstarts⟩ := ih (fun q hq => hspelled q (List.mem_cons_of_mem _ hq)) hstack'
      fun start hmem => by
        have := hbelow' start hmem
        omega
    have hrest : ∀ e ∈ endedWith ps,
        e.extent.start ∈ (u :: stack).map Unclosed.start ∨ pos ≤ e.extent.start :=
      fun e he => (hstarts e he).imp (List.mem_cons_of_mem _) (by omega)
    rw [endedWith_cons]
    cases yields with
    | untracked untracked => exact ⟨hnodup, hrest⟩
    | @tracked e tracked closed =>
      have hstart : e.extent.start = u.start := closed.start
      refine ⟨List.nodup_cons.mpr ⟨fun hmem => ?_, hnodup⟩,
        List.forall_mem_cons.mpr ⟨.inl (by rw [hstart]; exact List.mem_cons_self), hrest⟩⟩
      obtain ⟨f, hf, (heq : f.extent.start = e.extent.start)⟩ := List.mem_map.mp hmem
      have hf := hstarts f hf
      rw [heq, hstart] at hf
      rcases hf with hopen | hlater
      · exact hu hopen
      · omega

theorem map_lookup_zip {keys : List Int} {values : List String} (hnodup : keys.Nodup)
    (hlength : values.length = keys.length) :
    keys.map (fun key => ((keys.zip values).lookup key).getD "") = values := by
  induction keys generalizing values with
  | nil => exact (List.eq_nil_of_length_eq_zero hlength).symm
  | cons key keys ih =>
    obtain ⟨value, values, rfl⟩ := List.exists_cons_of_length_eq_add_one hlength
    obtain ⟨hkey, hnodup⟩ := List.nodup_cons.mp hnodup
    have hrest : keys.map (fun k => (((key :: keys).zip (value :: values)).lookup k).getD "") =
        keys.map fun k => ((keys.zip values).lookup k).getD "" := by
      refine List.map_congr_left fun k hk => ?_
      have hne : (k == key) = false := by
        rw [beq_eq_false_iff_ne]
        rintro rfl
        exact hkey hk
      simp only [List.zip_cons_cons, List.lookup_cons, hne]
    rw [List.map_cons, hrest, ih hnodup (Nat.succ.inj hlength)]
    simp

/-- Where no two elements start at one offset, the offset tells the identifier. -/
theorem exists_identifies {elements : List Element} {naming : Naming}
    (hnodup : (elements.map (·.extent.start)).Nodup) (hchoose : naming.choose = none) :
    ∃ identify : Int → String, Identifies identify elements naming ∧
      ∀ offset, Safe (identify offset) := by
  let starts := (candidates elements).map (·.extent.start)
  let identifiers := naming.identifiers (candidates elements)
  have hlength : identifiers.length = starts.length := by
    rw [length_identifiers, List.length_map]
  have hstarts : starts.Nodup := hnodup.sublist (List.filter_sublist.map _)
  refine ⟨fun offset => ((starts.zip identifiers).lookup offset).getD "", ?_, fun offset => ?_⟩
  · have hmap := map_lookup_zip hstarts hlength
    rw [List.map_map] at hmap
    exact hmap
  · show Safe (((starts.zip identifiers).lookup offset).getD "")
    cases hlookup : (starts.zip identifiers).lookup offset with
    | none => decide
    | some identifier =>
      obtain ⟨before, after, hsplit, -⟩ := List.lookup_eq_some_iff.mp hlookup
      have hmem : (offset, identifier) ∈ starts.zip identifiers := by
        rw [hsplit]
        simp
      exact safe_identifiers hchoose _ identifier (List.of_mem_zip hmem).2

end AccessPatch.Patch
