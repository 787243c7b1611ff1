import AccessPatch.Proofs.Xml.Layout
import AccessPatch.Proofs.Xml.Written

/-!
# Filling elements

A `Filling` is a child that is put at the end of an element, with white space around it. It goes
right before the end tag, and an element that is written as one tag is opened up for it
(`Stretch.filled`). A document in which any number of elements are filled at once has a layout
again (`Layout.Explains.fill`): the tags still nest, each of them is sound, and the document
begins as it did.
-/

namespace AccessPatch.Xml

/-- A child without content, to be put at the end of an element. -/
structure Filling where
  /-- The white space before the child in an element that is opened up. -/
  lead : List Char
  name : String
  /-- The attributes that are written. -/
  attributes : List (String × String)
  /-- The attributes that the child has, with the declared defaults of others. -/
  resolved : List (String × String)
  /-- The white space between the child and the end tag. -/
  trail : List Char
deriving Repr

/-- An end tag as it is written. -/
def endTagChars (name : String) : List Char :=
  '<' :: '/' :: (name.toList ++ ['>'])

namespace Filling

variable [Code]

/-- The child after some gap. -/
def child (filling : Filling) (gap : List Char) (notes : List Event) : Stretch :=
  ⟨gap, notes, .empty, filling.name, filling.resolved,
    emptyTagChars filling.name filling.attributes⟩

/-- The filling may be written into a document. -/
structure Fits (context : Prolog.Context) (filling : Filling) : Prop where
  lead : ∀ c ∈ filling.lead, isSpace c = true
  trail : ∀ c ∈ filling.trail, isSpace c = true
  named : IsName context.alphabet filling.name.toList
  writable : Writable context.alphabet filling.attributes
  resolved : filling.resolved = context.dtd.completed filling.name filling.attributes
  text : IsText (emptyTagChars filling.name filling.attributes)

end Filling

/-- The stretches in the place of one whose tag ends an element, where that element is filled. -/
def Stretch.filled (st : Stretch) (filling : Option Filling) : List Stretch :=
  match st.form, filling with
  | .closing, some filling =>
    [filling.child st.gap st.notes, ⟨filling.trail, [], .closing, st.name, [], st.text⟩]
  | .empty, some filling =>
    [st.openUp, filling.child filling.lead [],
      ⟨filling.trail, [], .closing, st.name, [], endTagChars st.name⟩]
  | _, _ => [st]

/-- Some stretches, each with what is put into the element that it ends, as they stand then. -/
def fill (sts : List (Stretch × Option Filling)) : List Stretch :=
  sts.flatMap fun p => p.1.filled p.2

@[simp] theorem fill_nil : fill [] = [] := rfl

@[simp] theorem fill_cons (p : Stretch × Option Filling) (sts : List (Stretch × Option Filling)) :
    fill (p :: sts) = p.1.filled p.2 ++ fill sts := rfl

@[simp] theorem filled_none (st : Stretch) : st.filled none = [st] := by
  unfold Stretch.filled
  cases st.form <;> rfl

section Filled

variable {context : Prolog.Context} {st : Stretch} {filling : Option Filling}

/-- An empty-element tag without its end. -/
theorem exists_front {alphabet : Alphabet} (h : st.Spelled alphabet) (hform : st.form = .empty) :
    ∃ front, st.text = front ++ ['/', '>'] ∧ st.openUp.text = front ++ ['>'] ∧
      ∃ c rest, front = '<' :: c :: rest := by
  unfold Stretch.Spelled at h
  rw [hform] at h
  obtain ⟨⟨c, rest, hname, -⟩, more, htext, -, hslash⟩ := h
  obtain ⟨before, rfl⟩ := List.getLast?_eq_some_iff.mp (hslash.mp rfl)
  have hsplit : st.text = '<' :: (st.name.toList ++ before) ++ ['/', '>'] := by
    rw [htext]
    simp
  refine ⟨'<' :: (st.name.toList ++ before), hsplit, ?_, c,
    rest ++ before, by rw [hname, List.cons_append]⟩
  have hdrop : ∀ cs : List Char, (cs ++ ['/', '>']).dropLast.dropLast = cs := by
    intro cs
    have hlast : cs ++ ['/', '>'] = cs ++ ['/'] ++ ['>'] := by simp
    rw [hlast, List.dropLast_concat, List.dropLast_concat]
  simp only [Stretch.openUp]
  rw [hsplit, hdrop]

theorem endSpelled_endTagChars {alphabet : Alphabet} {name : String}
    (h : IsName alphabet name.toList) :
    EndSpelled alphabet name (endTagChars name) :=
  ⟨h, [], by simp [endTagChars], by simp⟩

/-- The tags nest as before. -/
theorem nests_filled {stack stack' : List String} {rest : List Stretch}
    (hafter : st.stackAfter? stack = some stack')
    (hrest : if stack' = [] then rest = [] else Nests stack' rest) :
    Nests stack (st.filled filling ++ rest) := by
  cases filling with
  | none =>
    rw [filled_none]
    exact ⟨stack', hafter, hrest⟩
  | some filling =>
    cases hform : st.form with
    | opening =>
      simp only [Stretch.filled, hform]
      exact ⟨stack', hafter, hrest⟩
    | empty =>
      simp only [Stretch.stackAfter?, hform, Option.some.injEq] at hafter
      subst hafter
      simp only [Stretch.filled, hform]
      refine ⟨st.name :: stack, rfl, ?_⟩
      rw [if_neg (by simp)]
      refine ⟨st.name :: stack, rfl, ?_⟩
      rw [if_neg (by simp)]
      refine ⟨stack, ?_, hrest⟩
      simp [Stretch.stackAfter?]
    | closing =>
      simp only [Stretch.filled, hform]
      have hne : stack ≠ [] := by
        rintro rfl
        simp [Stretch.stackAfter?, hform] at hafter
      refine ⟨stack, rfl, ?_⟩
      rw [if_neg hne]
      refine ⟨stack', ?_, hrest⟩
      rw [← hafter]
      simp only [Stretch.stackAfter?, hform]

theorem nests_fill {sts : List (Stretch × Option Filling)} {stack : List String}
    (h : Nests stack (sts.map Prod.fst)) : Nests stack (fill sts) := by
  induction sts generalizing stack with
  | nil => exact h.elim
  | cons p sts ih =>
    obtain ⟨stack', hafter, hrest⟩ := h
    rw [fill_cons]
    refine nests_filled hafter ?_
    by_cases hend : stack' = []
    · rw [if_pos hend] at hrest ⊢
      rw [List.map_eq_nil_iff.mp hrest, fill_nil]
    · rw [if_neg hend] at hrest ⊢
      exact ih hrest

theorem isCommon_of_spaces {cs : List Char} (h : ∀ c ∈ cs, isSpace c = true) : IsCommon cs := by
  intro c hc
  have hspace := h c hc
  simp only [isSpace, Bool.or_eq_true, beq_iff_eq] at hspace
  rcases hspace with ((rfl | rfl) | rfl) | rfl <;> decide

variable [Code]

theorem Stretch.Sound.named (h : st.Sound context) : IsName context.alphabet st.name.toList := by
  have hspelled := h.spelled
  unfold Stretch.Spelled at hspelled
  cases hform : st.form with
  | opening =>
    rw [hform] at hspelled
    exact hspelled.named
  | empty =>
    rw [hform] at hspelled
    exact hspelled.named
  | closing =>
    rw [hform] at hspelled
    exact hspelled.named

/-- What is sound without a gap is sound after each gap that passes. -/
theorem Stretch.Sound.afterGap {gap : List Char} {notes : List Event} {form : Form} {name : String}
    {attributes : List (String × String)} {text : List Char}
    (hgap : Stretch.PassesGap context gap notes) (honly : Content.OnlyInstructions notes)
    (h : Stretch.Sound context ⟨[], [], form, name, attributes, '<' :: text⟩) :
    Stretch.Sound context ⟨gap, notes, form, name, attributes, '<' :: text⟩ := by
  refine ⟨h.spelled, h.passes.afterGap hgap, honly, hgap, fun hform => ?_⟩
  obtain ⟨hpasses, hspelled⟩ := h.openUp hform
  obtain ⟨front, -, hopenUp, c, rest, rfl⟩ := exists_front h.spelled hform
  simp only [Stretch.openUp] at hopenUp hpasses hspelled ⊢
  rw [hopenUp] at hpasses hspelled ⊢
  exact ⟨hpasses.afterGap hgap, hspelled⟩

/-- An end tag is sound after white space. -/
theorem sound_endTag {name : String} {gap text : List Char} (hgap : ∀ c ∈ gap, isSpace c = true)
    (h : EndSpelled context.alphabet name ('<' :: text)) :
    Stretch.Sound context ⟨gap, [], .closing, name, [], '<' :: text⟩ :=
  Stretch.Sound.afterGap (Reader.passesGap_of_spaces hgap) Content.onlyInstructions_nil
    ⟨h, Reader.passes_of_endSpelled h, Content.onlyInstructions_nil,
      Reader.passesGap_of_spaces (by simp), by simp⟩

/-- Each of the new stretches is read as it is meant. -/
theorem sound_filled (h : st.Sound context) (hfits : ∀ f ∈ filling, f.Fits context) :
    ∀ st' ∈ st.filled filling, st'.Sound context := by
  cases filling with
  | none =>
    intro st' hst'
    rw [filled_none, List.mem_singleton] at hst'
    rw [hst']
    exact h
  | some filling =>
    have hfits := hfits filling rfl
    have hchild : ∀ gap notes, Stretch.PassesGap context gap notes →
        Content.OnlyInstructions notes →
        (filling.child gap notes).Sound context := by
      intro gap notes hgap honly
      have hchild := sound_emptyTag hfits.named hfits.writable
      rw [← hfits.resolved] at hchild
      exact hchild.afterGap hgap honly
    cases hform : st.form with
    | opening =>
      simp only [Stretch.filled, hform, List.mem_singleton, forall_eq]
      exact h
    | empty =>
      simp only [Stretch.filled, hform, List.mem_cons, List.not_mem_nil, or_false, forall_eq_or_imp,
        forall_eq]
      obtain ⟨hopens, hspelled⟩ := h.openUp hform
      have hlead : Stretch.PassesGap context filling.lead [] :=
        Reader.passesGap_of_spaces hfits.lead
      refine ⟨⟨hspelled, hopens, h.only, h.gap, by simp [Stretch.openUp]⟩,
        hchild _ _ hlead Content.onlyInstructions_nil, ?_⟩
      exact sound_endTag hfits.trail (endSpelled_endTagChars h.named)
    | closing =>
      simp only [Stretch.filled, hform, List.mem_cons, List.not_mem_nil, or_false, forall_eq_or_imp,
        forall_eq]
      refine ⟨hchild _ _ h.gap h.only, ?_⟩
      have hclosing : EndSpelled context.alphabet st.name st.text := by
        have hclosing := h.spelled
        unfold Stretch.Spelled at hclosing
        rwa [hform] at hclosing
      obtain ⟨inner, htext⟩ := h.spelled.exists_text
      rw [htext] at hclosing ⊢
      exact sound_endTag hfits.trail hclosing

theorem isText_name {alphabet : Alphabet} (hspelled : st.Spelled alphabet) (h : IsText st.text) :
    IsText st.name.toList := by
  intro c hc
  refine h c ?_
  unfold Stretch.Spelled at hspelled
  cases hform : st.form with
  | closing =>
    rw [hform] at hspelled
    obtain ⟨space, htext, -⟩ := hspelled.rest
    rw [htext]
    simp [hc]
  | _ =>
    rw [hform] at hspelled
    obtain ⟨more, htext, -⟩ := hspelled.rest
    rw [htext]
    simp [hc]

/-- The characters are those that a document may hold. -/
theorem isText_filled {alphabet : Alphabet} (hspelled : st.Spelled alphabet) (h : IsText st.chars)
    (hfits : ∀ f ∈ filling, f.Fits context) : IsText (trailChars (st.filled filling)) := by
  obtain ⟨hgap, htext⟩ := isText_append_iff.mp h
  cases filling with
  | none => simpa using h
  | some filling =>
    have hfits := hfits filling rfl
    have htrail := (isCommon_of_spaces hfits.trail).isText
    have hmark : IsText ['>'] := IsCommon.isText (by decide)
    cases hform : st.form with
    | opening => simpa [Stretch.filled, hform] using h
    | empty =>
      simp only [Stretch.filled, hform, trailChars_cons, trailChars_nil, List.append_nil]
      have hopen : IsText st.openUp.text := by
        refine IsText.append (fun c hc => htext c ?_) hmark
        exact List.dropLast_subset _ (List.dropLast_subset _ hc)
      have hslash : IsText ['<', '/'] := IsCommon.isText (by decide)
      have hend : IsText (endTagChars st.name) :=
        hslash.append ((isText_name hspelled htext).append hmark)
      exact (hgap.append hopen).append
        (((isCommon_of_spaces hfits.lead).isText.append hfits.text).append
        (htrail.append hend))
    | closing =>
      simp only [Stretch.filled, hform, trailChars_cons, trailChars_nil, List.append_nil]
      exact (hgap.append hfits.text).append (htrail.append htext)

end Filled

theorem isText_fill [Code] {context : Prolog.Context} {sts : List (Stretch × Option Filling)}
    (hspelled : ∀ p ∈ sts, p.1.Spelled context.alphabet)
    (h : IsText (trailChars (sts.map Prod.fst))) (hfits : ∀ p ∈ sts, ∀ f ∈ p.2, f.Fits context) :
    IsText (trailChars (fill sts)) := by
  induction sts with
  | nil => exact h
  | cons p sts ih =>
    rw [List.map_cons, trailChars_cons] at h
    obtain ⟨hfirst, hrest⟩ := isText_append_iff.mp h
    rw [fill_cons, trailChars, List.flatMap_append]
    exact (isText_filled (hspelled p List.mem_cons_self) hfirst (hfits p List.mem_cons_self)).append
      (ih (fun q hq => hspelled q (List.mem_cons_of_mem _ hq)) hrest
        fun q hq => hfits q (List.mem_cons_of_mem _ hq))

/-- The root element begins as before. -/
theorem begins_fill {alphabet : Alphabet} {sts : List (Stretch × Option Filling)}
    (hspelled : ∀ p ∈ sts, p.1.Spelled alphabet) (h : Nests [] (sts.map Prod.fst)) :
    (trailChars (fill sts)).take 2 = (trailChars (sts.map Prod.fst)).take 2 := by
  cases sts with
  | nil => exact h.elim
  | cons p sts =>
    obtain ⟨st, filling⟩ := p
    have hspelled := hspelled (st, filling) List.mem_cons_self
    -- It is enough that the first stretch goes on with the same two characters.
    have hsame : ∀ (front cs cs' ds ds' : List Char), cs.take 2 = cs'.take 2 → 2 ≤ cs.length →
        2 ≤ cs'.length → (front ++ cs ++ ds).take 2 = (front ++ cs' ++ ds').take 2 := by
      intro front cs cs' ds ds' htake hlength hlength'
      have hcut : ∀ (cs ds : List Char), 2 ≤ cs.length →
          (front ++ cs ++ ds).take 2 = (front ++ cs.take 2).take 2 := by
        intro cs ds hlength
        rw [List.take_append_of_le_length (by rw [List.length_append]; omega), List.take_append,
          List.take_append, List.take_take, Nat.min_eq_left (by omega)]
      rw [hcut cs ds hlength, hcut cs' ds' hlength', htake]
    have hlength := hspelled.two_le_length
    rw [fill_cons, List.map_cons, trailChars_cons, Stretch.chars]
    have hkept : st.filled filling = [st] →
        (trailChars (st.filled filling ++ fill sts)).take 2 =
          (st.gap ++ st.text ++ trailChars (sts.map Prod.fst)).take 2 := by
      intro heq
      rw [heq, List.singleton_append, trailChars_cons, Stretch.chars]
      exact hsame _ _ _ _ _ rfl hlength hlength
    cases filling with
    | none => exact hkept (filled_none st)
    | some filling =>
      cases hform : st.form with
      | opening => exact hkept (by simp [Stretch.filled, hform])
      | closing =>
        obtain ⟨stack', hafter, -⟩ := h
        simp [Stretch.stackAfter?, hform] at hafter
      | empty =>
        obtain ⟨front, htext, hopenUp, c, rest, hfront⟩ := exists_front hspelled hform
        simp only [Stretch.filled, hform, List.cons_append, trailChars_cons, Stretch.chars]
        rw [hopenUp]
        refine hsame _ _ _ _ _ ?_ (by simp [hfront]) hlength
        rw [htext, hfront]
        rfl

/-- **Filled documents.** The stretches of a document may stand filled in their place. -/
theorem Layout.Explains.fit_fill [Code] {context : Prolog.Context} {l : Layout} {standalone : Bool}
    {sts : List (Stretch × Option Filling)} (h : l.Explains context standalone)
    (hsts : sts.map Prod.fst = l.stretches) (hfits : ∀ p ∈ sts, ∀ f ∈ p.2, f.Fits context) :
    (∀ st ∈ fill sts, st.Sound context) ∧ l.Fit context (fill sts) := by
  have hsound : ∀ p ∈ sts, p.1.Sound context := by
    intro p hp
    refine h.sound p.1 ?_
    rw [← hsts]
    exact List.mem_map_of_mem hp
  have hspelled : ∀ p ∈ sts, p.1.Spelled context.alphabet := fun p hp => (hsound p hp).spelled
  have hfilled : ∀ st ∈ fill sts, st.Sound context := by
    intro st hst
    obtain ⟨p, hp, hst⟩ := List.mem_flatMap.mp hst
    exact sound_filled (hsound p hp) (hfits p hp) st hst
  have hfit := h.fit
  rw [← hsts] at hfit
  refine ⟨hfilled, nests_fill hfit.nests, fun st hst => (hfilled st hst).passes,
    isText_fill hspelled hfit.text hfits, ?_⟩
  rw [← hsts]
  exact begins_fill hspelled hfit.nests

/-- A filled document is laid out as it was. -/
theorem Layout.Explains.fill [Code] {context : Prolog.Context} {l : Layout} {standalone : Bool}
    {sts : List (Stretch × Option Filling)} (h : l.Explains context standalone)
    (hsts : sts.map Prod.fst = l.stretches) (hfits : ∀ p ∈ sts, ∀ f ∈ p.2, f.Fits context) :
    (l.withStretches (fill sts)).Explains context standalone := by
  obtain ⟨hsound, hfit⟩ := h.fit_fill hsts hfits
  obtain ⟨hfront, htail⟩ := isText_append_iff.mp h.text
  obtain ⟨version, typed, before, after, hbefore, hafter, hreads⟩ := h.reads
  refine ⟨hfit.nests, hsound, ((isText_append_iff.mp hfront).1.append hfit.text).append htail,
    version, typed, before, after, hbefore, hafter, fun sts' hfit' => ?_⟩
  exact hreads sts' ⟨hfit'.nests, hfit'.passes, hfit'.text, hfit'.begins.trans hfit.begins⟩

end AccessPatch.Xml
