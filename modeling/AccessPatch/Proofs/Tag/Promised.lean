import AccessPatch.Proofs.Tag.Paired
import Mathlib.Data.List.Chain

/-!
# What a provider of ranges promises

Ranges need not come from the reader: `Promised` says what any source of them has to keep to. They
are balanced, they follow one another within the document, and each takes bytes, but for the end
of an empty element, which has none of its own.

Names play no part, nor does the number of roots. `Tracks.cons` says how one more element is
tracked, whatever is to be known of it. So `tracks_of_balanced` tracks such ranges by induction on
their nesting, and each element found comes with its slot, from `slotStart` to `slotStop`, the
place of its operation: the slots do not overlap and stand in the order in which the elements end
(`Spread`).
-/

namespace AccessPatch

/-! ## The promise -/

namespace TagRange

/-- The start tag and the end of an element that holds `inner`. An empty element holds nothing and
ends where its tag does. -/
structure Encloses (opening closing : TagRange) (inner : List TagRange) : Prop where
  opens : opening.kind = .opening
  closes : closing.kind = .closing
  takesBytes : opening.start < opening.stop
  empty : opening.selfClosing = true → inner = [] ∧ opening.start + 2 ≤ opening.stop ∧
    closing.start = opening.stop ∧ closing.stop = opening.stop
  proper : opening.selfClosing = false → closing.start < closing.stop

/-- The ranges of elements that stand next to each other. -/
inductive Balanced : List TagRange → Prop where
  | nil : Balanced []
  | cons {opening closing : TagRange} {inner rest : List TagRange}
      (tags : Encloses opening closing inner) (inside : Balanced inner) (next : Balanced rest) :
      Balanced (opening :: (inner ++ closing :: rest))

/-- What a provider promises about the ranges of a document. -/
structure Promised (buffer : Bytes) (ranges : List TagRange) : Prop where
  balanced : Balanced ranges
  within : ∀ r ∈ ranges, 0 ≤ r.start ∧ r.start ≤ r.stop ∧ r.stop ≤ buffer.length
  /-- Each range starts where the one before it stops, or later. -/
  follows : ranges.IsChain fun r r' => r.stop ≤ r'.start

/-- The ranges lie between two offsets and follow one another. -/
structure Between (a b : Int) (ranges : List TagRange) : Prop where
  within : ∀ r ∈ ranges, a ≤ r.start ∧ r.start ≤ r.stop ∧ r.stop ≤ b
  ordered : ranges.Pairwise fun r r' => r.stop ≤ r'.start

theorem between_of_follows {buffer : Bytes} {ranges : List TagRange}
    (hwithin : ∀ r ∈ ranges, 0 ≤ r.start ∧ r.start ≤ r.stop ∧ r.stop ≤ buffer.length)
    (hfollows : ranges.IsChain fun r r' => r.stop ≤ r'.start) : Between 0 buffer.length ranges := by
  refine ⟨hwithin, ?_⟩
  -- The order of neighbours carries over, since no range stops before it starts.
  have hchain : ranges.IsChain fun r r' => r.stop ≤ r'.start ∧ r'.start ≤ r'.stop :=
    hfollows.imp_of_mem_imp fun r r' _ hr' hle => ⟨hle, (hwithin r' hr').2.1⟩
  have htrans : ∀ r r' r'' : TagRange, r.stop ≤ r'.start ∧ r'.start ≤ r'.stop →
      r'.stop ≤ r''.start ∧ r''.start ≤ r''.stop → r.stop ≤ r''.start ∧ r''.start ≤ r''.stop := by
    intro r r' r'' h₁ h₂
    omega
  have : IsTrans TagRange fun r r' => r.stop ≤ r'.start ∧ r'.start ≤ r'.stop := ⟨htrans⟩
  exact hchain.pairwise.imp And.left

theorem Promised.between {buffer : Bytes} {ranges : List TagRange} (h : Promised buffer ranges) :
    Between 0 buffer.length ranges :=
  between_of_follows h.within h.follows

/-- The ranges of one element and of those after it, cut at its two tags. -/
theorem Between.split {a b : Int} {opening closing : TagRange} {inner rest : List TagRange}
    (h : Between a b (opening :: (inner ++ closing :: rest))) :
    a ≤ opening.start ∧ opening.stop ≤ closing.start ∧ closing.start ≤ closing.stop ∧
      closing.stop ≤ b ∧ Between opening.stop closing.start inner ∧
      Between closing.stop b rest := by
  obtain ⟨hwithin, hordered⟩ := h
  obtain ⟨hopening, hall⟩ := List.forall_mem_cons.mp hwithin
  obtain ⟨hinner, hclosing, hrest⟩ : (∀ r ∈ inner, _) ∧ _ ∧ ∀ r ∈ rest, _ := by
    simpa only [List.forall_mem_append, List.forall_mem_cons] using hall
  obtain ⟨hfirst, hordered⟩ := List.pairwise_cons.mp hordered
  obtain ⟨hordered, hordered', hacross⟩ := List.pairwise_append.mp hordered
  obtain ⟨hlast, hordered'⟩ := List.pairwise_cons.mp hordered'
  have hends := hfirst closing (by simp)
  refine ⟨hopening.1, hends, hclosing.2.1, hclosing.2.2, ⟨fun r hr => ?_, hordered⟩,
    ⟨fun r hr => ?_, hordered'⟩⟩
  · have hstart := hfirst r (List.mem_append_left _ hr)
    have hstop := hacross r hr closing List.mem_cons_self
    exact ⟨hstart, (hinner r hr).2.1, hstop⟩
  · exact ⟨hlast r hr, (hrest r hr).2⟩

end TagRange

/-! ## Slots -/

/-- Where the operation for an element begins. -/
def Extent.slotStart (x : Extent) : Int :=
  if x.selfClosing then x.openEnd - 2 else x.closeStart

/-- Where the operation for an element ends. -/
def Extent.slotStop (x : Extent) : Int :=
  if x.selfClosing then x.openEnd else x.closeStart

namespace Pairing

open TagRange (Balanced Between Encloses)

/-- The element is that of a start tag, and is written as one tag if that tag says so. -/
structure StartsWith (opening : TagRange) (e : Element) : Prop where
  opens : opening.kind = .opening
  tag : e.tag = opening.name
  attributes : e.attributes = opening.attributes
  start : e.extent.start = opening.start
  openEnd : e.extent.openEnd = opening.stop
  selfClosing : e.extent.selfClosing = opening.selfClosing

/-- The elements that end with some ranges between two offsets, in the order of their ends. -/
structure Spread (ranges : List TagRange) (a b : Int) (ended : List Element) : Prop where
  written : ∀ e ∈ ended, ∃ r ∈ ranges, StartsWith r e
  slots : ∀ e ∈ ended, a ≤ e.extent.slotStart ∧ e.extent.slotStart < b ∧ e.extent.slotStop ≤ b
  apart : ended.Pairwise fun e f =>
    e.extent.slotStart < f.extent.slotStart ∧ e.extent.slotStop ≤ f.extent.slotStart
  starts : ∀ e ∈ ended, a ≤ e.extent.start ∧ e.extent.start < b
  distinct : ended.Pairwise fun e f => e.extent.start ≠ f.extent.start

/-- The element that two ranges make, with its lines in the document. -/
structure MadeOf (index : LineTable) (opening closing : TagRange) (e : Element) : Prop where
  tag : e.tag = opening.name
  attributes : e.attributes = opening.attributes
  start : e.extent.start = opening.start
  openEnd : e.extent.openEnd = opening.stop
  closeStart : e.extent.closeStart = closing.start
  stop : e.extent.stop = closing.stop
  startLine : e.startLine = index.lineAt opening.start
  endLine : e.endLine = index.lineAt (max (closing.stop - 1) opening.start)

variable {index : LineTable} {tags : List String} {opening closing : TagRange}
  {inner : List TagRange} {e : Element}

theorem startsWith_of_madeOf (he : MadeOf index opening closing e)
    (hopens : opening.kind = .opening)
    (hempty : opening.selfClosing = true →
      closing.start = opening.stop ∧ closing.stop = opening.stop)
    (hproper : opening.selfClosing = false → closing.start < closing.stop) :
    StartsWith opening e := by
  refine ⟨hopens, he.tag, he.attributes, he.start, he.openEnd, ?_⟩
  cases hself : opening.selfClosing with
  | true =>
    obtain ⟨hcloseStart, hstop⟩ := hempty hself
    simp [Extent.selfClosing, he.closeStart, he.stop, he.openEnd, hcloseStart, hstop]
  | false =>
    have hne : e.extent.closeStart ≠ e.extent.stop := by
      rw [he.closeStart, he.stop]
      exact (hproper hself).ne
    simp [Extent.selfClosing, hne]

/-- Where the operation for an element lies: in its tag if it is empty, else at its end tag. -/
theorem slot_of_encloses (htags : Encloses opening closing inner) (hstarts : StartsWith opening e)
    (hends : e.extent.closeStart = closing.start) (hle : opening.stop ≤ closing.start) :
    opening.start ≤ e.extent.slotStart ∧ e.extent.slotStart < closing.stop ∧
      e.extent.slotStop ≤ closing.start ∧ (inner ≠ [] → closing.start ≤ e.extent.slotStart) := by
  have hbytes := htags.takesBytes
  have hopenEnd := hstarts.openEnd
  simp only [Extent.slotStart, Extent.slotStop, hstarts.selfClosing]
  cases hempty : opening.selfClosing with
  | true =>
    obtain ⟨hinner, hlong, hcloseStart, hstop⟩ := htags.empty hempty
    simp only [if_true]
    exact ⟨by omega, by omega, by omega, fun hne => absurd hinner hne⟩
  | false =>
    have hproper := htags.proper hempty
    simp only [Bool.false_eq_true, if_false]
    exact ⟨by omega, by omega, by omega, fun _ => by omega⟩

section Around

variable {before after : List Element} {o : Option Element}

theorem forall_mem_around {P : Element → Prop} : (∀ e ∈ before ++ (o.toList ++ after), P e) ↔
    (∀ e ∈ before, P e) ∧ (∀ e ∈ o, P e) ∧ ∀ e ∈ after, P e := by
  simp only [List.forall_mem_append, Option.mem_toList, Option.mem_def]

theorem pairwise_around {R : Element → Element → Prop} (hbefore : before.Pairwise R)
    (hafter : after.Pairwise R) (hleft : ∀ e ∈ before, ∀ f ∈ o, R e f)
    (hright : ∀ e ∈ o, ∀ f ∈ after, R e f) (hacross : ∀ e ∈ before, ∀ f ∈ after, R e f) :
    (before ++ (o.toList ++ after)).Pairwise R := by
  have ho : o.toList.Pairwise R := by cases o <;> simp
  refine List.pairwise_append.mpr ⟨hbefore, List.pairwise_append.mpr ⟨ho, hafter, ?_⟩, ?_⟩
  · exact fun e he f hf => hright e (Option.mem_toList.mp he) f hf
  · intro e he f hf
    rcases List.mem_append.mp hf with hf | hf
    · exact hleft e he f (Option.mem_toList.mp hf)
    · exact hacross e he f hf

end Around

/-- The elements of one more element, which may be tracked, and of those next to it. -/
theorem Spread.cons {a b : Int} {rest : List TagRange} {endedInner endedRest : List Element}
    {o : Option Element} (htags : Encloses opening closing inner)
    (hwithin : Between a b (opening :: (inner ++ closing :: rest)))
    (ho : ∀ e ∈ o, StartsWith opening e ∧ e.extent.closeStart = closing.start)
    (hempty : inner = [] → endedInner = [])
    (hinner : Spread inner opening.stop closing.start endedInner)
    (hrest : Spread rest closing.stop b endedRest) :
    Spread (opening :: (inner ++ closing :: rest)) a b (endedInner ++ (o.toList ++ endedRest)) := by
  obtain ⟨hstart, hends, hcloses, hstop, -, -⟩ := hwithin.split
  have hbytes := htags.takesBytes
  have hslot : ∀ e ∈ o, e.extent.start = opening.start ∧ opening.start ≤ e.extent.slotStart ∧
      e.extent.slotStart < closing.stop ∧ e.extent.slotStop ≤ closing.start ∧
      (inner ≠ [] → closing.start ≤ e.extent.slotStart) := by
    intro e he
    obtain ⟨hstarts, hcloseStart⟩ := ho e he
    exact ⟨hstarts.start, slot_of_encloses htags hstarts hcloseStart hends⟩
  have hnonempty : ∀ e ∈ endedInner, inner ≠ [] := by
    intro e he hnil
    rw [hempty hnil] at he
    cases he
  constructor
  case written =>
    refine forall_mem_around.mpr ⟨fun e he => ?_, fun e he => ?_, fun e he => ?_⟩
    · obtain ⟨r, hr, hstarts⟩ := hinner.written e he
      exact ⟨r, by simp [hr], hstarts⟩
    · exact ⟨opening, List.mem_cons_self, (ho e he).1⟩
    · obtain ⟨r, hr, hstarts⟩ := hrest.written e he
      exact ⟨r, by simp [hr], hstarts⟩
  case slots =>
    refine forall_mem_around.mpr ⟨fun e he => ?_, fun e he => ?_, fun e he => ?_⟩
    · have := hinner.slots e he
      omega
    · have := hslot e he
      omega
    · have := hrest.slots e he
      omega
  case apart =>
    refine pairwise_around hinner.apart hrest.apart (fun e he f hf => ?_) (fun e he f hf => ?_)
      fun e he f hf => ?_
    · have := hinner.slots e he
      have := (hslot f hf).2.2.2.2 (hnonempty e he)
      omega
    · have := hslot e he
      have := hrest.slots f hf
      omega
    · have := hinner.slots e he
      have := hrest.slots f hf
      omega
  case starts =>
    refine forall_mem_around.mpr ⟨fun e he => ?_, fun e he => ?_, fun e he => ?_⟩
    · have := hinner.starts e he
      omega
    · have := hslot e he
      omega
    · have := hrest.starts e he
      omega
  case distinct =>
    refine pairwise_around hinner.distinct hrest.distinct (fun e he f hf => ?_)
      (fun e he f hf => ?_)
      fun e he f hf => ?_
    · have := hinner.starts e he
      have := hslot f hf
      omega
    · have := hslot e he
      have := hrest.starts f hf
      omega
    · have := hinner.starts e he
      have := hrest.starts f hf
      omega

/-! ## Tracking -/

/-- What an open element is, apart from its annotations. -/
def Unclosed.bare (u : Unclosed) : String × Attributes × Int × Int :=
  (u.tag, u.attributes, u.start, u.openEnd)

theorem bare_annotate (attributes : Attributes) (stack : List Unclosed) :
    (annotate attributes stack).map Unclosed.bare = stack.map Unclosed.bare := by
  cases stack <;> rfl

theorem madeOf_of_isClosed {u : Unclosed}
    (hu : u.bare = (opening.name, opening.attributes, opening.start, opening.stop))
    (he : IsClosed index u closing.start closing.stop e) : MadeOf index opening closing e := by
  obtain ⟨htag, hattributes, hstart, hopenEnd⟩ : u.tag = opening.name ∧
      u.attributes = opening.attributes ∧ u.start = opening.start ∧ u.openEnd = opening.stop := by
    simpa only [Unclosed.bare, Prod.mk.injEq] using hu
  refine ⟨he.tag.trans htag, he.attributes.trans hattributes, he.start.trans hstart,
    he.openEnd.trans hopenEnd, he.closeStart, he.stop, ?_, ?_⟩
  · rw [he.startLine, hstart]
  · rw [he.endLine, hstart]

/-- Tracking of some ranges succeeds, leaves the elements open that were open before, and ends
elements of which `Q` holds. -/
def Tracks (index : LineTable) (tags : List String) (ranges : List TagRange)
    (Q : List Element → Prop) : Prop :=
  ∀ (stack : List Unclosed) (ended : List Element), ∃ stack' es,
    ranges.foldlM (step index tags) ⟨stack, ended⟩ = .ok ⟨stack', es.reverse ++ ended⟩ ∧
      stack'.map Unclosed.bare = stack.map Unclosed.bare ∧ Q es

theorem Tracks.nil {Q : List Element → Prop} (h : Q []) : Tracks index tags [] Q :=
  fun stack _ => ⟨stack, [], rfl, rfl, h⟩

/-- One more element, which ends after those in it and before those next to it. -/
theorem Tracks.cons {rest : List TagRange} {Q Q₁ Q₂ : List Element → Prop}
    (hopens : opening.kind = .opening) (hcloses : closing.kind = .closing)
    (horder : opening.start ≤ opening.stop ∧ opening.stop ≤ closing.start ∧
      closing.start ≤ closing.stop)
    (hinner : Tracks index tags inner Q₁) (hrest : Tracks index tags rest Q₂)
    (hall : ∀ (es₁ : List Element) (o : Option Element) (es₂ : List Element), Q₁ es₁ → Q₂ es₂ →
      (o.isSome = tags.contains opening.name) → (∀ e ∈ o, MadeOf index opening closing e) →
      Q (es₁ ++ (o.toList ++ es₂))) :
    Tracks index tags (opening :: (inner ++ closing :: rest)) Q := by
  intro stack ended
  obtain ⟨hopen, hinside, hclose⟩ := horder
  let u : Unclosed := ⟨opening.name, opening.attributes, opening.start, opening.stop, false, none⟩
  let marked :=
    if opening.name = Accessibility.tag then annotate opening.attributes stack else stack
  have hmarked : marked.map Unclosed.bare = stack.map Unclosed.bare := by
    by_cases hname : opening.name = Accessibility.tag
    · simp only [marked, if_pos hname, bare_annotate]
    · simp only [marked, if_neg hname]
  obtain ⟨stack₁, es₁, hfold₁, hstack₁, hes₁⟩ := hinner (u :: marked) ended
  -- The entry of this element is on top again, and its end takes it off.
  obtain ⟨u', stack₂, rfl, hu', hstack₂⟩ : ∃ u' stack₂, stack₁ = u' :: stack₂ ∧
      u'.bare = u.bare ∧ stack₂.map Unclosed.bare = marked.map Unclosed.bare := by
    cases stack₁ with
    | nil => cases hstack₁
    | cons u' stack₂ =>
      rw [List.map_cons, List.map_cons, List.cons.injEq] at hstack₁
      exact ⟨u', stack₂, rfl, hstack₁⟩
  obtain ⟨hutag, -, hustart, huopenEnd⟩ : u'.tag = opening.name ∧
      u'.attributes = opening.attributes ∧
      u'.start = opening.start ∧ u'.openEnd = opening.stop := by
    simpa only [Unclosed.bare, Prod.mk.injEq] using hu'
  obtain ⟨o, hyields, hsome, ho⟩ : ∃ o, Yields index tags u' closing.start closing.stop o ∧
      o.isSome = tags.contains opening.name ∧ ∀ e ∈ o, MadeOf index opening closing e := by
    cases htracked : tags.contains u'.tag with
    | false => exact ⟨none, .untracked htracked, by rw [← hutag, htracked]; rfl, by simp⟩
    | true =>
      obtain ⟨e, he⟩ : ∃ e, IsClosed index u' closing.start closing.stop e :=
        exists_isClosed (by omega) (by omega) hclose
      refine ⟨some e, .tracked htracked he, by rw [← hutag, htracked]; rfl, fun f hf => ?_⟩
      obtain rfl := Option.some.inj hf
      exact madeOf_of_isClosed hu' he
  obtain ⟨stack₃, es₂, hfold₂, hstack₃, hes₂⟩ := hrest stack₂ (o.toList ++ (es₁.reverse ++ ended))
  refine ⟨stack₃, es₁ ++ (o.toList ++ es₂), ?_, ?_, hall es₁ o es₂ hes₁ hes₂ hsome ho⟩
  · have hended : (es₁ ++ (o.toList ++ es₂)).reverse ++ ended =
        es₂.reverse ++ (o.toList ++ (es₁.reverse ++ ended)) := by
      cases o <;> simp
    rw [hended]
    exact foldlM_cons_eq_ok_iff.mpr ⟨_, step_opening hopens,
      foldlM_append_eq_ok_iff.mpr ⟨_, hfold₁, foldlM_cons_eq_ok_iff.mpr
        ⟨_, (step_closing_iff hcloses).mpr ⟨o, hyields, rfl⟩, hfold₂⟩⟩⟩
  · rw [hstack₃, hstack₂, hmarked]

/-- The answer holds the elements that end with the ranges, in the order of their starts. -/
theorem Tracks.trackedElements {buffer : Bytes} {ranges : List TagRange} {Q : List Element → Prop}
    (h : Tracks (.ofBytes buffer) tags ranges Q) :
    ∃ ended elements, trackedElements buffer tags ranges = .ok elements ∧ Q ended ∧
      elements.Perm ended ∧
      elements.Pairwise fun e f => e.extent.start ≤ f.extent.start := by
  obtain ⟨stack, ended, hfold, -, hQ⟩ := h [] []
  refine ⟨ended, ended.mergeSort fun e f => decide (e.extent.start ≤ f.extent.start), ?_, hQ,
    List.mergeSort_perm _ _, sorted_mergeSort_key (fun e : Element => e.extent.start) ended⟩
  rw [AccessPatch.trackedElements, hfold]
  simp only [bind, Except.bind, pure, Except.pure, List.append_nil, List.reverse_reverse]

/-- Tracking of balanced ranges succeeds, and the slots of the elements that end stand in order. -/
theorem tracks_of_balanced (index : LineTable) (tags : List String) {ranges : List TagRange}
    (h : TagRange.Balanced ranges) {a b : Int} (hwithin : Between a b ranges) :
    Tracks index tags ranges fun es => (ranges = [] → es = []) ∧ Spread ranges a b es := by
  induction h generalizing a b with
  | nil => exact .nil ⟨fun _ => rfl, by simp, by simp, .nil, by simp, .nil⟩
  | @cons opening closing inner rest htags inside next ihInside ihNext =>
    obtain ⟨hstart, hends, hcloses, hstop, hwithinInner, hwithinRest⟩ := hwithin.split
    refine .cons htags.opens htags.closes ⟨htags.takesBytes.le, hends, hcloses⟩
      (ihInside hwithinInner)
      (ihNext hwithinRest) ?_
    intro es₁ o es₂ hes₁ hes₂ _ ho
    refine ⟨by simp, Spread.cons htags hwithin (fun e he => ?_) hes₁.1 hes₁.2 hes₂.2⟩
    refine ⟨startsWith_of_madeOf (ho e he) htags.opens (fun hself => ?_) htags.proper,
      (ho e he).closeStart⟩
    exact (htags.empty hself).2.2

end Pairing

end AccessPatch
