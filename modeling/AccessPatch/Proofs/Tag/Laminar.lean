import AccessPatch.Proofs.LineTable
import AccessPatch.Proofs.Tag.Promised

/-!
# Elements nest

The places of tracked elements form a laminar family: of any two elements the one ends before the
other begins, or it lies between the two tags of the other. For this a source of ranges has to
promise less than for a plan that fits: `Orderly` asks of the tag of an empty element no more than
one byte.

* `laminar_of_nested`: by induction on the nesting of the ranges, in the order in which the
  elements end;
* `LineTable.lineAt_mono`: a later offset lies in a later line or in the same one.

Main result: `laminar_of_orderly`.
-/

namespace AccessPatch

/-! ## Ranges in order -/

namespace TagRange

/-- The start tag and the end of an element that holds `inner`. The end of an empty element takes
no bytes and follows at once; all other tags take some. -/
structure Delimits (opening closing : TagRange) (inner : List TagRange) : Prop where
  opens : opening.kind = .opening
  closes : closing.kind = .closing
  takesBytes : opening.start < opening.stop
  empty : opening.selfClosing = true →
    inner = [] ∧ closing.start = opening.stop ∧ closing.stop = opening.stop
  proper : opening.selfClosing = false → closing.start < closing.stop

/-- The ranges of elements that stand next to each other. -/
inductive Nested : List TagRange → Prop where
  | nil : Nested []
  | cons {opening closing : TagRange} {inner rest : List TagRange}
      (tags : Delimits opening closing inner) (inside : Nested inner) (next : Nested rest) :
      Nested (opening :: (inner ++ closing :: rest))

/-- The ranges of a document, balanced and one after the other. -/
structure Orderly (buffer : Bytes) (ranges : List TagRange) : Prop where
  nested : Nested ranges
  within : ∀ r ∈ ranges, 0 ≤ r.start ∧ r.start ≤ r.stop ∧ r.stop ≤ buffer.length
  /-- Each range starts where the one before it stops, or later. -/
  follows : ranges.IsChain fun r r' => r.stop ≤ r'.start

end TagRange

/-! ## Places of elements -/

/-- The second place lies between the tags of the first. -/
def Extent.Holds (x y : Extent) : Prop :=
  x.openEnd ≤ y.start ∧ y.stop ≤ x.closeStart

namespace Pairing

open TagRange (Between Delimits Nested Orderly)

variable {index : LineTable} {tags : List String} {opening closing : TagRange}
  {inner rest : List TagRange} {ended : List Element} {a b : Int}

/-- The elements that end with some ranges between two offsets, in the order of their ends. An
element that ends later holds one that ended before it, or begins after that one. -/
structure Laminar (index : LineTable) (tags : List String) (ranges : List TagRange) (a b : Int)
    (ended : List Element) : Prop where
  written : ∀ e ∈ ended, ∃ r ∈ ranges, StartsWith r e
  found : ∀ r ∈ ranges, r.kind = .opening → r.name ∈ tags → ∃ e ∈ ended, StartsWith r e
  takesBytes : ∀ e ∈ ended, e.extent.start < e.extent.openEnd
  inside : ∀ e ∈ ended, a ≤ e.extent.start ∧ e.extent.stop ≤ b
  lines : ∀ e ∈ ended, e.startLine = index.lineAt e.extent.start ∧
    e.endLine = index.lineAt (max (e.extent.stop - 1) e.extent.start)
  apart : ended.Pairwise fun e f => e.extent.stop ≤ f.extent.start ∨ f.extent.Holds e.extent

theorem Laminar.nil : Laminar index tags [] a b [] :=
  ⟨by simp, by simp, by simp, by simp, by simp, .nil⟩

theorem Laminar.append {ranges ranges' : List TagRange} {ended' : List Element}
    (h : Laminar index tags ranges a b ended) (h' : Laminar index tags ranges' a b ended')
    (hapart : ∀ e ∈ ended, ∀ f ∈ ended', e.extent.stop ≤ f.extent.start ∨ f.extent.Holds e.extent) :
    Laminar index tags (ranges ++ ranges') a b (ended ++ ended') where
  written e he := by
    rcases List.mem_append.mp he with he | he
    · obtain ⟨r, hr, hstarts⟩ := h.written e he
      exact ⟨r, List.mem_append_left _ hr, hstarts⟩
    · obtain ⟨r, hr, hstarts⟩ := h'.written e he
      exact ⟨r, List.mem_append_right _ hr, hstarts⟩
  found r hr hopens htracked := by
    rcases List.mem_append.mp hr with hr | hr
    · obtain ⟨e, he, hstarts⟩ := h.found r hr hopens htracked
      exact ⟨e, List.mem_append_left _ he, hstarts⟩
    · obtain ⟨e, he, hstarts⟩ := h'.found r hr hopens htracked
      exact ⟨e, List.mem_append_right _ he, hstarts⟩
  takesBytes := List.forall_mem_append.mpr ⟨h.takesBytes, h'.takesBytes⟩
  inside := List.forall_mem_append.mpr ⟨h.inside, h'.inside⟩
  lines := List.forall_mem_append.mpr ⟨h.lines, h'.lines⟩
  apart := List.pairwise_append.mpr ⟨h.apart, h'.apart, hapart⟩

theorem Laminar.mono {a' b' : Int} {ranges : List TagRange}
    (h : Laminar index tags ranges a b ended) (ha : a' ≤ a) (hb : b ≤ b') :
    Laminar index tags ranges a' b' ended :=
  { h with inside := fun e he => ⟨ha.trans (h.inside e he).1, (h.inside e he).2.trans hb⟩ }

/-- An element of its own: its two tags, with what is in it left out. -/
theorem Laminar.one {o : Option Element} (htags : Delimits opening closing inner)
    (hsome : o.isSome = tags.contains opening.name) (ho : ∀ e ∈ o, MadeOf index opening closing e) :
    Laminar index tags [opening, closing] opening.start closing.stop o.toList := by
  have hmade : ∀ e ∈ o.toList, MadeOf index opening closing e :=
    fun e he => ho e (Option.mem_toList.mp he)
  have hstarts : ∀ e ∈ o.toList, StartsWith opening e := fun e he =>
    startsWith_of_madeOf (hmade e he) htags.opens (fun hself => (htags.empty hself).2) htags.proper
  refine ⟨fun e he => ⟨opening, by simp, hstarts e he⟩, fun r hr hopens htracked => ?_,
    fun e he => ?_, fun e he => ?_, fun e he => ?_, ?_⟩
  · rcases List.mem_pair.mp hr with rfl | rfl
    · obtain ⟨e, rfl⟩ :=
        Option.isSome_iff_exists.mp (hsome.trans (List.contains_iff_mem.mpr htracked))
      exact ⟨e, by simp, hstarts e (by simp)⟩
    · rw [htags.closes] at hopens
      cases hopens
  · rw [(hmade e he).start, (hmade e he).openEnd]
    exact htags.takesBytes
  · exact ⟨(hmade e he).start.ge, (hmade e he).stop.le⟩
  · rw [(hmade e he).start, (hmade e he).stop]
    exact ⟨(hmade e he).startLine, (hmade e he).endLine⟩
  · cases o <;> simp

theorem Laminar.perm {ranges ranges' : List TagRange} (h : Laminar index tags ranges a b ended)
    (hperm : ranges.Perm ranges') : Laminar index tags ranges' a b ended :=
  { h with
    written := fun e he => by
      obtain ⟨r, hr, hstarts⟩ := h.written e he
      exact ⟨r, hperm.mem_iff.mp hr, hstarts⟩
    found := fun r hr => h.found r (hperm.mem_iff.mpr hr) }

/-- The elements of one more element, which may be tracked, and of those next to it. -/
theorem Laminar.cons {es₁ es₂ : List Element} {o : Option Element}
    (htags : Delimits opening closing inner)
    (hwithin : Between a b (opening :: (inner ++ closing :: rest)))
    (hsome : o.isSome = tags.contains opening.name) (ho : ∀ e ∈ o, MadeOf index opening closing e)
    (hinner : Laminar index tags inner opening.stop closing.start es₁)
    (hrest : Laminar index tags rest closing.stop b es₂) :
    Laminar index tags (opening :: (inner ++ closing :: rest)) a b (es₁ ++ (o.toList ++ es₂)) := by
  obtain ⟨hstart, hends, hcloses, hstop, -, -⟩ := hwithin.split
  have hbytes := htags.takesBytes
  have hone := Laminar.one htags hsome ho
  have hnext : Laminar index tags ([opening, closing] ++ rest) a b (o.toList ++ es₂) := by
    refine (hone.mono hstart hstop).append (hrest.mono (by omega) le_rfl) fun e he f hf => .inl ?_
    exact (hone.inside e he).2.trans (hrest.inside f hf).1
  have hall :
      Laminar index tags (inner ++ ([opening, closing] ++ rest)) a b
        (es₁ ++ (o.toList ++ es₂)) := by
    refine (hinner.mono (by omega) (by omega)).append hnext fun e he f hf => ?_
    obtain ⟨hafter, hbefore⟩ := hinner.inside e he
    rcases List.mem_append.mp hf with hf | hf
    · have hmade := ho f (Option.mem_toList.mp hf)
      exact .inr ⟨hmade.openEnd.trans_le hafter, hbefore.trans hmade.closeStart.ge⟩
    · exact .inl (hbefore.trans (hcloses.trans (hrest.inside f hf).1))
  refine hall.perm ?_
  exact List.perm_middle.trans (.cons _ .rfl)

/-- Tracking of nested ranges succeeds, and the elements that end with them nest as they do. -/
theorem laminar_of_nested (index : LineTable) (tags : List String) {ranges : List TagRange}
    (h : Nested ranges) {a b : Int} (hwithin : Between a b ranges) :
    Tracks index tags ranges (Laminar index tags ranges a b) := by
  induction h generalizing a b with
  | nil => exact .nil .nil
  | @cons opening closing inner rest htags inside next ihInside ihNext =>
    obtain ⟨-, hends, hcloses, -, hwithinInner, hwithinRest⟩ := hwithin.split
    refine .cons htags.opens htags.closes ⟨htags.takesBytes.le, hends, hcloses⟩
      (ihInside hwithinInner)
      (ihNext hwithinRest) ?_
    exact fun es₁ o es₂ hinner hrest hsome ho => .cons htags hwithin hsome ho hinner hrest

section Sorted

variable {ranges : List TagRange} {elements : List Element}

/-- Of two elements that do not cross, the one that starts later begins after the end of the other
or lies in it. -/
theorem Laminar.sorted (h : Laminar index tags ranges a b ended) (hperm : elements.Perm ended)
    (hsorted : elements.Pairwise fun e f => e.extent.start ≤ f.extent.start) :
    elements.Pairwise fun e f => e.extent.start < f.extent.start ∧
      (e.extent.stop ≤ f.extent.start ∨ e.extent.Holds f.extent) := by
  have heither : elements.Pairwise fun e f =>
      (e.extent.stop ≤ f.extent.start ∨ f.extent.Holds e.extent) ∨
        (f.extent.stop ≤ e.extent.start ∨ e.extent.Holds f.extent) :=
    (hperm.pairwise_iff Or.symm).mpr (h.apart.imp Or.inl)
  refine (hsorted.and heither).imp_of_mem fun {e f} he hf hef => ?_
  have hbytes := h.takesBytes e (hperm.mem_iff.mp he)
  have hbytes' := h.takesBytes f (hperm.mem_iff.mp hf)
  have horder := e.extent.openEnd_le_closeStart
  have horder' := f.extent.openEnd_le_closeStart
  have hstop := e.extent.closeStart_le_stop
  have hstop' := f.extent.closeStart_le_stop
  unfold Extent.Holds at hef ⊢
  omega

theorem Laminar.lines_of_holds (h : Laminar index tags ranges a b ended) {e f : Element}
    (he : e ∈ ended) (hf : f ∈ ended) (hholds : e.extent.Holds f.extent) :
    e.startLine ≤ f.startLine ∧ f.endLine ≤ e.endLine := by
  obtain ⟨hstart, hend⟩ := h.lines e he
  obtain ⟨hstart', hend'⟩ := h.lines f hf
  obtain ⟨hafter, hbefore⟩ := hholds
  have hbytes := h.takesBytes f hf
  rw [hstart, hend, hstart', hend']
  refine ⟨Int.ofNat_le.mpr (index.lineAt_mono ?_), Int.ofNat_le.mpr (index.lineAt_mono ?_)⟩
  · exact e.extent.start_le_openEnd.trans hafter
  · have := f.extent.openEnd_le_closeStart
    have := f.extent.closeStart_le_stop
    have := e.extent.closeStart_le_stop
    omega

end Sorted

end Pairing

open Pairing (StartsWith)

/-- **Elements nest.** In ranges that are in order the elements are found, whatever is tracked:
one for each start tag that is tracked, in the strict order of their starts. The next ones begin
after an element or lie between its tags, and then in its lines as well. -/
theorem laminar_of_orderly {buffer : Bytes} {ranges : List TagRange}
    (h : TagRange.Orderly buffer ranges) (tags : List String) :
    ∃ elements, trackedElements buffer tags ranges = .ok elements ∧
      (∀ e ∈ elements, e.extent.start ≤ e.extent.openEnd ∧ e.extent.openEnd ≤ e.extent.closeStart ∧
        e.extent.closeStart ≤ e.extent.stop) ∧
      (elements.Pairwise fun e f => e.extent.start < f.extent.start ∧ ¬ e.Agrees f) ∧
      (elements.Pairwise fun e f => e.extent.stop ≤ f.extent.start ∨
        e.extent.Holds f.extent ∧ e.startLine ≤ f.startLine ∧ f.endLine ≤ e.endLine) ∧
      (∀ e ∈ elements, ∃ r ∈ ranges, StartsWith r e) ∧
      (∀ r ∈ ranges, r.kind = .opening → r.name ∈ tags → ∃ e ∈ elements, StartsWith r e) ∧
      ∀ e ∈ elements, 1 ≤ e.startLine ∧ e.startLine ≤ e.endLine ∧
        e.endLine ≤ (LineTable.ofBytes buffer).size := by
  obtain ⟨ended, elements, htracked, hlaminar, hperm, hstarts⟩ :=
    (Pairing.laminar_of_nested (.ofBytes buffer) tags h.nested
      (TagRange.between_of_follows h.within h.follows)).trackedElements
  have hsorted := hlaminar.sorted hperm hstarts
  refine ⟨elements, htracked, fun e _ => ?_, ?_, ?_,
    fun e he => hlaminar.written e (hperm.mem_iff.mp he), fun r hr hopens htagged =>
      ?_, fun e he => ?_⟩
  · exact ⟨e.extent.start_le_openEnd, e.extent.openEnd_le_closeStart, e.extent.closeStart_le_stop⟩
  · refine hsorted.imp fun {e f} hef => ⟨hef.1, fun hagrees => ?_⟩
    exact hef.1.ne (congrArg Extent.start hagrees.2.1)
  · refine hsorted.imp_of_mem fun {e f} he hf hef => hef.2.imp_right fun hholds => ?_
    exact ⟨hholds, hlaminar.lines_of_holds (hperm.mem_iff.mp he) (hperm.mem_iff.mp hf) hholds⟩
  · obtain ⟨e, he, hstarts⟩ := hlaminar.found r hr hopens htagged
    exact ⟨e, hperm.mem_iff.mpr he, hstarts⟩
  · obtain ⟨hstart, hend⟩ := hlaminar.lines e (hperm.mem_iff.mp he)
    rw [hstart, hend]
    exact ⟨Int.ofNat_le.mpr (LineTable.one_le_lineAt_ofBytes buffer _),
      Int.ofNat_le.mpr (LineTable.lineAt_mono _ (le_max_right _ _)),
      Int.ofNat_le.mpr (LineTable.lineAt_le_size _ _)⟩

/-- Three lines: a start tag, an empty element, which is written with one byte, and the end tag. -/
def threeLines : Bytes :=
  List.replicate 6 0x20 ++ 0x0A :: 0x20 :: 0x0A :: List.replicate 7 0x20

/-- The ranges of those tags. -/
def threeRanges : List TagRange :=
  [{ kind := .opening, name := "view", start := 0, stop := 6 },
    { kind := .opening, name := "button", start := 7, stop := 8, selfClosing := true },
    { kind := .closing, name := "", start := 8, stop := 8 },
    { kind := .closing, name := "", start := 9, stop := 16 }]

theorem laminar_threeRanges :
    TagRange.Orderly threeLines threeRanges ∧
    ∃ elements, trackedElements threeLines ["button", "view"] threeRanges = .ok elements ∧
      (∀ e ∈ elements, e.extent.start ≤ e.extent.openEnd ∧ e.extent.openEnd ≤ e.extent.closeStart ∧
        e.extent.closeStart ≤ e.extent.stop) ∧
      (elements.Pairwise fun e f => e.extent.start < f.extent.start ∧ ¬ e.Agrees f) ∧
      (elements.Pairwise fun e f => e.extent.stop ≤ f.extent.start ∨
        e.extent.Holds f.extent ∧ e.startLine ≤ f.startLine ∧ f.endLine ≤ e.endLine) ∧
      (∀ e ∈ elements, ∃ r ∈ threeRanges, StartsWith r e) ∧
      (∀ r ∈ threeRanges, r.kind = .opening → r.name ∈ ["button", "view"] →
        ∃ e ∈ elements, StartsWith r e) ∧
      ∀ e ∈ elements, 1 ≤ e.startLine ∧ e.startLine ≤ e.endLine ∧
        e.endLine ≤ (LineTable.ofBytes threeLines).size := by
  have hbutton : TagRange.Nested (threeRanges.tail.take 2) :=
    @TagRange.Nested.cons _ _ [] [] ⟨rfl, rfl, by decide, by decide, by decide⟩ .nil .nil
  have hview : ∀ inner, TagRange.Nested inner →
      TagRange.Nested (threeRanges[0] :: (inner ++ [threeRanges[3]])) := fun inner hinner =>
    .cons ⟨rfl, rfl, by decide, fun hself => (Bool.false_ne_true hself).elim, by decide⟩ hinner .nil
  have hnested : TagRange.Nested threeRanges := hview _ hbutton
  have horderly : TagRange.Orderly threeLines threeRanges :=
    ⟨hnested, by decide, by simp [threeRanges]⟩
  exact ⟨horderly, laminar_of_orderly horderly _⟩

end AccessPatch
