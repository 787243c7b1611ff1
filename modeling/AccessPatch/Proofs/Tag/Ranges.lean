import AccessPatch.Proofs.Tag.Ends
import Mathlib.Data.List.Forall2

/-!
# The ranges of a document

The ranges of a document are collected from its events and its bytes. For a document in a code
that is read to its end they are those of its stretches (`ofDocument_eq_trailRanges`). What a
caller relies on in a document in UTF-8 is its `Contract`, and it follows from that
(`contract_of_ofDocument`): the ranges are those of one root element, they follow one another
within the document, each of them is what the reader has seen, and the bytes there are a tag.
-/

namespace AccessPatch

open Xml

/-! ## The ranges of stretches -/

section Code

variable [Code]

/-- The ranges of the tag of a stretch that begins at `pos`. -/
def Xml.Stretch.ranges (st : Stretch) (pos : Nat) : List TagRange :=
  let start := pos + (inCode st.gap).length
  let stop := start + (inCode st.text).length
  match st.form with
  | .opening => [{ kind := .opening, name := st.name, start, stop, attributes := st.attributes }]
  | .empty =>
    [{ kind := .opening, name := st.name, start, stop, selfClosing := true
       attributes := st.attributes },
      { kind := .closing, name := st.name, start := stop, stop, selfClosing := true }]
  | .closing => [{ kind := .closing, name := st.name, start, stop }]

/-- The ranges of some stretches that begin at `pos`. -/
def trailRanges (pos : Nat) : List Stretch → List TagRange
  | [] => []
  | st :: rest => st.ranges pos ++ trailRanges (pos + st.size) rest

end Code

namespace TagRange

/-! ## Collecting ranges -/

section Collecting

variable {buffer : Bytes} {symbols : List Symbol} {c c' : Collector}

theorem foldlM_add_noTags {es : List Event} (h : NoTags es) :
    es.foldlM (Collector.add buffer symbols) c = .ok c := by
  induction es with
  | nil => rfl
  | cons e es ih =>
    have hadd : Collector.add buffer symbols c e = .ok c := by
      cases e with
      | opened name attributes start stop empty => cases h _ List.mem_cons_self
      | closed name start => cases h _ List.mem_cons_self
      | instruction target => rfl
      | declared name => rfl
    exact foldlM_cons_eq_ok_iff.mpr ⟨c, hadd, ih fun e he => h e (List.mem_cons_of_mem _ he)⟩

/-- The collector holds a start tag for each element that is open. -/
structure Follows (c : Collector) (stack : List String) : Prop where
  length : c.opened.length = stack.length
  proper : ∀ range ∈ c.opened, range.selfClosing = false

theorem add_opened {name : String} {attributes : List (String × String)} {start stop : Nat}
    {empty : Bool} (hend : tagEnd? buffer start = some stop)
    (hempty : ((buffer.take stop).drop (stop - 2) == [0x2F, 0x3E]) = empty) (stop' : Nat)
    (empty' : Bool) :
    Collector.add buffer symbols c (.opened name attributes start stop' empty') =
      .ok ⟨⟨.opening, name, start, stop, empty, attributes⟩ :: c.ranges,
        ⟨.opening, name, start, stop, empty, attributes⟩ :: c.opened⟩ := by
  simp only [Collector.add, hend, hempty]

variable [Code]

/-- The events of one stretch. -/
theorem foldlM_add_stretch {alphabet : Alphabet} {st : Stretch} {pos : Nat}
    {stack stack' : List String} {before after : Bytes}
    (hbuffer : buffer = before ++ (inCode st.chars ++ after)) (hpos : before.length = pos)
    (hspelled : st.Spelled alphabet) (hnotes : NoTags st.notes)
    (hstack : st.stackAfter? stack = some stack') (hc : Follows c stack) :
    ∃ c', (st.events pos).reverse.foldlM (Collector.add buffer symbols) c = .ok c' ∧
      c'.ranges = (st.ranges pos).reverse ++ c.ranges ∧ Follows c' stack' := by
  have hbuffer' : buffer = (before ++ inCode st.gap) ++ (inCode st.text ++ after) := by
    rw [hbuffer, Stretch.chars, inCode_append, List.append_assoc, List.append_assoc]
  have hstart : (before ++ inCode st.gap).length = pos + (inCode st.gap).length := by
    rw [List.length_append, hpos]
  have hfold : (st.events pos).reverse.foldlM (Collector.add buffer symbols) c =
      (st.tagEvents (pos + (inCode st.gap).length)).reverse.foldlM
        (Collector.add buffer symbols) c := by
    have hquiet : st.notes.reverse.foldlM (Collector.add buffer symbols) c = .ok c :=
      foldlM_add_noTags hnotes.reverse
    rw [Stretch.events, List.reverse_append, List.foldlM_append, hquiet]
    rfl
  rw [hfold]
  unfold Stretch.Spelled at hspelled
  unfold Stretch.stackAfter? at hstack
  cases hform : st.form with
  | opening =>
    rw [hform] at hspelled hstack
    cases hstack
    have hend := tagEnd?_of_startSpelled hspelled hbuffer' hstart
    have hempty := selfClosing_of_startSpelled hspelled hbuffer' hstart
    simp only [Stretch.tagEvents, Stretch.ranges, hform]
    refine ⟨_, foldlM_cons_eq_ok_iff.mpr ⟨_, add_opened hend hempty _ _, rfl⟩, rfl, ?_, ?_⟩
    · simp [hc.length]
    · exact List.forall_mem_cons.mpr ⟨rfl, hc.proper⟩
  | empty =>
    rw [hform] at hspelled hstack
    cases hstack
    have hend := tagEnd?_of_startSpelled hspelled hbuffer' hstart
    have hempty := selfClosing_of_startSpelled hspelled hbuffer' hstart
    simp only [Stretch.tagEvents, Stretch.ranges, hform]
    exact ⟨_, foldlM_cons_eq_ok_iff.mpr ⟨_, add_opened hend hempty _ _,
      foldlM_cons_eq_ok_iff.mpr ⟨_, rfl, rfl⟩⟩, rfl, hc.length, hc.proper⟩
  | closing =>
    rw [hform] at hspelled hstack
    cases stack with
    | nil => cases hstack
    | cons innermost outer =>
      have houter : outer = stack' := by
        simp only at hstack
        split at hstack
        · exact Option.some.inj hstack
        · cases hstack
      subst houter
      obtain ⟨hlength, hproper⟩ := hc
      obtain ⟨ranges, opened⟩ := c
      cases opened with
      | nil => cases hlength
      | cons opener opened =>
        have hopener : opener.selfClosing = false := hproper opener List.mem_cons_self
        have hend := closeEnd_of_endSpelled hspelled hbuffer' hstart
        simp only [Stretch.tagEvents, Stretch.ranges, hform]
        refine ⟨⟨_ :: ranges, opened⟩, foldlM_cons_eq_ok_iff.mpr ⟨_, ?_, rfl⟩, rfl, ?_, ?_⟩
        · simp only [Collector.add, hopener, Bool.false_eq_true, if_false, hend]
        · exact Nat.succ.inj hlength
        · exact fun range hrange => hproper range (List.mem_cons_of_mem _ hrange)

/-- The ranges that are collected from the events of stretches are theirs. -/
theorem foldlM_add_trail {alphabet : Alphabet} {sts : List Stretch} {pos : Nat}
    {stack : List String} {before after : Bytes}
    (hbuffer : buffer = before ++ (inCode (trailChars sts) ++ after)) (hpos : before.length = pos)
    (hsts : ∀ st ∈ sts, st.Spelled alphabet ∧ NoTags st.notes) (hnests : Nests stack sts)
    (hc : Follows c stack) :
    ∃ c', (trailEvents pos sts).reverse.foldlM (Collector.add buffer symbols) c = .ok c' ∧
      c'.ranges = (trailRanges pos sts).reverse ++ c.ranges := by
  induction sts generalizing pos stack before c with
  | nil => exact hnests.elim
  | cons st sts ih =>
    obtain ⟨stack', hstack, hrest⟩ := hnests
    obtain ⟨hspelled, hnotes⟩ := hsts st List.mem_cons_self
    rw [trailChars_cons, inCode_append, List.append_assoc] at hbuffer
    obtain ⟨c₁, hfirst, hranges, hc₁⟩ :=
      foldlM_add_stretch hbuffer hpos hspelled hnotes hstack hc
    have hsplit : (trailEvents pos (st :: sts)).reverse =
        (st.events pos).reverse ++ (trailEvents (pos + st.size) sts).reverse := by
      rw [trailEvents, List.reverse_append]
    rw [hsplit, trailRanges, List.reverse_append, List.append_assoc, ← hranges]
    by_cases hend : stack' = []
    · rw [if_pos hend] at hrest
      subst hrest
      exact ⟨c₁, foldlM_append_eq_ok_iff.mpr ⟨c₁, hfirst, rfl⟩, rfl⟩
    · rw [if_neg hend] at hrest
      obtain ⟨c', hfold, hc'⟩ := ih (hbuffer.trans (List.append_assoc _ _ _).symm)
        (by rw [List.length_append, hpos]) (fun st hst => hsts st (List.mem_cons_of_mem _ hst))
        hrest hc₁
      exact ⟨c', foldlM_append_eq_ok_iff.mpr ⟨c₁, hfirst, hfold⟩, hc'⟩

end Collecting

/-- **The ranges of a document.** They are those of its stretches, and stay so if other stretches
stand in their place. -/
theorem ofDocument_eq_trailRanges [Code] {l : Layout} {context : Prolog.Context} {standalone : Bool}
    {sts : List Stretch} (h : l.Explains context standalone) (hfit : l.Fit context sts)
    (hsts : ∀ st ∈ sts, st.Spelled context.alphabet ∧ NoTags st.notes) :
    ofDocument (l.withStretches sts).bytes = .ok (trailRanges l.rootStart sts) := by
  obtain ⟨_, _, before, after, hbefore, hafter, hreads⟩ := h.reads
  obtain ⟨source, hsource, -, -, -, -, hrun⟩ := hreads sts hfit
  have hread : Xml.read (l.withStretches sts).bytes =
      ⟨before ++ (trailEvents l.rootStart sts).reverse ++ after, none, source.symbols⟩ := by
    unfold Xml.read
    rw [hsource]
    simp only [hrun false]
  have hempty : Follows {} [] := ⟨rfl, by simp⟩
  obtain ⟨c, hfold, hranges⟩ : ∃ c, (trailEvents l.rootStart sts).reverse.foldlM
      (Collector.add (l.withStretches sts).bytes source.symbols) {} = .ok c ∧
        c.ranges = (trailRanges l.rootStart sts).reverse ++ [] :=
    foldlM_add_trail (l.bytes_withStretches sts) l.length_before hsts hfit.nests hempty
  have hall : (before ++ (trailEvents l.rootStart sts).reverse ++ after).foldlM
      (Collector.add (l.withStretches sts).bytes source.symbols) {} = .ok c := by
    refine foldlM_append_eq_ok_iff.mpr ⟨c, foldlM_append_eq_ok_iff.mpr ⟨{}, ?_, hfold⟩, ?_⟩
    · exact foldlM_add_noTags hbefore
    · exact foldlM_add_noTags hafter
  simp only [ofDocument, hread]
  refine bind_eq_ok_iff.mpr ⟨c, hall, ?_⟩
  simp only [hranges, List.append_nil, List.reverse_reverse]
  rfl

/-! ## What callers rely on -/

/-- The start tag and the end of one element. The end of an empty element is empty, at the end of
its tag. -/
structure Pair (opening closing : TagRange) : Prop where
  opens : opening.kind = .opening
  closes : closing.kind = .closing
  name : closing.name = opening.name
  selfClosing : closing.selfClosing = opening.selfClosing
  place : opening.selfClosing = true → closing.start = opening.stop ∧ closing.stop = opening.stop

/-- The ranges of elements that stand next to each other. -/
inductive IsForest : List TagRange → Prop where
  | nil : IsForest []
  | cons {opening closing : TagRange} {inner rest : List TagRange} (pair : Pair opening closing)
      (empty : opening.selfClosing = true → inner = []) (inside : IsForest inner)
      (next : IsForest rest) : IsForest (opening :: (inner ++ closing :: rest))

/-- The ranges of one element. -/
inductive IsTree : List TagRange → Prop where
  | root {opening closing : TagRange} {inner : List TagRange} (pair : Pair opening closing)
      (empty : opening.selfClosing = true → inner = []) (inside : IsForest inner) :
      IsTree (opening :: (inner ++ [closing]))

/-- The bytes of a range. -/
def slice (buffer : Bytes) (range : TagRange) : Bytes :=
  (buffer.take range.stop.toNat).drop range.start.toNat

/-- A range is what a reader has seen of a tag, and the bytes there are that tag. -/
inductive IsOf (buffer : Bytes) : Event → TagRange → Prop where
  | opened {name : String} {attributes : List (String × String)} {start stop : Nat} {empty : Bool}
      {range : TagRange}
      (eq : range = { kind := .opening, name, start, stop, selfClosing := empty, attributes })
      (bytes : ∃ inner, slice buffer range = 0x3C :: (Utf8.encode name ++ inner ++ [0x3E])) :
      IsOf buffer (.opened name attributes start stop empty) range
  | closedEmpty {name : String} {start : Nat} {range : TagRange}
      (eq : range = { kind := .closing, name, start, stop := start, selfClosing := true }) :
      IsOf buffer (.closed name start) range
  | closed {name : String} {start stop : Nat} {range : TagRange}
      (eq : range = { kind := .closing, name, start, stop })
      (bytes : ∃ space, (∀ c ∈ space, isSpace c = true) ∧
        slice buffer range = 0x3C :: 0x2F :: (Utf8.encode name ++ bytesOf space ++ [0x3E])) :
      IsOf buffer (.closed name start) range

/-- What callers rely on about the ranges of a document. -/
structure Contract (buffer : Bytes) (source : Source) (ranges : List TagRange) : Prop where
  /-- The ranges are balanced and nested, with one root. -/
  tree : IsTree ranges
  /-- They lie within the document. -/
  within : ∀ r ∈ ranges, 0 ≤ r.start ∧ r.start ≤ r.stop ∧ r.stop ≤ buffer.length
  /-- Each one starts where the one before it stops, or later. -/
  ordered : ranges.Pairwise fun r r' => r.stop ≤ r'.start
  /-- They are the tags that a reader has seen, to the byte. -/
  seen : List.Forall₂ (IsOf buffer) ((Xml.read buffer).events.filter Event.isTag) ranges
  /-- None of them comes out of an entity: a reader that would note such elements notes none. -/
  outsideEntities : (source.reader source.encoding.alphabet true).run source.body source.ragged =
    .ok (Xml.read buffer).events

section Contract

variable {alphabet : Alphabet}

/-- Ranges that go on where the elements of a stack are open. -/
inductive Ends : List String → List TagRange → Prop where
  | done : Ends [] []
  | close {name : String} {stack : List String} {forest rest : List TagRange} {closing : TagRange}
      (inside : IsForest forest) (closes : closing.kind = .closing) (named : closing.name = name)
      (proper : closing.selfClosing = false) (next : Ends stack rest) :
      Ends (name :: stack) (forest ++ closing :: rest)

theorem pair_empty (name : String) (attributes : Attributes) (start stop : Int) :
    Pair { kind := .opening, name, start, stop, selfClosing := true, attributes }
      { kind := .closing, name, start := stop, stop, selfClosing := true } :=
  ⟨rfl, rfl, rfl, rfl, fun _ => ⟨rfl, rfl⟩⟩

theorem pair_opening {name : String} {attributes : Attributes} {start stop : Int}
    {closing : TagRange} (hcloses : closing.kind = .closing) (hname : closing.name = name)
    (hproper : closing.selfClosing = false) :
    Pair { kind := .opening, name, start, stop, attributes } closing :=
  ⟨rfl, hcloses, hname, hproper, by simp⟩

theorem IsForest.append {ranges ranges' : List TagRange} (h : IsForest ranges)
    (h' : IsForest ranges') : IsForest (ranges ++ ranges') := by
  induction h with
  | nil => exact h'
  | @cons opening closing inner rest pair empty inside _ _ ih =>
    have hcons := IsForest.cons pair empty inside ih
    rwa [List.cons_append, List.append_assoc]

theorem Ends.prepend {stack : List String} {forest ranges : List TagRange}
    (hforest : IsForest forest) (hstack : stack ≠ []) (h : Ends stack ranges) :
    Ends stack (forest ++ ranges) := by
  cases h with
  | done => exact absurd rfl hstack
  | close inside closes named proper next =>
    rw [← List.append_assoc]
    exact .close (hforest.append inside) closes named proper next

theorem slice_eq {buffer before text after : Bytes} {range : TagRange} {start stop : Nat}
    (hbuffer : buffer = before ++ (text ++ after)) (hbefore : before.length = start)
    (hstart : range.start = start) (hstop : range.stop = stop)
    (hlength : stop = start + text.length) :
    slice buffer range = text := by
  rw [slice, hstart, hstop, Int.toNat_natCast, Int.toNat_natCast, hbuffer, ← List.append_assoc,
    List.take_left' (by rw [List.length_append]; omega), List.drop_left' hbefore]

theorem filter_noTags {es : List Event} (h : NoTags es) : es.filter Event.isTag = [] :=
  List.filter_eq_nil_iff.mpr fun e he => by simp [h e he]

section Code

variable [Code]

/-- Ranges end what is open if the tags do. -/
theorem ends_of_nests {sts : List Stretch} {stack : List String} (hstack : stack ≠ [])
    (h : Nests stack sts) (pos : Nat) : Ends stack (trailRanges pos sts) := by
  induction sts generalizing stack pos with
  | nil => exact h.elim
  | cons st sts ih =>
    obtain ⟨stack', hafter, hrest⟩ := h
    rw [trailRanges]
    unfold Stretch.stackAfter? at hafter
    cases hform : st.form with
    | opening =>
      rw [hform] at hafter
      cases hafter
      rw [if_neg (by simp)] at hrest
      have hends := ih (by simp) hrest (pos + st.size)
      generalize trailRanges (pos + st.size) sts = ranges at hends ⊢
      simp only [Stretch.ranges, hform, List.singleton_append]
      cases hends with
      | @close _ _ forest rest closing inside closes named proper next =>
        -- The element stands within the innermost one that was open before it.
        have hsplit : ∀ opening : TagRange, opening :: (forest ++ closing :: rest) =
            (opening :: (forest ++ [closing])) ++ rest := by simp
        rw [hsplit]
        exact next.prepend (.cons (pair_opening closes named proper) (by simp) inside .nil) hstack
    | empty =>
      rw [hform] at hafter
      cases hafter
      rw [if_neg hstack] at hrest
      have hends := ih hstack hrest (pos + st.size)
      simp only [Stretch.ranges, hform]
      exact hends.prepend (.cons (pair_empty _ _ _ _) (fun _ => rfl) .nil .nil) hstack
    | closing =>
      rw [hform] at hafter
      cases stack with
      | nil => exact absurd rfl hstack
      | cons innermost outer =>
        simp only at hafter
        split at hafter
        · rename_i hname
          cases hafter
          simp only [Stretch.ranges, hform, List.singleton_append]
          by_cases hend : stack' = []
          · rw [if_pos hend] at hrest
            subst hrest
            rw [hend]
            exact .close .nil rfl hname.symm rfl .done
          · rw [if_neg hend] at hrest
            exact .close .nil rfl hname.symm rfl (ih hend hrest _)
        · cases hafter

theorem isTree_of_nests {sts : List Stretch} (h : Nests [] sts) (pos : Nat) :
    IsTree (trailRanges pos sts) := by
  cases sts with
  | nil => exact h.elim
  | cons st sts =>
    obtain ⟨stack', hafter, hrest⟩ := h
    rw [trailRanges]
    unfold Stretch.stackAfter? at hafter
    cases hform : st.form with
    | opening =>
      rw [hform] at hafter
      cases hafter
      rw [if_neg (by simp)] at hrest
      have hends := ends_of_nests (by simp) hrest (pos + st.size)
      generalize trailRanges (pos + st.size) sts = ranges at hends ⊢
      simp only [Stretch.ranges, hform, List.singleton_append]
      cases hends with
      | close inside closes named proper next =>
        cases next
        exact .root (pair_opening closes named proper) (by simp) inside
    | empty =>
      rw [hform] at hafter
      cases hafter
      rw [if_pos rfl] at hrest
      subst hrest
      simp only [Stretch.ranges, hform]
      exact .root (pair_empty _ _ _ _) (fun _ => rfl) .nil
    | closing =>
      rw [hform] at hafter
      cases hafter

theorem size_eq (st : Stretch) : st.size = (inCode st.gap).length + (inCode st.text).length := by
  rw [Stretch.size, Stretch.chars, inCode_append, List.length_append]

theorem ranges_within {st : Stretch} {pos : Nat} {r : TagRange} (h : r ∈ st.ranges pos) :
    (pos : Int) ≤ r.start ∧ r.start ≤ r.stop ∧ r.stop ≤ (pos + st.size : Nat) := by
  have hsize := size_eq st
  unfold Stretch.ranges at h
  split at h
  · rw [List.mem_singleton.mp h]
    simp only
    omega
  · rcases List.mem_cons.mp h with rfl | h
    · simp only
      omega
    · rw [List.mem_singleton.mp h]
      simp only
      omega
  · rw [List.mem_singleton.mp h]
    simp only
    omega

theorem ranges_ordered (st : Stretch) (pos : Nat) :
    (st.ranges pos).Pairwise fun r r' => r.stop ≤ r'.start := by
  unfold Stretch.ranges
  split <;> simp

theorem trailRanges_within {sts : List Stretch} {pos : Nat} {r : TagRange}
    (h : r ∈ trailRanges pos sts) :
    (pos : Int) ≤ r.start ∧ r.start ≤ r.stop ∧ r.stop ≤ (pos + trailSize sts : Nat) := by
  induction sts generalizing pos with
  | nil => cases h
  | cons st sts ih =>
    rw [trailSize_cons]
    rcases List.mem_append.mp h with h | h
    · have := ranges_within h
      omega
    · have := ih h
      omega

theorem trailRanges_ordered (sts : List Stretch) (pos : Nat) :
    (trailRanges pos sts).Pairwise fun r r' => r.stop ≤ r'.start := by
  induction sts generalizing pos with
  | nil => exact .nil
  | cons st sts ih =>
    refine List.pairwise_append.mpr ⟨ranges_ordered st pos, ih _, ?_⟩
    intro r hr r' hr'
    have hstop := (ranges_within hr).2.2
    have hstart := (trailRanges_within hr').1
    omega

theorem bytes_of_startSpelled (hutf8 : Code.encoding = .utf8) {name : String} {empty : Bool}
    {text : List Char} (h : StartSpelled alphabet name empty text) :
    ∃ inner, inCode text = 0x3C :: (Utf8.encode name ++ inner ++ [0x3E]) := by
  obtain ⟨more, rfl, -⟩ := h.rest
  refine ⟨inCode more, ?_⟩
  rw [inCode_append, inCode_cons, inCode_append, write_lessThan, inCode_greaterThan,
    ← bytesOf_of_utf8 hutf8]
  rfl

theorem bytes_of_endSpelled (hutf8 : Code.encoding = .utf8) {name : String} {text : List Char}
    (h : EndSpelled alphabet name text) : ∃ space, (∀ c ∈ space, isSpace c = true) ∧
      inCode text = 0x3C :: 0x2F :: (Utf8.encode name ++ bytesOf space ++ [0x3E]) := by
  obtain ⟨space, rfl, hspace⟩ := h.rest
  refine ⟨space, hspace, ?_⟩
  rw [inCode_append, inCode_cons, inCode_cons, inCode_append, write_lessThan, write_slash,
    inCode_greaterThan, ← bytesOf_of_utf8 hutf8, ← bytesOf_of_utf8 hutf8]
  rfl

theorem seen_stretch (hutf8 : Code.encoding = .utf8) {buffer before after : Bytes}
    {st : Stretch} {pos : Nat} (hbuffer : buffer = before ++ (inCode st.chars ++ after))
    (hpos : before.length = pos) (hspelled : st.Spelled alphabet) (hnotes : NoTags st.notes) :
    List.Forall₂ (IsOf buffer) ((st.events pos).reverse.filter Event.isTag) (st.ranges pos) := by
  have hbuffer' : buffer = (before ++ inCode st.gap) ++ (inCode st.text ++ after) := by
    rw [hbuffer, Stretch.chars, inCode_append, List.append_assoc, List.append_assoc]
  have hstart : (before ++ inCode st.gap).length = pos + (inCode st.gap).length := by
    rw [List.length_append, hpos]
  rw [Stretch.events, List.reverse_append, List.filter_append, filter_noTags hnotes.reverse,
    List.nil_append]
  unfold Stretch.Spelled at hspelled
  cases hform : st.form with
  | opening =>
    rw [hform] at hspelled
    obtain ⟨inner, hinner⟩ := bytes_of_startSpelled hutf8 hspelled
    simp only [Stretch.tagEvents, Stretch.ranges, hform]
    refine .cons (.opened rfl ⟨inner, ?_⟩) .nil
    rw [slice_eq hbuffer' hstart rfl rfl rfl, hinner]
  | empty =>
    rw [hform] at hspelled
    obtain ⟨inner, hinner⟩ := bytes_of_startSpelled hutf8 hspelled
    simp only [Stretch.tagEvents, Stretch.ranges, hform]
    refine .cons (.opened rfl ⟨inner, ?_⟩) (.cons (.closedEmpty rfl) .nil)
    rw [slice_eq hbuffer' hstart rfl rfl rfl, hinner]
  | closing =>
    rw [hform] at hspelled
    obtain ⟨space, hspace, htext⟩ := bytes_of_endSpelled hutf8 hspelled
    simp only [Stretch.tagEvents, Stretch.ranges, hform]
    refine .cons (.closed rfl ⟨space, hspace, ?_⟩) .nil
    rw [slice_eq hbuffer' hstart rfl rfl rfl, htext]

theorem seen_trail (hutf8 : Code.encoding = .utf8) {buffer before after : Bytes}
    {sts : List Stretch} {pos : Nat}
    (hbuffer : buffer = before ++ (inCode (trailChars sts) ++ after)) (hpos : before.length = pos)
    (hsts : ∀ st ∈ sts, st.Spelled alphabet ∧ NoTags st.notes) :
    List.Forall₂ (IsOf buffer) ((trailEvents pos sts).reverse.filter Event.isTag)
      (trailRanges pos sts) := by
  induction sts generalizing pos before with
  | nil => exact .nil
  | cons st sts ih =>
    obtain ⟨hspelled, hnotes⟩ := hsts st List.mem_cons_self
    rw [trailChars_cons, inCode_append, List.append_assoc] at hbuffer
    rw [trailEvents, List.reverse_append, List.filter_append]
    have hbuffer' := hbuffer.trans (List.append_assoc _ _ _).symm
    have hpos' : (before ++ inCode st.chars).length = pos + st.size := by
      rw [List.length_append, hpos, Stretch.size]
    exact List.rel_append (seen_stretch hutf8 hbuffer hpos hspelled hnotes)
      (ih hbuffer' hpos' fun st hst => hsts st (List.mem_cons_of_mem _ hst))

end Code

theorem run_of_ofDocument {buffer : Bytes} {source : Source} {ranges : List TagRange}
    (hsource : Source.ofBytes buffer = .ok source) (h : ofDocument buffer = .ok ranges) :
    ∃ events, (source.reader source.encoding.alphabet false).run source.body source.ragged =
      .ok events := by
  cases hrun : (source.reader source.encoding.alphabet false).run source.body source.ragged with
  | ok events => exact ⟨events, rfl⟩
  | error stop =>
    obtain ⟨c, -, hend⟩ := bind_eq_ok_iff.mp h
    simp only [Xml.read, hsource, hrun] at hend
    cases hend

/-- **The ranges are exact.** The ranges of a document in UTF-8 are what callers rely on. -/
theorem contract_of_ofDocument {buffer : Bytes} {source : Source} {ranges : List TagRange}
    (hsource : Source.ofBytes buffer = .ok source) (hutf8 : source.encoding = .utf8)
    (h : ofDocument buffer = .ok ranges) : Contract buffer source ranges := by
  obtain ⟨events, hrun⟩ := run_of_ofDocument hsource h
  obtain ⟨code, l, context, hcode, rfl, -, hl, -⟩ :=
    exists_layout hsource (Source.isWritten_of_utf8 hutf8 _) hrun
  have hfit := hl.fit
  have hsts : ∀ st ∈ l.stretches, st.Spelled context.alphabet ∧ NoTags st.notes :=
    fun st hst => ⟨(hl.sound st hst).spelled, (hl.sound st hst).only.noTags⟩
  obtain rfl := Except.ok.inj ((ofDocument_eq_trailRanges hl hfit hsts).symm.trans h)
  obtain ⟨_, _, before, after, hbefore, hafter, hreads⟩ := hl.reads
  obtain ⟨source', hsource', -, -, -, -, hruns⟩ := hreads l.stretches hfit
  obtain rfl := Except.ok.inj (hsource'.symm.trans hsource)
  have hread : (Xml.read l.bytes).events =
      before ++ (trailEvents l.rootStart l.stretches).reverse ++ after := by
    unfold Xml.read
    rw [hsource]
    simp only [hruns false]
  have hlength : l.rootStart + trailSize l.stretches ≤ l.bytes.length := by
    rw [l.bytes_eq, List.length_append, l.length_before, List.length_append, trailSize]
    omega
  refine ⟨isTree_of_nests hl.nests _, ?_, trailRanges_ordered _ _, ?_, ?_⟩
  · intro r hr
    have hwithin := trailRanges_within hr
    omega
  · rw [hread, List.filter_append, List.filter_append, filter_noTags hbefore, filter_noTags hafter,
      List.append_nil, List.nil_append]
    exact seen_trail (hcode.trans hutf8) l.bytes_eq l.length_before hsts
  · rw [hread, hruns true]

/-- A document whose tags are easy to misread: a mark in quotes, an entity, an empty element and
an end tag with white space. -/
def sampleDocument : Bytes :=
  bytesOf "<!DOCTYPE a [<!ENTITY e \"t\">]><a b='x>/'>&e;<c/></a >".toList

theorem contract_sampleDocument : ∃ source ranges, Source.ofBytes sampleDocument = .ok source ∧
    source.encoding = .utf8 ∧ ofDocument sampleDocument = .ok ranges ∧
      ranges.map (fun r => (r.name, r.selfClosing)) =
        [("a", false), ("c", true), ("c", true), ("a", false)] ∧
      Contract sampleDocument source ranges := by
  have hencoding : (Source.ofBytes sampleDocument).map Source.encoding = .ok .utf8 := by
    decide +kernel
  have hranges : (ofDocument sampleDocument).map (List.map fun r => (r.name, r.selfClosing)) =
      .ok [("a", false), ("c", true), ("c", true), ("a", false)] := by
    decide +kernel
  obtain ⟨source, hsource, hutf8⟩ := map_eq_ok_iff.mp hencoding
  obtain ⟨ranges, hdocument, hlength⟩ := map_eq_ok_iff.mp hranges
  exact ⟨source, ranges, hsource, hutf8, hdocument, hlength,
    contract_of_ofDocument hsource hutf8 hdocument⟩

end Contract

end TagRange

end AccessPatch
