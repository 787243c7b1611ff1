import AccessPatch.Proofs.Order
import AccessPatch.Tag.Pairing

/-!
# Tracking as bracket matching

`trackedElements` keeps a stack. Here it is compared with the matching of brackets in an arbitrary
list of ranges, which knows no stack: each closing range is paired with the nearest opening range
before it that is in no earlier pair (`pairs`), and that same opening range is the parent of an
element that opens there (`enclosing?`).

* `openAt` lists the positions that are open after the first ranges, and `openAt_succ_opening` and
  `openAt_succ_closing` say what one range does to it.
* `Holds` is the invariant of tracking: the stack is what is open, with the annotations met so
  far, and what has ended is what is paired. `holds_step_opening` and `holds_step_closing` keep it
  over one range, `holds_take` over all.
* `trackedElements_eq_matching`: the first fault in the order of ranges is reported, and without
  one the answer has one element for each pair whose opening tag is tracked.
-/

namespace AccessPatch.Pairing

/-! ## Pairs -/

/-- Whether an element opens with the range at a position. -/
def opensAt (ranges : List TagRange) (i : Nat) : Bool :=
  ranges[i]?.any (·.kind == .opening)

/-- The nearest position before `n` at which an element opens that is in none of the pairs. -/
def nearestOpen (ranges : List TagRange) (paired : List (Nat × Nat)) (n : Nat) : Option Nat :=
  (List.range n).reverse.find? fun i => opensAt ranges i && ! paired.any (·.1 == i)

/-- The pairs of an opening and a closing position among the first `n` ranges, in the order of the
closing ones. -/
def pairs (ranges : List TagRange) : Nat → List (Nat × Nat)
  | 0 => []
  | n + 1 =>
    if ranges[n]?.any (·.kind == .closing) then
      pairs ranges n ++ ((nearestOpen ranges (pairs ranges n) n).map fun i => (i, n)).toList
    else pairs ranges n

/-- The position of the innermost element that is open where the range at `n` stands. -/
def enclosing? (ranges : List TagRange) (n : Nat) : Option Nat :=
  nearestOpen ranges (pairs ranges n) n

/-- The attributes of the annotations among the first `n` ranges whose parent opens at `i`. -/
def annotationsOf (ranges : List TagRange) (n i : Nat) : List Attributes :=
  (List.range n).filterMap fun k =>
    (ranges[k]?.filter fun r => r.kind == .opening && r.name == Accessibility.tag &&
      enclosing? ranges k == some i).map TagRange.attributes

/-- The pairs among the first `n` ranges whose opening tag is tracked. -/
def trackedPairs (tags : List String) (ranges : List TagRange) (n : Nat) : List (Nat × Nat) :=
  (pairs ranges n).filter fun p => ranges[p.1]?.any fun r => tags.contains r.name

/-- The positions that are open after the first `n` ranges, last one first. -/
def openAt (ranges : List TagRange) (n : Nat) : List Nat :=
  ((List.range n).filter fun i => opensAt ranges i && ! (pairs ranges n).any (·.1 == i)).reverse

theorem enclosing?_eq_head? (ranges : List TagRange) (n : Nat) :
    enclosing? ranges n = (openAt ranges n).head? := by
  rw [openAt, ← List.filter_reverse, List.head?_filter]
  rfl

theorem mem_openAt {ranges : List TagRange} {n i : Nat} :
    i ∈ openAt ranges n ↔ i < n ∧ opensAt ranges i = true ∧ ∀ p ∈ pairs ranges n, p.1 ≠ i := by
  simp [openAt]

theorem openAt_nodup (ranges : List TagRange) (n : Nat) : (openAt ranges n).Nodup :=
  List.nodup_reverse.mpr (List.nodup_range.filter _)

theorem enclosing?_mem {ranges : List TagRange} {n i : Nat} (h : enclosing? ranges n = some i) :
    i ∈ openAt ranges n := by
  rw [enclosing?_eq_head?] at h
  exact List.mem_of_head? h

theorem enclosing?_lt {ranges : List TagRange} {n i : Nat} (h : enclosing? ranges n = some i) :
    i < n :=
  (mem_openAt.mp (enclosing?_mem h)).1

section Step

variable {ranges : List TagRange} {n : Nat} {r : TagRange}

theorem pairs_succ_opening (hr : ranges[n]? = some r) (hk : r.kind = .opening) :
    pairs ranges (n + 1) = pairs ranges n := by
  simp [pairs, hr, hk]

theorem pairs_succ_closing (hr : ranges[n]? = some r) (hk : r.kind = .closing) :
    pairs ranges (n + 1) =
      pairs ranges n ++ ((enclosing? ranges n).map fun i => (i, n)).toList := by
  simp [pairs, hr, hk, enclosing?]

theorem pairs_fst_lt (ranges : List TagRange) (n : Nat) : ∀ p ∈ pairs ranges n, p.1 < n := by
  induction n with
  | zero => simp [pairs]
  | succ n ih =>
    intro p hp
    rw [pairs] at hp
    split at hp
    · rcases List.mem_append.mp hp with hp | hp
      · exact (ih p hp).trans n.lt_succ_self
      · obtain ⟨i, hi, rfl⟩ := Option.map_eq_some_iff.mp (Option.mem_toList.mp hp)
        exact (enclosing?_lt hi).trans n.lt_succ_self
    · exact (ih p hp).trans n.lt_succ_self

theorem openAt_succ_opening (hr : ranges[n]? = some r) (hk : r.kind = .opening) :
    openAt ranges (n + 1) = n :: openAt ranges n := by
  have hopens : opensAt ranges n = true := by simp [opensAt, hr, hk]
  have hfree : (pairs ranges n).any (·.1 == n) = false := by
    refine List.any_eq_false.mpr fun p hp => ?_
    have := pairs_fst_lt ranges n p hp
    simp only [beq_iff_eq]
    omega
  simp [openAt, pairs_succ_opening hr hk, List.range_succ, hopens, hfree]

theorem openAt_succ_closing (hr : ranges[n]? = some r) (hk : r.kind = .closing) :
    openAt ranges (n + 1) = (openAt ranges n).tail := by
  have hopens : opensAt ranges n = false := by simp [opensAt, hr, hk]
  have hrange : openAt ranges (n + 1) = ((List.range n).filter fun i =>
      opensAt ranges i && ! (pairs ranges (n + 1)).any (·.1 == i)).reverse := by
    simp [openAt, List.range_succ, hopens]
  rw [hrange, pairs_succ_closing hr hk, enclosing?_eq_head?]
  cases hopen : openAt ranges n with
  | nil => simp [openAt] at hopen ⊢; exact hopen
  | cons i rest =>
    have hnodup := openAt_nodup ranges n
    rw [hopen] at hnodup
    have hfilter : ((List.range n).filter fun k => opensAt ranges k &&
        ! (pairs ranges n ++ [(i, n)]).any (·.1 == k)).reverse =
          (openAt ranges n).filter fun k => ! i == k := by
      rw [openAt, ← List.filter_reverse, ← List.filter_reverse, List.filter_filter]
      refine List.filter_congr fun k _ => ?_
      simp [Bool.and_comm, Bool.and_left_comm]
    simp only [List.head?_cons, Option.map_some, Option.toList_some, List.tail_cons]
    rw [hfilter, hopen, List.filter_cons_of_neg (by simp)]
    refine List.filter_eq_self.mpr fun k hk => ?_
    have : i ≠ k := fun h => (List.nodup_cons.mp hnodup).1 (h ▸ hk)
    simpa using this

/-! ## Annotations -/

theorem annotationsOf_succ_of_ne {i : Nat} (h : enclosing? ranges n ≠ some i) :
    annotationsOf ranges (n + 1) i = annotationsOf ranges n i := by
  simp [annotationsOf, List.range_succ, h]

theorem annotationsOf_succ_child {i : Nat} (hr : ranges[n]? = some r) (hk : r.kind = .opening)
    (hname : r.name = Accessibility.tag) (h : enclosing? ranges n = some i) :
    annotationsOf ranges (n + 1) i = annotationsOf ranges n i ++ [r.attributes] := by
  simp [annotationsOf, List.range_succ, h, hr, hk, hname]

theorem annotationsOf_succ_other {i : Nat} (hr : ranges[n]? = some r)
    (h : r.kind = .closing ∨ r.name ≠ Accessibility.tag) :
    annotationsOf ranges (n + 1) i = annotationsOf ranges n i := by
  rcases h with h | h <;> simp [annotationsOf, List.range_succ, hr, h]

theorem annotationsOf_of_le {i : Nat} (h : n ≤ i + 1) : annotationsOf ranges n i = [] := by
  rw [annotationsOf, List.filterMap_eq_nil_iff]
  intro k hk
  have hk := List.mem_range.mp hk
  have hne : enclosing? ranges k ≠ some i := by
    intro henc
    have := enclosing?_lt henc
    omega
  simp [hne]

/-- An element that is no longer open has all its annotations. -/
theorem annotationsOf_of_paired {p : Nat × Nat} (hp : p ∈ pairs ranges n) :
    annotationsOf ranges (n + 1) p.1 = annotationsOf ranges n p.1 := by
  refine annotationsOf_succ_of_ne fun henc => ?_
  exact (mem_openAt.mp (enclosing?_mem henc)).2.2 p hp rfl

end Step

/-! ## The invariant of tracking -/

/-- The flag and the attributes say which annotations were met. -/
structure Marks (annotations : List Attributes) (annotated : Bool)
    (last : Option Attributes) : Prop where
  annotated_iff : annotated = true ↔ annotations ≠ []
  last_eq : last = annotations.getLast?

/-- An entry of the stack is the element that opens at `i`, as far as the first `n` ranges tell. -/
structure IsUnclosed (ranges : List TagRange) (n i : Nat) (u : Unclosed) : Prop where
  opening : ∃ o, ranges[i]? = some o ∧ u.tag = o.name ∧ u.attributes = o.attributes ∧
    u.start = o.start ∧ u.openEnd = o.stop
  marks : Marks (annotationsOf ranges n i) u.annotated u.accessibility

/-- An element is that of a pair, with the annotations among the first `n` ranges. -/
structure IsRecord (buffer : Bytes) (ranges : List TagRange) (n : Nat) (p : Nat × Nat)
    (e : Element) :
    Prop where
  tags : ∃ o c, ranges[p.1]? = some o ∧ ranges[p.2]? = some c ∧ e.tag = o.name ∧
    e.attributes = o.attributes ∧ e.extent.start = o.start ∧ e.extent.openEnd = o.stop ∧
    e.extent.closeStart = c.start ∧ e.extent.stop = c.stop ∧
    e.startLine = (LineTable.ofBytes buffer).lineAt o.start ∧
    e.endLine = (LineTable.ofBytes buffer).lineAt (max (c.stop - 1) o.start)
  marks : Marks (annotationsOf ranges n p.1) e.annotated e.accessibility

/-- The state of tracking after the first `n` ranges. -/
structure Holds (buffer : Bytes) (tags : List String) (ranges : List TagRange) (n : Nat)
    (s : State) :
    Prop where
  stack : List.Forall₂ (IsUnclosed ranges n) (openAt ranges n) s.stack
  ended : List.Forall₂ (IsRecord buffer ranges n) (trackedPairs tags ranges n) s.ended.reverse

theorem IsUnclosed.congr {ranges : List TagRange} {n m i : Nat} {u : Unclosed}
    (h : IsUnclosed ranges n i u) (heq : annotationsOf ranges m i = annotationsOf ranges n i) :
    IsUnclosed ranges m i u :=
  ⟨h.opening, heq ▸ h.marks⟩

theorem IsRecord.succ {buffer : Bytes} {ranges : List TagRange} {n : Nat} {p : Nat × Nat}
    {e : Element} (h : IsRecord buffer ranges n p e) (hp : p ∈ pairs ranges n) :
    IsRecord buffer ranges (n + 1) p e :=
  ⟨h.tags, (annotationsOf_of_paired hp) ▸ h.marks⟩

theorem forall₂_records_succ {buffer : Bytes} {tags : List String}
    {ranges : List TagRange} {n : Nat} {es : List Element}
    (h : List.Forall₂ (IsRecord buffer ranges n) (trackedPairs tags ranges n) es) :
    List.Forall₂ (IsRecord buffer ranges (n + 1)) (trackedPairs tags ranges n) es := by
  have hpaired := (List.forall₂_and_left _ _).mpr
    ⟨fun p (hp : p ∈ trackedPairs tags ranges n) => List.mem_of_mem_filter hp, h⟩
  exact hpaired.imp fun p e hpe => hpe.2.succ hpe.1

/-! ## Faults -/

/-- Whether the tags of a pair are in the order of an element's extent. -/
def InOrder (o c : TagRange) : Prop :=
  o.start ≤ o.stop ∧ o.stop ≤ c.start ∧ c.start ≤ c.stop

instance (o c : TagRange) : Decidable (InOrder o c) :=
  inferInstanceAs (Decidable (_ ∧ _))

/-- The fault of the range at a position: it closes and nothing is open, or it closes a tracked
element whose tags are out of order. -/
def faultAt? (tags : List String) (ranges : List TagRange) (n : Nat) : Option Fault :=
  match ranges[n]? with
  | none => none
  | some c =>
    if c.kind = .opening then none
    else match (enclosing? ranges n).bind (ranges[·]?) with
      | none => some .unmatchedClose
      | some o =>
        if tags.contains o.name ∧ ¬ InOrder o c then
          some (.disordered o.name o.start o.stop c.start c.stop)
        else none

theorem ofOffsets?_eq_none_iff {start openEnd closeStart stop : Int} :
    Extent.ofOffsets? start openEnd closeStart stop = none ↔
      ¬ (start ≤ openEnd ∧ openEnd ≤ closeStart ∧ closeStart ≤ stop) := by
  unfold Extent.ofOffsets?
  split <;> simp_all

theorem ofOffsets?_eq_some {start openEnd closeStart stop : Int} {x : Extent}
    (h : Extent.ofOffsets? start openEnd closeStart stop = some x) :
    x.start = start ∧ x.openEnd = openEnd ∧ x.closeStart = closeStart ∧ x.stop = stop := by
  unfold Extent.ofOffsets? at h
  split at h
  · cases h
    exact ⟨rfl, rfl, rfl, rfl⟩
  · cases h

/-! ## One range -/

section Range

variable {buffer : Bytes} {tags : List String} {ranges : List TagRange} {n : Nat} {s : State}
  {r : TagRange}

/-- An opening range adds an entry without annotations, and an annotation marks the entry below
it. -/
theorem holds_step_opening (h : Holds buffer tags ranges n s) (hr : ranges[n]? = some r)
    (hk : r.kind = .opening) :
    ∃ s', step (.ofBytes buffer) tags s r = .ok s' ∧ Holds buffer tags ranges (n + 1) s' := by
  refine ⟨_, by rw [step, hk], ?_, ?_⟩
  · rw [openAt_succ_opening hr hk]
    refine .cons ⟨⟨r, hr, rfl, rfl, rfl, rfl⟩, ?_⟩ ?_
    · rw [annotationsOf_of_le le_rfl]
      exact ⟨by simp, rfl⟩
    · have hstack := h.stack
      have hnodup := openAt_nodup ranges n
      have hhead := enclosing?_eq_head? ranges n
      generalize openAt ranges n = opens at hstack hnodup hhead ⊢
      generalize s.stack = entries at hstack ⊢
      by_cases hname : r.name = Accessibility.tag
      · rw [if_pos hname]
        cases hstack with
        | nil => exact .nil
        | @cons i u rest us hu hus =>
          rw [List.head?_cons] at hhead
          have hrest : List.Forall₂ (fun k v => k ∈ rest ∧ IsUnclosed ranges n k v) rest us :=
            (List.forall₂_and_left _ _).mpr ⟨fun _ hi => hi, hus⟩
          refine .cons ⟨hu.opening, ?_⟩ (hrest.imp fun k v hv => ?_)
          · rw [annotationsOf_succ_child hr hk hname hhead]
            exact ⟨by simp, by simp⟩
          · refine hv.2.congr (annotationsOf_succ_of_ne fun henc => ?_)
            rw [hhead, Option.some.injEq] at henc
            exact (List.nodup_cons.mp hnodup).1 (henc ▸ hv.1)
      · rw [if_neg hname]
        exact hstack.imp fun _ _ hv => hv.congr (annotationsOf_succ_other hr (.inr hname))
  · have hsame : trackedPairs tags ranges (n + 1) = trackedPairs tags ranges n := by
      rw [trackedPairs, pairs_succ_opening hr hk, trackedPairs]
    rw [hsame]
    exact forall₂_records_succ h.ended

/-- A closing range is paired with the entry on top of the stack. -/
theorem holds_step_closing (h : Holds buffer tags ranges n s) (hr : ranges[n]? = some r)
    (hk : r.kind = .closing) :
    (∀ fault, faultAt? tags ranges n = some fault →
      step (.ofBytes buffer) tags s r = .error fault) ∧
    (faultAt? tags ranges n = none →
      ∃ s', step (.ofBytes buffer) tags s r = .ok s' ∧ Holds buffer tags ranges (n + 1) s') := by
  have hstack := h.stack
  have hnext := openAt_succ_closing hr hk
  have hpairs := pairs_succ_closing hr hk
  have hhead := enclosing?_eq_head? ranges n
  have hkeep : ∀ i, annotationsOf ranges (n + 1) i = annotationsOf ranges n i :=
    fun i => annotationsOf_succ_other hr (.inl hk)
  cases hopen : openAt ranges n with
  | nil =>
    rw [hopen] at hhead hstack
    have hempty := List.forall₂_nil_left_iff.mp hstack
    have hfault : faultAt? tags ranges n = some .unmatchedClose := by
      simp [faultAt?, hr, hk, hhead]
    refine ⟨fun fault hf => ?_, fun hf => ?_⟩
    · rw [hfault] at hf
      cases hf
      simp [step, hk, hempty]
    · rw [hfault] at hf
      cases hf
  | cons i rest =>
    rw [hopen] at hhead hstack hnext
    rw [hhead, List.head?_cons, Option.map_some, Option.toList_some] at hpairs
    obtain ⟨u, us, hu, hus, hs⟩ := List.forall₂_cons_left_iff.mp hstack
    obtain ⟨o, ho, htag, hattributes, hstart, hopenEnd⟩ := hu.opening
    have hus' : List.Forall₂ (IsUnclosed ranges (n + 1)) rest us :=
      hus.imp fun _ _ hv => hv.congr (hkeep _)
    have hfault : faultAt? tags ranges n =
        if tags.contains o.name ∧ ¬ InOrder o r then
          some (.disordered o.name o.start o.stop r.start r.stop)
        else none := by
      simp [faultAt?, hr, hk, hhead, ho]
    rw [hfault]
    by_cases htracked : tags.contains o.name = true
    · have htrackedPairs : trackedPairs tags ranges (n + 1) =
          trackedPairs tags ranges n ++ [(i, n)] := by
        simp only [trackedPairs, hpairs, List.filter_append]
        simpa [ho] using htracked
      by_cases horder : InOrder o r
      · refine ⟨by simp [horder], fun _ => ?_⟩
        obtain ⟨x, hx⟩ := Option.ne_none_iff_exists'.mp
          (fun hnone => ofOffsets?_eq_none_iff.mp hnone horder)
        obtain ⟨hx1, hx2, hx3, hx4⟩ := ofOffsets?_eq_some hx
        refine ⟨_, by simp only [step, hk, hs, htag, htracked, if_true, close, hstart,
          hopenEnd, hx, bind, Except.bind]; rfl, by rw [hnext]; exact hus', ?_⟩
        rw [htrackedPairs, List.reverse_cons]
        refine List.rel_append (forall₂_records_succ h.ended) (.cons ⟨?_, ?_⟩ .nil)
        · exact ⟨o, r, ho, hr, rfl, hattributes, hx1, hx2, hx3, hx4, rfl, rfl⟩
        · rw [hkeep]
          exact hu.marks
      · refine ⟨fun fault hf => ?_, fun hf => ?_⟩
        · rw [if_pos ⟨htracked, horder⟩] at hf
          cases hf
          have hnone := ofOffsets?_eq_none_iff.mpr horder
          simp only [step, hk, hs, htag, htracked, if_true, close, hstart, hopenEnd, hnone, bind,
            Except.bind]
        · rw [if_pos ⟨htracked, horder⟩] at hf
          cases hf
    · refine ⟨fun fault hf => ?_, fun _ => ⟨_, by
        simp only [step, hk, hs, htag, htracked, Bool.false_eq_true, if_false]; rfl, by
        rw [hnext]; exact hus', ?_⟩⟩
      · rw [if_neg fun hc => htracked hc.1] at hf
        cases hf
      · have hsame : trackedPairs tags ranges (n + 1) = trackedPairs tags ranges n := by
          simp only [trackedPairs, hpairs, List.filter_append]
          simpa [ho] using htracked
        rw [hsame]
        exact forall₂_records_succ h.ended

end Range

/-! ## All ranges -/

theorem take_succ_eq {ranges : List TagRange} {n : Nat} {r : TagRange} (hr : ranges[n]? = some r) :
    ranges.take (n + 1) = ranges.take n ++ [r] := by
  rw [List.take_add_one, hr, Option.toList_some]

theorem foldlM_take_succ {index : LineTable} {tags : List String} {ranges : List TagRange} {n : Nat}
    {r : TagRange} {s : State} (hr : ranges[n]? = some r)
    (h : (ranges.take n).foldlM (step index tags) {} = .ok s) :
    (ranges.take (n + 1)).foldlM (step index tags) {} = step index tags s r := by
  rw [take_succ_eq hr, List.foldlM_append, h]
  simp only [bind, Except.bind, List.foldlM_cons, List.foldlM_nil, pure, Except.pure]
  cases step index tags s r <;> rfl

theorem holds_nil (buffer : Bytes) (tags : List String) (ranges : List TagRange) :
    Holds buffer tags ranges 0 {} :=
  ⟨.nil, .nil⟩

/-- As long as no range has a fault, tracking goes on and keeps its invariant. -/
theorem holds_take (buffer : Bytes) (tags : List String) (ranges : List TagRange) {n : Nat}
    (hn : n ≤ ranges.length) (hno : ∀ m < n, faultAt? tags ranges m = none) :
    ∃ s, (ranges.take n).foldlM (step (.ofBytes buffer) tags) {} = .ok s ∧
      Holds buffer tags ranges n s := by
  induction n with
  | zero => exact ⟨{}, rfl, holds_nil buffer tags ranges⟩
  | succ n ih =>
    obtain ⟨s, hs, hHolds⟩ := ih (by omega) fun m hm => hno m (by omega)
    have hr : ranges[n]? = some ranges[n] := List.getElem?_eq_getElem (by omega)
    rw [foldlM_take_succ hr hs]
    cases hk : ranges[n].kind with
    | opening => exact holds_step_opening hHolds hr hk
    | closing => exact (holds_step_closing hHolds hr hk).2 (hno n (by omega))

/-- The first fault in the order of ranges ends tracking. -/
theorem foldlM_eq_error {buffer : Bytes} {tags : List String} {ranges : List TagRange} {n : Nat}
    {fault : Fault} (hfault : faultAt? tags ranges n = some fault)
    (hno : ∀ m < n, faultAt? tags ranges m = none) :
    ranges.foldlM (step (.ofBytes buffer) tags) {} = .error fault := by
  cases hr : ranges[n]? with
  | none => simp [faultAt?, hr] at hfault
  | some r =>
    have hn : n < ranges.length := (List.getElem?_eq_some_iff.mp hr).1
    have hk : r.kind = .closing := by
      cases hk : r.kind with
      | opening => simp [faultAt?, hr, hk] at hfault
      | closing => rfl
    obtain ⟨s, hs, hHolds⟩ := holds_take buffer tags ranges hn.le hno
    have herror := foldlM_take_succ hr hs
    rw [(holds_step_closing hHolds hr hk).1 fault hfault] at herror
    rw [← List.take_append_drop (n + 1) ranges, List.foldlM_append, herror]
    rfl

/-- **Tracking is bracket matching.** The first range that closes what is not open, or closes a
tracked element whose tags are out of order, decides the failure. Otherwise there is one element
for each pair whose opening tag is tracked, with the offsets of its two tags and with the
annotations whose parent it is, and the elements stand in the order in which they start, those
that start together in the order in which they end. -/
theorem trackedElements_eq_matching (buffer : Bytes) (tags : List String) (ranges : List TagRange) :
    (∀ n fault, faultAt? tags ranges n = some fault → (∀ m < n, faultAt? tags ranges m = none) →
      trackedElements buffer tags ranges = .error fault) ∧
    ((∀ n, faultAt? tags ranges n = none) →
      ∃ ended elements, trackedElements buffer tags ranges = .ok elements ∧
        List.Forall₂ (IsRecord buffer ranges ranges.length) (trackedPairs tags ranges ranges.length)
          ended ∧
        elements.Perm ended ∧
        (elements.Pairwise fun e f => e.extent.start ≤ f.extent.start) ∧
        ∀ o : Int, elements.filter (fun e => decide (e.extent.start = o)) =
          ended.filter fun e => decide (e.extent.start = o)) := by
  constructor
  · intro n fault hfault hno
    rw [trackedElements, foldlM_eq_error hfault hno]
    rfl
  · intro hno
    obtain ⟨s, hs, hHolds⟩ := holds_take buffer tags ranges le_rfl fun m _ => hno m
    rw [List.take_length] at hs
    refine ⟨s.ended.reverse, _, by rw [trackedElements, hs]; rfl, hHolds.ended,
      List.mergeSort_perm _ _, ?_, ?_⟩
    · exact sorted_mergeSort_key (fun e : Element => e.extent.start) _
    · exact filter_mergeSort_key (fun e : Element => e.extent.start) _

end AccessPatch.Pairing
