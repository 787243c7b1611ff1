import AccessPatch.Diff.Matching
import Mathlib.Data.List.Sort

/-!
# Runs of lines in common

Both texts have every run that the search for a longest one comes upon (`Fits`), because a run
ends with equal lines and without them is a run that ended one line before (`Search.Sound.step`).
What is found before a run and after it lies beside it in both texts, so the runs of two texts
stand in the same order in both (`chain_blocks`). Which of the runs are found, and that they are
long, does not matter for that.
-/

namespace AccessPatch.Diff

/-- Within ranges of two texts, a block of lines that both have. -/
structure Fits (a b : List String) (oldStart oldStop newStart newStop : Nat)
    (block : Block) : Prop where
  oldStart_le : oldStart ≤ block.old
  old_le : block.old + block.size ≤ oldStop
  newStart_le : newStart ≤ block.new
  new_le : block.new + block.size ≤ newStop
  same : ∀ m < block.size, a[block.old + m]? = b[block.new + m]?

section Fits

variable {a b : List String} {oldStart oldStop newStart newStop old new : Nat} {block : Block}

theorem fits_empty (hold : oldStart ≤ old) (hold' : old ≤ oldStop) (hnew : newStart ≤ new)
    (hnew' : new ≤ newStop) :
    Fits a b oldStart oldStop newStart newStop ⟨old, new, 0⟩ :=
  ⟨hold, hold', hnew, hnew', fun m hm => absurd hm (Nat.not_lt_zero m)⟩

theorem Fits.within (h : Fits a b oldStart oldStop newStart newStop block)
    {oldStart' oldStop' newStart' newStop' : Nat} (hstart : oldStart' ≤ oldStart)
    (hstop : oldStop ≤ oldStop') (hstart' : newStart' ≤ newStart) (hstop' : newStop ≤ newStop') :
    Fits a b oldStart' oldStop' newStart' newStop' block :=
  ⟨hstart.trans h.oldStart_le, h.old_le.trans hstop, hstart'.trans h.newStart_le,
    h.new_le.trans hstop', h.same⟩

/-- Two blocks, one right behind the other, are one. -/
theorem Fits.join {after : Block} (h : Fits a b oldStart oldStop newStart newStop block)
    (h' : Fits a b oldStart oldStop newStart newStop after)
    (hold : block.old + block.size = after.old) (hnew : block.new + block.size = after.new) :
    Fits a b oldStart oldStop newStart newStop { block with size := block.size + after.size } := by
  have hstop := h'.old_le
  have hstop' := h'.new_le
  rw [← hold, Nat.add_assoc] at hstop
  rw [← hnew, Nat.add_assoc] at hstop'
  refine ⟨h.oldStart_le, hstop, h.newStart_le, hstop', fun m hm => ?_⟩
  rcases Nat.lt_or_ge m block.size with hfirst | hsecond
  · exact h.same m hfirst
  · obtain ⟨n, rfl⟩ := Nat.exists_eq_add_of_le hsecond
    have hline := h'.same n (Nat.lt_of_add_lt_add_left hm)
    rwa [← hold, ← hnew, Nat.add_assoc, Nat.add_assoc] at hline

/-- One more line. -/
theorem Fits.concat (h : Fits a b oldStart old newStart newStop block)
    (hold : block.old + block.size = old) (hnew : block.new + block.size = new)
    (hstop : new < newStop) (hline : a[old]? = b[new]?) :
    Fits a b oldStart (old + 1) newStart newStop { block with size := block.size + 1 } := by
  have hstart : oldStart ≤ old := h.oldStart_le.trans (hold ▸ Nat.le_add_right _ _)
  have hstart' : newStart ≤ new := h.newStart_le.trans (hnew ▸ Nat.le_add_right _ _)
  have hone : Fits a b oldStart (old + 1) newStart newStop ⟨old, new, 1⟩ :=
    ⟨hstart, le_rfl, hstart', hstop, fun m hm => by rw [Nat.lt_one_iff.mp hm]; exact hline⟩
  exact (h.within le_rfl (Nat.le_succ old) le_rfl le_rfl).join hone hold hnew

end Fits

/-! ## The search -/

section Search

variable {a b : List String} {oldStart oldStop newStart newStop old : Nat} {s : Search}

/-- The best run of a search is one of both texts, and so are the runs that end before an old
line. -/
structure Search.Sound (a b : List String) (oldStart oldStop newStart newStop : Nat) (s : Search)
    (old : Nat) :
    Prop where
  best : Fits a b oldStart oldStop newStart newStop s.best
  ending : ∀ p ∈ s.ending, ∃ block, Fits a b oldStart old newStart newStop block ∧
    block.old + block.size = old ∧ block.new + block.size = p.1 + 1 ∧ block.size = p.2

theorem Search.Sound.lengthBefore (h : s.Sound a b oldStart oldStop newStart newStop old)
    (hold : oldStart ≤ old) {new : Nat} (hnew : newStart ≤ new) (hstop : new ≤ newStop) :
    ∃ block, Fits a b oldStart old newStart newStop block ∧ block.old + block.size = old ∧
      block.new + block.size = new ∧ block.size = s.lengthBefore new := by
  have hempty : ∃ block, Fits a b oldStart old newStart newStop block ∧
      block.old + block.size = old ∧
      block.new + block.size = new ∧ block.size = 0 :=
    ⟨⟨old, new, 0⟩, fits_empty hold le_rfl hnew hstop, rfl, rfl, rfl⟩
  cases new with
  | zero => exact hempty
  | succ n =>
    cases hlookup : s.ending.lookup n with
    | none => simpa only [Search.lengthBefore, hlookup, Option.getD_none] using hempty
    | some size =>
      simp only [Search.lengthBefore, hlookup, Option.getD_some]
      obtain ⟨before, after, hsplit, -⟩ := List.lookup_eq_some_iff.mp hlookup
      exact h.ending (n, size) (by rw [hsplit]; simp)

/-- **Step.** The next old line makes the runs longer that go on with it. -/
theorem Search.Sound.step (h : s.Sound a b oldStart oldStop newStart newStop old)
    (hold : oldStart ≤ old) (hstop : old < oldStop) {indices : List Nat}
    (hindices : ∀ new ∈ indices, newStart ≤ new ∧ new < newStop ∧ a[old]? = b[new]?) :
    (s.step old indices).Sound a b oldStart oldStop newStart newStop (old + 1) := by
  have hending : ∀ p ∈ indices.map fun new => (new, s.lengthBefore new + 1),
      ∃ block, Fits a b oldStart (old + 1) newStart newStop block ∧
        block.old + block.size = old + 1 ∧
        block.new + block.size = p.1 + 1 ∧ block.size = p.2 := by
    intro p hp
    obtain ⟨new, hnew, rfl⟩ := List.mem_map.mp hp
    obtain ⟨hstart, hnewStop, hline⟩ := hindices new hnew
    obtain ⟨block, hfits, hblock, hblock', hsize⟩ := h.lengthBefore hold hstart hnewStop.le
    refine ⟨_, hfits.concat hblock hblock' hnewStop hline, ?_, ?_,
      congrArg (· + 1) hsize⟩ <;> simp only <;> omega
  refine ⟨?_, hending⟩
  refine List.foldlRecOn (motive := Fits a b oldStart oldStop newStart newStop) _ _ h.best ?_
  intro best hbest p hp
  obtain ⟨block, hfits, hblock, hblock', hsize⟩ := hending p hp
  obtain ⟨new, size⟩ := p
  dsimp only at hblock hblock' hsize ⊢
  split
  · have heq : block = { old := old + 1 - size, new := new + 1 - size, size } := by
      rw [Block.mk.injEq]
      omega
    exact heq ▸ hfits.within le_rfl hstop le_rfl le_rfl
  · exact hbest

/-- Where the indices of a line are looked up, both texts have that line. -/
theorem getElem?_of_mem_indicesOf {line : String} {new : Nat} (h : new ∈ indicesOf b line) :
    b[new]? = some line := by
  unfold indicesOf at h
  split at h
  · cases h
  · obtain ⟨⟨other, index⟩, hmem, rfl⟩ := List.mem_map.mp h
    obtain ⟨hindex, heq⟩ := List.mem_filter.mp hmem
    rw [List.mem_zipIdx_iff_getElem?.mp hindex, eq_of_beq heq]

/-- **Run.** The search over a row of indices for each old line. -/
theorem Search.Sound.foldl {rows : List (List Nat)}
    (h : s.Sound a b oldStart oldStop newStart newStop old) (hold : oldStart ≤ old)
    (hstop : old + rows.length ≤ oldStop)
    (hrows : ∀ m row, rows[m]? = some row → ∀ new ∈ row, a[old + m]? = b[new]?) :
    ((rows.zipIdx old).foldl (fun s (indices, old) =>
        s.step old (indices.filter fun new => decide (newStart ≤ new ∧ new < newStop))) s).Sound
      a b oldStart oldStop newStart newStop (old + rows.length) := by
  induction rows generalizing s old with
  | nil => exact h
  | cons row rows ih =>
    rw [List.length_cons] at hstop ⊢
    rw [List.zipIdx_cons, List.foldl_cons, Nat.add_comm rows.length, ← Nat.add_assoc]
    refine ih (h.step hold (by omega) fun new hnew => ?_) (by omega) (by omega)
      fun m row' hrow new hnew => ?_
    · obtain ⟨hmem, hrange⟩ := List.mem_filter.mp hnew
      obtain ⟨hstart, hnewStop⟩ := of_decide_eq_true hrange
      exact ⟨hstart, hnewStop, hrows 0 row rfl new hmem⟩
    · have hline := hrows (m + 1) row' hrow new hnew
      rwa [Nat.add_comm m, ← Nat.add_assoc] at hline

theorem fits_longestRun (hold : oldStart ≤ oldStop) (hlength : oldStop ≤ a.length)
    (hnew : newStart ≤ newStop) :
    Fits a b oldStart oldStop newStart newStop
      (longestRun (a.map (indicesOf b)) oldStart oldStop newStart newStop) := by
  have hbegin : ({ best := { old := oldStart, new := newStart, size := 0 } } : Search).Sound
      a b oldStart oldStop newStart newStop oldStart :=
    ⟨fits_empty le_rfl hold le_rfl hnew, by simp⟩
  refine (hbegin.foldl le_rfl ?_ fun m row hrow new hmem => ?_).best
  · simp only [List.length_take, List.length_drop, List.length_map]
    omega
  · rw [List.getElem?_take] at hrow
    split at hrow
    · rw [List.getElem?_drop, List.getElem?_map] at hrow
      obtain ⟨line, hline, rfl⟩ := Option.map_eq_some_iff.mp hrow
      rw [hline, getElem?_of_mem_indicesOf hmem]
    · cases hrow

end Search

/-! ## Runs made longer -/

section Extend

variable {a b : List String} {oldStart oldStop newStart newStop : Nat} {run : Block}

theorem getElem?_slice (lines : List String) (start stop m : Nat) :
    (slice lines start stop)[m]? = if m < stop - start then lines[start + m]? else none := by
  rw [slice, List.getElem?_take, List.getElem?_drop]

theorem length_slice (lines : List String) (start stop : Nat) :
    (slice lines start stop).length = min stop lines.length - start := by
  rw [slice, List.length_take, List.length_drop]
  omega

theorem getElem?_reverse_slice {lines : List String} {start stop m : Nat}
    (hstop : stop ≤ lines.length) (hm : m < stop - start) :
    (slice lines start stop).reverse[m]? = lines[stop - 1 - m]? := by
  have hlength := length_slice lines start stop
  rw [List.getElem?_reverse (by omega), getElem?_slice, if_pos (by omega)]
  congr 1
  omega

theorem commonLead_le (as bs : List String) :
    commonLead as bs ≤ as.length ∧ commonLead as bs ≤ bs.length := by
  fun_induction commonLead as bs with
  | case1 a as bs ih => simpa using ih
  | case2 => simp
  | case3 => simp

theorem getElem?_of_lt_commonLead (as bs : List String) :
    ∀ m < commonLead as bs, as[m]? = bs[m]? := by
  fun_induction commonLead as bs with
  | case1 a as bs ih =>
    intro m hm
    cases m with
    | zero => rfl
    | succ m => exact ih m (Nat.lt_of_succ_lt_succ hm)
  | case2 => simp
  | case3 => simp

/-- The lines that match from two places on. -/
theorem fits_forth {old new : Nat} (hstart : oldStart ≤ old) (hold : old ≤ oldStop)
    (hstart' : newStart ≤ new) (hnew : new ≤ newStop) : Fits a b oldStart oldStop newStart newStop
      ⟨old, new, commonLead (slice a old oldStop) (slice b new newStop)⟩ := by
  have hlead := commonLead_le (slice a old oldStop) (slice b new newStop)
  have hline := getElem?_of_lt_commonLead (slice a old oldStop) (slice b new newStop)
  rw [length_slice, length_slice] at hlead
  generalize commonLead (slice a old oldStop) (slice b new newStop) = n at *
  refine ⟨hstart, by dsimp only; omega, hstart', by dsimp only; omega, fun m hm => ?_⟩
  dsimp only at hm
  have hm' := hline m hm
  rwa [getElem?_slice, getElem?_slice, if_pos (by omega), if_pos (by omega)] at hm'

/-- The lines that match as far as two places. -/
theorem fits_back {old new : Nat} (hstart : oldStart ≤ old) (hold : old ≤ oldStop)
    (hlength : old ≤ a.length) (hstart' : newStart ≤ new) (hnew : new ≤ newStop)
    (hlength' : new ≤ b.length) {n : Nat}
    (hn : n = commonLead (slice a oldStart old).reverse (slice b newStart new).reverse) :
    Fits a b oldStart oldStop newStart newStop ⟨old - n, new - n, n⟩ ∧ n ≤ old ∧ n ≤ new := by
  have hlead := commonLead_le (slice a oldStart old).reverse (slice b newStart new).reverse
  have hline :=
    getElem?_of_lt_commonLead (slice a oldStart old).reverse (slice b newStart new).reverse
  rw [List.length_reverse, List.length_reverse, length_slice, length_slice] at hlead
  rw [← hn] at hlead hline
  refine ⟨⟨by dsimp only; omega, by dsimp only; omega, by dsimp only; omega, by dsimp only; omega,
    fun m hm => ?_⟩, by omega, by omega⟩
  dsimp only at hm ⊢
  have hm' := hline (n - 1 - m) (by omega)
  rw [getElem?_reverse_slice hlength (by omega), getElem?_reverse_slice hlength' (by omega)] at hm'
  have hplace : old - 1 - (n - 1 - m) = old - n + m := by omega
  have hplace' : new - 1 - (n - 1 - m) = new - n + m := by omega
  rwa [hplace, hplace'] at hm'

/-- Lines that match before a run and after it belong to the run. -/
theorem fits_extend (h : Fits a b oldStart oldStop newStart newStop run)
    (hlength : oldStop ≤ a.length) (hlength' : newStop ≤ b.length) :
    Fits a b oldStart oldStop newStart newStop
      (extend a b oldStart oldStop newStart newStop run) := by
  have hstop : run.old ≤ oldStop := (Nat.le_add_right _ _).trans h.old_le
  have hstop' : run.new ≤ newStop := (Nat.le_add_right _ _).trans h.new_le
  obtain ⟨hback, hold, hnew⟩ :=
    fits_back (a := a) (b := b) h.oldStart_le hstop (hstop.trans hlength) h.newStart_le
    hstop' (hstop'.trans hlength') rfl
  have hforth :
      Fits a b oldStart oldStop newStart newStop ⟨run.old + run.size, run.new + run.size, _⟩ :=
    fits_forth (h.oldStart_le.trans (Nat.le_add_right _ _)) h.old_le
      (h.newStart_le.trans (Nat.le_add_right _ _))
      h.new_le
  have hrun := hback.join h (Nat.sub_add_cancel hold) (Nat.sub_add_cancel hnew)
  refine hrun.join hforth ?_ ?_
  · rw [← Nat.add_assoc, Nat.sub_add_cancel hold]
  · rw [← Nat.add_assoc, Nat.sub_add_cancel hnew]

end Extend

/-! ## Runs in order -/

/-- Blocks of lines that both texts have, one behind the other in both of them. -/
inductive Chain (a b : List String) (oldStop newStop : Nat) : Nat → Nat → List Block → Prop where
  | nil {old new : Nat} (hold : old ≤ oldStop) (hnew : new ≤ newStop) :
      Chain a b oldStop newStop old new []
  | cons {old new : Nat} {block : Block} {rest : List Block}
      (fits : Fits a b old oldStop new newStop block)
      (next : Chain a b oldStop newStop (block.old + block.size) (block.new + block.size) rest) :
      Chain a b oldStop newStop old new (block :: rest)

section Chain

variable {a b : List String} {oldStop newStop old new old' new' : Nat} {block : Block}
  {xs ys : List Block}

theorem Chain.since (h : Chain a b oldStop newStop old' new' xs) (hold : old ≤ old')
    (hnew : new ≤ new') :
    Chain a b oldStop newStop old new xs := by
  cases h with
  | nil hold' hnew' => exact .nil (hold.trans hold') (hnew.trans hnew')
  | cons fits next => exact .cons (fits.within hold le_rfl hnew le_rfl) next

theorem Chain.append (hxs : Chain a b old' new' old new xs)
    (hys : Chain a b oldStop newStop old' new' ys) (hold : old' ≤ oldStop) (hnew : new' ≤ newStop) :
    Chain a b oldStop newStop old new (xs ++ ys) := by
  induction hxs with
  | nil hold' hnew' => exact hys.since hold' hnew'
  | cons fits _ ih => exact .cons (fits.within le_rfl hold le_rfl hnew) ih

/-- A block between others. -/
theorem Chain.around (fits : Fits a b old oldStop new newStop block)
    (hxs : Chain a b block.old block.new old new xs)
    (hys : Chain a b oldStop newStop (block.old + block.size) (block.new + block.size) ys) :
    Chain a b oldStop newStop old new (xs ++ block :: ys) := by
  have hold := fits.old_le
  have hnew := fits.new_le
  refine hxs.append (.cons ⟨le_rfl, hold, le_rfl, hnew, fits.same⟩ hys) ?_ ?_ <;> omega

theorem chain_blocksIn (fuel : Nat) (hold : old ≤ oldStop) (hlength : oldStop ≤ a.length)
    (hnew : new ≤ newStop) (hlength' : newStop ≤ b.length) :
    Chain a b oldStop newStop old new
      (blocksIn a b (a.map (indicesOf b)) fuel old oldStop new newStop) := by
  induction fuel generalizing old oldStop new newStop with
  | zero => exact .nil hold hnew
  | succ fuel ih =>
    rw [blocksIn]
    have hfits := fits_extend (fits_longestRun (b := b) hold hlength hnew) hlength hlength'
    generalize extend a b old oldStop new newStop _ = block at hfits ⊢
    have hstart := hfits.oldStart_le
    have hstop := hfits.old_le
    have hstart' := hfits.newStart_le
    have hstop' := hfits.new_le
    split
    · exact .nil hold hnew
    · refine .around hfits ?_ ?_
      · split
        · exact ih hstart (by omega) hstart' (by omega)
        · exact .nil hstart hstart'
      · split
        · exact ih hstop hlength hstop' hlength'
        · exact .nil hstop hstop'

theorem Chain.join (h : Chain a b oldStop newStop old new xs) :
    Chain a b oldStop newStop old new (join xs) := by
  induction h with
  | nil hold hnew => exact .nil hold hnew
  | @cons old new block rest fits next ih =>
    rw [Diff.join]
    cases hrest : Diff.join rest with
    | nil => exact .cons fits (hrest ▸ ih)
    | cons after later =>
      rw [hrest] at ih
      dsimp only
      split
      · rename_i htouch
        cases ih with
        | cons fits' next' =>
          have hlater : block.old + (block.size + after.size) = after.old + after.size ∧
              block.new + (block.size + after.size) = after.new + after.size := by omega
          have hstart : old ≤ block.old + block.size :=
            fits.oldStart_le.trans (Nat.le_add_right _ _)
          have hstart' : new ≤ block.new + block.size :=
            fits.newStart_le.trans (Nat.le_add_right _ _)
          refine .cons (fits.join (fits'.within hstart le_rfl hstart' le_rfl) htouch.1 htouch.2) ?_
          simpa only [hlater] using next'
      · exact .cons fits ih

/-- The runs of lines that two texts have in common come in the same order in both. -/
theorem chain_blocks (a b : List String) : Chain a b a.length b.length 0 0 (blocks a b) :=
  (chain_blocksIn _ (Nat.zero_le _) le_rfl (Nat.zero_le _) le_rfl).join

end Chain

end AccessPatch.Diff
