import AccessPatch.Document
import AccessPatch.Proofs.Lines
import Mathlib.Data.List.TakeWhile

/-!
# Documents known by their ASCII bytes

Tags, lines and indentations are found by bytes of ASCII. `blur` makes all other bytes alike, and
nothing that is found in a blurred document differs from what is found in the document: neither
the ranges of its tags, nor its elements (`trackedElements_blur`), nor the plan for them
(`planDetected_blur`).
-/

namespace AccessPatch

/-- A byte as it looks to those who know ASCII alone. -/
def blur (b : UInt8) : UInt8 :=
  if b < 0x80 then b else 0x80

theorem blur_eq_iff {a b : UInt8} (ha : a < 0x80) : blur b = a ↔ b = a := by
  unfold blur
  split
  · rfl
  · rename_i hb
    constructor
    · rintro rfl
      exact absurd ha (by decide)
    · rintro rfl
      exact absurd ha hb

theorem map_blur_eq_iff {as bs : Bytes} (has : ∀ a ∈ as, a < 0x80) :
    bs.map blur = as ↔ bs = as := by
  induction as generalizing bs with
  | nil => exact List.map_eq_nil_iff
  | cons a as ih =>
    obtain ⟨ha, has⟩ := List.forall_mem_cons.mp has
    cases bs with
    | nil => simp
    | cons b bs => rw [List.map_cons, List.cons.injEq, List.cons.injEq, blur_eq_iff ha, ih has]

/-! ## Tags -/

theorem unquotedEnd?_blur {quote : Option UInt8} (hquote : ∀ q ∈ quote, q < 0x80) (pos : Nat)
    (bs : Bytes) : unquotedEnd? pos quote (bs.map blur) = unquotedEnd? pos quote bs := by
  induction bs generalizing pos quote with
  | nil => rfl
  | cons b bs ih =>
    cases quote with
    | some q =>
      have hq := hquote q rfl
      simp only [List.map_cons, unquotedEnd?, blur_eq_iff hq]
      refine ih ?_ _
      split
      · simp
      · exact hquote
    | none =>
      have hgreater : blur b = 0x3E ↔ b = 0x3E := blur_eq_iff (by decide)
      have hdouble : blur b = 0x22 ↔ b = 0x22 := blur_eq_iff (by decide)
      have hsingle : blur b = 0x27 ↔ b = 0x27 := blur_eq_iff (by decide)
      simp only [List.map_cons, unquotedEnd?, hgreater, hdouble, hsingle]
      refine ite_congr rfl (fun _ => rfl) fun _ => ite_congr rfl (fun hmark => ?_) fun _ =>
        ih (by simp) _
      rcases hmark with rfl | rfl <;> exact ih (by simp; decide) _

theorem tagEnd?_blur (buffer : Bytes) (start : Nat) :
    tagEnd? (buffer.map blur) start = tagEnd? buffer start := by
  unfold tagEnd?
  rw [← List.map_drop]
  cases buffer.drop start with
  | nil => rfl
  | cons b rest =>
    by_cases hb : b = 0x3C
    · subst hb
      exact unquotedEnd?_blur (by simp) _ _
    · have hblur : ¬ blur b = 0x3C := mt (blur_eq_iff (by decide)).mp hb
      simp [hb, hblur]

theorem closeEnd_blur (buffer : Bytes) (start : Nat) :
    closeEnd (buffer.map blur) start = closeEnd buffer start := by
  have hgreater : (fun b : UInt8 => b == 0x3E) ∘ blur = fun b => b == 0x3E := by
    funext b
    exact Bool.eq_iff_iff.mpr (by simp [blur_eq_iff])
  rw [closeEnd, ← List.map_drop, List.findIdx?_map, hgreater]
  rfl

/-- A tag ends as an empty one does if the blurred tag does. -/
theorem endsEmpty_blur (buffer : Bytes) (stop : Nat) :
    (((buffer.map blur).take stop).drop (stop - 2) == [0x2F, 0x3E]) =
      ((buffer.take stop).drop (stop - 2) == [0x2F, 0x3E]) := by
  rw [← List.map_take, ← List.map_drop, Bool.eq_iff_iff, beq_iff_eq, beq_iff_eq]
  exact map_blur_eq_iff (by simp)

theorem TagRange.Collector.add_blur (buffer : Bytes) (symbols : List Xml.Symbol) :
    add (buffer.map blur) symbols = add buffer symbols := by
  funext c e
  unfold add
  simp only [tagEnd?_blur, closeEnd_blur, endsEmpty_blur]

/-! ## Lines -/

theorem lineBreaksFrom_blur (start : Nat) (bs : Bytes) :
    lineBreaksFrom start (bs.map blur) = lineBreaksFrom start bs := by
  fun_induction lineBreaksFrom start bs with
  | case1 => rfl
  | case2 start rest ih => exact congrArg _ ih
  | case3 start rest hno ih =>
    have hhead : (rest.map blur).head? ≠ some 0x0A := by
      cases rest with
      | nil => simp
      | cons c rest => simpa [blur_eq_iff] using fun hc => hno rest (by rw [hc])
    exact (lineBreaksFrom_cr hhead).trans (congrArg _ ih)
  | case4 start rest ih => exact congrArg _ ih
  | case5 start b rest _ hcr hlf ih =>
    have hb : isLineEnd (blur b) = false := by
      simpa [isLineEnd, blur_eq_iff] using And.intro hlf hcr
    rw [List.map_cons, lineBreaksFrom_of_not_isLineEnd hb, ih]

theorem lineTable_blur (buffer : Bytes) :
    LineTable.ofBytes (buffer.map blur) = LineTable.ofBytes buffer := by
  rw [LineTable.ofBytes, lineBreaks, lineBreaksFrom_blur]
  rfl

theorem firstNewline_blur (buffer : Bytes) :
    firstNewline (buffer.map blur) = firstNewline buffer := by
  rw [firstNewline, lineBreaks, lineBreaksFrom_blur]
  rfl

theorem before_blur (buffer : Bytes) (offset : Int) :
    Bytes.before (buffer.map blur) offset = (Bytes.before buffer offset).map blur := by
  rw [Bytes.before, Bytes.before, List.map_take, List.length_map]

theorem isIndent_blur : isIndent ∘ blur = isIndent := by
  funext b
  exact Bool.eq_iff_iff.mpr (by simp [isIndent, blur_eq_iff])

theorem isLineEnd_blur : isLineEnd ∘ blur = isLineEnd := by
  funext b
  exact Bool.eq_iff_iff.mpr (by simp [isLineEnd, blur_eq_iff])

theorem indentBefore_blur (buffer : Bytes) (offset : Int) :
    indentBefore (buffer.map blur) offset = indentBefore buffer offset := by
  have hline : (fun b => ! isLineEnd b) ∘ blur = fun b => ! isLineEnd b := by
    funext b
    exact congrArg (! ·) (congrFun isLineEnd_blur b)
  unfold indentBefore
  simp only [before_blur, List.length_map, ← List.map_reverse, ← List.map_take, ← List.map_drop,
    List.takeWhile_map, hline, isIndent_blur]
  refine (map_blur_eq_iff fun b hb => ?_).mpr rfl
  have hindent := List.mem_takeWhile_imp hb
  rcases (by simpa [isIndent] using hindent : b = 0x20 ∨ b = 0x09) with rfl | rfl <;> decide

/-! ## Elements and their plan -/

theorem trackedElements_blur (buffer : Bytes) (tags : List String) (ranges : List TagRange) :
    trackedElements (buffer.map blur) tags ranges = trackedElements buffer tags ranges := by
  rw [trackedElements, lineTable_blur]
  rfl

theorem planDetected_blur (buffer : Bytes) (elements : List Element) (naming : Patch.Naming) :
    Patch.planDetected (buffer.map blur) elements naming =
      Patch.planDetected buffer elements naming := by
  have hop : ∀ newline, Patch.opFor (buffer.map blur) newline = Patch.opFor buffer newline := by
    intro newline
    funext element identifier
    simp only [Patch.opFor, indentBefore_blur]
  rw [Patch.planDetected, Patch.plan, firstNewline_blur, hop]
  rfl

end AccessPatch
