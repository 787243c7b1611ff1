import AccessPatch.Proofs.Annotated
import AccessPatch.Proofs.Run
import AccessPatch.Proofs.Spliceable
import Mathlib.Algebra.Ring.Nat

/-!
# Rounds of annotating

A document is annotated several times, each time for other tags and with other names. No round
fails or changes what the document says of its elements, and each of them plans exactly the
elements that are due: those without annotation that no earlier round has tracked
(`returns_runRounds`). The invariant is that the document has a layout, and that its elements
follow those of the original document (`IsAfter`); one round keeps it (`exists_stage`).
-/

namespace AccessPatch.Patch

open Pairing (endedWith)
open Run (Returns returns_pure)
open Xml

/-! ## Rounds -/

/-- A round of annotating: the tags that it tracks, and how it names. -/
structure Round where
  tags : List String
  lead : String := ""
  unique : Bool := false
deriving DecidableEq, Repr

def Round.naming (round : Round) : Naming :=
  { lead := round.lead, unique := round.unique }

/-- What a round plans, and the document after it. -/
structure Stage where
  ops : List Op
  patched : Bytes

/-- Finds the elements of a document, plans, and carries the plan out in a dry run without a
check. -/
def Round.run (round : Round) (identity : String) (buffer : Bytes) : Run Stage := do
  let elements ← findElements buffer identity round.tags
  let ops ← planAnnotations buffer elements round.naming
  let outcome ← apply buffer ops { dryRun := true, verify := false }
  return ⟨ops, outcome.patched⟩

/-- One round after the other, each with the document that the one before it has left. -/
def runRounds (identity : String) (buffer : Bytes) : List Round → Run (List Stage)
  | [] => return []
  | round :: rounds => do
    let stage ← round.run identity buffer
    let stages ← runRounds identity stage.patched rounds
    return stage :: stages

/-! ## What rounds do to a document -/

/-- An element of the original document, and the same one after some rounds. -/
structure Follows (rounds : List Round) (e e' : Element) : Prop where
  tag : e'.tag = e.tag
  attributes : e'.attributes = e.attributes
  annotated : e'.annotated = true ↔ e.annotated = true ∨ ∃ round ∈ rounds, e.tag ∈ round.tags

/-- The document `current` is what some rounds with `planned` operations have made of `original`. -/
structure IsAfter (identity : String) (original : Bytes) (rounds : List Round) (planned : Nat)
    (current : Bytes) : Prop where
  elements : ∀ tags : List String, Accessibility.tag ∉ tags →
    ∃ es es', elementsOf original identity tags = .ok es ∧
      elementsOf current identity tags = .ok es' ∧
      List.Forall₂ (Follows rounds) es es'
  annotations : ∃ as as', elementsOf original identity [Accessibility.tag] = .ok as ∧
    elementsOf current identity [Accessibility.tag] = .ok as' ∧ as'.length = as.length + planned

/-- After the rounds `earlier`, a round plans the elements that are due, each of them once: those
that had no annotation in the original document and that no earlier round has tracked. -/
structure PlansDue (identity : String) (original : Bytes) (earlier : List Round) (current : Bytes)
    (round : Round) (ops : List Op) : Prop where
  due : ∃ es es', elementsOf original identity round.tags = .ok es ∧
    elementsOf current identity round.tags = .ok es' ∧ es'.Nodup ∧ (∀ op ∈ ops, op.source ∈ es') ∧
    List.Forall₂ (fun e e' => e' ∈ ops.map Op.source ↔
      e.annotated = false ∧ ∀ before ∈ earlier, e.tag ∉ before.tags) es es'
  once : (ops.map Op.source).Nodup

variable {identity : String} {original : Bytes} {earlier : List Round} {planned : Nat}

theorem isAfter_refl [Code] {l : Layout} {context : Prolog.Context} {standalone : Bool}
    (h : l.Explains context standalone) (identity : String) :
    IsAfter identity l.bytes [] 0 l.bytes where
  elements tags htags := by
    obtain ⟨ps, hps, hpaired⟩ := exists_paired_with h tags
    have helements :=
      (elementsOf_eq_ok_iff h h.fit h.spelled identity tags _).mpr ⟨ps, hps, hpaired, rfl⟩
    refine ⟨_, _, helements, helements, List.forall₂_same.mpr fun e he => ?_⟩
    exact ⟨rfl, rfl, by simp⟩
  annotations := by
    obtain ⟨as, has, -⟩ := exists_annotations h identity
    exact ⟨as, as, has, has, rfl⟩

theorem forall₂_comp {α β γ : Type} {R : α → β → Prop} {S : β → γ → Prop} {T : α → γ → Prop}
    (h : ∀ a b c, R a b → S b c → T a c) {l : List α} {m : List β} {n : List γ}
    (hR : List.Forall₂ R l m) (hS : List.Forall₂ S m n) : List.Forall₂ T l n := by
  induction hR generalizing n with
  | nil =>
    cases hS
    exact .nil
  | cons hab _ ih =>
    cases hS with
    | cons hbc hrest => exact .cons (h _ _ _ hab hbc) (ih hrest)

theorem Follows.annotates {dtd : Dtd} {ops : List Op} {identify : Int → String} {round : Round}
    {e e₁ e₂ : Element} (h : Follows earlier e e₁)
    (h' : Annotates dtd ops identify round.tags e₁ e₂) :
    Follows (earlier ++ [round]) e e₂ where
  tag := h'.tag.trans h.tag
  attributes := h'.attributes.trans h.attributes
  annotated := by
    rw [h'.annotated, Bool.or_eq_true, h.annotated, h.tag, List.contains_iff_mem]
    simp only [List.mem_append, List.mem_singleton, or_and_right, exists_or,
      exists_eq_left, or_assoc]

theorem not_annotated_iff {e e' : Element} (h : Follows earlier e e') :
    e'.annotated = false ↔ e.annotated = false ∧ ∀ before ∈ earlier, e.tag ∉ before.tags := by
  rw [← Bool.not_eq_true, h.annotated]
  simp

theorem not_contains_iff {tags : List String} :
    tags.contains Accessibility.tag = false ↔ Accessibility.tag ∉ tags := by
  rw [← Bool.not_eq_true, List.contains_iff_mem]

/-- **One round.** It plans what is due, and leaves a document that can be annotated again. -/
theorem exists_stage [Code] {l : Layout} {context : Prolog.Context} {standalone : Bool}
    {round : Round} (h : l.Explains context standalone) (hagrees : Agrees round.tags)
    (hafter : IsAfter identity original earlier planned l.bytes)
    (hno : Accessibility.tag ∉ round.tags) :
    ∃ (stage : Stage) (l' : Layout), Returns (round.run identity l.bytes) stage ∧
      stage.patched = l'.bytes ∧ l'.Explains context standalone ∧
      PlansDue identity original earlier l.bytes round stage.ops ∧
      IsAfter identity original (earlier ++ [round]) (planned + stage.ops.length) l'.bytes := by
  obtain ⟨es, es', hes, hes', hfollows⟩ := hafter.elements round.tags hno
  have hchoose : round.naming.choose = none := rfl
  obtain ⟨l', identify, h', -, hfulfils⟩ :=
    exists_fulfils h (not_contains_iff.mpr hno) hagrees hchoose hes'
  let ops := planDetected l.bytes es' round.naming
  obtain ⟨outcome, houtcome, hpatched, -⟩ :=
    returns_apply (o := { dryRun := true, verify := false }) rfl
      (prepare_eq_ok_iff.mpr ⟨hfulfils.patched, by simp⟩)
  have hsources : (ops.map Op.source).Perm (candidates es') := sources_plan _ _ _ _
  have hnodup := nodup_elements h hes'
  refine ⟨⟨ops, outcome.patched⟩, l', ?_, hpatched, h',
    ⟨⟨es, es', hes, hes', hnodup, fun op hop => ?_, ?_⟩, ?_⟩, fun tags htags => ?_, ?_⟩
  · exact (returns_findElements hes').bind ((returns_planAnnotations _ _ _).bind
      (houtcome.bind (returns_pure _)))
  · exact List.mem_of_mem_filter (hsources.mem_iff.mp (List.mem_map_of_mem hop))
  · obtain ⟨hlength, hall⟩ := List.forall₂_iff_zip.mp hfollows
    refine List.forall₂_iff_zip.mpr ⟨hlength, fun {e e'} hmem => ?_⟩
    rw [hsources.mem_iff, candidates, List.mem_filter, Bool.not_eq_true',
      not_annotated_iff (hall hmem)]
    exact and_iff_right (List.of_mem_zip hmem).2
  · exact hsources.nodup_iff.mpr (hnodup.filter _)
  · obtain ⟨es, es₁, hes, hes₁, hfollows⟩ := hafter.elements tags htags
    obtain ⟨es₁', es₂, hes₁', hes₂, hannotates⟩ :=
      hfulfils.elements tags (not_contains_iff.mpr htags)
    obtain rfl := Except.ok.inj (hes₁.symm.trans hes₁')
    exact ⟨es, es₂, hes, hes₂, forall₂_comp (fun _ _ _ h h' => h.annotates h') hfollows hannotates⟩
  · obtain ⟨as, as₁, has, has₁, hlength⟩ := hafter.annotations
    obtain ⟨as₁', as₂, has₁', has₂, hlength'⟩ := hfulfils.annotations
    obtain rfl := Except.ok.inj (has₁.symm.trans has₁')
    exact ⟨as, as₂, has, has₂, by rw [hlength', hlength, Nat.add_assoc]⟩

/-- **All rounds,** from a document that some rounds have left. -/
theorem exists_stages [Code] {rounds : List Round} {l : Layout} {context : Prolog.Context}
    {standalone : Bool} (h : l.Explains context standalone)
    (hagrees : ∀ round ∈ rounds, Agrees round.tags)
    (hafter : IsAfter identity original earlier planned l.bytes)
    (hno : ∀ round ∈ rounds, Accessibility.tag ∉ round.tags) :
    ∃ stages : List Stage, Returns (runRounds identity l.bytes rounds) stages ∧
      stages.length = rounds.length ∧ ∀ (k : Nat) (round : Round) (stage : Stage) (current : Bytes),
        rounds[k]? = some round → stages[k]? = some stage →
        (l.bytes :: stages.map Stage.patched)[k]? = some current →
        PlansDue identity original (earlier ++ rounds.take k) current round stage.ops ∧
        IsAfter identity original (earlier ++ rounds.take (k + 1))
          (planned + ((stages.take (k + 1)).map fun s => s.ops.length).sum) stage.patched := by
  induction rounds generalizing l earlier planned with
  | nil => exact ⟨[], returns_pure _, rfl, by simp⟩
  | cons round rounds ih =>
    obtain ⟨stage, l', hstage, hpatched, h', hdue, hafter'⟩ :=
      exists_stage h (hagrees round List.mem_cons_self) hafter (hno round List.mem_cons_self)
    obtain ⟨stages, hstages, hlength, hall⟩ :=
      ih h' (fun r hr => hagrees r (List.mem_cons_of_mem _ hr))
      hafter' fun r hr => hno r (List.mem_cons_of_mem _ hr)
    rw [← hpatched] at hstages hall hafter'
    refine ⟨stage :: stages, hstage.bind (hstages.bind (returns_pure _)), by simp [hlength], ?_⟩
    intro k round' stage' current hround hstage' hcurrent
    cases k with
    | zero =>
      cases hround
      cases hstage'
      cases hcurrent
      simpa using ⟨hdue, hafter'⟩
    | succ k =>
      have hrest := hall k round' stage' current hround hstage' hcurrent
      simpa only [List.append_assoc, List.singleton_append, List.take_succ_cons, List.map_cons,
        List.sum_cons, Nat.add_assoc] using hrest

/-- **Runs of any length.** A document in UTF-8 is annotated in rounds, none of which fails or
changes a file. After each of them, whatever is tracked, the elements are the original ones with
their attributes, and those have an annotation that had one or that a round has tracked. Each
round plans exactly the elements that are due, and there are as many annotations more as
operations were planned. A type declaration does not matter: the defaults it gives annotations are
no attributes of other elements. -/
theorem returns_runRounds {buffer : Bytes} {source : Source} {identity : String}
    {tags : List String} {elements : List Element} {rounds : List Round}
    (hsource : Source.ofBytes buffer = .ok source) (hutf8 : source.encoding = .utf8)
    (helements : elementsOf buffer identity tags = .ok elements)
    (hno : ∀ round ∈ rounds, Accessibility.tag ∉ round.tags) :
    ∃ stages : List Stage, Returns (runRounds identity buffer rounds) stages ∧
      stages.length = rounds.length ∧ ∀ (k : Nat) (round : Round) (stage : Stage) (current : Bytes),
        rounds[k]? = some round → stages[k]? = some stage →
        (buffer :: stages.map Stage.patched)[k]? = some current →
        PlansDue identity buffer (rounds.take k) current round stage.ops ∧
        IsAfter identity buffer (rounds.take (k + 1))
          ((stages.take (k + 1)).map fun s => s.ops.length).sum stage.patched := by
  obtain ⟨code, l, context, ps, hcode, rfl, -, hl, -⟩ :=
    exists_paired hsource (Source.isWritten_of_utf8 hutf8 _) helements
  have hagrees : ∀ round ∈ rounds, Agrees round.tags :=
    fun _ _ => agrees_of_utf8 (hcode.trans hutf8) _
  simpa only [List.nil_append, Nat.zero_add] using
    exists_stages hl hagrees (isAfter_refl hl identity) hno

/-- Two rounds, the second of which tracks a tag again. -/
def sampleRounds : List Round :=
  [{ tags := ["button"] }, { tags := ["view", "button"], lead := "app", unique := true }]

theorem returns_sampleRounds : ∃ source elements, Source.ofBytes sampleScene = .ok source ∧
    source.encoding = .utf8 ∧
    elementsOf sampleScene "sample" ["view", "button", "label"] = .ok elements ∧
    (∀ round ∈ sampleRounds, Accessibility.tag ∉ round.tags) ∧
    ∃ stages : List Stage, Returns (runRounds "sample" sampleScene sampleRounds) stages ∧
      stages.length = 2 ∧ ∀ (k : Nat) (round : Round) (stage : Stage) (current : Bytes),
        sampleRounds[k]? = some round → stages[k]? = some stage →
        (sampleScene :: stages.map Stage.patched)[k]? = some current →
        PlansDue "sample" sampleScene (sampleRounds.take k) current round stage.ops ∧
        IsAfter "sample" sampleScene (sampleRounds.take (k + 1))
          ((stages.take (k + 1)).map fun s => s.ops.length).sum stage.patched := by
  obtain ⟨source, hsource, hutf8, -⟩ := read_sampleScene
  obtain ⟨elements, helements, -⟩ := found_sampleScene
  have hno : ∀ round ∈ sampleRounds, Accessibility.tag ∉ round.tags := by decide
  exact ⟨source, elements, hsource, hutf8, helements, hno,
    returns_runRounds hsource hutf8 helements hno⟩

end AccessPatch.Patch
