import AccessPatch.Command.Annotate
import AccessPatch.Proofs.Config.Accepting

/-!
# Layers of settings

A configuration is overridden layer by layer: by what is in a file, then by the options of a
command line. One layer leaves a setting as it is or gives it a value, whatever that is
(`agrees_of_leaves`, `gives_of_not_leaves`), so after any number of layers a setting has the last
value that was given for it, and all of them do what the one layer does that keeps these values
(`foldl_overriddenBy`). A configuration that is `Tagged` stays so when it is overridden from the
command line.

Main result: `layers_compose`.
-/

namespace AccessPatch.Config

open Yaml (Value)
open Command (Annotate.Options)

variable {c d : Config} {o : Overrides} {layers before after : List Overrides} {key : Key}

/-! ## One layer -/

namespace Overrides

/-- The layer says nothing of a setting. -/
def Leaves (o : Overrides) : Key → Prop
  | .trackedTags => o.trackedTags = none
  | .allowlist => o.allowlist = none
  | .lead => o.lead = none
  | .patterns => o.patterns = none
  | .backup => o.backup = none
  | .uniqueIds => o.uniqueIds = none
  | .verify => o.verify = none

/-- A configuration has for a setting the value that the layer gives. -/
def Gives (o : Overrides) (c : Config) : Key → Prop
  | .trackedTags => o.trackedTags = some c.trackedTags
  | .allowlist => ∃ tags, o.allowlist = some tags ∧ c.allowlist = some tags
  | .lead => o.lead = some c.lead
  | .patterns => o.patterns = some c.patterns
  | .backup => o.backup = some c.backup
  | .uniqueIds => o.uniqueIds = some c.uniqueIds
  | .verify => o.verify = some c.verify

theorem Gives.of_agrees (h : o.Gives c key) (h' : c.Agrees d key) : o.Gives d key := by
  cases key with
  | allowlist =>
    obtain ⟨tags, hgiven, hc⟩ := h
    exact ⟨tags, hgiven, (Eq.symm h').trans hc⟩
  | _ => exact Eq.trans h (congrArg some h')

/-- The last value that is given for each setting. -/
def merged (layers : List Overrides) : Overrides where
  trackedTags := (layers.filterMap (·.trackedTags)).getLast?
  allowlist := (layers.filterMap (·.allowlist)).getLast?
  lead := (layers.filterMap (·.lead)).getLast?
  patterns := (layers.filterMap (·.patterns)).getLast?
  backup := (layers.filterMap (·.backup)).getLast?
  uniqueIds := (layers.filterMap (·.uniqueIds)).getLast?
  verify := (layers.filterMap (·.verify)).getLast?

end Overrides

theorem agrees_of_leaves (c : Config) (h : o.Leaves key) : (c.overriddenBy o).Agrees c key := by
  cases key with
  | allowlist =>
    have hnone : o.allowlist = none := h
    show (o.allowlist <|> c.allowlist) = c.allowlist
    rw [hnone]
    rfl
  | _ => exact congrArg (Option.getD · _) h

theorem gives_of_not_leaves (c : Config) (h : ¬ o.Leaves key) : o.Gives (c.overriddenBy o) key := by
  cases key with
  | allowlist =>
    obtain ⟨tags, htags⟩ := Option.ne_none_iff_exists'.mp h
    refine ⟨tags, htags, ?_⟩
    show (o.allowlist <|> c.allowlist) = some tags
    rw [htags]
    rfl
  | _ =>
    obtain ⟨value, hvalue⟩ := Option.ne_none_iff_exists'.mp h
    exact hvalue.trans (congrArg some (congrArg (Option.getD · _) hvalue).symm)

/-! ## Many layers -/

theorem agrees_foldl (c : Config) (h : ∀ o ∈ layers, o.Leaves key) :
    (layers.foldl overriddenBy c).Agrees c key := by
  induction layers generalizing c with
  | nil => exact .refl c key
  | cons o layers ih =>
    obtain ⟨ho, hlayers⟩ := List.forall_mem_cons.mp h
    exact (ih (c.overriddenBy o) hlayers).trans (agrees_of_leaves c ho)

/-- The last layer that gives a value counts. -/
theorem gives_foldl (c : Config) (h : ¬ o.Leaves key) (hafter : ∀ p ∈ after, p.Leaves key) :
    o.Gives ((before ++ o :: after).foldl overriddenBy c) key := by
  rw [List.foldl_append, List.foldl_cons]
  exact (gives_of_not_leaves _ h).of_agrees (agrees_foldl _ hafter).symm

theorem getLast?_filterMap_cons {α β : Type} (f : α → Option β) (a : α) (l : List α) :
    ((a :: l).filterMap f).getLast? = (l.filterMap f).getLast?.or (f a) := by
  cases ha : f a with
  | none => rw [List.filterMap_cons_none ha, Option.or_none]
  | some b =>
    rw [List.filterMap_cons_some ha, List.getLast?_cons]
    cases (l.filterMap f).getLast? <;> rfl

theorem overriddenBy_merged_cons (c : Config) (o : Overrides) (layers : List Overrides) :
    (c.overriddenBy o).overriddenBy (.merged layers) = c.overriddenBy (.merged (o :: layers)) := by
  simp only [overriddenBy, Overrides.merged, getLast?_filterMap_cons, Option.getD_or,
    Option.orElse_eq_orElse, Option.orElse_eq_or, Option.or_assoc]

/-- Layers do one after the other what the layer does that keeps their last values. -/
theorem foldl_overriddenBy (c : Config) (layers : List Overrides) :
    layers.foldl overriddenBy c = c.overriddenBy (.merged layers) := by
  induction layers generalizing c with
  | nil => rfl
  | cons o layers ih => rw [List.foldl_cons, ih, overriddenBy_merged_cons]

/-! ## The command line -/

theorem allowlist_overriddenBy (c : Config) (o : Overrides) :
    (c.overriddenBy o).allowlist = o.allowlist.or c.allowlist := by
  rw [overriddenBy, Option.orElse_eq_orElse, Option.orElse_eq_or]

theorem ofCommas?_ne_nil (s : Option String) : TagSet.ofCommas? s ≠ some [] := by
  intro h
  obtain ⟨_, parts, -, -, hnamed, hset⟩ := ofCommas?_eq_some_iff.mp h
  exact hnamed (hset.eq_nil_iff.mp rfl)

theorem Tagged.overriddenBy (h : c.Tagged) (options : Annotate.Options) :
    (c.overriddenBy options.overrides).Tagged := by
  refine ⟨h.tracked, ?_⟩
  rw [allowlist_overriddenBy]
  cases hallowlist : options.overrides.allowlist with
  | none => exact h.allowed
  | some tags => exact fun hnil => ofCommas?_ne_nil options.allowlist (hallowlist.trans hnil)

theorem Tagged.foldl (h : c.Tagged) (requests : List Annotate.Options) :
    ((requests.map (·.overrides)).foldl Config.overriddenBy c).Tagged := by
  induction requests generalizing c with
  | nil => exact h
  | cons options requests ih => exact ih (h.overriddenBy options)

theorem Tagged.tagsInForce_foldl (h : c.Tagged) (requests : List Annotate.Options) :
    ((requests.map (·.overrides)).foldl Config.overriddenBy c).tagsInForce =
      (requests.filterMap fun o => TagSet.ofCommas? o.allowlist).getLast?.getD
        (c.allowlist.getD c.trackedTags) := by
  have htracked : ((requests.map (·.overrides)).foldl Config.overriddenBy c).trackedTags =
      c.trackedTags := by
    have hleaves : ∀ o ∈ requests.map (·.overrides), o.Leaves .trackedTags := by
      intro o ho
      obtain ⟨options, -, rfl⟩ := List.mem_map.mp ho
      rfl
    exact agrees_foldl c hleaves
  have hallowlist : ((requests.map (·.overrides)).foldl Config.overriddenBy c).allowlist =
      (requests.filterMap fun o => TagSet.ofCommas? o.allowlist).getLast?.or c.allowlist := by
    rw [foldl_overriddenBy, allowlist_overriddenBy]
    show ((requests.map (·.overrides)).filterMap (·.allowlist)).getLast?.or c.allowlist = _
    rw [List.filterMap_map]
    rfl
  rw [(h.foldl requests).tagsInForce_eq, htracked, hallowlist, Option.getD_or]

/-- **Layers of settings.** Any number of layers do what the one layer does that keeps the last
value given for each setting: what no layer names is as it was, and every value that is given
counts, an empty one too. However often a configuration from a mapping is overridden from the
command line, there are tags to work on: those of the last list that named some, else those of the
allowlist of the mapping, else the tracked ones. -/
theorem layers_compose :
    (∀ (c : Config) (layers : List Overrides),
      layers.foldl overriddenBy c = c.overriddenBy (.merged layers) ∧
      ∀ key, ((∀ o ∈ layers, o.Leaves key) → (layers.foldl overriddenBy c).Agrees c key) ∧
        ∀ before o after, layers = before ++ o :: after → ¬ o.Leaves key →
        (∀ p ∈ after, p.Leaves key) →
          o.Gives (layers.foldl overriddenBy c) key) ∧
    ∀ (entries : List (String × Value)) (source : Option Path) (c : Config),
      ofMapping entries source = .ok c →
      ∀ requests : List Annotate.Options,
        let last := (requests.map (·.overrides)).foldl overriddenBy c
        last.tagsInForce ≠ [] ∧
          last.tagsInForce =
            (requests.filterMap fun o => TagSet.ofCommas? o.allowlist).getLast?.getD
            (c.allowlist.getD c.trackedTags) := by
  refine ⟨fun c layers => ⟨foldl_overriddenBy c layers, fun key => ⟨agrees_foldl c, ?_⟩⟩, ?_⟩
  · rintro before o after rfl hgiven hafter
    exact gives_foldl c hgiven hafter
  · intro entries source c hc requests
    have htagged := tagged_of_ofMapping hc
    exact ⟨(htagged.foldl requests).tagsInForce_ne_nil, htagged.tagsInForce_foldl requests⟩

/-- An empty prefix replaces another one, and of two lists of tags the one counts that names some.
-/
theorem layers_compose_sample :
    Overrides.Gives { lead := some "" }
      ([{ lead := some "a_" }, { lead := some "" }, { verify := some false }].foldl overriddenBy {})
        .lead ∧
    ∃ c, ofMapping [("tracked_tags", .text "button"), ("allowlist", .text "view")] = .ok c ∧
      ((([{ allowlist := some "label" }, { allowlist := some ", ," }] : List Annotate.Options).map
        (·.overrides)).foldl overriddenBy c).tagsInForce = ["label"] := by
  have hsome :
      (ofMapping [("tracked_tags", .text "button"), ("allowlist", .text "view")]).toOption.isSome =
        true := by
    decide +kernel
  have hlast :
      ([{ allowlist := some "label" }, { allowlist := some ", ," }] : List
        Annotate.Options).filterMap
      (fun o => TagSet.ofCommas? o.allowlist) = [["label"]] := by decide +kernel
  constructor
  · refine ((layers_compose.1 {} _).2 .lead).2 [{ lead := some "a_" }] { lead := some "" }
      [{ verify := some false }] rfl (fun h => nomatch h) ?_
    rintro p (_ | ⟨_, ⟨⟩⟩)
    rfl
  · cases hc : ofMapping [("tracked_tags", .text "button"), ("allowlist", .text "view")] with
    | error e =>
      rw [hc] at hsome
      cases hsome
    | ok c =>
      refine ⟨c, rfl, ?_⟩
      rw [(layers_compose.2 _ none c hc _).2, hlast]
      rfl

end AccessPatch.Config
