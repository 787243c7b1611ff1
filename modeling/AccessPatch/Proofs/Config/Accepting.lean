import AccessPatch.Config.Mapping
import AccessPatch.Proofs.Commas
import AccessPatch.Proofs.Ordered
import AccessPatch.Proofs.Outcome
import Mathlib.Data.String.Basic

/-!
# Which mappings are configurations

`Faulty` says what is wrong with a value for a setting, and `Holds` which value a configuration
then has for it; both go by what the value is and not by how it is read. Exactly one of them is
met by a value that is not null, and `set` finds out which (`set_of_faulty`, `exists_set`). From
this step comes the whole mapping: `Outcome` says what comes of it, and that is what `ofMapping`
gives and nothing else (`ofMapping_eq_iff`).
-/

namespace AccessPatch

open Yaml (Value)

/-! ## Sets of tags -/

/-- The set of some texts: in order, and each once. -/
structure IsSet (tags : TagSet) (texts : List String) : Prop where
  ordered : tags.Pairwise (· < ·)
  mem : ∀ tag, tag ∈ tags ↔ tag ∈ texts

theorem isSet_ofList (texts : List String) : IsSet (TagSet.ofList texts) texts :=
  ⟨pairwise_lt_sortedSet Function.injective_id (fun _ _ => decide_eq_true_iff) texts,
    mem_sortedSet _ texts⟩

theorem IsSet.unique {tags tags' : TagSet} {texts : List String} (h : IsSet tags texts)
    (h' : IsSet tags' texts) :
    tags = tags' :=
  eq_of_pairwise_lt id h.ordered h'.ordered fun tag => (h.mem tag).trans (h'.mem tag).symm

theorem IsSet.eq_nil_iff {tags : TagSet} {texts : List String} (h : IsSet tags texts) :
    tags = [] ↔ texts = [] := by
  rw [List.eq_nil_iff_forall_not_mem, List.eq_nil_iff_forall_not_mem]
  exact forall_congr' fun tag => not_congr (h.mem tag)

/-- The tags that a text names, if it names any. -/
theorem ofCommas?_eq_some_iff {s : Option String} {tags : TagSet} : TagSet.ofCommas? s = some tags ↔
    ∃ text parts, s = some text ∧ Text.Parts text parts ∧ parts ≠ [] ∧ IsSet tags parts := by
  cases s with
  | none =>
    have hnone : TagSet.ofCommas? none = none := by decide
    simp [hnone]
  | some text =>
    have hsplit : TagSet.ofCommas? (some text) =
        if Text.splitCommas text = [] then none
          else some (TagSet.ofList (Text.splitCommas text)) := by
      unfold TagSet.ofCommas?
      rw [Option.getD_some]
      cases Text.splitCommas text with
      | nil => rfl
      | cons part parts => exact (if_neg (List.cons_ne_nil part parts)).symm
    rw [hsplit]
    constructor
    · intro h
      split at h
      · cases h
      · rename_i hsome
        cases h
        exact ⟨text, _, rfl, Text.parts_splitCommas text, hsome, isSet_ofList _⟩
    · rintro ⟨_, parts, ⟨⟩, hparts, hsome, hset⟩
      rw [Text.splitCommas_eq_iff.mpr hparts, if_neg hsome]
      exact congrArg some ((isSet_ofList parts).unique hset)

namespace Config

variable {c d : Config} {key key' : Key} {v : Value} {texts : List String}
  {problem problem' : ConfigProblem} {entries : List (String × Value)} {source : Option Path}

/-! ## Settings -/

/-- Two configurations have the same value for a setting. -/
def Agrees (c d : Config) : Key → Prop
  | .trackedTags => c.trackedTags = d.trackedTags
  | .allowlist => c.allowlist = d.allowlist
  | .lead => c.lead = d.lead
  | .patterns => c.patterns = d.patterns
  | .backup => c.backup = d.backup
  | .uniqueIds => c.uniqueIds = d.uniqueIds
  | .verify => c.verify = d.verify

theorem Agrees.refl (c : Config) (key : Key) : c.Agrees c key := by
  cases key <;> rfl

theorem Agrees.symm (h : c.Agrees d key) : d.Agrees c key := by
  cases key <;> exact Eq.symm h

theorem Agrees.trans {e : Config} (h : c.Agrees d key) (h' : d.Agrees e key) : c.Agrees e key := by
  cases key <;> exact Eq.trans h h'

theorem eq_of_agrees (h : ∀ key, c.Agrees d key) : c = d := by
  cases c
  cases d
  congr
  · exact h .trackedTags
  · exact h .allowlist
  · exact h .lead
  · exact h .patterns
  · exact h .backup
  · exact h .uniqueIds
  · exact h .verify

/-! ## Values -/

/-- The texts that a value lists: the parts of a comma-separated list, or the items of a list as
they are. -/
inductive Lists : Value → List String → Prop
  | commas {s : String} {parts : List String} (h : Text.Parts s parts) : Lists (.text s) parts
  | items (texts : List String) : Lists (.list (texts.map .text)) texts

theorem text?_eq_some_iff {s : String} : v.text? = some s ↔ v = .text s := by
  cases v <;> simp [Value.text?]

theorem mapM_text?_eq_some_iff {items : List Value} :
    items.mapM Value.text? = some texts ↔ items = texts.map .text := by
  induction items generalizing texts with
  | nil =>
    rw [List.mapM_nil]
    cases texts <;> simp
  | cons item items ih =>
    rw [List.mapM_cons]
    constructor
    · intro h
      obtain ⟨text, hitem, h⟩ := Option.bind_eq_some_iff.mp h
      obtain ⟨rest, hitems, h⟩ := Option.bind_eq_some_iff.mp h
      cases h
      rw [text?_eq_some_iff.mp hitem, ih.mp hitems, List.map_cons]
    · intro h
      cases texts with
      | nil => cases h
      | cons text texts =>
        obtain ⟨rfl, hitems⟩ := List.cons.inj h
        rw [ih.mpr hitems]
        rfl

theorem textsOf_of_lists (key : Key) (h : Lists v texts) : textsOf key v = .ok texts := by
  cases h with
  | commas h => rw [textsOf, Text.splitCommas_eq_iff.mpr h]
  | items => rw [textsOf, mapM_text?_eq_some_iff.mpr rfl]

theorem lists_of_textsOf (h : textsOf key v = .ok texts) : Lists v texts := by
  unfold textsOf at h
  split at h
  · cases h
    exact .commas (Text.parts_splitCommas _)
  · split at h
    · rename_i hitems
      cases h
      rw [mapM_text?_eq_some_iff.mp hitems]
      exact .items texts
    · cases h
  · cases h

theorem Lists.unique {texts' : List String} (h : Lists v texts) (h' : Lists v texts') :
    texts = texts' :=
  Except.ok.inj ((textsOf_of_lists .patterns h).symm.trans (textsOf_of_lists .patterns h'))

theorem textsOf_of_not_lists (h : ∀ texts, ¬ Lists v texts) :
    textsOf key v = .error (.notTexts key.name) := by
  cases hresult : textsOf key v with
  | ok texts => exact absurd (lists_of_textsOf hresult) (h texts)
  | error problem =>
    unfold textsOf at hresult
    split at hresult
    · cases hresult
    · split at hresult
      · cases hresult
      · exact hresult.symm
    · exact hresult.symm

/-- What is wrong with a value for a setting. With null nothing is wrong. -/
inductive Faulty : Key → Value → ConfigProblem → Prop
  | notTexts {key : Key} {v : Value}
      (listed : key = .trackedTags ∨ key = .allowlist ∨ key = .patterns) (given : v ≠ .null)
      (h : ∀ texts, ¬ Lists v texts) : Faulty key v (.notTexts key.name)
  | noTags {v : Value} (h : Lists v []) : Faulty .trackedTags v .noTags
  | notText {v : Value} (given : v ≠ .null) (h : ∀ s, v ≠ .text s) :
      Faulty .lead v (.notText Key.lead.name)
  | notBoolean {key : Key} {v : Value} (switch : key = .backup ∨ key = .uniqueIds ∨ key = .verify)
      (given : v ≠ .null) (h : ∀ b, v ≠ .boolean b) : Faulty key v (.notBoolean key.name)

/-- A configuration has for a setting what a value says. An allowlist without tags is none. -/
inductive Holds (c : Config) : Key → Value → Prop
  | trackedTags {v : Value} {texts : List String} (lists : Lists v texts) (named : texts ≠ [])
      (set : IsSet c.trackedTags texts) : Holds c .trackedTags v
  | noAllowlist {v : Value} (lists : Lists v []) (unset : c.allowlist = none) : Holds c .allowlist v
  | allowlist {v : Value} {texts : List String} {tags : TagSet} (lists : Lists v texts)
      (named : texts ≠ []) (set : IsSet tags texts) (given : c.allowlist = some tags) :
      Holds c .allowlist v
  | patterns {v : Value} (lists : Lists v c.patterns) : Holds c .patterns v
  | lead {v : Value} (text : v = .text c.lead) : Holds c .lead v
  | backup {v : Value} (boolean : v = .boolean c.backup) : Holds c .backup v
  | uniqueIds {v : Value} (boolean : v = .boolean c.uniqueIds) : Holds c .uniqueIds v
  | verify {v : Value} (boolean : v = .boolean c.verify) : Holds c .verify v

theorem Faulty.unique (h : Faulty key v problem) (h' : Faulty key v problem') :
    problem = problem' := by
  cases h with
  | notTexts listed _ hnone =>
    cases h' with
    | notTexts => rfl
    | noTags hlists => exact absurd hlists (hnone [])
    | notText => simp at listed
    | notBoolean switch => rcases listed with rfl | rfl | rfl <;> simp at switch
  | noTags hlists =>
    cases h' with
    | notTexts _ _ hnone => exact absurd hlists (hnone [])
    | noTags => rfl
    | notBoolean switch => simp at switch
  | notText =>
    cases h' with
    | notTexts listed => simp at listed
    | notText => rfl
    | notBoolean switch => simp at switch
  | notBoolean switch =>
    cases h' with
    | notTexts listed => rcases switch with rfl | rfl | rfl <;> simp at listed
    | noTags => simp at switch
    | notText => simp at switch
    | notBoolean => rfl

/-- What a value says of a setting is all there is to the setting. -/
theorem Holds.agrees (h : c.Holds key v) (h' : d.Holds key v) : c.Agrees d key := by
  cases h with
  | trackedTags hlists _ hset =>
    cases h' with
    | trackedTags hlists' _ hset' =>
      obtain rfl := hlists.unique hlists'
      exact hset.unique hset'
  | noAllowlist hlists hunset =>
    cases h' with
    | noAllowlist _ hunset' => exact hunset.trans hunset'.symm
    | allowlist hlists' hnamed => exact absurd (hlists'.unique hlists) hnamed
  | allowlist hlists hnamed hset hgiven =>
    cases h' with
    | noAllowlist hlists' _ => exact absurd (hlists.unique hlists') hnamed
    | allowlist hlists' _ hset' hgiven' =>
      obtain rfl := hlists.unique hlists'
      obtain rfl := hset.unique hset'
      exact hgiven.trans hgiven'.symm
  | patterns hlists =>
    cases h' with
    | patterns hlists' => exact hlists.unique hlists'
  | lead htext =>
    cases h' with
    | lead htext' => exact Value.text.inj (htext.symm.trans htext')
  | backup hboolean =>
    cases h' with
    | backup hboolean' => exact Value.boolean.inj (hboolean.symm.trans hboolean')
  | uniqueIds hboolean =>
    cases h' with
    | uniqueIds hboolean' => exact Value.boolean.inj (hboolean.symm.trans hboolean')
  | verify hboolean =>
    cases h' with
    | verify hboolean' => exact Value.boolean.inj (hboolean.symm.trans hboolean')

theorem Holds.of_agrees (h : c.Holds key v) (h' : c.Agrees d key) : d.Holds key v := by
  cases h with
  | trackedTags hlists hnamed hset => exact .trackedTags hlists hnamed (h' ▸ hset)
  | noAllowlist hlists hunset => exact .noAllowlist hlists (h' ▸ hunset)
  | allowlist hlists hnamed hset hgiven => exact .allowlist hlists hnamed hset (h' ▸ hgiven)
  | patterns hlists => exact .patterns (h' ▸ hlists)
  | lead htext => exact .lead (h' ▸ htext)
  | backup hboolean => exact .backup (h' ▸ hboolean)
  | uniqueIds hboolean => exact .uniqueIds (h' ▸ hboolean)
  | verify hboolean => exact .verify (h' ▸ hboolean)

/-! ## One entry -/

theorem Lists.isNull_eq (h : Lists v texts) : isNull v = false := by
  cases h <;> rfl

theorem isNull_eq_false (hv : v ≠ .null) : isNull v = false := by
  cases v with
  | null => exact absurd rfl hv
  | _ => rfl

theorem set_trackedTags (c : Config) (h : Lists v texts) :
    set c .trackedTags v =
      if texts = [] then .error .noTags else .ok { c with trackedTags := TagSet.ofList texts } := by
  have hset := isSet_ofList texts
  simp only [set, h.isNull_eq, Bool.false_eq_true, if_false, textsOf_of_lists _ h, bind,
    Except.bind]
  split
  · rename_i hnil
    exact (if_pos (hset.eq_nil_iff.mp hnil)).symm
  · rename_i hsome
    exact (if_neg (mt hset.eq_nil_iff.mpr hsome)).symm

theorem set_allowlist (c : Config) (h : Lists v texts) :
    set c .allowlist v =
      .ok { c with allowlist := if texts = [] then none else some (TagSet.ofList texts) } := by
  have hset := isSet_ofList texts
  simp only [set, h.isNull_eq, Bool.false_eq_true, if_false, textsOf_of_lists _ h, bind,
    Except.bind]
  split
  · rename_i hnil
    rw [if_pos (hset.eq_nil_iff.mp hnil)]
    rfl
  · rename_i hsome
    rw [if_neg (mt hset.eq_nil_iff.mpr hsome)]
    rfl

theorem set_patterns (c : Config) (h : Lists v texts) :
    set c .patterns v = .ok { c with patterns := texts } := by
  simp only [set, h.isNull_eq, Bool.false_eq_true, if_false, textsOf_of_lists _ h]
  rfl

theorem set_of_not_lists (c : Config)
    (hkey : key = .trackedTags ∨ key = .allowlist ∨ key = .patterns) (hv : v ≠ .null)
    (h : ∀ texts, ¬ Lists v texts) : set c key v = .error (.notTexts key.name) := by
  have htexts : ∀ key : Key, textsOf key v = .error (.notTexts key.name) :=
    fun _ => textsOf_of_not_lists h
  rcases hkey with rfl | rfl | rfl
  all_goals
    simp only [set, isNull_eq_false hv, Bool.false_eq_true, if_false, htexts]
    rfl

theorem booleanOf_of_ne (key : Key) (h : ∀ b, v ≠ .boolean b) :
    booleanOf key v = .error (.notBoolean key.name) := by
  cases v with
  | boolean b => exact absurd rfl (h b)
  | _ => rfl

theorem set_of_not_boolean (c : Config) (hkey : key = .backup ∨ key = .uniqueIds ∨ key = .verify)
    (hv : v ≠ .null) (h : ∀ b, v ≠ .boolean b) : set c key v = .error (.notBoolean key.name) := by
  rcases hkey with rfl | rfl | rfl
  all_goals
    simp only [set, isNull_eq_false hv, Bool.false_eq_true, if_false, booleanOf_of_ne _ h]
    rfl

theorem set_of_not_text (c : Config) (hv : v ≠ .null) (h : ∀ s, v ≠ .text s) :
    set c .lead v = .error (.notText Key.lead.name) := by
  cases v with
  | null => exact absurd rfl hv
  | text s => exact absurd rfl (h s)
  | _ => rfl

theorem set_of_faulty (c : Config) (h : Faulty key v problem) : set c key v = .error problem := by
  cases h with
  | notTexts listed given hnone => exact set_of_not_lists c listed given hnone
  | noTags hlists => rw [set_trackedTags c hlists, if_pos rfl]
  | notText given hnone => exact set_of_not_text c given hnone
  | notBoolean switch given hnone => exact set_of_not_boolean c switch given hnone

/-- If nothing is wrong with a value, the setting is what it says, and the others are as they
were. -/
theorem exists_set (c : Config) (hv : v ≠ .null) (h : ∀ problem, ¬ Faulty key v problem) :
    ∃ d, set c key v = .ok d ∧ d.Holds key v ∧ ∀ key' ≠ key, d.Agrees c key' := by
  have hlists : key = .trackedTags ∨ key = .allowlist ∨ key = .patterns →
      ∃ texts, Lists v texts := by
    intro hkey
    by_contra hnone
    exact h _ (.notTexts hkey hv (not_exists.mp hnone))
  have hboolean : key = .backup ∨ key = .uniqueIds ∨ key = .verify → ∃ b, v = .boolean b := by
    intro hkey
    by_contra hnone
    exact h _ (.notBoolean hkey hv (not_exists.mp hnone))
  cases key with
  | trackedTags =>
    obtain ⟨texts, hlists⟩ := hlists (.inl rfl)
    have hnamed : texts ≠ [] := by
      rintro rfl
      exact h _ (.noTags hlists)
    refine ⟨_, (set_trackedTags c hlists).trans (if_neg hnamed),
      .trackedTags hlists hnamed (isSet_ofList texts), fun key' hne => ?_⟩
    cases key' with
    | trackedTags => exact absurd rfl hne
    | _ => rfl
  | allowlist =>
    obtain ⟨texts, hlists⟩ := hlists (.inr (.inl rfl))
    refine ⟨_, set_allowlist c hlists, ?_, fun key' hne => ?_⟩
    · by_cases hnamed : texts = []
      · exact .noAllowlist (hnamed ▸ hlists) (if_pos hnamed)
      · exact .allowlist hlists hnamed (isSet_ofList texts) (if_neg hnamed)
    · cases key' with
      | allowlist => exact absurd rfl hne
      | _ => rfl
  | patterns =>
    obtain ⟨texts, hlists⟩ := hlists (.inr (.inr rfl))
    refine ⟨_, set_patterns c hlists, .patterns hlists, fun key' hne => ?_⟩
    cases key' with
    | patterns => exact absurd rfl hne
    | _ => rfl
  | lead =>
    have htext : ∃ s, v = .text s := by
      by_contra hnone
      exact h _ (.notText hv (not_exists.mp hnone))
    obtain ⟨s, rfl⟩ := htext
    refine ⟨{ c with lead := s }, rfl, .lead rfl, fun key' hne => ?_⟩
    cases key' with
    | lead => exact absurd rfl hne
    | _ => rfl
  | backup =>
    obtain ⟨b, rfl⟩ := hboolean (.inl rfl)
    refine ⟨{ c with backup := b }, rfl, .backup rfl, fun key' hne => ?_⟩
    cases key' with
    | backup => exact absurd rfl hne
    | _ => rfl
  | uniqueIds =>
    obtain ⟨b, rfl⟩ := hboolean (.inr (.inl rfl))
    refine ⟨{ c with uniqueIds := b }, rfl, .uniqueIds rfl, fun key' hne => ?_⟩
    cases key' with
    | uniqueIds => exact absurd rfl hne
    | _ => rfl
  | verify =>
    obtain ⟨b, rfl⟩ := hboolean (.inr (.inr rfl))
    refine ⟨{ c with verify := b }, rfl, .verify rfl, fun key' hne => ?_⟩
    cases key' with
    | verify => exact absurd rfl hne
    | _ => rfl

/-! ## All entries -/

/-- A setting is as the entries of a mapping say, and as it was if they say nothing of it. -/
structure Follows (settings : List (Key × Value)) (c d : Config) : Prop where
  given : ∀ s ∈ settings, s.2 ≠ .null → d.Holds s.1 s.2
  kept : ∀ key, (∀ s ∈ settings, s.1 = key → s.2 = .null) → d.Agrees c key

/-- Nothing is wrong with the values. -/
def Sound (settings : List (Key × Value)) : Prop :=
  ∀ s ∈ settings, ∀ problem, ¬ Faulty s.1 s.2 problem

theorem exists_foldlM_set {settings : List (Key × Value)} (c : Config)
    (hkeys : (settings.map Prod.fst).Nodup) (h : Sound settings) :
    ∃ d, settings.foldlM (fun c s => set c s.1 s.2) c = .ok d ∧ Follows settings c d := by
  induction settings generalizing c with
  | nil => exact ⟨c, rfl, fun s hs => (List.not_mem_nil hs).elim, fun key _ => .refl c key⟩
  | cons s settings ih =>
    obtain ⟨key, v⟩ := s
    obtain ⟨hs, hrest⟩ := List.forall_mem_cons.mp h
    obtain ⟨hnew, hkeys⟩ := List.nodup_cons.mp hkeys
    have hnew' : ∀ s ∈ settings, s.1 ≠ key := fun s hs heq => hnew (List.mem_map.mpr ⟨s, hs, heq⟩)
    -- The first entry gives its setting, and none after it has the same key.
    obtain ⟨e, hfirst, hgiven, hothers⟩ : ∃ e, set c key v = .ok e ∧ (v ≠ .null → e.Holds key v) ∧
        ∀ key', (key' = key → v = .null) → e.Agrees c key' := by
      by_cases hv : v = .null
      · subst hv
        exact ⟨c, rfl, fun hne => absurd rfl hne, fun key' _ => .refl c key'⟩
      · obtain ⟨e, hset, hholds, hothers⟩ := exists_set c hv hs
        exact ⟨e, hset, fun _ => hholds, fun key' hkey => hothers key' fun heq => hv (hkey heq)⟩
    obtain ⟨d, hfold, hfollows⟩ := ih e hkeys hrest
    refine ⟨d, foldlM_cons_eq_ok_iff.mpr ⟨e, hfirst, hfold⟩, ?_, ?_⟩
    · rintro s hs hv
      rcases List.mem_cons.mp hs with rfl | hs
      · have hsame : d.Agrees e key := hfollows.kept key fun s hs heq => absurd heq (hnew' s hs)
        exact (hgiven hv).of_agrees hsame.symm
      · exact hfollows.given s hs hv
    · intro key' hnull
      obtain ⟨hfirst, hrest⟩ := List.forall_mem_cons.mp hnull
      exact (hfollows.kept key' hrest).trans (hothers key' fun heq => hfirst heq.symm)

theorem Follows.unique {settings : List (Key × Value)} {d' : Config} (h : Follows settings c d)
    (h' : Follows settings c d') : d = d' := by
  refine eq_of_agrees fun key => ?_
  by_cases hgiven : ∃ s ∈ settings, s.1 = key ∧ s.2 ≠ .null
  · obtain ⟨s, hs, rfl, hv⟩ := hgiven
    exact (h.given s hs hv).agrees (h'.given s hs hv)
  · have hnull : ∀ s ∈ settings, s.1 = key → s.2 = .null := by
      intro s hs hkey
      by_contra hv
      exact hgiven ⟨s, hs, hkey, hv⟩
    exact (h.kept key hnull).trans (h'.kept key hnull).symm

/-- Where something is wrong, there is a first value that is faulty. -/
theorem exists_first_fault {settings : List (Key × Value)} (h : ¬ Sound settings) :
    ∃ before s after problem, settings = before ++ s :: after ∧ Sound before ∧
      Faulty s.1 s.2 problem := by
  induction settings with
  | nil => exact absurd (fun s hs => (List.not_mem_nil hs).elim) h
  | cons s settings ih =>
    by_cases hs : ∃ problem, Faulty s.1 s.2 problem
    · obtain ⟨problem, hfault⟩ := hs
      exact ⟨[], s, settings, problem, rfl, fun s hs => (List.not_mem_nil hs).elim, hfault⟩
    · have hrest : ¬ Sound settings := by
        intro hrest
        exact h (List.forall_mem_cons.mpr ⟨not_exists.mp hs, hrest⟩)
      obtain ⟨before, t, after, problem, rfl, hbefore, hfault⟩ := ih hrest
      exact ⟨s :: before, t, after, problem, rfl,
        List.forall_mem_cons.mpr ⟨not_exists.mp hs, hbefore⟩, hfault⟩

/-- There is only one such value. -/
theorem first_fault_unique {before before' after after' : List (Key × Value)} {s s' : Key × Value}
    (h : before ++ s :: after = before' ++ s' :: after') (hbefore : Sound before)
    (hbefore' : Sound before') (hfault : Faulty s.1 s.2 problem)
    (hfault' : Faulty s'.1 s'.2 problem') : s = s' := by
  rcases List.append_eq_append_iff.mp h with ⟨more, rfl, hmore⟩ | ⟨more, rfl, hmore⟩
  · cases more with
    | nil => exact (List.cons.inj hmore).1
    | cons t more =>
      obtain ⟨rfl, -⟩ := List.cons.inj hmore
      exact absurd hfault (hbefore' s (List.mem_append_right _ List.mem_cons_self) problem)
  · cases more with
    | nil => exact (List.cons.inj hmore).1.symm
    | cons t more =>
      obtain ⟨rfl, -⟩ := List.cons.inj hmore
      exact absurd hfault' (hbefore s' (List.mem_append_right _ List.mem_cons_self) problem')

/-! ## Names -/

theorem Key.ofName?_name (key : Key) : ofName? key.name = some key := by
  cases key <;> decide

theorem Key.ofName?_eq_none_iff {s : String} : ofName? s = none ↔ ∀ key : Key, key.name ≠ s := by
  constructor
  · rintro h key rfl
    rw [ofName?_name] at h
    cases h
  · intro h
    exact List.find?_eq_none.mpr fun key _ => by simpa using h key

theorem Key.name_injective : Function.Injective Key.name := by
  intro key key' h
  exact Option.some.inj
    ((ofName?_name key).symm.trans ((congrArg ofName? h).trans (ofName?_name key')))

/-- Settings as the entries of a mapping, under their names. -/
def named (settings : List (Key × Value)) : List (String × Value) :=
  settings.map fun s => (s.1.name, s.2)

theorem named_injective : Function.Injective named := by
  refine List.map_injective_iff.mpr ?_
  intro s t h
  obtain ⟨hname, hvalue⟩ := Prod.mk.inj h
  exact Prod.ext (Key.name_injective hname) hvalue

theorem map_fst_named (settings : List (Key × Value)) :
    (named settings).map Prod.fst = (settings.map Prod.fst).map Key.name := by
  rw [named, List.map_map, List.map_map]
  rfl

theorem mem_unknownKeys {k : String} :
    k ∈ unknownKeys entries ↔ k ∈ entries.map Prod.fst ∧ ∀ key : Key, key.name ≠ k := by
  rw [unknownKeys, List.mem_mergeSort, List.mem_filter, Option.isNone_iff_eq_none,
    Key.ofName?_eq_none_iff]

theorem pairwise_lt_unknownKeys (h : (entries.map Prod.fst).Nodup) :
    (unknownKeys entries).Pairwise (· < ·) :=
  pairwise_lt_mergeSort Function.injective_id (fun _ _ => decide_eq_true_iff) (h.filter _)

/-- If no key is unknown, the entries are settings under their names. -/
theorem exists_named (h : unknownKeys entries = []) : ∃ settings, entries = named settings := by
  have hknown : ∀ e ∈ entries, ∃ key : Key, key.name = e.1 := by
    intro e he
    by_contra hnone
    have hmem := mem_unknownKeys.mpr ⟨List.mem_map_of_mem he, not_exists.mp hnone⟩
    rw [h] at hmem
    cases hmem
  clear h
  induction entries with
  | nil => exact ⟨[], rfl⟩
  | cons e rest ih =>
    obtain ⟨⟨key, hkey⟩, hrest⟩ := List.forall_mem_cons.mp hknown
    obtain ⟨settings, rfl⟩ := ih hrest
    exact ⟨(key, e.2) :: settings, congrArg (· :: named settings) (Prod.ext hkey.symm rfl)⟩

theorem unknownKeys_named (settings : List (Key × Value)) : unknownKeys (named settings) = [] := by
  refine List.eq_nil_iff_forall_not_mem.mpr fun k hk => ?_
  obtain ⟨hmem, hnone⟩ := mem_unknownKeys.mp hk
  rw [map_fst_named] at hmem
  obtain ⟨key, -, hkey⟩ := List.mem_map.mp hmem
  exact hnone key hkey

theorem ofMapping_named (settings : List (Key × Value)) (source : Option Path) :
    ofMapping (named settings) source =
      (settings.foldlM (fun c s => set c s.1 s.2) {}).mapError fun problem =>
        { problem, source } := by
  unfold ofMapping
  rw [unknownKeys_named, named, List.foldlM_map]
  simp only [Key.ofName?_name]

/-! ## The mapping -/

/-- What comes of a mapping. -/
inductive Outcome (entries : List (String × Value)) (source : Option Path) :
    Except ConfigError Config → Prop
  /-- Some keys name no setting: these are reported, in order, whatever the values are. -/
  | unknown {keys : List String} (found : keys ≠ []) (ordered : keys.Pairwise (· < ·))
      (mem : ∀ k, k ∈ keys ↔ k ∈ entries.map Prod.fst ∧ ∀ key : Key, key.name ≠ k) :
      Outcome entries source (.error { problem := .unknownKeys keys, source })
  /-- The first entry with a faulty value is reported. -/
  | faulty {before after : List (Key × Value)} {key : Key} {v : Value} {problem : ConfigProblem}
      (known : entries = named (before ++ (key, v) :: after)) (sound : Sound before)
      (fault : Faulty key v problem) :
      Outcome entries source (.error { problem, source })
  /-- Every setting is as the mapping says, or has its default. -/
  | accepted {settings : List (Key × Value)} {c : Config} (known : entries = named settings)
      (sound : Sound settings) (follows : Follows settings {} c) : Outcome entries source (.ok c)

theorem outcome_ofMapping (h : (entries.map Prod.fst).Nodup) (source : Option Path) :
    Outcome entries source (ofMapping entries source) := by
  by_cases hunknown : unknownKeys entries = []
  · obtain ⟨settings, rfl⟩ := exists_named hunknown
    have hkeys : (settings.map Prod.fst).Nodup := by
      rw [map_fst_named] at h
      exact h.of_map _
    rw [ofMapping_named]
    by_cases hsound : Sound settings
    · obtain ⟨c, hfold, hfollows⟩ := exists_foldlM_set {} hkeys hsound
      rw [hfold]
      exact .accepted rfl hsound hfollows
    · obtain ⟨before, ⟨key, v⟩, after, problem, rfl, hbefore, hfault⟩ := exists_first_fault hsound
      rw [List.map_append] at hkeys
      obtain ⟨c, hfold, -⟩ := exists_foldlM_set {} hkeys.of_append_left hbefore
      have hstop : (before ++ (key, v) :: after).foldlM (fun c s => set c s.1 s.2) {} =
          .error problem := by
        rw [List.foldlM_append, hfold]
        show (((key, v) :: after).foldlM (fun c s => set c s.1 s.2) c) = .error problem
        rw [List.foldlM_cons, set_of_faulty c hfault]
        rfl
      rw [hstop]
      exact .faulty rfl hbefore hfault
  · have hresult : ofMapping entries source =
        .error { problem := .unknownKeys (unknownKeys entries), source } := by
      unfold ofMapping
      split
      · rename_i hnil
        exact absurd hnil hunknown
      · rfl
    rw [hresult]
    exact .unknown hunknown (pairwise_lt_unknownKeys h) fun k => mem_unknownKeys

theorem Outcome.unique {result result' : Except ConfigError Config}
    (h : Outcome entries source result) (h' : Outcome entries source result') :
    result = result' := by
  have hnames : ∀ {settings : List (Key × Value)} {keys : List String},
      entries = named settings → keys ≠ [] →
      ¬ ∀ k, k ∈ keys ↔ k ∈ entries.map Prod.fst ∧ ∀ key : Key, key.name ≠ k := by
    rintro settings keys rfl hfound hmem
    obtain ⟨k, hk⟩ := List.exists_mem_of_ne_nil keys hfound
    have hunknown := mem_unknownKeys.mpr ((hmem k).mp hk)
    rw [unknownKeys_named] at hunknown
    cases hunknown
  cases h with
  | unknown hfound hordered hmem =>
    cases h' with
    | unknown _ hordered' hmem' =>
      rw [eq_of_pairwise_lt id hordered hordered' fun k => (hmem k).trans (hmem' k).symm]
    | faulty hknown | accepted hknown => exact absurd hmem (hnames hknown hfound)
  | faulty hknown hsound hfault =>
    cases h' with
    | unknown hfound _ hmem => exact absurd hmem (hnames hknown hfound)
    | faulty hknown' hsound' hfault' =>
      have hsame :=
        first_fault_unique (named_injective (hknown.symm.trans hknown')) hsound hsound'
          hfault hfault'
      cases hsame
      rw [hfault.unique hfault']
    | accepted hknown' hsound' =>
      obtain rfl := named_injective (hknown.symm.trans hknown')
      exact absurd hfault (hsound' _ (List.mem_append_right _ List.mem_cons_self) _)
  | accepted hknown hsound hfollows =>
    cases h' with
    | unknown hfound _ hmem => exact absurd hmem (hnames hknown hfound)
    | faulty hknown' _ hfault' =>
      obtain rfl := named_injective (hknown'.symm.trans hknown)
      exact absurd hfault' (hsound _ (List.mem_append_right _ List.mem_cons_self) _)
    | accepted hknown' _ hfollows' =>
      obtain rfl := named_injective (hknown.symm.trans hknown')
      rw [hfollows.unique hfollows']

/-! ## Tags to work on -/

/-- There are tags to work on. -/
structure Tagged (c : Config) : Prop where
  tracked : c.trackedTags ≠ []
  allowed : c.allowlist ≠ some []

theorem Tagged.tagsInForce_eq (h : c.Tagged) : c.tagsInForce = c.allowlist.getD c.trackedTags := by
  unfold tagsInForce
  split
  · rename_i hallowlist
    rw [hallowlist, Option.getD_some]
  · rename_i hnone
    cases hallowlist : c.allowlist with
    | none => rw [Option.getD_none]
    | some tags =>
      cases tags with
      | nil => exact absurd hallowlist h.allowed
      | cons tag tags => exact absurd hallowlist (hnone tag tags)

theorem Tagged.tagsInForce_ne_nil (h : c.Tagged) : c.tagsInForce ≠ [] := by
  rw [h.tagsInForce_eq]
  cases hallowlist : c.allowlist with
  | none => exact h.tracked
  | some tags => exact fun hnil => h.allowed (hallowlist.trans (congrArg some hnil))

theorem tagged_default : Tagged {} :=
  ⟨mt (isSet_ofList defaultTags).eq_nil_iff.mp (by decide), fun h => nomatch h⟩

/-- No entry takes the tags away. -/
theorem Tagged.set (h : c.Tagged) (hset : Config.set c key v = .ok d) : d.Tagged := by
  by_cases hv : v = .null
  · subst hv
    cases hset
    exact h
  · have hsound : ∀ problem, ¬ Faulty key v problem := by
      intro problem hfault
      rw [set_of_faulty c hfault] at hset
      cases hset
    obtain ⟨e, hset', hholds, hothers⟩ := exists_set c hv hsound
    obtain rfl : d = e := Except.ok.inj (hset.symm.trans hset')
    constructor
    · by_cases hkey : key = .trackedTags
      · subst hkey
        cases hholds with
        | trackedTags _ hnamed hset => exact mt hset.eq_nil_iff.mp hnamed
      · have hsame : d.trackedTags = c.trackedTags := hothers .trackedTags fun h => hkey h.symm
        exact hsame ▸ h.tracked
    · by_cases hkey : key = .allowlist
      · subst hkey
        cases hholds with
        | noAllowlist _ hunset => exact fun hnil => nomatch hunset.symm.trans hnil
        | allowlist _ hnamed hset hgiven =>
          intro hnil
          cases hgiven.symm.trans hnil
          exact hnamed (hset.eq_nil_iff.mp rfl)
      · have hsame : d.allowlist = c.allowlist := hothers .allowlist fun h => hkey h.symm
        exact hsame ▸ h.allowed

theorem tagged_of_ofMapping (h : ofMapping entries source = .ok c) : c.Tagged := by
  unfold ofMapping at h
  split at h
  · refine foldlM_keeps (P := Tagged) ?_ (mapError_eq_ok_iff.mp h) tagged_default
    rintro c ⟨name, v⟩ d hstep hc
    dsimp only at hstep
    split at hstep
    · exact hc.set hstep
    · cases hstep
      exact hc
  · cases h

/-- **Mappings and configurations.** A mapping has the outcome that its entries call for, and no
other: unknown keys come before faulty values, and the first faulty value before all others. Where
it is accepted, there are tags to work on, and a text gives the allowlist that it gives on the
command line. -/
theorem ofMapping_eq_iff (h : (entries.map Prod.fst).Nodup) (source : Option Path)
    (result : Except ConfigError Config) :
    (ofMapping entries source = result ↔ Outcome entries source result) ∧
      ∀ c, ofMapping entries source = .ok c → c.tagsInForce ≠ [] ∧
        ∀ s, (Key.allowlist.name, .text s) ∈ entries → c.allowlist = TagSet.ofCommas? (some s) := by
  have houtcome := outcome_ofMapping h source
  refine ⟨⟨fun hresult => hresult ▸ houtcome, houtcome.unique⟩, fun c hc => ?_⟩
  refine ⟨(tagged_of_ofMapping hc).tagsInForce_ne_nil, fun s hs => ?_⟩
  rw [hc] at houtcome
  cases houtcome with
  | accepted hknown _ hfollows =>
    subst hknown
    obtain ⟨⟨key, v⟩, hmem, hentry⟩ := List.mem_map.mp hs
    obtain ⟨hname, rfl⟩ := Prod.mk.inj hentry
    obtain rfl := Key.name_injective hname
    cases hfollows.given _ hmem (fun hnull => nomatch hnull) with
    | noAllowlist hlists hunset =>
      cases hlists with
      | commas hparts =>
        rw [hunset, eq_comm, Option.eq_none_iff_forall_ne_some]
        intro tags htags
        obtain ⟨_, parts, ⟨⟩, hparts', hnamed, -⟩ := ofCommas?_eq_some_iff.mp htags
        exact hnamed
          ((Text.splitCommas_eq_iff.mpr hparts').symm.trans (Text.splitCommas_eq_iff.mpr hparts))
    | allowlist hlists hnamed hset hgiven =>
      cases hlists with
      | commas hparts => rw [hgiven, ofCommas?_eq_some_iff.mpr ⟨s, _, rfl, hparts, hnamed, hset⟩]

/-- A null, a text in the place of a list, a list, and a switch. -/
def sampleEntries : List (String × Value) :=
  [("prefix", .null), ("allowlist", .text " view,,"), ("patterns", .list [.text "*.xib"]),
    ("verify", .boolean false)]

theorem ofMapping_sampleEntries :
    (sampleEntries.map Prod.fst).Nodup ∧ ∃ c, ofMapping sampleEntries = .ok c ∧
    Outcome sampleEntries none (.ok c) ∧
      c.tagsInForce ≠ [] ∧ c.allowlist = some ["view"] := by
  have hkeys : (sampleEntries.map Prod.fst).Nodup := by decide
  have hsome : (ofMapping sampleEntries).toOption.isSome = true := by decide +kernel
  have htags : TagSet.ofCommas? (some " view,,") = some ["view"] := by decide +kernel
  cases hc : ofMapping sampleEntries with
  | error e =>
    rw [hc] at hsome
    cases hsome
  | ok c =>
    obtain ⟨hiff, haccepted⟩ := ofMapping_eq_iff hkeys none (.ok c)
    obtain ⟨hforce, hallowlist⟩ := haccepted c hc
    exact ⟨hkeys, c, rfl, hiff.mp hc, hforce,
      (hallowlist _ (by simp [sampleEntries, Key.name])).trans htags⟩

end Config

end AccessPatch
