import AccessPatch.Proofs.Identifier
import AccessPatch.Proofs.Xml.Filling
import AccessPatch.Proofs.Xml.Widened
import AccessPatch.Xml.Namespace

/-!
# The check of a filled document

`check` reads a document with more letters than those who look for its tags, and follows the
prefixes that are bound in it. A document in UTF-8 without type that is read with the fewer
letters comes to the check with the same events (`check_eq_ok_iff`). What the check makes of these
is settled stretch by stretch (`foldl_trailEvents`), and a child whose names have no prefix makes
no difference to it, so a filled document passes the check if and only if the document itself does
(`check_fill_eq_ok_iff`).
-/

namespace AccessPatch.Xml

namespace Namespace

/-! ## Elements without prefixes -/

/-- A name that has no prefix and binds none. -/
structure IsLocal (name : String) : Prop where
  split : splitName? name = some (none, name)
  ne_xmlns : name ≠ "xmlns"

section Local

variable {name value : String} {names : List String} {attributes : List (String × String)}
  {scope : Scope}

theorem IsLocal.ne_of_split (h : IsLocal name) {other pre part : String}
    (hother : splitName? other = some (some pre, part)) : name ≠ other := by
  rintro rfl
  rw [h.split] at hother
  cases hother

theorem bindingOf_of_isLocal (h : IsLocal name) : bindingOf name value = ([], []) := by
  simp only [bindingOf, if_neg h.ne_xmlns, h.split]

theorem valueFindings_of_isLocal (h : IsLocal name) : valueFindings name value = [] := by
  have hsplit : splitName? "xml:space" = some (some "xml", "space") := by decide
  have hspace : name ≠ "xml:space" := h.ne_of_split hsplit
  rw [valueFindings, if_neg fun hname => hspace hname.1]

theorem elementFindings_of_isLocal (h : IsLocal name) : elementFindings scope name = [] := by
  simp only [elementFindings, h.split]

theorem attributeFindings_of_isLocal (h : ∀ name ∈ names, IsLocal name) :
    attributeFindings scope names = [] := by
  have hsplit : names.filterMap splitName? = names.map fun name => (none, name) := by
    induction names with
    | nil => rfl
    | cons name names ih =>
      obtain ⟨hname, hnames⟩ := List.forall_mem_cons.mp h
      rw [List.filterMap_cons, hname.split, ih hnames, List.map_cons]
  simp only [attributeFindings, hsplit]
  simp

theorem addIds_of_isLocal (h : ∀ a ∈ attributes, IsLocal a.1) (c : Checker) :
    c.addIds [] attributes = c := by
  induction attributes with
  | nil => rfl
  | cons a attributes ih =>
    obtain ⟨ha, hattributes⟩ := List.forall_mem_cons.mp h
    have hsplit : splitName? "xml:id" = some (some "xml", "id") := by decide
    have hid : a.1 ≠ "xml:id" := ha.ne_of_split hsplit
    have hnone : ¬ (a.1 = "xml:id" ∨ ([] : List String).contains a.1 = true) := by simp [hid]
    simp only [Checker.addIds, List.foldl_cons, if_neg hnone]
    exact ih hattributes

end Local

/-! ## One stretch -/

/-- Takes an event into account where no attribute is declared to hold an identifier. -/
def Checker.note (c : Checker) (e : Event) : Checker :=
  c.step (fun _ => []) e

/-- An element whose names are local leaves no trace but the scope that it opens. -/
theorem Checker.note_opened {name : String} {attributes : List (String × String)}
    (hname : IsLocal name) (hattributes : ∀ a ∈ attributes, IsLocal a.1) (c : Checker)
    (start stop : Nat) (empty : Bool) :
    c.note (.opened name attributes start stop empty) =
      { c with scopes := c.scopes.head?.getD [] :: c.scopes } := by
  have hbindings : (attributes.map fun a => bindingOf a.1 a.2).flatMap Prod.snd = [] := by
    rw [List.flatMap_map, List.flatMap_eq_nil_iff]
    intro a ha
    rw [bindingOf_of_isLocal (hattributes a ha)]
  have hvalues :
      (attributes.flatMap fun a => (bindingOf a.1 a.2).1 ++ valueFindings a.1 a.2) = [] := by
    rw [List.flatMap_eq_nil_iff]
    intro a ha
    rw [bindingOf_of_isLocal (hattributes a ha), valueFindings_of_isLocal (hattributes a ha),
      List.append_nil]
  have hplain : ∀ scope,
      attributeFindings scope ((attributes.map Prod.fst).filter (! isBinding ·)) = [] := by
    intro scope
    refine attributeFindings_of_isLocal fun name hmem => ?_
    obtain ⟨a, ha, rfl⟩ := List.mem_map.mp (List.mem_filter.mp hmem).1
    exact hattributes a ha
  simp only [note, step, hbindings, hvalues, hplain, elementFindings_of_isLocal hname, hname.split,
    addIds_of_isLocal hattributes]
  rfl

/-- What the check makes of a stretch. Offsets do not matter to it. -/
def Checker.visit (c : Checker) (st : Stretch) : Checker :=
  let before := st.notes.reverse.foldl note c
  match st.form with
  | .opening => before.note (.opened st.name st.attributes 0 0 false)
  | .empty => (before.note (.opened st.name st.attributes 0 0 true)).note (.closed st.name 0)
  | .closing => before.note (.closed st.name 0)

theorem foldl_events [Code] (c : Checker) (st : Stretch) (pos : Nat) :
    (st.events pos).reverse.foldl Checker.note c = c.visit st := by
  rw [Stretch.events, List.reverse_append, List.foldl_append, Checker.visit, Stretch.tagEvents]
  cases st.form <;> rfl

theorem foldl_trailEvents [Code] (c : Checker) (sts : List Stretch) (pos : Nat) :
    (trailEvents pos sts).reverse.foldl Checker.note c = sts.foldl Checker.visit c := by
  induction sts generalizing c pos with
  | nil => rfl
  | cons st sts ih =>
    rw [trailEvents, List.reverse_append, List.foldl_append, foldl_events, ih, List.foldl_cons]

end Namespace

open Namespace

/-! ## Filled elements -/

/-- The names of the child have no prefix. -/
structure Filling.IsLocal (filling : Filling) : Prop where
  name : Namespace.IsLocal filling.name
  attributes : ∀ a ∈ filling.resolved, Namespace.IsLocal a.1

/-- The annotations of a plan have no prefix. -/
theorem Accessibility.isLocal_names (identifier : String) : Namespace.IsLocal Accessibility.tag ∧
    ∀ a ∈ Accessibility.attributes identifier, Namespace.IsLocal a.1 := by
  have hkey : Namespace.IsLocal "key" := ⟨by decide, by decide⟩
  have hidentifier : Namespace.IsLocal "identifier" := ⟨by decide, by decide⟩
  have hlabel : Namespace.IsLocal "label" := ⟨by decide, by decide⟩
  refine ⟨⟨by decide, by decide⟩, ?_⟩
  simp only [Accessibility.attributes, List.forall_mem_cons]
  exact ⟨hkey, hidentifier, hlabel, by simp⟩

/-- A child whose names are local makes no difference, after no gap and after one. -/
theorem visit_child {filling : Filling} (h : filling.IsLocal) (c : Checker) (gap : List Char)
    (notes : List Event) :
    c.visit (filling.child gap notes) = notes.reverse.foldl Checker.note c := by
  simp only [Checker.visit, Filling.child, Checker.note_opened h.name h.attributes]
  rfl

theorem foldl_filled {st : Stretch} {filling : Option Filling} (h : ∀ f ∈ filling, f.IsLocal)
    (c : Checker) :
    (st.filled filling).foldl Checker.visit c = c.visit st := by
  cases filling with
  | none => rw [filled_none, List.foldl_cons, List.foldl_nil]
  | some filling =>
    have hlocal := h filling rfl
    cases hform : st.form with
    | opening => simp only [Stretch.filled, hform, List.foldl_cons, List.foldl_nil]
    | empty =>
      simp only [Stretch.filled, hform, List.foldl_cons, List.foldl_nil, visit_child hlocal]
      simp only [Checker.visit, Stretch.openUp, hform]
      rfl
    | closing =>
      simp only [Stretch.filled, hform, List.foldl_cons, List.foldl_nil, visit_child hlocal]
      simp only [Checker.visit, hform]
      rfl

theorem foldl_fill {sts : List (Stretch × Option Filling)} (h : ∀ p ∈ sts, ∀ f ∈ p.2, f.IsLocal)
    (c : Checker) :
    (fill sts).foldl Checker.visit c = (sts.map Prod.fst).foldl Checker.visit c := by
  induction sts generalizing c with
  | nil => rfl
  | cons p sts ih =>
    obtain ⟨hp, hsts⟩ := List.forall_mem_cons.mp h
    rw [fill_cons, List.foldl_append, foldl_filled hp, ih hsts, List.map_cons, List.foldl_cons]

/-! ## What the check reads -/

theorem sniff_of_utf8 {bytes : Bytes} {source : Source} (h : Source.ofBytes bytes = .ok source)
    (hutf8 : source.encoding = .utf8) : ∃ mark, Encoding.sniff bytes = some (.utf8, mark) := by
  have hunit : source.encoding.unit = 1 := by
    rw [hutf8]
    rfl
  obtain ⟨hopening, -⟩ := Source.opening_of_ofBytes h
  generalize source.start = start, source.standalone = standalone, source.version = version,
    source.encoding = final at hopening hunit hutf8
  cases hopening with
  | plain sniffed => exact ⟨_, hutf8 ▸ sniffed⟩
  | @declared encoding _ mark stop body declaration sniffed declares reads named =>
    -- An encoding of 16 bits cannot declare one of 8.
    have hsame : encoding.unit = 1 := by
      have hnamed := named []
      unfold Source.finalEncoding at hnamed
      split at hnamed
      · cases hnamed
        exact hunit
      · unfold Source.declaredEncoding at hnamed
        split at hnamed
        · split at hnamed
          · cases hnamed
          · rename_i hfits
            cases hnamed
            by_contra hother
            exact hfits (.inl fun hequal => hother (hequal.symm.trans hunit))
        · split at hnamed <;> cases hnamed
          cases hutf8
    rw [(Source.shows_of_sniff sniffed).eq_utf8 hsame] at sniffed
    exact ⟨mark, sniffed⟩

theorem announcesEncoding_of_sniff {bytes : Bytes} {mark : Nat}
    (h : Encoding.sniff bytes = some (.utf8, mark)) : announcesEncoding bytes = true := by
  unfold announcesEncoding
  split
  · cases h
  · rename_i rest
    cases rest <;> cases h
  · rfl

section Reading

variable [Code] {bytes : Bytes} {standalone : Bool} {version : Option String} {events : List Event}
  {source : Source}

/-- The check reads a document in UTF-8 without type as those do who look for its tags. -/
theorem readAll_of_reads (hutf8 : Code.encoding = .utf8)
    (h : Reads bytes standalone version false events source) :
    (source.reader Namespace.alphabet true).readAll source.body source.ragged =
      .ok (events, { standalone := source.standalone }) := by
  have hencoding : source.encoding = .utf8 := h.code.encoding.trans hutf8
  have halphabet : source.encoding.alphabet = {} := by rw [hencoding]; rfl
  have hrun := h.run false
  have htyped := h.typed
  rw [halphabet, h.code.ragged] at hrun
  rw [halphabet] at htyped
  rw [h.code.ragged]
  obtain ⟨⟨events', dtd⟩, hall, rfl⟩ := map_eq_ok_iff.mp hrun
  obtain ⟨last, hlast, hall⟩ := bind_eq_ok_iff.mp hall
  obtain ⟨events'', hend, hresult⟩ := bind_eq_ok_iff.mp hall
  cases hresult
  have hunit : (source.reader {} false).unit = 1 := by rw [Source.reader, hencoding]; rfl
  rw [h.code.body] at hlast
  obtain ⟨cs, hbytes, htext, hfeed⟩ :=
    exists_text ⟨hunit, by rintro lexer ⟨⟩⟩ (map_respell_of_utf8 hutf8 _) hlast hend
  have hbody : source.body = cs.map Symbol.ofChar := by
    rw [h.code.body, hbytes, decode_inCode htext]
  rw [hbody] at htyped ⊢
  have hready : (source.reader {} false).Ready Namespace.alphabet :=
    ⟨Alphabet.within_broad, rfl, .inr ⟨_, _, rfl, rfl, rfl⟩⟩
  obtain ⟨hfeed', hcontext⟩ := Reader.feed_widened hready htyped hfeed hend
  obtain ⟨-, hphase, hevents⟩ := Reader.finish_eq_ok_iff.mp hend
  have hend' : (last.widened Namespace.alphabet).finish false = .ok events' :=
    Reader.finish_eq_ok_iff.mpr ⟨rfl, hphase, hevents⟩
  have hdtd : (last.widened Namespace.alphabet).context.dtd = { standalone := source.standalone } :=
    congrArg Prolog.Context.dtd hcontext
  refine bind_eq_ok_iff.mpr ⟨_, hfeed', bind_eq_ok_iff.mpr ⟨events', hend', ?_⟩⟩
  rw [hdtd]
  rfl

/-- Whether a document in UTF-8 without type passes the check. -/
theorem check_eq_ok_iff (hutf8 : Code.encoding = .utf8)
    (h : Reads bytes standalone version false events source) :
    check bytes = .ok () ↔ version.all isSupportedVersion = true ∧
      acceptable (events.foldl Checker.note {}).findings.reverse = true := by
  obtain ⟨mark, hsniff⟩ := sniff_of_utf8 h.decoded (h.code.encoding.trans hutf8)
  have hnote : Checker.step ({ standalone := source.standalone } : Dtd).identifyingAttributes =
    Checker.note := rfl
  simp only [check, h.decoded, announcesEncoding_of_sniff hsniff, h.version,
    readAll_of_reads hutf8 h, hnote, Bool.not_true, Bool.false_eq_true, if_false]
  cases version.all isSupportedVersion <;>
    cases acceptable (events.foldl Checker.note {}).findings.reverse <;> simp

end Reading

/-- **Filled documents pass the check.** A document in UTF-8 without type passes the check if and
only if it does with any number of its elements filled, as long as the names of the children have
no prefix. -/
theorem check_fill_eq_ok_iff [Code] (hutf8 : Code.encoding = .utf8) {context : Prolog.Context}
    {l : Layout} {standalone : Bool} {sts : List (Stretch × Option Filling)} {source : Source}
    (h : l.Explains context standalone) (hsource : Source.ofBytes l.bytes = .ok source)
    (hnone : (source.reader source.encoding.alphabet false).declaresType source.body = false)
    (hsts : sts.map Prod.fst = l.stretches) (hfits : ∀ p ∈ sts, ∀ f ∈ p.2, f.Fits context)
    (hlocal : ∀ p ∈ sts, ∀ f ∈ p.2, f.IsLocal) :
    check (l.withStretches (fill sts)).bytes = .ok () ↔ check l.bytes = .ok () := by
  obtain ⟨version, typed, before, after, -, -, hreads⟩ := h.reads
  obtain ⟨source₀, hread⟩ := hreads l.stretches h.fit
  obtain ⟨source', hread'⟩ := hreads (fill sts) (h.fit_fill hsts hfits).2
  obtain rfl := Except.ok.inj (hread.decoded.symm.trans hsource)
  obtain rfl : typed = false := hread.typed.symm.trans hnone
  have hsame :
      (before ++ (trailEvents l.rootStart (fill sts)).reverse ++ after).foldl Checker.note {} =
      (before ++ (trailEvents l.rootStart l.stretches).reverse ++ after).foldl Checker.note {} := by
    simp only [List.foldl_append, foldl_trailEvents, foldl_fill hlocal, hsts]
  rw [check_eq_ok_iff hutf8 hread', hsame, ← check_eq_ok_iff hutf8 hread]
  rfl

end AccessPatch.Xml
