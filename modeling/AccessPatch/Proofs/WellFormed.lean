import AccessPatch.Proofs.Annotated
import AccessPatch.Proofs.Applying
import AccessPatch.Proofs.Xml.Checked

/-!
# Planned documents pass the check

The elements that a plan fills nest as they did, and annotations have no prefix, so the check of
the result finds what it has found in the document (`check_splice_planDetected`). That is so for
elements with prefixes too, and for those that are opened up. Where `apply` complains of its
result, the document has been at fault before (`unverified_of_applies`).
-/

namespace AccessPatch.Patch

open Pairing (endedWith)
open Run (accessed accessed_eq_error)
open Xml

section Complaint

variable {buffer patched : Bytes} {ops : List Op} {o : Application} {s t : Store} {path : Path}
  {identity diagnostic : String} {α : Type}

theorem accessed_ne_unverified {x : Except AccessFault α} :
    accessed path x ≠ .error (.document (.unverified identity diagnostic)) := by
  intro h
  rcases accessed_eq_error h with ⟨-, hf⟩ | ⟨-, fault, -, hf⟩ <;> cases hf

theorem Saves.ne_unverified {result : Except Failure (Option Path)}
    (h : Saves buffer o s result t) :
    result ≠ .error (.document (.unverified identity diagnostic)) := by
  rintro rfl
  cases h with
  | nameless hpath =>
    unfold Application.savePath at hpath
    split at hpath
    · split at hpath
      · split at hpath <;> cases hpath
      · cases hpath
    · cases hpath
  | refused _ hwrite => exact accessed_ne_unverified hwrite

theorem Replaces.ne_unverified {count : Nat} {result : Except Failure Outcome}
    (h : Replaces buffer patched o count s result t) :
    result ≠ .error (.document (.unverified identity diagnostic)) := by
  rintro rfl
  cases h with
  | aimless htarget =>
    unfold Application.target at htarget
    split at htarget <;> cases htarget
  | unsaved _ hsaves => exact hsaves.ne_unverified rfl
  | unwritten _ _ hwrite => exact accessed_ne_unverified hwrite

/-- A complaint about the result is one of the check. -/
theorem unverified_of_applies
    (h : Applies buffer ops o s (.error (.document (.unverified identity diagnostic))) t) :
    ∃ patched, splice buffer ops = .ok patched ∧ Xml.check patched = .error diagnostic := by
  cases h with
  | refused _ hprepare =>
    rcases prepare_eq_error hprepare with
      ⟨misfit, -, hf⟩ | ⟨patched, diagnostic', hsplice, -, hcheck, hf⟩
    · cases hf
    · cases hf
      exact ⟨patched, hsplice, hcheck⟩
  | replaced _ _ _ hreplaces => exact absurd rfl hreplaces.ne_unverified

/-- Where the result passes the check, there is no complaint about it. -/
theorem apply_ne_unverified (hsplice : splice buffer ops = .ok patched)
    (hcheck : Xml.check patched = .ok ()) (session : Session) :
    ((apply buffer ops o).exec session).1 ≠
      .error (.document (.unverified identity diagnostic)) := by
  intro hexec
  obtain ⟨result, t, happlies⟩ := exists_applies buffer ops o session.store
  obtain ⟨hresult, -⟩ := (ends_of_applies happlies).exec_eq session.journal
  obtain rfl := hresult.symm.trans hexec
  obtain ⟨patched', hsplice', herror⟩ := unverified_of_applies happlies
  obtain rfl := Except.ok.inj (hsplice.symm.trans hsplice')
  rw [hcheck] at herror
  cases herror

end Complaint

/-- The names of an annotation have no prefix. -/
theorem isLocal_fillingOf {dtd : Dtd} (hrules : dtd.rules = []) (buffer newline : Bytes)
    (identify : Int → String) (e : Element) :
    (fillingOf dtd buffer newline identify e).IsLocal where
  name := (Accessibility.isLocal_names (identify e.extent.start)).1
  attributes := by
    have hresolved : (fillingOf dtd buffer newline identify e).resolved =
        Accessibility.attributes (identify e.extent.start) := Dtd.completed_of_rules hrules _ _
    rw [hresolved]
    exact (Accessibility.isLocal_names _).2

/-- **Planned documents pass the check.** If a document in UTF-8 without type declaration passes
the check, so does what the operations planned for its elements make of it, whatever tags are
tracked. So `apply` has nothing to complain of in the result. -/
theorem check_splice_planDetected {buffer : Bytes} {source : Source} {identity : String}
    {tags : List String} {naming : Naming} {elements : List Element}
    (hsource : Source.ofBytes buffer = .ok source) (hutf8 : source.encoding = .utf8)
    (hnone : (source.reader {} false).declaresType source.body = false)
    (hchoose : naming.choose = none) (helements : elementsOf buffer identity tags = .ok elements)
    (hcheck : Xml.check buffer = .ok ()) :
    ∃ patched, splice buffer (planDetected buffer elements naming) = .ok patched ∧
      Xml.check patched = .ok () ∧ ∀ (o : Application) (s : Session) (identity diagnostic : String),
        ((apply buffer (planDetected buffer elements naming) o).exec s).1 ≠
          .error (.document (.unverified identity diagnostic)) := by
  obtain ⟨code, l, context, ps, hcode, rfl, -, hl, hcontext, hps, hspelled, hpaired, rfl⟩ :=
    exists_paired hsource (Source.isWritten_of_utf8 hutf8 _) helements
  have hrules : context.dtd.rules = [] := rules_eq_nil hutf8 hnone hcontext
  have hcodeUtf8 : Code.encoding = .utf8 := hcode.trans hutf8
  obtain ⟨identify, -, hlegible, hplan⟩ :=
    exists_plan_eq_opsOf l.bytes hspelled (agrees_of_utf8 hcodeUtf8 tags) hpaired hchoose
  -- The patched document is the document filled.
  let newline := (firstNewline l.bytes).bytes
  let sts := fillings context.dtd l.bytes newline identify ps
  have hsts : sts.map Prod.fst = l.stretches := by rw [map_fst_fillings, hps]
  have hfits : ∀ p ∈ sts, ∀ f ∈ p.2, f.Fits context := by
    intro p hp f hf
    obtain ⟨e, rfl⟩ := exists_of_mem_fillings _ _ _ _ hp hf
    exact fits_fillingOf hlegible e
  have hlocal : ∀ p ∈ sts, ∀ f ∈ p.2, f.IsLocal := by
    intro p hp f hf
    obtain ⟨e, rfl⟩ := exists_of_mem_fillings _ _ _ _ hp hf
    exact isLocal_fillingOf hrules l.bytes newline identify e
  have hnone' :
      (source.reader source.encoding.alphabet false).declaresType source.body = false := by
    rw [hutf8]
    exact hnone
  have hpatched : splice l.bytes (opsOf l.bytes newline identify ps) =
      .ok (l.withStretches (fill sts)).bytes :=
    splice_opsOf context.dtd hspelled hlegible hpaired hps
  have hpassed : Xml.check (l.withStretches (fill sts)).bytes = .ok () :=
    (check_fill_eq_ok_iff hcodeUtf8 hl hsource hnone' hsts hfits hlocal).mpr hcheck
  rw [hplan]
  exact ⟨_, hpatched, hpassed, fun o s identity diagnostic =>
    apply_ne_unverified hpatched hpassed s⟩

/-- A document with a prefix that is bound on the element itself, and with one that is bound
outside it. -/
def prefixedScene : Bytes :=
  bytesOf "<v xmlns:a='urn:a'>\n  <a:button a:id='x'/>\n  <b:button xmlns:b='urn:b'/>\n</v>".toList

theorem check_splice_prefixedScene : ∃ source elements patched,
    Source.ofBytes prefixedScene = .ok source ∧ source.encoding = .utf8 ∧
    (source.reader {} false).declaresType source.body = false ∧
    elementsOf prefixedScene "sample" ["a:button", "b:button"] = .ok elements ∧
    (elements.map fun e => (e.tag, e.annotated)).Perm [("a:button", false), ("b:button", false)] ∧
    Xml.check prefixedScene = .ok () ∧
    splice prefixedScene (planDetected prefixedScene elements {}) = .ok patched ∧
    Xml.check patched = .ok () ∧ ∀ (o : Application) (s : Session) (identity diagnostic : String),
      ((apply prefixedScene (planDetected prefixedScene elements {}) o).exec s).1 ≠
        .error (.document (.unverified identity diagnostic)) := by
  have hread : (Source.ofBytes prefixedScene).map (fun source =>
      (source.encoding, (source.reader {} false).declaresType source.body)) =
        .ok (.utf8, false) := by
    decide +kernel
  have hrun : (tokenize prefixedScene "sample" >>= fun ranges =>
      (ranges.foldlM (Pairing.step (.ofBytes prefixedScene) ["a:button", "b:button"]) {}).mapError
        .pairing).map (fun s => s.ended.reverse.map fun e => (e.tag, e.annotated)) =
      .ok [("a:button", false), ("b:button", false)] := by
    decide +kernel
  have hcheck : Xml.check prefixedScene = .ok () := by decide +kernel
  obtain ⟨source, hsource, hsame⟩ := map_eq_ok_iff.mp hread
  obtain ⟨hutf8, hnone⟩ := Prod.mk.inj hsame
  obtain ⟨s, hs, hended⟩ := map_eq_ok_iff.mp hrun
  have helements := elementsOf_of_ended hs
  have hfound : ((byStart s.ended.reverse).map fun e => (e.tag, e.annotated)).Perm
      [("a:button", false), ("b:button", false)] := hended ▸ (byStart_perm _).map _
  have hchoose : ({} : Naming).choose = none := rfl
  obtain ⟨patched, hresult⟩ :=
    check_splice_planDetected hsource hutf8 hnone hchoose helements hcheck
  exact ⟨source, _, patched, hsource, hutf8, hnone, helements, hfound, hcheck, hresult⟩

end AccessPatch.Patch
