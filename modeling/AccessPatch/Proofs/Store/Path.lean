import AccessPatch.Store.Write
import Mathlib.Data.List.Infix

/-!
# Paths as texts

The path of a text has `Proper` components, and a path whose components are proper is read back
from its own text (`ofString_toString`), so a document keeps its path when that is passed on as a
text. A backup stands beside its document, and can be written where the document can be.
-/

namespace AccessPatch.Path

variable {path bak : Path}

/-! ## The components of a text -/

/-- Components that can be told apart when they are written one after the other. -/
def Proper (path : Path) : Prop :=
  ∀ part ∈ path.parts, part ≠ "" ∧ part ≠ "." ∧ '/' ∉ part.toList

theorem not_mem_of_mem_splitOn {c : Char} {cs piece : List Char} (h : piece ∈ cs.splitOn c) :
    c ∉ piece := by
  induction cs generalizing piece with
  | nil =>
    rw [List.splitOn_nil, List.mem_singleton] at h
    rw [h]
    exact List.not_mem_nil
  | cons d rest ih =>
    rw [List.splitOn_cons_eq_if_modifyHead] at h
    split at h
    · rcases List.mem_cons.mp h with rfl | hrest
      · exact List.not_mem_nil
      · exact ih hrest
    · rename_i hd
      obtain ⟨first, others, hsplit⟩ := List.exists_cons_of_ne_nil (List.splitOn_ne_nil c rest)
      rw [hsplit] at h ih
      rcases List.mem_cons.mp h with rfl | hothers
      · rw [List.mem_cons, not_or]
        refine ⟨?_, ih List.mem_cons_self⟩
        rintro rfl
        exact hd (beq_self_eq_true c)
      · exact ih (List.mem_cons_of_mem _ hothers)

theorem proper_ofString (text : String) : (ofString text).Proper := by
  intro part hpart
  obtain ⟨hmem, hsome⟩ := List.mem_filter.mp hpart
  obtain ⟨piece, hpiece, rfl⟩ := List.mem_map.mp hmem
  rw [decide_eq_true_iff] at hsome
  refine ⟨hsome.1, hsome.2, ?_⟩
  rw [String.toList_ofList]
  exact not_mem_of_mem_splitOn hpiece

theorem proper_of_mem_map {texts : List String} (h : path ∈ texts.map ofString) : path.Proper := by
  obtain ⟨text, -, rfl⟩ := List.mem_map.mp h
  exact proper_ofString text

theorem components_slash (cs : List Char) : components ('/' :: cs) = components cs := by
  have hsplit : ('/' :: cs).splitOn '/' = [] :: cs.splitOn '/' :=
    List.splitOn_append_cons_self_of_not_mem (List.not_mem_nil) cs
  unfold components
  rw [hsplit, List.map_cons, List.filter_cons_of_neg (by decide)]

theorem toList_intercalate (parts : List String) :
    ("/".intercalate parts).toList = ['/'].intercalate (parts.map String.toList) :=
  String.toList_intercalate

theorem components_intercalate (h : path.Proper) :
    components ("/".intercalate path.parts).toList = path.parts := by
  unfold components
  rw [toList_intercalate]
  by_cases hparts : path.parts = []
  · rw [hparts]
    decide
  · have hsplit : (['/'].intercalate (path.parts.map String.toList)).splitOn '/' =
        path.parts.map String.toList := by
      refine List.splitOn_intercalate '/' ?_ ?_
      · intro piece hpiece
        obtain ⟨part, hpart, rfl⟩ := List.mem_map.mp hpiece
        exact (h part hpart).2.2
      · simpa using hparts
    rw [hsplit, List.map_map]
    have hid : (String.ofList ∘ String.toList) = id := by
      funext part
      exact String.ofList_toList
    rw [hid, List.map_id, List.filter_eq_self]
    intro part hpart
    rw [decide_eq_true_iff]
    exact ⟨(h part hpart).1, (h part hpart).2.1⟩

/-- The first component does not look like an anchor. -/
theorem takeWhile_intercalate (h : path.Proper) :
    ("/".intercalate path.parts).toList.takeWhile (· == '/') = [] := by
  rw [toList_intercalate]
  cases hparts : path.parts with
  | nil => rfl
  | cons part rest =>
    obtain ⟨hempty, -, hslash⟩ := h part (by rw [hparts]; exact List.mem_cons_self)
    cases hchars : part.toList with
    | nil => exact absurd (String.toList_eq_nil_iff.mp hchars) hempty
    | cons c cs =>
      have hc : ¬ (c == '/') = true := by
        intro hc
        apply hslash
        rw [hchars, beq_iff_eq.mp hc]
        exact List.mem_cons_self
      have hfirst : ∃ more, ['/'].intercalate ((part :: rest).map String.toList) = c :: more := by
        cases rest with
        | nil => exact ⟨cs, by simp [hchars]⟩
        | cons next rest =>
          exact ⟨_, by rw [List.map_cons, List.map_cons, List.intercalate_cons_cons, hchars]; rfl⟩
      obtain ⟨more, hmore⟩ := hfirst
      rw [hmore, List.takeWhile_cons, if_neg hc]

theorem ofString_toString (h : path.Proper) : ofString (toString path) = path := by
  obtain ⟨anchor, parts⟩ := path
  have hcomponents : components ("/".intercalate parts).toList = parts := components_intercalate h
  have hclear : ("/".intercalate parts).toList.takeWhile (· == '/') = [] := takeWhile_intercalate h
  show ofString (if anchor = .relative ∧ parts = [] then "."
    else anchor.text ++ "/".intercalate parts) = _
  split
  · rename_i hnone
    obtain ⟨rfl, rfl⟩ := hnone
    decide
  · unfold ofString Anchor.ofText
    rw [String.toList_append]
    cases anchor with
    | relative =>
      have htext : Anchor.relative.text.toList = [] := by decide
      rw [htext, List.nil_append, hcomponents, hclear]
      rfl
    | root =>
      have htext : Anchor.root.text.toList = ['/'] := by decide
      rw [htext, List.singleton_append, components_slash, hcomponents,
        List.takeWhile_cons_of_pos (by decide), hclear]
      rfl
    | doubleRoot =>
      have htext : Anchor.doubleRoot.text.toList = ['/', '/'] := by decide
      rw [htext, List.cons_append, List.singleton_append, components_slash, components_slash,
        hcomponents, List.takeWhile_cons_of_pos (by decide),
        List.takeWhile_cons_of_pos (by decide), hclear]
      rfl

/-! ## Backups -/

theorem parts_eq_concat (h : path.parts ≠ []) : path.parts = path.parent.parts ++ [path.name] := by
  have hname : path.name = path.parts.getLast h := by
    rw [name, List.getLast?_eq_some_getLast h, Option.getD_some]
  rw [hname]
  exact (List.dropLast_concat_getLast h).symm

theorem parts_ne_nil_of_name (h : path.name ≠ "") : path.parts ≠ [] := by
  intro hparts
  apply h
  rw [name, hparts]
  rfl

/-- A backup stands beside its document. -/
theorem of_backup? (h : path.backup? = some bak) :
    path.parts ≠ [] ∧ bak.parts ≠ [] ∧ bak.anchor = path.anchor ∧ bak.parent = path.parent ∧
      bak.name = path.name ++ backupEnding := by
  unfold backup? appendSuffix? at h
  cases hlast : path.parts.getLast? with
  | none =>
    rw [hlast] at h
    cases h
  | some last =>
    rw [hlast] at h
    obtain rfl := Option.some.inj h
    have hparts : path.parts ≠ [] := by
      intro hnil
      rw [hnil] at hlast
      cases hlast
    refine ⟨hparts, by simp, rfl, ?_, ?_⟩
    · simp only [parent, List.dropLast_concat]
    · simp only [name, hlast, List.getLast?_concat, Option.getD_some]

theorem exists_backup? (h : path.parts ≠ []) : ∃ bak, path.backup? = some bak := by
  unfold backup? appendSuffix?
  rw [List.getLast?_eq_some_getLast h]
  exact ⟨_, rfl⟩

/-- A file can have the path. -/
def Usable (path : Path) : Prop :=
  ∀ part ∈ path.parts, '\x00' ∉ part.toList

theorem usable_iff :
    path.Usable ↔ ¬ (path.parts.any fun part => part.toList.contains '\x00') = true := by
  simp [Usable]

/-- A backup can be written where its document can be. -/
theorem usable_of_backup? (h : path.backup? = some bak) (husable : path.Usable) : bak.Usable := by
  obtain ⟨hparts, hparts', -, hparent, hname⟩ := of_backup? h
  unfold Usable at husable
  rw [parts_eq_concat hparts] at husable
  intro part hpart
  rw [parts_eq_concat hparts', hparent, hname, List.mem_append, List.mem_singleton] at hpart
  rcases hpart with hfolder | rfl
  · exact husable part (List.mem_append_left _ hfolder)
  · have hname' : '\x00' ∉ path.name.toList :=
      husable path.name (List.mem_append_right _ (List.mem_singleton_self _))
    have hending : '\x00' ∉ backupEnding.toList := by decide
    rw [String.toList_append, List.mem_append, not_or]
    exact ⟨hname', hending⟩

end AccessPatch.Path
