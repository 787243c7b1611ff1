import AccessPatch.Xml.Charset
import Mathlib.Data.List.Basic

/-!
# Character sets above ASCII

A character set extends ASCII if its bytes below 0x80 stand for themselves, but perhaps for the
tilde, and the others for characters above ASCII (`Extends`). All character sets that a document may
declare and that are read byte by byte do (`extends_of_find?`), so markup in ASCII can be added to a
document in one of them.
-/

namespace AccessPatch.Xml.Charset

/-- The characters `upper` of the bytes from 0x80 on are above ASCII, and of ASCII at most the tilde
is missing. -/
structure Extends (upper gaps : List Char) : Prop where
  size : upper.length ≤ 0x80
  above : ∀ c ∈ upper, 0x80 ≤ c.toNat
  gaps : ∀ c ∈ gaps, c = '~'

/-- Whether a character set extends ASCII, if it is read byte by byte. -/
def Form.Sound : Form → Prop
  | .singleByte rows gaps => Extends (charsOf rows) gaps
  | .multiByte | .conflicting => True

/-- Rows of characters above ASCII, with room for at most as many as there are bytes. -/
inductive Above : (room : Nat) → (rows : List String) → Prop
  | nil (room : Nat) : Above room []
  | cons {room : Nat} {cs : List Char} {rows : List String}
      (above : cs.all (0x80 ≤ ·.toNat) = true) (size : cs.length ≤ room)
      (rest : Above (room - cs.length) rows) : Above room (String.ofList cs :: rows)

theorem Above.chars {room : Nat} {rows : List String} (h : Above room rows) :
    (charsOf rows).length ≤ room ∧ ∀ c ∈ charsOf rows, 0x80 ≤ c.toNat := by
  induction h with
  | nil room => simp [charsOf]
  | @cons room cs rows above size rest ih =>
    have hchars : charsOf (String.ofList cs :: rows) = cs ++ charsOf rows := by simp [charsOf]
    rw [hchars, List.length_append, List.forall_mem_append]
    exact ⟨by omega, by simpa using above, ih.2⟩

theorem sound_of_above {rows : List String} {gaps : List Char} (h : Above 0x80 rows)
    (hgaps : ∀ c ∈ gaps, c = '~') : (Form.singleByte rows gaps).Sound :=
  ⟨h.chars.1, h.chars.2, hgaps⟩

theorem sound_all : ∀ charset ∈ all, charset.form.Sound := by
  unfold all basic windows dos iso8859 macintosh others
  simp only [List.forall_mem_append, and_assoc]
  refine ⟨?_, ?_, ?_, ?_, ?_, ?_,
    List.forall_mem_cons.mpr ⟨trivial, List.forall_mem_singleton.mpr trivial⟩⟩
  all_goals repeat' refine List.forall_mem_cons.mpr ⟨sound_of_above ?_ (by simp), ?_⟩
  all_goals try exact List.forall_mem_nil _
  -- Row by row, since a table as a whole takes long to check.
  all_goals repeat' first | exact .nil _ | refine .cons (by decide) (by decide) ?_

theorem mem_of_find? {name : String} {charset : Charset} (h : find? name = some charset) :
    charset ∈ all := by
  simp only [find?, Option.orElse_eq_orElse, Option.orElse_eq_or, Option.or_eq_some_iff] at h
  rcases h with h | ⟨-, h | ⟨-, h⟩⟩
  · exact List.mem_of_find?_eq_some h
  · exact List.mem_of_find?_eq_some h
  · split at h
    · cases h
    · exact List.mem_of_find?_eq_some h

/-- **Character sets.** Those that a document may declare extend ASCII if they are read byte by
byte. -/
theorem extends_of_find? {name : String} {rows : List String} {gaps : List Char}
    (h : (find? name).map Charset.form = some (.singleByte rows gaps)) :
    Extends (charsOf rows) gaps := by
  obtain ⟨charset, hfound, hform⟩ := Option.map_eq_some_iff.mp h
  have hsound := sound_all charset (mem_of_find? hfound)
  rwa [hform] at hsound

end AccessPatch.Xml.Charset
