import AccessPatch.Proofs.Xml.Code
import AccessPatch.Xml.Source

/-!
# The declaration of a document

A declaration is read as UTF-8 or as UTF-16, and ends at its first `?>`. So the bytes up to this
mark make the declaration, whatever follows them (`exists_declaration`).
-/

namespace AccessPatch.Xml

namespace Encoding

/-! ## One character at a time -/

theorem unit_pos (encoding : Encoding) : 0 < encoding.unit := by
  cases encoding <;> simp [unit]

/-- The bytes `first` are read as the character `c`, whatever follows them. -/
structure Begins (encoding : Encoding) (first : Bytes) (c : Char) : Prop where
  reads : ∀ more, encoding.decode (first ++ more) = ⟨.char c, first.length⟩ :: encoding.decode more
  narrow : c.toNat < 0x80 → first.length = encoding.unit

/-- What is read first in this encoding does not depend on the bytes after it. -/
def IsLocal (encoding : Encoding) : Prop :=
  ∀ {bs : Bytes} {c : Char} {w : Nat} {rest : List Symbol},
    encoding.decode bs = ⟨.char c, w⟩ :: rest →
    ∃ first bs', bs = first ++ bs' ∧ encoding.Begins first c ∧ first.length = w ∧
      encoding.decode bs' = rest

theorem isLocal_utf8 : IsLocal .utf8 := by
  intro bs c w rest h
  let _ := Code.utf8
  obtain ⟨hknows, bs', rfl, hbs'⟩ := Code.exists_of_decode (List.map_id bs) h
  have hwrite : ∀ more, decode .utf8 (Code.write c ++ more) =
      ⟨.char c, (Code.write c).length⟩ :: decode .utf8 more :=
        fun more => Code.decode_write more hknows
  rw [hwrite] at h
  obtain ⟨-, hwidth⟩ := Symbol.mk.inj (List.cons.inj h).1
  refine ⟨Code.write c, bs', rfl, ⟨hwrite, fun hc => ?_⟩, hwidth, hbs'⟩
  rw [Code.write_of_lt hc]
  rfl

theorem le_toNat_surrogatePair (lead trail : Nat) :
    0x10000 ≤ (Char.ofNat (surrogatePair lead trail)).toNat := by
  have hlead : lead % 0x400 < 0x400 := Nat.mod_lt _ (by omega)
  have htrail : trail % 0x400 < 0x400 := Nat.mod_lt _ (by omega)
  have hvalid : (surrogatePair lead trail).isValidChar := by
    right
    simp only [surrogatePair]
    omega
  have htoNat : (Char.ofNat (surrogatePair lead trail)).toNat = surrogatePair lead trail := by
    rw [Char.ofNat, dif_pos hvalid]
    rfl
  rw [htoNat, surrogatePair]
  omega

/-- Two bytes as a unit of UTF-16. -/
def word (bigEndian : Bool) (a b : UInt8) : Nat :=
  if bigEndian then a.toNat * 256 + b.toNat else b.toNat * 256 + a.toNat

/-- Whether a unit of UTF-16 is the first one of two that make a character. -/
def IsLead (n : Nat) : Prop := 0xD800 ≤ n ∧ n < 0xDC00

section Utf16

variable {bigEndian : Bool} {a b : UInt8}

theorem decodeUtf16_pair (h : IsLead (word bigEndian a b)) (d e : UInt8) (rest : Bytes) :
    decodeUtf16 bigEndian (a :: b :: d :: e :: rest) =
      ⟨.char (Char.ofNat (surrogatePair (word bigEndian a b) (word bigEndian d e))), 4⟩ ::
        decodeUtf16 bigEndian rest :=
  if_pos h

theorem decodeUtf16_single (h : ¬ IsLead (word bigEndian a b)) (rest : Bytes) :
    decodeUtf16 bigEndian (a :: b :: rest) =
      if 0xDC00 ≤ word bigEndian a b ∧ word bigEndian a b < 0xE000 then
        ⟨.malformed false, 2⟩ :: decodeUtf16 bigEndian rest
      else ⟨.ofNat (word bigEndian a b), 2⟩ :: decodeUtf16 bigEndian rest := by
  match rest with
  | [] => exact if_neg h
  | [_] => exact if_neg h
  | _ :: _ :: _ => exact if_neg h

end Utf16

theorem isLocal_utf16 (bigEndian : Bool) : IsLocal (.utf16 bigEndian) := by
  intro bs c w rest h
  change decodeUtf16 bigEndian bs = _ at h
  match bs with
  | [] => cases h
  | [_] => cases h
  | a :: b :: bs =>
    by_cases hlead : IsLead (word bigEndian a b)
    · match bs with
      | [] => cases (if_pos hlead).symm.trans h
      | [_] => cases (if_pos hlead).symm.trans h
      | d :: e :: bs =>
        rw [decodeUtf16_pair hlead] at h
        cases h
        refine ⟨[a, b, d, e], bs, rfl,
          ⟨fun more => decodeUtf16_pair hlead d e more, fun hc => ?_⟩, rfl, rfl⟩
        have := le_toNat_surrogatePair (word bigEndian a b) (word bigEndian d e)
        omega
    · have hsingle := decodeUtf16_single hlead
      split at hsingle
      · rw [hsingle] at h
        cases h
      · rw [hsingle] at h
        obtain ⟨hsymbol, rfl⟩ := List.cons.inj h
        obtain ⟨hglyph, rfl⟩ := Symbol.mk.inj hsymbol
        refine ⟨[a, b], bs, rfl, ⟨fun more => ?_, fun _ => rfl⟩, rfl, rfl⟩
        rw [← hglyph]
        exact hsingle more

end Encoding

namespace Source

/-! ## A declaration ends at its first `?>` -/

theorem untilClose_cons (c : Placed) (rest : List Placed) : untilClose (c :: rest) =
    if c.char = '?' ∧ rest.head?.map Placed.char = some '>' then some ([], c.pos)
    else (untilClose rest).map fun (body, pos) => (c :: body, pos) := by
  rw [untilClose.eq_def]
  split
  · rename_i pos _ _ heq
    cases heq
    rfl
  · rename_i d rest' hno heq
    cases heq
    rw [if_neg]
    rintro ⟨hc, hrest⟩
    obtain ⟨char, pos⟩ := c
    cases rest with
    | nil => cases hrest
    | cons d rest =>
      obtain ⟨char', pos'⟩ := d
      simp only [List.head?_cons, Option.map_some, Option.some.injEq] at hc hrest
      subst hc hrest
      exact hno pos pos' rest rfl rfl
  · rename_i heq
    cases heq

/-- What stands after the `?>` of a declaration does not matter. -/
theorem untilClose_local {l body : List Placed} {stop : Nat}
    (h : untilClose l = some (body, stop)) :
    ∃ last more, l = body ++ ⟨'?', stop⟩ :: ⟨'>', last⟩ :: more ∧
      ∀ more', untilClose (body ++ ⟨'?', stop⟩ :: ⟨'>', last⟩ :: more') = some (body, stop) := by
  induction l generalizing body with
  | nil => cases h
  | cons c rest ih =>
    rw [untilClose_cons] at h
    split at h
    · rename_i hclose
      cases h
      obtain ⟨char, pos⟩ := c
      cases rest with
      | nil => cases hclose.2
      | cons d rest =>
        obtain ⟨char', pos'⟩ := d
        simp only [List.head?_cons, Option.map_some, Option.some.injEq] at hclose
        obtain ⟨rfl, rfl⟩ := hclose
        refine ⟨pos', rest, rfl, fun more' => ?_⟩
        rw [List.nil_append, untilClose_cons]
        rfl
    · rename_i hopen
      obtain ⟨⟨body', stop'⟩, hbody, hresult⟩ := Option.map_eq_some_iff.mp h
      cases hresult
      obtain ⟨last, more, rfl, hlocal⟩ := ih hbody
      refine ⟨last, more, rfl, fun more' => ?_⟩
      rw [List.cons_append, untilClose_cons, hlocal, if_neg]
      · rfl
      · rintro ⟨hc, hhead⟩
        refine hopen ⟨hc, ?_⟩
        cases body' with
        | nil => exact hhead
        | cons d body' => exact hhead

theorem declarationBody?_cons {l rest : List Placed} {c : Placed} (h : l.drop 5 = c :: rest) :
    declarationBody? l = if (l.take 5).map Placed.char = "<?xml".toList then
      if c.char = '?' ∧ rest.head?.map Placed.char = some '>' then some ([], c.pos)
      else if isSpace c.char then untilClose (c :: rest) else none
    else none := by
  unfold declarationBody?
  rw [h]
  refine ite_congr rfl (fun _ => ?_) fun _ => rfl
  by_cases hclose : c.char = '?' ∧ rest.head?.map Placed.char = some '>'
  · rw [if_pos hclose]
    obtain ⟨char, pos⟩ := c
    cases rest with
    | nil => cases hclose.2
    | cons d rest =>
      obtain ⟨char', pos'⟩ := d
      simp only [List.head?_cons, Option.map_some, Option.some.injEq] at hclose
      obtain ⟨rfl, rfl⟩ := hclose
      rfl
  · rw [if_neg hclose]
    split
    · rename_i heq
      cases heq
      exact absurd ⟨rfl, rfl⟩ hclose
    · rename_i heq
      cases heq
      rfl
    · rename_i heq
      cases heq

theorem declarationBody?_eq_some_iff {l body : List Placed} {stop : Nat} :
    declarationBody? l = some (body, stop) ↔ (l.take 5).map Placed.char = "<?xml".toList ∧
      untilClose (l.drop 5) = some (body, stop) ∧
        (body = [] ∨ ∃ c rest, body = c :: rest ∧ isSpace c.char = true) := by
  cases hdrop : l.drop 5 with
  | nil =>
    have hnone : declarationBody? l = none := by
      unfold declarationBody?
      rw [hdrop]
      exact ite_self none
    rw [hnone]
    constructor
    · intro h
      cases h
    · rintro ⟨-, h, -⟩
      cases h
  | cons c rest =>
    rw [declarationBody?_cons hdrop, untilClose_cons]
    by_cases hmark : (l.take 5).map Placed.char = "<?xml".toList
    · rw [if_pos hmark]
      by_cases hclose : c.char = '?' ∧ rest.head?.map Placed.char = some '>'
      · rw [if_pos hclose, if_pos hclose]
        constructor
        · intro h
          cases h
          exact ⟨hmark, rfl, .inl rfl⟩
        · rintro ⟨-, h, -⟩
          exact h
      · rw [if_neg hclose, if_neg hclose]
        constructor
        · intro h
          split at h
          · rename_i hspace
            refine ⟨hmark, h, .inr ?_⟩
            obtain ⟨⟨body', stop'⟩, -, hresult⟩ := Option.map_eq_some_iff.mp h
            cases hresult
            exact ⟨c, body', rfl, hspace⟩
          · cases h
        · rintro ⟨-, h, hbody⟩
          obtain ⟨⟨body', stop'⟩, -, hresult⟩ := Option.map_eq_some_iff.mp h
          cases hresult
          rcases hbody with hbody | ⟨d, rest', hbody, hspace⟩
          · cases hbody
          · cases hbody
            rw [if_pos hspace]
            exact h
    · rw [if_neg hmark]
      constructor
      · intro h
        cases h
      · rintro ⟨h, -⟩
        exact absurd h hmark

/-- So it does not for the declaration as a whole. -/
theorem declarationBody?_local {l body : List Placed} {stop : Nat}
    (h : declarationBody? l = some (body, stop)) :
    ∃ before last more, l = before ++ ⟨'?', stop⟩ :: ⟨'>', last⟩ :: more ∧
      ∀ more', declarationBody? (before ++ ⟨'?', stop⟩ :: ⟨'>', last⟩ :: more') =
        some (body, stop) := by
  obtain ⟨hmark, hclose, hbody⟩ := declarationBody?_eq_some_iff.mp h
  obtain ⟨last, more, hrest, hlocal⟩ := untilClose_local hclose
  have hlength : (l.take 5).length = 5 := by
    have := congrArg List.length hmark
    simpa using this
  refine ⟨l.take 5 ++ body, last, more, ?_, fun more' => ?_⟩
  · rw [List.append_assoc, ← hrest, List.take_append_drop]
  · refine declarationBody?_eq_some_iff.mpr ⟨?_, ?_, hbody⟩
    · rw [List.append_assoc, List.take_left' hlength, hmark]
    · rw [List.append_assoc, List.drop_left' hlength, hlocal]

/-! ## The bytes of a declaration -/

theorem exists_of_leadingChars {encoding : Encoding} (hlocal : encoding.IsLocal) {pos : Nat}
    {bs : Bytes} {p : Placed} {more : List Placed}
    (h : leadingChars pos (encoding.decode bs) = p :: more) :
    p.pos = pos ∧ ∃ first bs', bs = first ++ bs' ∧ encoding.Begins first p.char ∧
      leadingChars (pos + first.length) (encoding.decode bs') = more := by
  cases hsymbols : encoding.decode bs with
  | nil =>
    rw [hsymbols] at h
    cases h
  | cons s rest =>
    obtain ⟨glyph, w⟩ := s
    cases glyph with
    | char c =>
      obtain ⟨first, bs', rfl, hbegins, rfl, hrest⟩ := hlocal hsymbols
      rw [hsymbols] at h
      cases h
      exact ⟨rfl, first, bs', rfl, hbegins, by rw [hrest]⟩
    | malformed begun =>
      rw [hsymbols] at h
      cases h
    | cutOff =>
      rw [hsymbols] at h
      cases h

theorem leadingChars_begins {encoding : Encoding} {first : Bytes} {c : Char}
    (h : encoding.Begins first c) (pos : Nat) (more : Bytes) :
    leadingChars pos (encoding.decode (first ++ more)) =
      ⟨c, pos⟩ :: leadingChars (pos + first.length) (encoding.decode more) := by
  rw [h.reads, leadingChars]

/-- The characters at the beginning of a document have their own bytes. -/
theorem exists_of_leadingChars_append {encoding : Encoding} (hlocal : encoding.IsLocal) {pos : Nat}
    {bs : Bytes} {l more : List Placed} (h : leadingChars pos (encoding.decode bs) = l ++ more) :
    ∃ first bs', bs = first ++ bs' ∧
      leadingChars (pos + first.length) (encoding.decode bs') = more ∧
      ∀ more', leadingChars pos (encoding.decode (first ++ more')) =
        l ++ leadingChars (pos + first.length) (encoding.decode more') := by
  induction l generalizing pos bs with
  | nil => exact ⟨[], bs, rfl, h, fun _ => rfl⟩
  | cons p l ih =>
    obtain ⟨hpos, first, bs', rfl, hbegins, hrest⟩ := exists_of_leadingChars hlocal h
    obtain ⟨first', bs'', rfl, hmore, hall⟩ := ih hrest
    refine ⟨first ++ first', bs'', (List.append_assoc _ _ _).symm, ?_, fun more' => ?_⟩
    · rw [List.length_append, ← Nat.add_assoc, hmore]
    · rw [List.append_assoc, leadingChars_begins hbegins, hall, List.length_append,
        ← Nat.add_assoc, ← hpos]
      rfl

/-- **The bytes of a declaration.** Where a document declares something, it begins with bytes that
say so, whatever follows. -/
theorem exists_declaration {encoding : Encoding} (hlocal : encoding.IsLocal) {pos stop : Nat}
    {bs : Bytes} {body : List Placed}
    (h : declarationBody? (leadingChars pos (encoding.decode bs)) = some (body, stop)) :
    ∃ first bs', bs = first ++ bs' ∧ stop + 2 * encoding.unit = pos + first.length ∧
      3 ≤ first.length ∧ ∀ more,
        declarationBody? (leadingChars pos (encoding.decode (first ++ more))) =
          some (body, stop) := by
  obtain ⟨before, last, more, hl, hwhole⟩ := declarationBody?_local h
  obtain ⟨first, bs₁, rfl, hmarks, hbefore⟩ := exists_of_leadingChars_append hlocal hl
  obtain ⟨rfl, mark, bs₂, rfl, hmark, hgreater⟩ := exists_of_leadingChars hlocal hmarks
  obtain ⟨rfl, greater, bs₃, rfl, hend, -⟩ := exists_of_leadingChars hlocal hgreater
  have hmarkWidth := hmark.narrow (by decide : '?'.toNat < 0x80)
  have hendWidth := hend.narrow (by decide : '>'.toNat < 0x80)
  have hunit := encoding.unit_pos
  -- The mark that closes the declaration is not the one that opens it.
  have hfirst : 0 < first.length := by
    refine List.length_pos_iff.mpr ?_
    rintro rfl
    cases before with
    | nil =>
      have hopens := (declarationBody?_eq_some_iff.mp (hwhole [])).1
      cases hopens
    | cons p before =>
      have hnothing := hbefore []
      rw [List.append_nil, Encoding.decode_nil] at hnothing
      cases hnothing
  refine ⟨first ++ (mark ++ greater), bs₃, by simp only [List.append_assoc], ?_, ?_,
    fun more' => ?_⟩
  · simp only [List.length_append]
    omega
  · simp only [List.length_append]
    omega
  · rw [List.append_assoc, List.append_assoc, hbefore, leadingChars_begins hmark,
      leadingChars_begins hend]
    exact hwhole _

end Source

end AccessPatch.Xml
