import AccessPatch.Proofs.Xml.Characters
import AccessPatch.Proofs.Xml.Charset

/-!
# How the characters of a document are written

What is proved about a document does not depend on its encoding, as long as that is a `Code`: the
characters of ASCII are written as single bytes, but perhaps for the tilde, the bytes of all others
are above ASCII, and what has been read as characters can be written again. UTF-8 is a code
(`Code.utf8`), and so are the encodings of a single byte whose characters above ASCII stand in a
table (`Code.ofTable`). UTF-16 is none.

The texts of a document are lists of characters that its code knows (`IsText`), with the bytes
`inCode`. A table may have several bytes for one character. Then the code writes one of them, and a
document with another one is first respelled with `Code.respell`.
-/

namespace AccessPatch.Xml

/-- How an encoding writes characters. -/
class Code where
  encoding : Encoding
  /-- The bytes of a character. -/
  write : Char → Bytes
  /-- Whether a document may hold a character. -/
  knows : Char → Bool
  /-- The byte that is written where a document may have this one. -/
  respell : UInt8 → UInt8
  unit : encoding.unit = 1
  write_of_utf8 : encoding = .utf8 → ∀ c, write c = String.utf8EncodeChar c
  respell_of_utf8 : encoding = .utf8 → ∀ b, respell b = b
  write_of_lt : ∀ {c : Char}, c.toNat < 0x80 → write c = [UInt8.ofNat c.toNat]
  le_of_mem_write : ∀ {c : Char} {b : UInt8}, 0x80 ≤ c.toNat → b ∈ write c → 0x80 ≤ b.toNat
  write_ne_nil : ∀ c, write c ≠ []
  knows_of_lt : ∀ {c : Char}, c.toNat < 0x7E → isAllowed c.toNat = true → knows c = true
  respell_of_lt : ∀ {b : UInt8}, b.toNat < 0x80 → respell b = b
  le_respell : ∀ {b : UInt8}, 0x80 ≤ b.toNat → 0x80 ≤ (respell b).toNat
  respell_respell : ∀ b, respell (respell b) = respell b
  decode_respell : ∀ bs, encoding.decode (bs.map respell) = encoding.decode bs
  decode_write : ∀ {c : Char} (bs : Bytes), knows c = true →
    encoding.decode (write c ++ bs) = ⟨.char c, (write c).length⟩ :: encoding.decode bs
  exists_of_decode : ∀ {bs : Bytes} {c : Char} {w : Nat} {rest : List Symbol},
    bs.map respell = bs → encoding.decode bs = ⟨.char c, w⟩ :: rest →
      knows c = true ∧ ∃ bs', bs = write c ++ bs' ∧ encoding.decode bs' = rest
  eq_nil_of_decode : ∀ {bs : Bytes}, encoding.decode bs = [] → bs = []
  width_pos : ∀ {bs : Bytes} {s : Symbol}, s ∈ encoding.decode bs → 0 < s.width

/-! ## UTF-8 -/

/-- UTF-8. -/
@[reducible] def Code.utf8 : Code where
  encoding := .utf8
  write := String.utf8EncodeChar
  knows c := isAllowed c.toNat
  respell := id
  unit := rfl
  write_of_utf8 _ _ := rfl
  respell_of_utf8 _ _ := rfl
  write_of_lt := utf8EncodeChar_of_lt
  le_of_mem_write := le_of_mem_utf8EncodeChar
  write_ne_nil _ := String.utf8EncodeChar_ne_nil
  knows_of_lt _ h := h
  respell_of_lt _ := rfl
  le_respell h := h
  respell_respell _ := rfl
  decode_respell bs := by rw [List.map_id]
  decode_write {c} bs h := by
    rw [String.length_utf8EncodeChar, ← ofNat_toNat_eq_char h]
    exact Encoding.decodeUtf8_utf8EncodeChar_append c bs
  exists_of_decode _ h := ⟨isAllowed_of_decodeUtf8 h, Encoding.decodeUtf8_eq_cons_char h⟩
  eq_nil_of_decode := Encoding.eq_nil_of_decodeUtf8_eq_nil
  width_pos := Encoding.width_pos_of_mem_decodeUtf8

/-! ## Single bytes -/

section Table

open Charset (Extends)
open Encoding (lowerGlyph upperGlyph)

variable {upper : Array Char} {gaps : List Char}

/-- The byte of a character, where the bytes from 0x80 on are those of the characters `upper`; 0xFF
for a character that is not among them. -/
def tableByte (upper : Array Char) (c : Char) : UInt8 :=
  .ofNat (if c.toNat < 0x80 then c.toNat else 0x80 + min (upper.toList.idxOf c) 0x7F)

/-- The glyph of a byte. -/
def tableGlyph (upper : Array Char) (gaps : List Char) (b : UInt8) : Glyph :=
  if b < 0x80 then lowerGlyph gaps b else upperGlyph upper b

/-- The characters that have a byte. -/
def tableKnows (upper : Array Char) (gaps : List Char) (c : Char) : Bool :=
  isAllowed c.toNat &&
    if c.toNat < 0x80 then ! gaps.contains c else c != '\uFFFD' && upper.toList.contains c

/-- The first byte for the character of a byte. -/
def tableRespell (upper : Array Char) (b : UInt8) : UInt8 :=
  if b < 0x80 then b else (upper[b.toNat - 0x80]?).elim b (tableByte upper)

theorem lt_toNat_iff {b : UInt8} : b < 0x80 ↔ b.toNat < 0x80 :=
  UInt8.lt_iff_toNat_lt

theorem le_toNat_iff {b : UInt8} : 0x80 ≤ b.toNat ↔ ¬ b < 0x80 := by
  rw [lt_toNat_iff, Nat.not_lt]

theorem upperGlyph_eq_char {b : UInt8} {c : Char} (h : upperGlyph upper b = .char c) :
    upper[b.toNat - 0x80]? = some c ∧ c ≠ '\uFFFD' ∧ isAllowed c.toNat = true := by
  unfold upperGlyph at h
  split at h
  · cases h
  · rename_i d hd hne
    obtain ⟨hallowed, rfl⟩ := eq_of_ofNat_eq_char h
    exact ⟨hne, hd, hallowed⟩
  · cases h

theorem upperGlyph_of_getElem? {b : UInt8} {c : Char} (h : upper[b.toNat - 0x80]? = some c)
    (hc : c ≠ '\uFFFD') (hallowed : isAllowed c.toNat = true) : upperGlyph upper b = .char c := by
  unfold upperGlyph
  rw [h]
  split
  · rename_i heq
    exact absurd (Option.some.inj heq) hc
  · rename_i heq
    rw [← Option.some.inj heq]
    exact ofNat_toNat_eq_char hallowed
  · rename_i heq
    cases heq

theorem lowerGlyph_eq_char {b : UInt8} {c : Char} (hb : b.toNat < 0x80)
    (h : lowerGlyph gaps b = .char c) :
    c.toNat = b.toNat ∧ isAllowed c.toNat = true ∧ c ∉ gaps := by
  unfold lowerGlyph at h
  split at h
  · cases h
  · rename_i hgap
    have hchar := Encoding.toNat_of_ofNat_eq_char h (by omega)
    rw [← hchar] at h hgap
    rw [Char.ofNat_toNat] at hgap
    exact ⟨hchar, (eq_of_ofNat_eq_char h).1, by simpa using hgap⟩

theorem lowerGlyph_of_toNat {b : UInt8} {c : Char} (h : b.toNat = c.toNat) (hc : c ∉ gaps)
    (hallowed : isAllowed c.toNat = true) : lowerGlyph gaps b = .char c := by
  unfold lowerGlyph
  rw [h, Char.ofNat_toNat, if_neg (by simpa using hc)]
  exact ofNat_toNat_eq_char hallowed

theorem toNat_tableByte (upper : Array Char) (c : Char) : (tableByte upper c).toNat =
    if c.toNat < 0x80 then c.toNat else 0x80 + min (upper.toList.idxOf c) 0x7F := by
  rw [tableByte, Encoding.toNat_ofNat_of_lt]
  split <;> omega

/-- The byte of a character in the table. -/
theorem getElem?_tableByte (h : Extends upper.toList gaps) {c : Char} (hc : c ∈ upper.toList) :
    0x80 ≤ (tableByte upper c).toNat ∧ upper[(tableByte upper c).toNat - 0x80]? = some c := by
  have hbyte := toNat_tableByte upper c
  have habove := h.above c hc
  have hidx := List.idxOf_lt_length_of_mem hc
  have hsize := h.size
  rw [if_neg (by omega)] at hbyte
  refine ⟨by omega, ?_⟩
  have hplace : (tableByte upper c).toNat - 0x80 = upper.toList.idxOf c := by omega
  rw [hplace, ← Array.getElem?_toList, List.getElem?_eq_getElem hidx, List.getElem_idxOf]

/-- Another byte above ASCII takes the place of one above ASCII, and stands for the same. -/
theorem getElem?_tableRespell (h : Extends upper.toList gaps) {b : UInt8} (hb : 0x80 ≤ b.toNat) :
    0x80 ≤ (tableRespell upper b).toNat ∧
      upper[(tableRespell upper b).toNat - 0x80]? = upper[b.toNat - 0x80]? := by
  rw [tableRespell, if_neg (le_toNat_iff.mp hb)]
  cases hget : upper[b.toNat - 0x80]? with
  | none => exact ⟨hb, hget⟩
  | some c =>
    rw [← Array.getElem?_toList] at hget
    exact getElem?_tableByte h (List.mem_of_getElem? hget)

theorem tableGlyph_tableRespell (h : Extends upper.toList gaps) (b : UInt8) :
    tableGlyph upper gaps (tableRespell upper b) = tableGlyph upper gaps b := by
  by_cases hb : b < 0x80
  · rw [tableRespell, if_pos hb]
  · obtain ⟨hle, hget⟩ := getElem?_tableRespell h (le_toNat_iff.mpr hb)
    rw [tableGlyph, tableGlyph, if_neg hb, if_neg (le_toNat_iff.mp hle), upperGlyph, upperGlyph,
      hget]

theorem tableRespell_tableRespell (h : Extends upper.toList gaps) (b : UInt8) :
    tableRespell upper (tableRespell upper b) = tableRespell upper b := by
  by_cases hb : b < 0x80
  · have hsame : tableRespell upper b = b := if_pos hb
    rw [hsame, hsame]
  · obtain ⟨hle, hget⟩ := getElem?_tableRespell h (le_toNat_iff.mpr hb)
    rw [tableRespell, if_neg (le_toNat_iff.mp hle), hget]
    rw [tableRespell, if_neg hb]
    cases upper[b.toNat - 0x80]? <;> rfl

theorem tableGlyph_tableByte (h : Extends upper.toList gaps) {c : Char}
    (hc : tableKnows upper gaps c = true) :
    tableGlyph upper gaps (tableByte upper c) = .char c := by
  obtain ⟨hallowed, hc⟩ := Bool.and_eq_true_iff.mp hc
  have hbyte := toNat_tableByte upper c
  unfold tableGlyph
  by_cases hlt : c.toNat < 0x80
  · rw [if_pos hlt] at hbyte hc
    rw [if_pos (by rw [lt_toNat_iff]; omega)]
    exact lowerGlyph_of_toNat hbyte (by simpa using hc) hallowed
  · rw [if_neg hlt] at hc
    simp only [Bool.and_eq_true, bne_iff_ne, List.contains_iff_mem] at hc
    obtain ⟨hle, hget⟩ := getElem?_tableByte h hc.2
    rw [if_neg (le_toNat_iff.mp hle)]
    exact upperGlyph_of_getElem? hget hc.1 hallowed

/-- A byte that is read as a character is the byte of that character, or is respelled. -/
theorem eq_tableByte (h : Extends upper.toList gaps) {b : UInt8} {c : Char}
    (hplain : tableRespell upper b = b) (hb : tableGlyph upper gaps b = .char c) :
    tableKnows upper gaps c = true ∧ b = tableByte upper c := by
  unfold tableGlyph at hb
  split at hb
  · rename_i hlt
    rw [lt_toNat_iff] at hlt
    obtain ⟨hchar, hallowed, hgap⟩ := lowerGlyph_eq_char hlt hb
    refine ⟨?_, by rw [tableByte, if_pos (by omega), hchar, UInt8.ofNat_toNat]⟩
    rw [tableKnows, hallowed, if_pos (by omega)]
    simpa using hgap
  · rename_i hge
    obtain ⟨hget, hne, hallowed⟩ := upperGlyph_eq_char hb
    have hmem : c ∈ upper.toList := by
      rw [← Array.getElem?_toList] at hget
      exact List.mem_of_getElem? hget
    have habove := h.above c hmem
    refine ⟨by simp [tableKnows, hallowed, hne, hmem, Nat.not_lt.mpr habove], ?_⟩
    rw [tableRespell, if_neg hge, hget] at hplain
    exact hplain.symm

/-- Encodings of a single byte. -/
@[reducible] def Code.ofTable (encoding : Encoding) (upper : Array Char) (gaps : List Char)
    (h : Extends upper.toList gaps)
    (hdecode : ∀ bs, encoding.decode bs = bs.map fun b => ⟨tableGlyph upper gaps b, 1⟩)
    (hunit : encoding.unit = 1) (hutf8 : encoding ≠ .utf8) : Code where
  encoding
  write c := [tableByte upper c]
  knows := tableKnows upper gaps
  respell := tableRespell upper
  unit := hunit
  write_of_utf8 h := absurd h hutf8
  respell_of_utf8 h := absurd h hutf8
  write_of_lt {c} h := by rw [tableByte, if_pos h]
  le_of_mem_write {c b} hc hb := by
    rw [List.mem_singleton.mp hb, toNat_tableByte, if_neg (by omega)]
    omega
  write_ne_nil _ := by simp
  knows_of_lt {c} hlt hallowed := by
    have hgap : c ∉ gaps := by
      intro hc
      rw [h.gaps c hc] at hlt
      exact absurd hlt (by decide)
    have hascii : c.toNat < 0x80 := by omega
    simp [tableKnows, hascii, hallowed, hgap]
  respell_of_lt {b} hb := by rw [tableRespell, if_pos (lt_toNat_iff.mpr hb)]
  le_respell hb := (getElem?_tableRespell h hb).1
  respell_respell := tableRespell_tableRespell h
  decode_respell bs := by
    simp only [hdecode, List.map_map, Function.comp_def, tableGlyph_tableRespell h]
  decode_write {c} bs hc := by
    rw [hdecode, hdecode, List.singleton_append, List.map_cons, tableGlyph_tableByte h hc]
    rfl
  exists_of_decode {bs c w rest} hplain hbs := by
    rw [hdecode] at hbs
    cases bs with
    | nil => cases hbs
    | cons b bs =>
      obtain ⟨hsymbol, rfl⟩ := List.cons.inj hbs
      obtain ⟨hknows, rfl⟩ :=
        eq_tableByte h (List.cons.inj hplain).1 (Symbol.mk.inj hsymbol).1
      exact ⟨hknows, bs, rfl, hdecode bs⟩
  eq_nil_of_decode {bs} hbs := by
    rw [hdecode] at hbs
    exact List.map_eq_nil_iff.mp hbs
  width_pos {bs s} hs := by
    rw [hdecode] at hs
    obtain ⟨b, -, rfl⟩ := List.mem_map.mp hs
    exact Nat.one_pos

/-- The characters of ISO-8859-1 above ASCII. -/
def latin1Upper : Array Char :=
  ((List.range 0x80).map fun i => Char.ofNat (0x80 + i)).toArray

theorem extends_latin1Upper : Extends latin1Upper.toList [] where
  size := by simp [latin1Upper]
  above := by
    have hall : latin1Upper.toList.all (0x80 ≤ ·.toNat) = true := by decide +kernel
    exact fun c hc => of_decide_eq_true (List.all_eq_true.mp hall c hc)
  gaps := by simp

theorem glyph_latin1 (b : UInt8) : Glyph.ofNat b.toNat = tableGlyph latin1Upper [] b := by
  have hall : ∀ n : Fin 256,
      Glyph.ofNat (UInt8.ofFin n).toNat = tableGlyph latin1Upper [] (.ofFin n) := by
    decide +kernel
  exact hall b.toFin

/-- **Codes.** The encodings that a document may declare are codes, apart from UTF-16. -/
theorem exists_code {encoding : Encoding} (hunit : encoding.unit = 1)
    (htable : ∀ upper gaps, encoding = .singleByte upper gaps → Extends upper.toList gaps) :
    ∃ code : Code, code.encoding = encoding := by
  cases encoding with
  | utf8 => exact ⟨.utf8, rfl⟩
  | utf16 bigEndian => cases hunit
  | latin1 =>
    refine ⟨.ofTable .latin1 latin1Upper [] extends_latin1Upper (fun bs => ?_) rfl (by simp), rfl⟩
    simp only [Encoding.decode, glyph_latin1]
  | ascii =>
    refine ⟨.ofTable .ascii #[] [] ⟨by simp, by simp, by simp⟩ (fun bs => ?_) rfl (by simp), rfl⟩
    rfl
  | singleByte upper gaps =>
    exact ⟨.ofTable (.singleByte upper gaps) upper gaps (htable upper gaps rfl) (fun _ => rfl) rfl
      (by simp), rfl⟩

end Table

theorem Encoding.decode_nil (encoding : Encoding) : encoding.decode [] = [] := by
  cases encoding <;> rfl

/-! ## Texts -/

section Texts

variable [Code] {cs ds : List Char} {c : Char}

/-- A character of a document as a symbol. -/
def Symbol.ofChar (c : Char) : Symbol where
  glyph := .char c
  width := (Code.write c).length

/-- The bytes of a text. -/
def inCode (cs : List Char) : Bytes :=
  cs.flatMap Code.write

/-- A text that a document may hold. -/
def IsText (cs : List Char) : Prop := ∀ c ∈ cs, Code.knows c = true

@[simp] theorem inCode_nil : inCode [] = [] := rfl

@[simp] theorem inCode_cons (c : Char) (cs : List Char) :
    inCode (c :: cs) = Code.write c ++ inCode cs := rfl

@[simp] theorem inCode_append (cs ds : List Char) : inCode (cs ++ ds) = inCode cs ++ inCode ds :=
  List.flatMap_append

theorem length_write (c : Char) : (Code.write c).length = (Symbol.ofChar c).width := rfl

theorem ofChar_of_lt (h : c.toNat < 0x80) : Symbol.ofChar c = ⟨.char c, 1⟩ := by
  rw [Symbol.ofChar, Code.write_of_lt h]
  rfl

theorem IsText.append (hcs : IsText cs) (hds : IsText ds) : IsText (cs ++ ds) :=
  fun c hc => (List.mem_append.mp hc).elim (hcs c) (hds c)

theorem isText_append_iff : IsText (cs ++ ds) ↔ IsText cs ∧ IsText ds :=
  ⟨fun h =>
    ⟨fun c hc => h c (List.mem_append_left _ hc), fun c hc => h c (List.mem_append_right _ hc)⟩,
    fun h => h.1.append h.2⟩

/-- A text is read from its bytes, whatever follows. -/
theorem decode_inCode_append (h : IsText cs) (bs : Bytes) :
    Code.encoding.decode (inCode cs ++ bs) = cs.map Symbol.ofChar ++ Code.encoding.decode bs := by
  induction cs with
  | nil => rfl
  | cons c cs ih =>
    rw [inCode_cons, List.append_assoc, Code.decode_write _ (h c List.mem_cons_self),
      ih fun d hd => h d (List.mem_cons_of_mem _ hd)]
    rfl

theorem decode_inCode (h : IsText cs) :
    Code.encoding.decode (inCode cs) = cs.map Symbol.ofChar := by
  have hdecode := decode_inCode_append h []
  rwa [List.append_nil, Encoding.decode_nil, List.append_nil] at hdecode

/-- Symbols at the beginning of a document that are characters make a text, and the bytes of the
document begin with those of the text, unless some of them have to be respelled. -/
theorem decode_eq_append {bs : Bytes} {symbols rest : List Symbol}
    (hplain : bs.map Code.respell = bs) (h : Code.encoding.decode bs = symbols ++ rest)
    (hchars : ∀ s ∈ symbols, ∃ c, s.glyph = .char c) :
    ∃ cs bs', bs = inCode cs ++ bs' ∧ symbols = cs.map Symbol.ofChar ∧ IsText cs ∧
      Code.encoding.decode bs' = rest := by
  induction symbols generalizing bs with
  | nil => exact ⟨[], bs, rfl, rfl, by simp [IsText], h⟩
  | cons s symbols ih =>
    obtain ⟨c, hc⟩ := hchars s List.mem_cons_self
    obtain ⟨glyph, w⟩ := s
    obtain rfl : glyph = .char c := hc
    rw [List.cons_append] at h
    obtain ⟨hknows, bs', rfl, hbs'⟩ := Code.exists_of_decode hplain h
    rw [Code.decode_write _ hknows] at h
    obtain ⟨-, hwidth⟩ := Symbol.mk.inj (List.cons.inj h).1
    rw [List.map_append] at hplain
    obtain ⟨-, hplain⟩ := List.append_inj hplain (List.length_map _)
    obtain ⟨cs, bs'', rfl, rfl, htext, hrest⟩ :=
      ih hplain hbs' fun s hs => hchars s (List.mem_cons_of_mem _ hs)
    refine ⟨c :: cs, bs'', ?_, ?_, List.forall_mem_cons.mpr ⟨hknows, htext⟩, hrest⟩
    · rw [inCode_cons, List.append_assoc]
    · rw [List.map_cons, ← hwidth]
      rfl

/-! ### Common characters -/

@[simp] theorem write_lessThan : Code.write '<' = [0x3C] := Code.write_of_lt (by decide)

@[simp] theorem write_slash : Code.write '/' = [0x2F] := Code.write_of_lt (by decide)

/-- A text in the characters that every code has: those of ASCII, as far as the tilde. -/
def IsCommon (cs : List Char) : Prop := ∀ c ∈ cs, c.toNat < 0x7E ∧ isAllowed c.toNat = true

omit [Code] in
instance (cs : List Char) : Decidable (IsCommon cs) :=
  List.decidableBAll (fun c : Char => c.toNat < 0x7E ∧ isAllowed c.toNat = true) cs

theorem IsCommon.isText (h : IsCommon cs) : IsText cs :=
  fun c hc => Code.knows_of_lt (h c hc).1 (h c hc).2

omit [Code] in
theorem IsCommon.lt (h : IsCommon cs) (hc : c ∈ cs) : c.toNat < 0x80 :=
  Nat.lt_of_lt_of_le (h c hc).1 (by decide)

theorem inCode_of_isCommon (h : IsCommon cs) : inCode cs = cs.map fun c => UInt8.ofNat c.toNat := by
  induction cs with
  | nil => rfl
  | cons c cs ih =>
    rw [inCode_cons, Code.write_of_lt (h.lt List.mem_cons_self),
      ih fun d hd => h d (List.mem_cons_of_mem _ hd)]
    rfl

theorem inCode_greaterThan : inCode ['>'] = [0x3E] := inCode_of_isCommon (by decide)

theorem inCode_emptyEnd : inCode ['/', '>'] = [0x2F, 0x3E] := inCode_of_isCommon (by decide)

theorem length_inCode_of_isCommon (h : IsCommon cs) : (inCode cs).length = cs.length := by
  rw [inCode_of_isCommon h, List.length_map]

theorem bytesOf_eq_inCode (h : ∀ c ∈ cs, Code.write c = String.utf8EncodeChar c) :
    bytesOf cs = inCode cs :=
  List.flatMap_congr fun c hc => (h c hc).symm

theorem bytesOf_of_utf8 (h : Code.encoding = .utf8) (cs : List Char) : bytesOf cs = inCode cs :=
  bytesOf_eq_inCode fun c _ => Code.write_of_utf8 h c

theorem map_respell_of_utf8 (h : Code.encoding = .utf8) (bs : Bytes) : bs.map Code.respell = bs :=
  List.map_id'' (Code.respell_of_utf8 h) bs

/-- A text in common characters has the same bytes in every code. -/
theorem IsCommon.bytesOf_eq (h : IsCommon cs) : bytesOf cs = inCode cs := by
  refine bytesOf_eq_inCode fun c hc => ?_
  rw [Code.write_of_lt (h.lt hc), utf8EncodeChar_of_lt (h.lt hc)]

/-- A byte below 0x80 stands for itself. -/
theorem toNat_eq_of_mem_write {b : UInt8} (hb : b ∈ Code.write c) (h : b.toNat < 0x80) :
    c.toNat = b.toNat := by
  by_cases hc : c.toNat < 0x80
  · rw [Code.write_of_lt hc, List.mem_singleton] at hb
    rw [hb, Encoding.toNat_ofNat_of_lt (by omega)]
  · have := Code.le_of_mem_write (by omega) hb
    omega

/-- No byte of a character is that of another one below 0x80. -/
theorem ne_of_mem_write {d : Char} {b : UInt8} (hb : b ∈ Code.write c) (hd : d.toNat < 0x80)
    (h : c ≠ d) :
    b ≠ UInt8.ofNat d.toNat := by
  intro heq
  have hbyte : b.toNat = d.toNat := by
    rw [heq, Encoding.toNat_ofNat_of_lt (by omega)]
  have hc := toNat_eq_of_mem_write hb (by omega)
  exact h (Char.toNat_inj.mp (hc.trans hbyte))

theorem ne_of_mem_inCode {d : Char} {b : UInt8} (hb : b ∈ inCode cs) (hd : d.toNat < 0x80)
    (h : ∀ c ∈ cs, c ≠ d) : b ≠ UInt8.ofNat d.toNat := by
  obtain ⟨c, hc, hbc⟩ := List.mem_flatMap.mp hb
  exact ne_of_mem_write hbc hd (h c hc)

end Texts

end AccessPatch.Xml
