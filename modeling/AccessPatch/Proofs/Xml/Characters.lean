import AccessPatch.Xml.Encoding
import Mathlib.Tactic.ByContra
import Mathlib.Tactic.SplitIfs

/-!
# The characters of a document in UTF-8

`Encoding.decodeUtf8` turns bytes into symbols. Here the symbols that are characters are tied to
the bytes that a writer of UTF-8 puts for them:

* `decodeUtf8_utf8EncodeChar_append`: the bytes of a character are read as its symbol, whatever
  follows.
* `decodeUtf8_eq_cons_char`: a character is read from its own bytes only, so no longer form of it
  passes.
* `utf8EncodeChar_of_lt` and `le_of_mem_utf8EncodeChar`: the characters of ASCII are single bytes,
  and no other character has a byte below 0x80.
-/

namespace AccessPatch.Xml

/-! ## One character -/

namespace Encoding

theorem isContinuation_iff (b : UInt8) :
    isContinuation b = true ↔ 0x80 ≤ b.toNat ∧ b.toNat < 0xC0 := by
  simp [isContinuation, UInt8.le_iff_toNat_le, UInt8.lt_iff_toNat_lt]

theorem toNat_ofNat_of_lt {n : Nat} (h : n < 256) : (UInt8.ofNat n).toNat = n := by
  rw [UInt8.toNat_ofNat', Nat.mod_eq_of_lt h]

theorem decodeUtf8_one {b : UInt8} (bs : Bytes) (h : b.toNat < 0x80) :
    decodeUtf8 (b :: bs) = ⟨.ofNat b.toNat, 1⟩ :: decodeUtf8 bs := by
  have hb : b < 0x80 := by simpa [UInt8.lt_iff_toNat_lt] using h
  rw [decodeUtf8.eq_def]
  exact if_pos hb

theorem decodeUtf8_two {b c : UInt8} (bs : Bytes) (hb : 0xC2 ≤ b.toNat ∧ b.toNat < 0xE0)
    (hc : 0x80 ≤ c.toNat ∧ c.toNat < 0xC0) :
    decodeUtf8 (b :: c :: bs) =
      ⟨.ofNat ((b.toNat - 0xC0) * 64 + continuationBits c), 2⟩ :: decodeUtf8 bs := by
  have h1 : ¬ b < 0x80 := by simp [UInt8.lt_iff_toNat_lt]; omega
  have h2 : ¬ (b < 0xC0 ∨ 0xF5 ≤ b) := by
    simp [UInt8.lt_iff_toNat_lt, UInt8.le_iff_toNat_le]; omega
  have h3 : b < 0xE0 := by simp [UInt8.lt_iff_toNat_lt]; omega
  have h4 : 0xC2 ≤ b := by simp [UInt8.le_iff_toNat_le]; omega
  rw [decodeUtf8.eq_def]
  simp only [h1, h2, h3, h4, (isContinuation_iff c).mpr hc, if_true, if_false, and_self]

theorem decodeUtf8_three {b c d : UInt8} (bs : Bytes) (hb : 0xE0 ≤ b.toNat ∧ b.toNat < 0xF0)
    (hc : 0x80 ≤ c.toNat ∧ c.toNat < 0xC0) (hd : 0x80 ≤ d.toNat ∧ d.toNat < 0xC0)
    (hlong : b.toNat = 0xE0 → 0xA0 ≤ c.toNat) (hsurrogate : b.toNat = 0xED → c.toNat < 0xA0) :
    decodeUtf8 (b :: c :: d :: bs) =
      ⟨.ofNat ((b.toNat - 0xE0) * 4096 + continuationBits c * 64 + continuationBits d), 3⟩ ::
        decodeUtf8 bs := by
  have h1 : ¬ b < 0x80 := by simp [UInt8.lt_iff_toNat_lt]; omega
  have h2 : ¬ (b < 0xC0 ∨ 0xF5 ≤ b) := by
    simp [UInt8.lt_iff_toNat_lt, UInt8.le_iff_toNat_le]; omega
  have h3 : ¬ b < 0xE0 := by simp [UInt8.lt_iff_toNat_lt]; omega
  have h4 : b < 0xF0 := by simp [UInt8.lt_iff_toNat_lt]; omega
  have h5 : b = 0xE0 → 0xA0 ≤ c := by
    simpa [← UInt8.toNat_inj, UInt8.le_iff_toNat_le] using hlong
  have h6 : b = 0xED → c < 0xA0 := by
    simpa [← UInt8.toNat_inj, UInt8.lt_iff_toNat_lt] using hsurrogate
  have hok : isContinuation c ∧ isContinuation d ∧ (b = 0xE0 → 0xA0 ≤ c) ∧ (b = 0xED → c < 0xA0) :=
    ⟨(isContinuation_iff c).mpr hc, (isContinuation_iff d).mpr hd, h5, h6⟩
  rw [decodeUtf8.eq_def]
  simp only [h1, h2, h3, h4, if_true, if_false]
  rw [if_pos hok]

theorem decodeUtf8_four {b c d e : UInt8} (bs : Bytes) (hb : 0xF0 ≤ b.toNat ∧ b.toNat < 0xF5)
    (hc : 0x80 ≤ c.toNat ∧ c.toNat < 0xC0) (hd : 0x80 ≤ d.toNat ∧ d.toNat < 0xC0)
    (he : 0x80 ≤ e.toNat ∧ e.toNat < 0xC0)
    (hlong : b.toNat = 0xF0 → 0x90 ≤ c.toNat) (hlast : b.toNat = 0xF4 → c.toNat < 0x90) :
    decodeUtf8 (b :: c :: d :: e :: bs) =
      ⟨.ofNat ((b.toNat - 0xF0) * 262144 + continuationBits c * 4096 + continuationBits d * 64 +
        continuationBits e), 4⟩ :: decodeUtf8 bs := by
  have h1 : ¬ b < 0x80 := by simp [UInt8.lt_iff_toNat_lt]; omega
  have h2 : ¬ (b < 0xC0 ∨ 0xF5 ≤ b) := by
    simp [UInt8.lt_iff_toNat_lt, UInt8.le_iff_toNat_le]; omega
  have h3 : ¬ b < 0xE0 := by simp [UInt8.lt_iff_toNat_lt]; omega
  have h4 : ¬ b < 0xF0 := by simp [UInt8.lt_iff_toNat_lt]; omega
  have h5 : b = 0xF0 → 0x90 ≤ c := by
    simpa [← UInt8.toNat_inj, UInt8.le_iff_toNat_le] using hlong
  have h6 : b = 0xF4 → c < 0x90 := by
    simpa [← UInt8.toNat_inj, UInt8.lt_iff_toNat_lt] using hlast
  have hok : isContinuation c ∧ isContinuation d ∧ isContinuation e ∧ (b = 0xF0 → 0x90 ≤ c) ∧
      (b = 0xF4 → c < 0x90) :=
    ⟨(isContinuation_iff c).mpr hc, (isContinuation_iff d).mpr hd, (isContinuation_iff e).mpr he,
      h5, h6⟩
  rw [decodeUtf8.eq_def]
  simp only [h1, h2, h3, h4, if_false]
  rw [if_pos hok]

theorem char_valid (c : Char) : c.toNat < 0xD800 ∨ (0xDFFF < c.toNat ∧ c.toNat < 0x110000) :=
  c.valid

theorem utf8EncodeChar_eq (c : Char) : String.utf8EncodeChar c =
    if c.toNat ≤ 0x7F then [.ofNat c.toNat]
    else if c.toNat ≤ 0x7FF then
      [.ofNat (c.toNat / 64 % 0x20 + 0xC0), .ofNat (c.toNat % 0x40 + 0x80)]
    else if c.toNat ≤ 0xFFFF then
      [.ofNat (c.toNat / 4096 % 0x10 + 0xE0), .ofNat (c.toNat / 64 % 0x40 + 0x80),
        .ofNat (c.toNat % 0x40 + 0x80)]
    else
      [.ofNat (c.toNat / 262144 % 0x08 + 0xF0), .ofNat (c.toNat / 4096 % 0x40 + 0x80),
        .ofNat (c.toNat / 64 % 0x40 + 0x80), .ofNat (c.toNat % 0x40 + 0x80)] :=
  rfl

/-- The bytes of a character are read as its symbol. -/
theorem decodeUtf8_utf8EncodeChar_append (c : Char) (bs : Bytes) :
    decodeUtf8 (String.utf8EncodeChar c ++ bs) =
      ⟨.ofNat c.toNat, c.utf8Size⟩ :: decodeUtf8 bs := by
  have hvalid := char_valid c
  rw [← String.length_utf8EncodeChar, utf8EncodeChar_eq]
  generalize c.toNat = n at hvalid
  have hlast := toNat_ofNat_of_lt (n := n % 0x40 + 0x80) (by omega)
  have hnext := toNat_ofNat_of_lt (n := n / 64 % 0x40 + 0x80) (by omega)
  split_ifs with h1 h2 h3
  · have hb := toNat_ofNat_of_lt (n := n) (by omega)
    rw [List.singleton_append, decodeUtf8_one bs (by omega), hb]
    rfl
  · have hb := toNat_ofNat_of_lt (n := n / 64 % 0x20 + 0xC0) (by omega)
    have hn : (n / 64 % 0x20 + 0xC0 - 0xC0) * 64 + (n % 0x40 + 0x80) % 64 = n := by omega
    rw [List.cons_append, List.singleton_append, decodeUtf8_two bs (by omega) (by omega), hb,
      continuationBits, hlast, hn]
    rfl
  · have hb := toNat_ofNat_of_lt (n := n / 4096 % 0x10 + 0xE0) (by omega)
    have hn : (n / 4096 % 0x10 + 0xE0 - 0xE0) * 4096 + (n / 64 % 0x40 + 0x80) % 64 * 64 +
        (n % 0x40 + 0x80) % 64 = n := by omega
    simp only [List.cons_append, List.nil_append]
    rw [decodeUtf8_three bs (by omega) (by omega) (by omega) (by omega) (by omega), hb,
      continuationBits, continuationBits, hlast, hnext, hn]
    rfl
  · have hb := toNat_ofNat_of_lt (n := n / 262144 % 0x08 + 0xF0) (by omega)
    have hc := toNat_ofNat_of_lt (n := n / 4096 % 0x40 + 0x80) (by omega)
    have hn : (n / 262144 % 0x08 + 0xF0 - 0xF0) * 262144 + (n / 4096 % 0x40 + 0x80) % 64 * 4096 +
        (n / 64 % 0x40 + 0x80) % 64 * 64 + (n % 0x40 + 0x80) % 64 = n := by omega
    simp only [List.cons_append, List.nil_append]
    rw [decodeUtf8_four bs (by omega) (by omega) (by omega) (by omega) (by omega) (by omega), hb,
      continuationBits, continuationBits, continuationBits, hlast, hnext, hc, hn]
    rfl

/-- The number of a character that a glyph was made from. -/
theorem toNat_of_ofNat_eq_char {n : Nat} {c : Char} (h : Glyph.ofNat n = .char c)
    (hvalid : n < 0xD800 ∨ (0xDFFF < n ∧ n < 0x110000)) : c.toNat = n := by
  unfold Glyph.ofNat at h
  split at h
  · rw [← Glyph.char.inj h, Char.ofNat, dif_pos (by simpa [Nat.isValidChar] using hvalid)]
    rfl
  · cases h

theorem ofNat_eq_of_toNat_eq {b : UInt8} {n : Nat} (h : b.toNat = n) : UInt8.ofNat n = b := by
  rw [← h, UInt8.ofNat_toNat]

theorem eq_iff_toNat_eq (a b : UInt8) : a = b ↔ a.toNat = b.toNat :=
  UInt8.toNat_inj.symm

/-- A symbol that is a character stands for the bytes of that character. -/
theorem decodeUtf8_eq_cons_char {bs : Bytes} {c : Char} {w : Nat} {rest : List Symbol}
    (h : decodeUtf8 bs = ⟨.char c, w⟩ :: rest) :
    ∃ bs', bs = String.utf8EncodeChar c ++ bs' ∧ decodeUtf8 bs' = rest := by
  rw [decodeUtf8.eq_def] at h
  split at h
  · cases h
  · rename_i b bs
    have hbyte := b.toNat_lt
    split_ifs at h with h1 h2 h3 h4
    · simp only [List.cons.injEq, Symbol.mk.injEq] at h
      simp only [UInt8.lt_iff_toNat_lt, UInt8.toNat_ofNat] at h1
      have hn := toNat_of_ofNat_eq_char h.1.1 (by omega)
      refine ⟨bs, ?_, h.2⟩
      rw [utf8EncodeChar_eq, if_pos (by omega), ofNat_eq_of_toNat_eq hn.symm]
      rfl
    · simp at h
    · split at h
      · rename_i d bs
        have hd := d.toNat_lt
        split_ifs at h with hok
        · simp only [List.cons.injEq, Symbol.mk.injEq, continuationBits] at h
          simp only [isContinuation_iff, UInt8.lt_iff_toNat_lt, UInt8.le_iff_toNat_le,
            UInt8.toNat_ofNat] at h1 h2 h3 hok
          have hn := toNat_of_ofNat_eq_char h.1.1 (by omega)
          refine ⟨bs, ?_, h.2⟩
          rw [utf8EncodeChar_eq, if_neg (by omega), if_pos (by omega),
            ofNat_eq_of_toNat_eq (b := b) (by omega), ofNat_eq_of_toNat_eq (b := d) (by omega)]
          rfl
        · simp at h
      · simp at h
    · split at h
      · rename_i d e bs
        have hd := d.toNat_lt
        have he := e.toNat_lt
        split_ifs at h with hok
        · simp only [List.cons.injEq, Symbol.mk.injEq, continuationBits] at h
          simp only [isContinuation_iff, UInt8.lt_iff_toNat_lt, UInt8.le_iff_toNat_le,
            UInt8.toNat_ofNat, eq_iff_toNat_eq] at h1 h2 h3 h4 hok
          have hn := toNat_of_ofNat_eq_char h.1.1 (by omega)
          refine ⟨bs, ?_, h.2⟩
          rw [utf8EncodeChar_eq, if_neg (by omega), if_neg (by omega), if_pos (by omega),
            ofNat_eq_of_toNat_eq (b := b) (by omega), ofNat_eq_of_toNat_eq (b := d) (by omega),
            ofNat_eq_of_toNat_eq (b := e) (by omega)]
          rfl
        · simp at h
      · simp at h
    · split at h
      · rename_i d e f bs
        have hd := d.toNat_lt
        have he := e.toNat_lt
        have hf := f.toNat_lt
        split_ifs at h with hok
        · simp only [List.cons.injEq, Symbol.mk.injEq, continuationBits] at h
          simp only [isContinuation_iff, UInt8.lt_iff_toNat_lt, UInt8.le_iff_toNat_le,
            UInt8.toNat_ofNat, eq_iff_toNat_eq] at h1 h2 h3 h4 hok
          have hn := toNat_of_ofNat_eq_char h.1.1 (by omega)
          refine ⟨bs, ?_, h.2⟩
          rw [utf8EncodeChar_eq, if_neg (by omega), if_neg (by omega), if_neg (by omega),
            ofNat_eq_of_toNat_eq (b := b) (by omega), ofNat_eq_of_toNat_eq (b := d) (by omega),
            ofNat_eq_of_toNat_eq (b := e) (by omega), ofNat_eq_of_toNat_eq (b := f) (by omega)]
          rfl
        · simp at h
      · simp at h

/-- No bytes are left without a symbol. -/
theorem eq_nil_of_decodeUtf8_eq_nil {bs : Bytes} (h : decodeUtf8 bs = []) : bs = [] := by
  rw [decodeUtf8.eq_def] at h
  split at h
  · rfl
  · repeat' split at h
    all_goals cases h

theorem width_pos_of_mem_decodeUtf8 {bs : Bytes} {s : Symbol} (h : s ∈ decodeUtf8 bs) :
    0 < s.width := by
  induction hn : bs.length using Nat.strongRecOn generalizing bs with
  | ind n ih =>
    have hcons : ∀ {glyph : Glyph} {w : Nat} {rest : Bytes}, 0 < w → rest.length < n →
        s ∈ (⟨glyph, w⟩ : Symbol) :: decodeUtf8 rest → 0 < s.width := by
      intro glyph w rest hw hrest hs
      rcases List.mem_cons.mp hs with rfl | hs
      · exact hw
      · exact ih _ hrest hs rfl
    rw [decodeUtf8.eq_def] at h
    split at h
    · cases h
    · simp only [List.length_cons] at hn
      repeat' split at h
      all_goals
        first
          | exact hcons (by omega) (by omega) h
          | exact hcons (by omega) (by simp only [List.length_cons] at hn; omega) h
          | (obtain rfl := List.mem_singleton.mp h; simp only; omega)

end Encoding

/-! ## Glyphs -/

theorem ofNat_toNat_eq_char {c : Char} (h : isAllowed c.toNat = true) :
    Glyph.ofNat c.toNat = .char c := by
  rw [Glyph.ofNat, if_pos h, Char.ofNat_toNat]

/-- The character that a glyph was made from. -/
theorem eq_of_ofNat_eq_char {c d : Char} (h : Glyph.ofNat d.toNat = .char c) :
    isAllowed c.toNat = true ∧ c = d := by
  unfold Glyph.ofNat at h
  split at h
  · rename_i hallowed
    rw [Char.ofNat_toNat] at h
    obtain rfl := Glyph.char.inj h
    exact ⟨hallowed, rfl⟩
  · cases h

/-- A character that UTF-8 is read as is one that a document may hold. -/
theorem isAllowed_of_decodeUtf8 {bs : Bytes} {c : Char} {w : Nat} {rest : List Symbol}
    (h : Encoding.decodeUtf8 bs = ⟨.char c, w⟩ :: rest) : isAllowed c.toNat = true := by
  obtain ⟨bs', rfl, -⟩ := Encoding.decodeUtf8_eq_cons_char h
  rw [Encoding.decodeUtf8_utf8EncodeChar_append] at h
  exact (eq_of_ofNat_eq_char (Symbol.mk.inj (List.cons.inj h).1).1).1

/-! ## The bytes of a character -/

theorem utf8EncodeChar_of_lt {c : Char} (h : c.toNat < 0x80) :
    String.utf8EncodeChar c = [UInt8.ofNat c.toNat] := by
  rw [Encoding.utf8EncodeChar_eq, if_pos (by omega)]

theorem le_of_mem_utf8EncodeChar {c : Char} {b : UInt8} (h : 0x80 ≤ c.toNat)
    (hb : b ∈ String.utf8EncodeChar c) : 0x80 ≤ b.toNat := by
  rw [Encoding.utf8EncodeChar_eq, if_neg (by omega)] at hb
  have hmem : ∀ n, b = UInt8.ofNat (n + 0x80) → n < 0x80 → 0x80 ≤ b.toNat := by
    rintro n rfl hn
    rw [Encoding.toNat_ofNat_of_lt (by omega)]
    omega
  split at hb
  · simp only [List.mem_cons, List.not_mem_nil, or_false] at hb
    rcases hb with hb | hb
    · exact hmem (c.toNat / 64 % 0x20 + 0x40) hb (by omega)
    · exact hmem (c.toNat % 0x40) hb (by omega)
  · split at hb
    · simp only [List.mem_cons, List.not_mem_nil, or_false] at hb
      rcases hb with hb | hb | hb
      · exact hmem (c.toNat / 4096 % 0x10 + 0x60) hb (by omega)
      · exact hmem (c.toNat / 64 % 0x40) hb (by omega)
      · exact hmem (c.toNat % 0x40) hb (by omega)
    · simp only [List.mem_cons, List.not_mem_nil, or_false] at hb
      rcases hb with hb | hb | hb | hb
      · exact hmem (c.toNat / 262144 % 0x08 + 0x70) hb (by omega)
      · exact hmem (c.toNat / 4096 % 0x40) hb (by omega)
      · exact hmem (c.toNat / 64 % 0x40) hb (by omega)
      · exact hmem (c.toNat % 0x40) hb (by omega)

/-! ## Texts -/

/-- The bytes of a text. -/
def bytesOf (cs : List Char) : Bytes :=
  cs.flatMap String.utf8EncodeChar

end AccessPatch.Xml
