import AccessPatch.Proofs.Xml.Layout
import AccessPatch.Tag.Reading

/-!
# Where tags end

The ends of tags are looked up in the bytes of a document, without regard to what a reader has
seen there. For a tag that is spelled as it should be the bytes give the same end:

* `tagEnd?_of_startSpelled` and `closeEnd_of_endSpelled`, for start and end tags;
* `selfClosing_of_startSpelled`: the last two bytes tell an empty-element tag.

No byte of a character above ASCII is one of the marks that are looked for
(`Code.le_of_mem_write`).
-/

namespace AccessPatch

open Xml

/-! ## The first mark outside quotes -/

theorem unquotedEnd?_none {front : Bytes} (h : ∀ b ∈ front, b ≠ 0x3E ∧ b ≠ 0x22 ∧ b ≠ 0x27)
    (pos : Nat) (bs : Bytes) :
    unquotedEnd? pos none (front ++ bs) = unquotedEnd? (pos + front.length) none bs := by
  induction front generalizing pos with
  | nil => rfl
  | cons b front ih =>
    obtain ⟨hclose, hdouble, hsingle⟩ := h b List.mem_cons_self
    rw [List.cons_append, unquotedEnd?, if_neg hclose, if_neg (not_or.mpr ⟨hdouble, hsingle⟩),
      ih (fun d hd => h d (List.mem_cons_of_mem _ hd)), List.length_cons, Nat.add_assoc,
      Nat.add_comm 1]

theorem unquotedEnd?_some {q : UInt8} {front : Bytes} (h : ∀ b ∈ front, b ≠ q) (pos : Nat)
    (bs : Bytes) :
    unquotedEnd? pos (some q) (front ++ bs) = unquotedEnd? (pos + front.length) (some q) bs := by
  induction front generalizing pos with
  | nil => rfl
  | cons b front ih =>
    rw [List.cons_append, unquotedEnd?, if_neg (h b List.mem_cons_self),
      ih (fun d hd => h d (List.mem_cons_of_mem _ hd)), List.length_cons, Nat.add_assoc,
      Nat.add_comm 1]

/-- The byte of a quotation mark. -/
def markByte (quote : Option Char) : Option UInt8 :=
  quote.map fun c => UInt8.ofNat c.toNat

/-- One more character of a tag is passed over as its quotation asks for. -/
theorem unquotedEnd?_char [Code] {quote next : Option Char} {c : Char}
    (hquote : ∀ q ∈ quote, IsMark q) (h : quoteAfter quote c = some next) (pos : Nat) (bs : Bytes) :
    unquotedEnd? pos (markByte quote) (Code.write c ++ bs) =
      unquotedEnd? (pos + (Symbol.ofChar c).width) (markByte next) bs ∧ ∀ q ∈ next, IsMark q := by
  cases quote with
  | some q =>
    have hmark := hquote q rfl
    have hascii : q.toNat < 0x80 := by
      rcases hmark with rfl | rfl <;> decide
    simp only [quoteAfter, Option.some.injEq] at h
    by_cases hc : c = q
    · rw [if_pos hc] at h
      subst hc h
      refine ⟨?_, by simp⟩
      rw [Code.write_of_lt hascii, ofChar_of_lt hascii]
      rcases hmark with rfl | rfl <;> rfl
    · rw [if_neg hc] at h
      subst h
      refine ⟨?_, hquote⟩
      rw [← length_write]
      exact unquotedEnd?_some (fun b hb => ne_of_mem_write hb hascii hc) pos bs
  | none =>
    simp only [quoteAfter] at h
    by_cases hclose : c = '>'
    · rw [if_pos hclose] at h
      cases h
    · rw [if_neg hclose] at h
      by_cases hc : c = '"' ∨ c = '\''
      · rw [if_pos hc] at h
        cases h
        refine ⟨?_, ?_⟩
        · have hascii : c.toNat < 0x80 := by
            rcases hc with rfl | rfl <;> decide
          rw [Code.write_of_lt hascii, ofChar_of_lt hascii]
          rcases hc with rfl | rfl <;> rfl
        · intro q hq
          cases hq
          exact hc
      · rw [if_neg hc] at h
        cases h
        obtain ⟨hdouble, hsingle⟩ := not_or.mp hc
        refine ⟨?_, by simp⟩
        rw [← length_write]
        refine unquotedEnd?_none ?_ pos bs
        intro b hb
        exact ⟨ne_of_mem_write hb (by decide) hclose,
          ne_of_mem_write hb (by decide) hdouble,
          ne_of_mem_write hb (by decide) hsingle⟩

theorem unquotedEnd?_text [Code] {cs : List Char} {quote next : Option Char}
    (hquote : ∀ q ∈ quote, IsMark q) (h : quotesAfter quote cs = some next) (pos : Nat)
    (bs : Bytes) :
    unquotedEnd? pos (markByte quote) (inCode cs ++ bs) =
      unquotedEnd? (pos + (inCode cs).length) (markByte next) bs := by
  induction cs generalizing quote pos with
  | nil =>
    cases h
    rfl
  | cons c cs ih =>
    obtain ⟨after, hafter, hrest⟩ := Option.bind_eq_some_iff.mp h
    obtain ⟨hfirst, hmarks⟩ := unquotedEnd?_char hquote hafter pos (inCode cs ++ bs)
    rw [inCode_cons, List.append_assoc, hfirst, ih hmarks hrest, List.length_append,
      length_write, Nat.add_assoc]

/-! ## Tags in a document -/

section Tags

variable {alphabet : Alphabet} {name : String} {text : List Char} {buffer before after : Bytes}
  {start : Nat}

theorem quotesAfter_name {more : List Char} (hname : IsName alphabet name.toList)
    (h : quotesAfter none more = some none) :
    quotesAfter none (name.toList ++ more) = some none := by
  rw [quotesAfter_append
    (quotesAfter_plain fun c hc => isPlain_of_isNameChar (hname.isNameChar hc)), h]

theorem getLast?_of_startSpelled {empty : Bool} {more : List Char}
    (hname : IsName alphabet name.toList) (hempty : empty = true ↔ more.getLast? = some '/') :
    empty = true ↔ (name.toList ++ more).getLast? = some '/' := by
  rw [hempty, List.getLast?_append]
  cases more.getLast? with
  | some d => rfl
  | none =>
    constructor
    · intro h
      cases h
    · intro h
      exact absurd rfl (ne_slash_of_isNameChar (hname.isNameChar (List.mem_of_getLast? h)))

variable [Code]

/-- The first `>` outside quotes ends a start tag. -/
theorem tagEnd?_of_startSpelled {empty : Bool} (h : StartSpelled alphabet name empty text)
    (hbuffer : buffer = before ++ (inCode text ++ after)) (hstart : before.length = start) :
    tagEnd? buffer start = some (start + (inCode text).length) := by
  subst hbuffer hstart
  obtain ⟨more, rfl, hquotes, -⟩ := h.rest
  have htext : inCode ('<' :: (name.toList ++ more) ++ ['>']) ++ after =
      0x3C :: (inCode (name.toList ++ more) ++ 0x3E :: after) := by
    rw [inCode_append, List.append_assoc, inCode_cons, write_lessThan, inCode_greaterThan]
    rfl
  have hlength : (inCode ('<' :: (name.toList ++ more) ++ ['>'])).length =
      1 + (inCode (name.toList ++ more)).length + 1 := by
    rw [inCode_append, inCode_cons, List.length_append, List.length_append, write_lessThan,
      inCode_greaterThan]
    rfl
  have hnone : ∀ q ∈ (none : Option Char), IsMark q := by simp
  have hscan := unquotedEnd?_text hnone (quotesAfter_name h.named hquotes) (before.length + 1)
    (0x3E :: after)
  rw [tagEnd?, List.drop_left, htext]
  refine hscan.trans ?_
  rw [hlength]
  simp only [markByte, Option.map_none, unquotedEnd?, if_true, Option.some.injEq]
  omega

/-- The last two bytes of a start tag tell whether it is one of an empty element. -/
theorem selfClosing_of_startSpelled {empty : Bool} (h : StartSpelled alphabet name empty text)
    (hbuffer : buffer = before ++ (inCode text ++ after)) (hstart : before.length = start) :
    ((buffer.take (start + (inCode text).length)).drop (start + (inCode text).length - 2) ==
      [0x2F, 0x3E]) = empty := by
  obtain ⟨stop, hstop⟩ : ∃ stop, stop = before.length + (inCode text).length := ⟨_, rfl⟩
  rw [← hstart, ← hstop, hbuffer]
  obtain ⟨more, rfl, -, hempty⟩ := h.rest
  have hlast := getLast?_of_startSpelled h.named hempty
  obtain ⟨front, d, hd⟩ : ∃ front d, name.toList ++ more = front ++ [d] := by
    have hne : name.toList ++ more ≠ [] := by simp [h.named.ne_nil]
    exact ⟨_, _, (List.dropLast_concat_getLast hne).symm⟩
  obtain ⟨bs, b, hb⟩ : ∃ bs b, Code.write d = bs ++ [b] :=
    ⟨_, _, (List.dropLast_concat_getLast (Code.write_ne_nil d)).symm⟩
  rw [hd] at hlast hstop ⊢
  have hbytes : inCode ('<' :: (front ++ [d]) ++ ['>']) =
      (inCode ('<' :: front) ++ bs) ++ [b, 0x3E] := by
    rw [← List.cons_append, inCode_append, inCode_append, inCode_cons d, hb, inCode_nil,
      List.append_nil, List.append_assoc, List.append_assoc, List.append_assoc, inCode_greaterThan]
    rfl
  rw [hbytes] at hstop ⊢
  have htake : (before ++ ((inCode ('<' :: front) ++ bs) ++ [b, 0x3E] ++ after)).take stop =
      (before ++ (inCode ('<' :: front) ++ bs)) ++ [b, 0x3E] := by
    rw [← List.append_assoc, List.take_left' (by rw [hstop, List.length_append]),
      ← List.append_assoc]
  have hlength : (before ++ (inCode ('<' :: front) ++ bs)).length = stop - 2 := by
    simp only [hstop, List.length_append, List.length_cons, List.length_nil]
    omega
  rw [htake, List.drop_left' hlength]
  have hslash : b = 0x2F ↔ d = '/' := by
    constructor
    · intro hb'
      by_contra hne
      have hmem : b ∈ Code.write d := by simp [hb]
      exact ne_of_mem_write hmem (by decide) hne hb'
    · rintro rfl
      have hone : Code.write '/' = [] ++ [0x2F] := write_slash
      rw [hone] at hb
      exact (List.singleton_inj.mp (List.append_inj' hb rfl).2).symm
  rw [List.getLast?_concat, Option.some.injEq] at hlast
  cases empty with
  | true => simp [hslash.mpr (hlast.mp rfl)]
  | false =>
    have hne : b ≠ 0x2F := fun hb => Bool.false_ne_true (hlast.mpr (hslash.mp hb))
    simp [hne]

/-- The first `>` ends an end tag. -/
theorem closeEnd_of_endSpelled (h : EndSpelled alphabet name text)
    (hbuffer : buffer = before ++ (inCode text ++ after)) (hstart : before.length = start) :
    closeEnd buffer start = start + (inCode text).length := by
  subst hbuffer hstart
  obtain ⟨space, rfl, hspace⟩ := h.rest
  let front := '<' :: '/' :: (name.toList ++ space)
  have hplain : ∀ c ∈ front, c ≠ '>' := by
    intro c hc
    simp only [front, List.mem_cons, List.mem_append] at hc
    rcases hc with rfl | rfl | hc | hc
    · decide
    · decide
    · exact (isPlain_of_isNameChar (h.named.isNameChar hc)).1
    · exact (isPlain_of_isSpace (hspace c hc)).1
  have htext : inCode (front ++ ['>']) ++ after = inCode front ++ 0x3E :: after := by
    rw [inCode_append, List.append_assoc, inCode_greaterThan]
    rfl
  have hnone : (inCode front).findIdx? (· == 0x3E) = none := by
    rw [List.findIdx?_eq_none_iff]
    intro b hb
    rw [beq_eq_false_iff_ne]
    exact ne_of_mem_inCode hb (by decide) hplain
  have hfind : (inCode front ++ 0x3E :: after).findIdx? (· == 0x3E) =
      some (inCode front).length := by
    rw [List.findIdx?_append, hnone, List.findIdx?_cons]
    simp
  have hlength : (inCode (front ++ ['>'])).length = (inCode front).length + 1 := by
    rw [inCode_append, List.length_append, inCode_greaterThan]
    rfl
  show closeEnd (before ++ (inCode (front ++ ['>']) ++ after)) before.length =
    before.length + (inCode (front ++ ['>'])).length
  simp only [closeEnd, List.drop_left, htext, hfind, hlength]
  omega

end Tags

end AccessPatch
