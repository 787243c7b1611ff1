import AccessPatch.Proofs.Xml.Declared
import AccessPatch.Proofs.Xml.Readable

/-!
# How a document begins

A document may begin with a byte-order mark and a declaration, which is read as the first bytes
show, and the rest in the encoding that is declared. `Opening` says what makes a document begin
so; `opening_of_ofBytes` and `exists_source_of_opening` tie this to how it is decoded. The
encoding of the rest is a `Code` if it is not UTF-16 (`exists_code_of_opening`).

Only the bytes up to the root element decide about the opening (`Opening.replace`): those of a
declaration are its own (`exists_declaration`), and without one the document begins with no
`<?xml`, or it could not be read.
-/

namespace AccessPatch.Xml

open Encoding (sniff)

namespace Source

/-! ## The opening in general -/

/-- The encoding of a document with a declaration, where `encoding` is the one of the declaration.
-/
def finalEncoding (declaration : Declaration) (symbols : List Symbol) (encoding : Encoding) :
    Except ReadError Encoding :=
  match declaration.encoding with
  | none => .ok encoding
  | some (name, pos) => declaredEncoding symbols encoding name pos

/-- How a document begins: where its text begins, whether it stands alone, the version that it
declares, and the encoding of its text. -/
inductive Opening (bytes : Bytes) :
    (start : Nat) → (standalone : Bool) → (version : Option String) → (final : Encoding) → Prop
  | plain {encoding : Encoding} {mark : Nat} (sniffed : sniff bytes = some (encoding, mark))
      (undeclared : declarationBody? (leadingChars mark (encoding.decode (bytes.drop mark))) =
        none) :
      Opening bytes mark false none encoding
  | declared {encoding final : Encoding} {mark stop : Nat} {body : List Placed}
      {declaration : Declaration} (sniffed : sniff bytes = some (encoding, mark))
      (declares : declarationBody? (leadingChars mark (encoding.decode (bytes.drop mark))) =
        some (body, stop))
      (reads : Declaration.ofBody stop body = .ok declaration)
      (named : ∀ symbols, finalEncoding declaration symbols encoding = .ok final) :
      Opening bytes (stop + 2 * encoding.unit) declaration.standalone
        (some declaration.version) final

/-- What is read of a document in a code. -/
structure InCode [Code] (bytes : Bytes) (s : Source) : Prop where
  encoding : s.encoding = Code.encoding
  body : s.body = Code.encoding.decode (bytes.drop s.start)
  ragged : s.ragged = false

/-- What the first bytes of a document show: its encoding, and how long its byte-order mark is. -/
inductive Shows : Bytes → Encoding → Nat → Prop
  | utf8 (bytes : Bytes) : Shows bytes .utf8 0
  | utf8Mark (rest : Bytes) : Shows (0xEF :: 0xBB :: 0xBF :: rest) .utf8 3
  | utf16 (bytes : Bytes) (bigEndian : Bool) : Shows bytes (.utf16 bigEndian) 0
  | bigEndianMark (rest : Bytes) : Shows (0xFE :: 0xFF :: rest) (.utf16 true) 2
  | littleEndianMark (rest : Bytes) : Shows (0xFF :: 0xFE :: rest) (.utf16 false) 2

theorem shows_of_sniff {bytes : Bytes} {encoding : Encoding} {mark : Nat}
    (h : sniff bytes = some (encoding, mark)) : Shows bytes encoding mark := by
  match bytes with
  | [] =>
    cases h
    exact .utf8 []
  | [b] =>
    simp only [sniff] at h
    split at h
    · cases h
    · cases h
      exact .utf8 [b]
  | a :: b :: rest =>
    simp only [sniff] at h
    split at h
    · obtain ⟨rfl, rfl⟩ := ‹a = 0xEF ∧ b = 0xBB›
      cases rest with
      | nil => cases h
      | cons c rest =>
        by_cases hc : c = 0xBF
        · subst hc
          cases h
          exact .utf8Mark rest
        · rw [List.head?_cons, Option.map_some, if_neg hc] at h
          cases h
          exact .utf8 _
    · split at h
      · obtain ⟨rfl, rfl⟩ := ‹a = 0xFE ∧ b = 0xFF›
        cases h
        exact .bigEndianMark rest
      · split at h
        · obtain ⟨rfl, rfl⟩ := ‹a = 0xFF ∧ b = 0xFE›
          cases h
          exact .littleEndianMark rest
        · repeat' split at h
          all_goals cases h
          · exact .utf16 _ true
          · exact .utf16 _ false
          · exact .utf8 _

namespace Shows

variable {bytes : Bytes} {encoding : Encoding} {mark : Nat}

/-- The symbols after a byte-order mark are those of the bytes after it. -/
theorem body_eq (h : Shows bytes encoding mark) :
    (if mark = 0 then encoding.decode bytes else (encoding.decode bytes).tail) =
      encoding.decode (bytes.drop mark) := by
  cases h with
  | utf8 => rfl
  | utf8Mark rest =>
    rw [if_neg (by decide), Encoding.decode, Encoding.decodeUtf8.eq_def]
    rfl
  | utf16 => rfl
  | bigEndianMark rest =>
    have hmark : ¬ Encoding.IsLead (Encoding.word true 0xFE 0xFF) := by
      unfold Encoding.IsLead
      decide
    rw [if_neg (by decide), Encoding.decode, Encoding.decodeUtf16_single hmark, if_neg (by decide)]
    rfl
  | littleEndianMark rest =>
    have hmark : ¬ Encoding.IsLead (Encoding.word false 0xFF 0xFE) := by
      unfold Encoding.IsLead
      decide
    rw [if_neg (by decide), Encoding.decode, Encoding.decodeUtf16_single hmark, if_neg (by decide)]
    rfl

theorem isLocal (h : Shows bytes encoding mark) : encoding.IsLocal := by
  cases h with
  | utf8 | utf8Mark => exact Encoding.isLocal_utf8
  | utf16 _ bigEndian => exact Encoding.isLocal_utf16 bigEndian
  | bigEndianMark | littleEndianMark => exact Encoding.isLocal_utf16 _

theorem eq_utf8 (h : Shows bytes encoding mark) (hunit : encoding.unit = 1) : encoding = .utf8 := by
  cases h with
  | utf8 | utf8Mark => rfl
  | _ => cases hunit

end Shows

theorem declaredEncoding_symbols {symbols symbols' : List Symbol} {current encoding : Encoding}
    {name : String} {pos : Nat} (h : declaredEncoding symbols current name pos = .ok encoding) :
    declaredEncoding symbols' current name pos = .ok encoding := by
  unfold declaredEncoding at h ⊢
  split at h
  · split at h
    · cases h
    · rename_i hfits
      rw [if_neg hfits]
      exact h
  · split at h
    · exact h
    all_goals cases h

theorem finalEncoding_symbols {declaration : Declaration} {symbols symbols' : List Symbol}
    {current encoding : Encoding} (h : finalEncoding declaration symbols current = .ok encoding) :
    finalEncoding declaration symbols' current = .ok encoding := by
  unfold finalEncoding at h ⊢
  split at h
  · exact h
  · exact declaredEncoding_symbols h

/-- A document with a declaration, decoded. -/
def ofDeclaration (bytes : Bytes) (final : Encoding) (declaration : Declaration) (start : Nat) :
    Source where
  symbols := final.decode bytes
  body := final.decode (bytes.drop start)
  start
  encoding := final
  ragged := final.unit = 2 ∧ bytes.length % 2 = 1
  version := some declaration.version
  standalone := declaration.standalone

theorem ofBytes_declared {bytes : Bytes} {encoding : Encoding} {mark stop : Nat}
    {body : List Placed} {declaration : Declaration} (hsniff : sniff bytes = some (encoding, mark))
    (hsome : declarationBody? (leadingChars mark (if mark = 0 then encoding.decode bytes
      else (encoding.decode bytes).tail)) = some (body, stop))
    (hreads : Declaration.ofBody stop body = .ok declaration) :
    ofBytes bytes = (finalEncoding declaration (encoding.decode bytes) encoding).map fun final =>
      ofDeclaration bytes final declaration (stop + 2 * encoding.unit) := by
  cases hencoding : declaration.encoding with
  | none =>
    simp only [ofBytes, hsniff, hsome, hreads, finalEncoding, hencoding]
    rfl
  | some named =>
    simp only [ofBytes, hsniff, hsome, hreads, finalEncoding, hencoding]
    cases declaredEncoding (encoding.decode bytes) encoding named.1 named.2 <;> rfl

theorem opening_of_ofBytes {bytes : Bytes} {s : Source} (h : ofBytes bytes = .ok s) :
    Opening bytes s.start s.standalone s.version s.encoding ∧
      s.body = s.encoding.decode (bytes.drop s.start) ∧
      (s.encoding.unit = 1 → s.ragged = false) := by
  cases hsniff : sniff bytes with
  | none =>
    simp only [ofBytes, hsniff] at h
    cases h
  | some result =>
    obtain ⟨encoding, mark⟩ := result
    have hbody := (shows_of_sniff hsniff).body_eq
    cases hdeclared : declarationBody? (leadingChars mark (if mark = 0 then encoding.decode bytes
      else (encoding.decode bytes).tail)) with
    | none =>
      simp only [ofBytes, hsniff, hdeclared] at h
      cases h
      refine ⟨.plain hsniff (hbody ▸ hdeclared), hbody, fun hunit => ?_⟩
      simp only at hunit
      simp [hunit]
    | some result =>
      obtain ⟨body, stop⟩ := result
      cases hreads : Declaration.ofBody stop body with
      | error pos =>
        simp only [ofBytes, hsniff, hdeclared, hreads] at h
        cases h
      | ok declaration =>
        rw [ofBytes_declared hsniff hdeclared hreads] at h
        obtain ⟨final, hfinal, rfl⟩ := map_eq_ok_iff.mp h
        have hnamed : ∀ symbols, finalEncoding declaration symbols encoding = .ok final :=
          fun symbols => finalEncoding_symbols hfinal
        refine ⟨.declared hsniff (hbody ▸ hdeclared) hreads hnamed, rfl, fun hunit => ?_⟩
        have hunit : final.unit = 1 := hunit
        simp [ofDeclaration, hunit]

theorem extends_of_declaredEncoding {symbols : List Symbol} {current : Encoding} {name : String}
    {pos : Nat} {upper : Array Char} {gaps : List Char}
    (h : declaredEncoding symbols current name pos = .ok (.singleByte upper gaps)) :
    Charset.Extends upper.toList gaps := by
  unfold declaredEncoding at h
  split at h
  · rename_i encoding hencoding
    split at h
    · cases h
    · cases h
      unfold Encoding.named? at hencoding
      repeat' split at hencoding
      all_goals cases hencoding
  · split at h
    · rename_i hfound
      cases h
      exact Charset.extends_of_find? hfound
    all_goals cases h

/-- The text of a document that is not in UTF-16 is in a code. -/
theorem exists_code_of_opening {bytes : Bytes} {start : Nat} {standalone : Bool}
    {version : Option String} {final : Encoding} (h : Opening bytes start standalone version final)
    (hunit : final.unit = 1) : ∃ code : Code, code.encoding = final := by
  cases h with
  | plain sniffed => exact ⟨.utf8, ((shows_of_sniff sniffed).eq_utf8 hunit).symm⟩
  | @declared encoding _ mark stop body declaration sniffed declares reads named =>
    refine exists_code hunit ?_
    rintro upper gaps rfl
    have hnamed := named []
    unfold finalEncoding at hnamed
    split at hnamed
    · cases hnamed
      cases shows_of_sniff sniffed
    · exact extends_of_declaredEncoding hnamed

/-- A document is written as a code writes it, from the end of its declaration on. -/
def IsWritten (s : Source) (bytes : Bytes) : Prop :=
  ∃ code : Code, code.encoding = s.encoding ∧
    (bytes.drop s.start).map code.respell = bytes.drop s.start

theorem isWritten_of_utf8 {s : Source} (h : s.encoding = .utf8) (bytes : Bytes) :
    s.IsWritten bytes :=
  ⟨.utf8, h.symm, List.map_id _⟩

theorem exists_source_of_opening [Code] {bytes : Bytes} {start : Nat} {standalone : Bool}
    {version : Option String} (h : Opening bytes start standalone version Code.encoding) :
    ∃ s, ofBytes bytes = .ok s ∧ s.start = start ∧ s.standalone = standalone ∧ s.version = version ∧
      InCode bytes s := by
  have hunit : (Code.encoding).unit = 1 := Code.unit
  generalize hfinal : (Code.encoding) = final at h hunit
  cases h with
  | plain sniffed undeclared =>
    have hbody := (shows_of_sniff sniffed).body_eq
    rw [← hbody] at undeclared
    refine ⟨{
      symbols := final.decode bytes
      body := if start = 0 then final.decode bytes else (final.decode bytes).tail
      start
      encoding := final
      ragged := final.unit = 2 ∧ bytes.length % 2 = 1 }, ?_, rfl, rfl, rfl, hfinal.symm, ?_, ?_⟩
    · simp only [ofBytes, sniffed, undeclared]
      rfl
    · rw [hfinal]
      exact hbody
    · simp [hunit]
  | @declared encoding _ mark stop body declaration sniffed declares reads named =>
    rw [← (shows_of_sniff sniffed).body_eq] at declares
    refine ⟨ofDeclaration bytes final declaration (stop + 2 * encoding.unit), ?_, rfl, rfl,
      rfl, hfinal.symm, ?_, ?_⟩
    · rw [ofBytes_declared sniffed declares reads]
      exact map_eq_ok_iff.mpr ⟨final, named _, rfl⟩
    · rw [hfinal]
      rfl
    · simp [ofDeclaration, hunit]

/-! ## Characters with their offsets -/

variable [Code]

/-- The characters of a text that begins at `pos`, with their offsets. -/
def placed (pos : Nat) : List Char → List Placed
  | [] => []
  | c :: cs => ⟨c, pos⟩ :: placed (pos + (Symbol.ofChar c).width) cs

theorem map_char_placed (pos : Nat) (cs : List Char) : (placed pos cs).map Placed.char = cs := by
  induction cs generalizing pos with
  | nil => rfl
  | cons c cs ih => rw [placed, List.map_cons, ih]

theorem leadingChars_ofChar (pos : Nat) (cs : List Char) :
    leadingChars pos (cs.map Symbol.ofChar) = placed pos cs := by
  induction cs generalizing pos with
  | nil => rfl
  | cons c cs ih =>
    rw [List.map_cons, Symbol.ofChar, leadingChars, ih]
    rfl

end Source

/-! ## Where nothing is declared -/

namespace Reader

variable [Code]

section Lexed

variable {alphabet : Alphabet} {start pos : Nat} {i i' : Instruction} {c : Char}

theorem lexed_instruction_failed {flaw : Flaw} (h : i.step alphabet c = .error flaw) :
    Prolog.Lexer.step alphabet start pos (.instruction i) (Symbol.ofChar c).glyph =
      .failed flaw := by
  change Prolog.Lexer.readChar alphabet start pos (.instruction i) c = _
  rw [Prolog.Lexer.readChar, h]

theorem lexed_instruction_done {target : String} (h : i.step alphabet c = .ok (.done target)) :
    Prolog.Lexer.step alphabet start pos (.instruction i) (Symbol.ofChar c).glyph =
      .done start (.instruction target) := by
  change Prolog.Lexer.readChar alphabet start pos (.instruction i) c = _
  rw [Prolog.Lexer.readChar, h]

theorem lexed_instruction_going (h : i.step alphabet c = .ok (.going i')) :
    Prolog.Lexer.step alphabet start pos (.instruction i) (Symbol.ofChar c).glyph =
      .going (.instruction i') start := by
  change Prolog.Lexer.readChar alphabet start pos (.instruction i) c = _
  rw [Prolog.Lexer.readChar, h]

end Lexed

/-- An instruction under way that would be a declaration. -/
def InDeclaration (r : Reader) : Prop :=
  ∃ i, r.phase = .prolog .beforeDoctype (.instruction i) ∧
    (i = .targetMark "xml" ∨ i = .body "xml" ∨ i = .mark "xml")

theorem inDeclaration_step {r r' : Reader} {c : Char} (hr : r.InDeclaration)
    (h : r.step (.ofChar c) = .ok r') : r'.InDeclaration := by
  obtain ⟨i, hphase, hi⟩ := hr
  obtain ⟨r₁, state, root, htake, hrest⟩ := (step_prolog_eq_ok_iff hphase).mp h
  have hstep : ∀ next, i.step r.context.alphabet c = .ok next →
      next = .done "xml" ∨ ∃ i', next = .going i' ∧
        (i' = .targetMark "xml" ∨ i' = .body "xml" ∨ i' = .mark "xml") := by
    intro next hnext
    rcases hi with rfl | rfl | rfl
    · simp only [Instruction.step] at hnext
      split at hnext
      · cases hnext
        exact .inl rfl
      · cases hnext
    · simp only [Instruction.step] at hnext
      cases hnext
      refine .inr ⟨_, rfl, ?_⟩
      split
      · exact .inr (.inr rfl)
      · exact .inr (.inl rfl)
    · simp only [Instruction.step] at hnext
      split at hnext
      · cases hnext
        exact .inl rfl
      · cases hnext
        refine .inr ⟨_, rfl, ?_⟩
        split
        · exact .inr (.inr rfl)
        · exact .inr (.inl rfl)
  cases hnext : i.step r.context.alphabet c with
  | error flaw =>
    rw [lexed_instruction_failed hnext] at htake hrest
    cases htake
    obtain ⟨lexer, mark, hfailed, -⟩ := hrest
    cases hfailed
  | ok next =>
    rcases hstep next hnext with rfl | ⟨i', rfl, hi'⟩
    · rw [lexed_instruction_done hnext] at htake hrest
      obtain ⟨action, htake, -⟩ := takeAll_singleton htake
      obtain ⟨hrefused, -⟩ := take_eq_ok_iff.mp htake
      cases hrefused
    · rw [lexed_instruction_going hnext] at htake hrest
      cases htake
      obtain ⟨lexer, mark, hgoing, rfl⟩ := hrest
      cases hgoing
      exact ⟨i', rfl, hi'⟩

theorem inDeclaration_feed {cs : List Char} {r r' : Reader} (hr : r.InDeclaration)
    (h : r.feed cs = .ok r') : r'.InDeclaration := by
  induction cs generalizing r with
  | nil =>
    cases h
    exact hr
  | cons c cs ih =>
    obtain ⟨m, hm, hrest⟩ := feed_cons_eq_ok_iff.mp h
    exact ih (inDeclaration_step hr hm) hrest

theorem feed_declarationMark {r : Reader} (hphase : r.phase = .prolog .beforeDoctype .idle)
    (halphabet : r.context.alphabet = {}) : ∃ offset, r.feed "<?xml".toList = .ok { r with
      phase := .prolog .beforeDoctype (.instruction (.target "lmx".toList))
      mark := r.offset, offset } := by
  obtain ⟨unit, admits, ⟨alphabet, dtd, entity, element, attr, anyText, identifies⟩, phase,
    offset, mark, stack, events⟩ := r
  simp only at hphase halphabet
  subst hphase halphabet
  exact ⟨_, rfl⟩

theorem inDeclaration_of_target {r r' : Reader} {c : Char}
    (hphase : r.phase = .prolog .beforeDoctype (.instruction (.target "lmx".toList)))
    (halphabet : r.context.alphabet = {}) (hc : c = '?' ∨ isSpace c = true)
    (h : r.step (.ofChar c) = .ok r') : r'.InDeclaration := by
  obtain ⟨unit, admits, ⟨alphabet, dtd, entity, element, attr, anyText, identifies⟩, phase,
    offset, mark, stack, events⟩ := r
  simp only at hphase halphabet
  subst hphase halphabet
  rcases hc with rfl | hspace
  · cases h
    exact ⟨_, rfl, .inl rfl⟩
  · simp only [isSpace, Bool.or_eq_true, beq_iff_eq] at hspace
    rcases hspace with ((rfl | rfl) | rfl) | rfl
    all_goals
      cases h
      exact ⟨_, rfl, .inr (.inl rfl)⟩

/-- The text after a declaration does not begin with another one, or it could not be read. -/
theorem declarationBody?_eq_none {r last : Reader} {cs : List Char} {events : List Event}
    (hphase : r.phase = .prolog .beforeDoctype .idle) (halphabet : r.context.alphabet = {})
    (h : r.feed cs = .ok last) (hend : last.finish false = .ok events) (pos : Nat) :
    Source.declarationBody? (Source.leadingChars pos (cs.map Symbol.ofChar)) = none := by
  rw [Source.leadingChars_ofChar]
  by_contra hsome
  obtain ⟨⟨body, stop⟩, hsome⟩ := Option.ne_none_iff_exists'.mp hsome
  obtain ⟨hmark, hclose, hbody⟩ := Source.declarationBody?_eq_some_iff.mp hsome
  obtain ⟨last', more, hdrop, -⟩ := Source.untilClose_local hclose
  have hmark' : cs.take 5 = "<?xml".toList := by
    rw [← hmark, List.map_take, Source.map_char_placed]
  have hrest : ∃ c rest, cs.drop 5 = c :: rest ∧ (c = '?' ∨ isSpace c = true) := by
    have hchars : cs.drop 5 = (body ++ ⟨'?', stop⟩ :: ⟨'>', last'⟩ :: more).map Placed.char := by
      rw [← hdrop, List.map_drop, Source.map_char_placed]
    rcases hbody with rfl | ⟨c, rest, rfl, hspace⟩
    · exact ⟨'?', _, hchars, .inl rfl⟩
    · exact ⟨c.char, _, hchars, .inr hspace⟩
  obtain ⟨c, rest, hdrop', hc⟩ := hrest
  rw [← List.take_append_drop 5 cs, hmark', hdrop'] at h
  obtain ⟨m, hm, hfeed⟩ := feed_append_eq_ok_iff.mp h
  obtain ⟨offset, hread⟩ := feed_declarationMark hphase halphabet
  rw [hread] at hm
  cases hm
  obtain ⟨q, hq, hlast⟩ := feed_cons_eq_ok_iff.mp hfeed
  have hin : q.InDeclaration := by
    refine inDeclaration_of_target ?_ ?_ hc hq
    · rfl
    · exact halphabet
  obtain ⟨i, hlexer, -⟩ := inDeclaration_feed hin hlast
  rw [(finish_eq_ok_iff.mp hend).2.1] at hlexer
  cases hlexer

end Reader

/-! ## Other bytes after the opening -/

namespace Source

theorem sniff_of_three (a b c : UInt8) (bs bs' : Bytes) :
    sniff (a :: b :: c :: bs) = sniff (a :: b :: c :: bs') := by
  simp only [sniff, List.head?_cons]

theorem sniff_of_lessThan (b : UInt8) (bs bs' : Bytes) :
    sniff (0x3C :: b :: bs) = sniff (0x3C :: b :: bs') := by
  simp [sniff]

/-- What a document declares is its own: it keeps its opening whatever follows that. -/
theorem Opening.append {lead bs : Bytes} {standalone : Bool} {version : String} {final : Encoding}
    (h : Opening (lead ++ bs) lead.length standalone (some version) final) (bs' : Bytes) :
    Opening (lead ++ bs') lead.length standalone (some version) final := by
  generalize hlength : lead.length = start at h ⊢
  cases h with
  | @declared encoding _ mark stop body declaration sniffed declares reads named =>
    obtain ⟨first, rest, hbytes, hstop, hthree, hlocal⟩ :=
      exists_declaration (shows_of_sniff sniffed).isLocal declares
    have hmark : mark ≤ lead.length := by omega
    have hfirst : lead.drop mark = first := by
      rw [List.drop_append_of_le_length hmark] at hbytes
      refine (List.append_inj hbytes ?_).1
      rw [List.length_drop]
      omega
    have hsniff : sniff (lead ++ bs) = sniff (lead ++ bs') := by
      match lead with
      | [] | [_] | [_, _] =>
        simp only [List.length_nil, List.length_cons] at hlength
        omega
      | a :: b :: c :: more => exact sniff_of_three _ _ _ _ _
    rw [hsniff] at sniffed
    refine .declared sniffed ?_ reads named
    rw [List.drop_append_of_le_length hmark, hfirst]
    exact hlocal _

variable [Code]

/-- The bytes up to the beginning of the root element tell the encoding. -/
theorem sniff_append (lead : Bytes) (head : List Char) (c : Char) (bs bs' : Bytes) :
    sniff (lead ++ inCode (head ++ ['<', c]) ++ bs) =
      sniff (lead ++ inCode (head ++ ['<', c]) ++ bs') := by
  obtain ⟨b, rest, hc⟩ :=
    List.exists_cons_of_ne_nil (Code.write_ne_nil (c := c))
  have hmark : ∀ more, inCode ['<', c] ++ more = 0x3C :: b :: (rest ++ more) := by
    intro more
    have hlessThan : Code.write '<' = [0x3C] := Code.write_of_lt (by decide)
    rw [inCode_cons, inCode_cons, hc, hlessThan, inCode_nil, List.append_nil]
    rfl
  have hfront : ∀ more, lead ++ inCode (head ++ ['<', c]) ++ more =
      (lead ++ inCode head) ++ 0x3C :: b :: (rest ++ more) := by
    intro more
    rw [inCode_append, List.append_assoc, List.append_assoc, hmark, List.append_assoc]
  rw [hfront, hfront]
  match lead ++ inCode head with
  | [] => exact sniff_of_lessThan _ _ _
  | [a] => exact sniff_of_three _ _ _ _ _
  | [a, a'] => exact sniff_of_three _ _ _ _ _
  | a :: a' :: a'' :: more => exact sniff_of_three _ _ _ _ _

/-- **The opening is local.** A document keeps its opening if what follows the beginning of its root
element changes, as long as the text can be read. -/
theorem Opening.replace {lead bs : Bytes} {head cs : List Char} {c : Char} {standalone : Bool}
    {version : Option String} {last r : Reader} {events : List Event}
    (h : Opening (lead ++ inCode (head ++ ['<', c]) ++ bs) lead.length standalone version
      Code.encoding)
    (htext : IsText (head ++ ['<', c] ++ cs)) (hphase : r.phase = .prolog .beforeDoctype .idle)
    (halphabet : r.context.alphabet = Code.encoding.alphabet)
    (hfeed : r.feed (head ++ ['<', c] ++ cs) = .ok last) (hend : last.finish false = .ok events) :
    Opening (lead ++ inCode (head ++ ['<', c]) ++ inCode cs) lead.length standalone version
      Code.encoding := by
  cases version with
  | some version =>
    rw [List.append_assoc] at h ⊢
    exact h.append _
  | none =>
    have hsniff := sniff_append lead head c bs (inCode cs)
    have hunit : (Code.encoding).unit = 1 := Code.unit
    generalize hfinal : (Code.encoding) = final at h
    generalize hlength : lead.length = start at h
    cases h with
    | plain sniffed undeclared =>
      rw [hsniff] at sniffed
      refine .plain sniffed ?_
      rw [hfinal] at halphabet hunit
      rw [(shows_of_sniff sniffed).eq_utf8 hunit] at halphabet
      have hnone := Reader.declarationBody?_eq_none hphase halphabet hfeed hend start
      rw [List.append_assoc, List.drop_left' hlength, ← inCode_append, ← hfinal,
        decode_inCode htext, hnone]

end Source

end AccessPatch.Xml
