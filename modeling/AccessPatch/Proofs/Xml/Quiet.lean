import AccessPatch.Proofs.Xml.Code
import AccessPatch.Proofs.Xml.Prolog.Relocation
import AccessPatch.Proofs.Xml.Spelling
import AccessPatch.Xml.Reader

/-!
# Reading without a tag

Most of a document begins and ends no element: character data, comments, instructions, references,
sections of verbatim text, and each tag up to its last character. `Quiet` says that a reader goes
through such characters; what it comes to depends neither on the place in the document nor on what
is open or noted already.

* `quiet_step` gives `Quiet` for one character, `Quiet.append` puts two runs together.
* `step_startTag` and `step_endTag` say what the last character of a tag does.
-/

namespace AccessPatch.Xml

namespace Reader

/-! ## One symbol -/

theorem step_content {r : Reader} {lexer : Content.Lexer} (hphase : r.phase = .content lexer)
    (s : Symbol) : r.step s =
      (r.stepContent lexer s).map fun next => { next with offset := r.offset + s.width } := by
  simp only [step, hphase]
  cases r.stepContent lexer s <;> rfl

theorem step_prolog {r : Reader} {state : Prolog.State} {lexer : Prolog.Lexer}
    (hphase : r.phase = .prolog state lexer) (s : Symbol) : r.step s =
      (r.stepProlog state lexer s).map fun next => { next with offset := r.offset + s.width } := by
  simp only [step, hphase]
  cases r.stepProlog state lexer s <;> rfl

theorem step_offset {r r' : Reader} {s : Symbol} (h : r.step s = .ok r') :
    r'.offset = r.offset + s.width := by
  cases hphase : r.phase with
  | prolog state lexer =>
    rw [step_prolog hphase] at h
    obtain ⟨next, -, rfl⟩ := map_eq_ok_iff.mp h
    rfl
  | content lexer =>
    rw [step_content hphase] at h
    obtain ⟨next, -, rfl⟩ := map_eq_ok_iff.mp h
    rfl

/-- The map sends a document from `start` on to another place as a whole. -/
def Moves (f : Nat → Nat) (start : Nat) : Prop :=
  ∀ i w, start ≤ i → f (i + w) = f i + w

theorem Moves.mono {f : Nat → Nat} {start start' : Nat} (h : Moves f start) (hle : start ≤ start') :
    Moves f start' :=
  fun i w hi => h i w (Nat.le_trans hle hi)

/-- The map that sends `start` to `start'`. -/
def moving (start start' : Nat) (i : Nat) : Nat :=
  i - start + start'

theorem moves_moving (start start' : Nat) : Moves (moving start start') start := by
  intro i w hi
  simp only [moving]
  omega

/-- The state of reading at another place of a document, where other elements are open and other
events have been noted. -/
def relocate (r : Reader) (f : Nat → Nat) (admits : Bool) (stack : List String)
    (events : List Event) :
    Reader :=
  { r with
    admitsEntityTags := admits
    phase := match r.phase with
      | .prolog state lexer => .prolog state (lexer.relocate f)
      | .content lexer => .content (lexer.relocate f)
    offset := f r.offset
    mark := f r.mark
    stack, events }

section Content

variable {r r' : Reader} {lexer : Content.Lexer}

/-- The mark of the token under way while a symbol is read. -/
def markAt (r : Reader) (lexer : Content.Lexer) : Nat :=
  if lexer.isText then r.offset else r.mark

/-- The reader before it acts on what a symbol completes. -/
def readTo (r : Reader) (lexer next : Content.Lexer) : Reader :=
  { r with phase := .content next, mark := r.markAt lexer }

/-- What the reader does about what a symbol completes. -/
def actOn (r : Reader) (token : Option Content.Token) (stop : Nat) : Except Stop Reader :=
  match token with
  | none => .ok r
  | some token => r.act token stop

theorem exists_lexed {s : Symbol} (hphase : r.phase = .content lexer) (h : r.step s = .ok r') :
    ∃ lexed, lexer.step r.context.alphabet r.unit r.offset s = .ok lexed := by
  rw [step_content hphase] at h
  obtain ⟨next, hnext, -⟩ := map_eq_ok_iff.mp h
  cases hlexed : lexer.step r.context.alphabet r.unit r.offset s with
  | ok lexed => exact ⟨lexed, rfl⟩
  | error flaw =>
    cases htext : lexer.isText <;>
      simp only [stepContent, htext, Bool.false_eq_true, if_true, if_false, hlexed] at hnext <;>
      cases hnext

theorem step_eq_actOn {s : Symbol} (hphase : r.phase = .content lexer)
    (hlexed : lexer.step r.context.alphabet r.unit r.offset s = .ok lexed) :
    r.step s = ((r.readTo lexer lexed.lexer).actOn lexed.token (r.offset + s.width)).map
      fun next => { next with offset := r.offset + s.width } := by
  rw [step_content hphase]
  congr 1
  cases htoken : lexed.token <;> cases htext : lexer.isText <;>
    simp only [stepContent, htext, markAt, readTo, hlexed, htoken, actOn,
      Bool.false_eq_true, if_true, if_false]

theorem markAt_relocate (f : Nat → Nat) (admits : Bool) (stack : List String)
    (events : List Event) :
    (r.relocate f admits stack events).markAt (lexer.relocate f) = f (r.markAt lexer) := by
  simp only [markAt, Content.Lexer.isText_relocate, relocate]
  split <;> rfl

theorem readTo_relocate (f : Nat → Nat) (admits : Bool) (stack : List String) (events : List Event)
    (next : Content.Lexer) :
    (r.relocate f admits stack events).readTo (lexer.relocate f) (next.relocate f) =
      (r.readTo lexer next).relocate f admits stack events := by
  simp only [readTo, markAt_relocate]
  rfl

theorem actOn_quiet {token : Option Content.Token} {stop : Nat}
    (hadmits : r.admitsEntityTags = false) (hquiet : ∀ t, token = some t → t.isQuiet = true)
    (h : r.actOn token stop = .ok r') :
    ∃ notes, Content.OnlyInstructions notes ∧ (token = none → notes = []) ∧
      r' = { r with events := notes ++ r.events } ∧
      ∀ f admits stack events stop,
        (r.relocate f admits stack events).actOn (token.map (Content.Token.relocate f)) stop =
          .ok (r.relocate f admits stack (notes ++ events)) := by
  cases token with
  | none =>
    cases h
    exact ⟨[], Content.onlyInstructions_nil, fun _ => rfl, rfl, fun _ _ _ _ _ => rfl⟩
  | some t =>
    cases t with
    | startTag tag empty => exact absurd (hquiet _ rfl) (by simp [Content.Token.isQuiet])
    | endTag name => exact absurd (hquiet _ rfl) (by simp [Content.Token.isQuiet])
    | instruction target =>
      simp only [actOn, act] at h
      split at h
      · cases h
      · rename_i htarget
        cases h
        refine ⟨[.instruction target], ?_, by simp, rfl,
          fun f admits stack events stop => if_neg htarget⟩
        intro e he
        exact ⟨target, List.mem_singleton.mp he⟩
    | reference reference =>
      simp only [actOn, act] at h
      split at h
      · cases h
      · rename_i notes hnotes
        cases h
        have helsewhere := fun pos admits => Content.Expansion.ofTopReference_elsewhere
          (x := ⟨r.context.dtd, r.context.alphabet.forEntityText, r.admitsEntityTags, r.mark⟩)
          hadmits pos admits hnotes
        refine ⟨notes, (helsewhere 0 false).1, by simp, rfl, fun f admits stack events stop => ?_⟩
        have hread := (helsewhere (f r.mark) admits).2
        simp only [Content.Expansion.elsewhere] at hread
        simp only [Option.map_some, Content.Token.relocate, actOn, act, relocate, hread]

/-- In character data the mark of the last token does not matter any more. -/
theorem step_of_text_mark (hphase : r.phase = .content lexer) (htext : lexer.isText = true)
    (mark : Nat) (s : Symbol) : ({ r with mark } : Reader).step s = r.step s := by
  rw [step_content hphase, step_content (r := { r with mark }) hphase]
  simp only [stepContent, htext, if_true]

end Content

/-! ## Characters -/

variable [Code]

/-- Reads characters. -/
def feed (r : Reader) (cs : List Char) : Except Stop Reader :=
  (cs.map Symbol.ofChar).foldlM step r

@[simp] theorem feed_nil (r : Reader) : r.feed [] = .ok r := rfl

theorem feed_cons (r : Reader) (c : Char) (cs : List Char) :
    r.feed (c :: cs) = r.step (.ofChar c) >>= fun r => r.feed cs := rfl

theorem feed_singleton (r : Reader) (c : Char) : r.feed [c] = r.step (.ofChar c) := by
  rw [feed_cons]
  cases r.step (.ofChar c) <;> rfl

theorem feed_append_eq_ok_iff {r r' : Reader} {cs ds : List Char} :
    r.feed (cs ++ ds) = .ok r' ↔ ∃ m, r.feed cs = .ok m ∧ m.feed ds = .ok r' := by
  rw [feed, List.map_append, foldlM_append_eq_ok_iff]
  rfl

theorem feed_cons_eq_ok_iff {r r' : Reader} {c : Char} {cs : List Char} :
    r.feed (c :: cs) = .ok r' ↔ ∃ m, r.step (.ofChar c) = .ok m ∧ m.feed cs = .ok r' :=
  foldlM_cons_eq_ok_iff

theorem feed_offset {r r' : Reader} {cs : List Char} (h : r.feed cs = .ok r') :
    r'.offset = r.offset + (inCode cs).length := by
  induction cs generalizing r with
  | nil =>
    cases h
    rfl
  | cons c cs ih =>
    obtain ⟨m, hm, hrest⟩ := feed_cons_eq_ok_iff.mp h
    rw [ih hrest, step_offset hm, inCode_cons, List.length_append, length_write]
    omega

/-- Reading `cs` leads from `r` to `r'` and notes the events, last one first; no element begins or
ends. -/
structure Quiet (r : Reader) (cs : List Char) (notes : List Event) (r' : Reader) : Prop where
  feed : r.feed cs = .ok r'
  unit : r'.unit = r.unit
  context : r'.context = r.context
  admits : r'.admitsEntityTags = r.admitsEntityTags
  stack : r'.stack = r.stack
  events : r'.events = notes ++ r.events
  only : Content.OnlyInstructions notes
  anywhere : ∀ f admits stack events, Moves f r.offset →
    (r.relocate f admits stack events).feed cs = .ok (r'.relocate f admits stack (notes ++ events))

theorem Quiet.offset {r r' : Reader} {cs : List Char} {notes : List Event}
    (h : Quiet r cs notes r') : r'.offset = r.offset + (inCode cs).length :=
  feed_offset h.feed

theorem quiet_nil (r : Reader) : Quiet r [] [] r where
  feed := rfl
  unit := rfl
  context := rfl
  admits := rfl
  stack := rfl
  events := rfl
  only := Content.onlyInstructions_nil
  anywhere _ _ _ _ _ := rfl

theorem Quiet.append {r m r' : Reader} {cs ds : List Char} {notes notes' : List Event}
    (h : Quiet r cs notes m) (h' : Quiet m ds notes' r') :
    Quiet r (cs ++ ds) (notes' ++ notes) r' where
  feed := feed_append_eq_ok_iff.mpr ⟨m, h.feed, h'.feed⟩
  unit := h'.unit.trans h.unit
  context := h'.context.trans h.context
  admits := h'.admits.trans h.admits
  stack := h'.stack.trans h.stack
  events := by rw [h'.events, h.events, List.append_assoc]
  only := h'.only.append h.only
  anywhere f admits stack events hf := by
    have hle : r.offset ≤ m.offset := by
      rw [h.offset]
      omega
    rw [List.append_assoc]
    exact feed_append_eq_ok_iff.mpr ⟨_, h.anywhere f admits stack events hf,
      h'.anywhere f admits stack _ (hf.mono hle)⟩

section Content

variable {r r' : Reader} {lexer : Content.Lexer} {c : Char} {lexed : Content.Lexed}

/-- A character that completes no tag. -/
theorem quiet_step (hadmits : r.admitsEntityTags = false) (hphase : r.phase = .content lexer)
    (hlexed : lexer.step r.context.alphabet r.unit r.offset (.ofChar c) = .ok lexed)
    (hquiet : ∀ token, lexed.token = some token → token.isQuiet = true)
    (h : r.step (.ofChar c) = .ok r') :
    ∃ notes, Quiet r [c] notes r' ∧ (lexed.token = none → notes = []) ∧
      r'.phase = .content lexed.lexer ∧ r'.mark = r.markAt lexer := by
  have hact := h
  rw [step_eq_actOn hphase hlexed] at hact
  obtain ⟨next, hnext, rfl⟩ := map_eq_ok_iff.mp hact
  obtain ⟨notes, honly, hnone, rfl, hanywhere⟩ :=
    actOn_quiet (r := r.readTo lexer lexed.lexer) hadmits hquiet hnext
  refine ⟨notes, ?_, hnone, rfl, rfl⟩
  refine ⟨by rw [feed_singleton, h], rfl, rfl, rfl, rfl, rfl, honly, ?_⟩
  intro f admits stack events hf
  have hphase' : (r.relocate f admits stack events).phase = .content (lexer.relocate f) := by
    simp only [relocate, hphase]
  have hlexed' := Content.Lexer.step_relocate f hlexed
  rw [feed_singleton, step_eq_actOn (r := r.relocate f admits stack events) hphase' hlexed']
  simp only [Content.Lexed.relocate, readTo_relocate, hanywhere]
  simp only [Except.map, relocate, readTo, hf r.offset (Symbol.ofChar c).width (Nat.le_refl _)]

theorem feed_of_text_mark (hphase : r.phase = .content lexer) (htext : lexer.isText = true)
    (mark : Nat) {cs : List Char} (hcs : cs ≠ []) :
    ({ r with mark } : Reader).feed cs = r.feed cs := by
  cases cs with
  | nil => exact absurd rfl hcs
  | cons c cs => rw [feed_cons, feed_cons, step_of_text_mark hphase htext]

/-! ## The last character of a tag -/

/-- The reader after a tag that leaves `stack` open: it goes on with content, or with what may
follow the root element. -/
def between (r : Reader) (mark : Nat) (stack : List String) (events : List Event) (offset : Nat) :
    Reader :=
  { r with
    phase := if stack.isEmpty then .prolog .epilog .idle else .content .idle
    mark, stack, events, offset }

/-- What a start tag adds to the events. -/
def eventsOfStart (name : String) (attributes : List (String × String)) (start stop : Nat)
    (empty : Bool) :
    List Event :=
  if empty then [.closed name stop, .opened name attributes start stop true]
  else [.opened name attributes start stop false]

theorem step_startTag {tag : Content.StartTag} {empty : Bool} {attributes : List (String × String)}
    (hphase : r.phase = .content lexer) (htext : lexer.isText = false)
    (hlexed : lexer.step r.context.alphabet r.unit r.offset (.ofChar c) =
      .ok ⟨.idle, some (.startTag tag empty)⟩)
    (hattributes : tag.resolve r.context.dtd r.context.alphabet [] = .ok attributes) :
    r.step (.ofChar c) = .ok (r.between r.mark (if empty then r.stack else tag.name :: r.stack)
      (eventsOfStart tag.name attributes r.mark (r.offset + (Symbol.ofChar c).width) empty ++
        r.events)
      (r.offset + (Symbol.ofChar c).width)) := by
  rw [step_eq_actOn hphase hlexed]
  simp only [actOn, act, openElement, readTo, markAt, htext, Bool.false_eq_true, if_false,
    hattributes]
  cases empty with
  | false => rfl
  | true =>
    simp only [if_true, leave, between, eventsOfStart]
    cases r.stack.isEmpty <;> rfl

theorem step_startTag_inv {tag : Content.StartTag} {empty : Bool}
    (hphase : r.phase = .content lexer)
    (hlexed : lexer.step r.context.alphabet r.unit r.offset (.ofChar c) =
      .ok ⟨.idle, some (.startTag tag empty)⟩) (h : r.step (.ofChar c) = .ok r') :
    ∃ attributes, tag.resolve r.context.dtd r.context.alphabet [] = .ok attributes := by
  rw [step_eq_actOn hphase hlexed] at h
  obtain ⟨next, hnext, -⟩ := map_eq_ok_iff.mp h
  simp only [actOn, act, openElement, readTo] at hnext
  split at hnext
  · cases hnext
  · rename_i attributes hattributes
    exact ⟨attributes, hattributes⟩

theorem step_endTag {name : String} {outer : List String} (hphase : r.phase = .content lexer)
    (htext : lexer.isText = false)
    (hlexed : lexer.step r.context.alphabet r.unit r.offset (.ofChar c) =
      .ok ⟨.idle, some (.endTag name)⟩) (hstack : r.stack = name :: outer) :
    r.step (.ofChar c) = .ok (r.between r.mark outer (.closed name r.mark :: r.events)
      (r.offset + (Symbol.ofChar c).width)) := by
  rw [step_eq_actOn hphase hlexed]
  simp only [actOn, act, closeElement, readTo, markAt, htext, Bool.false_eq_true, if_false, hstack,
    if_true, leave, between]
  cases outer.isEmpty <;> rfl

theorem step_endTag_inv {name : String} (hphase : r.phase = .content lexer)
    (hlexed : lexer.step r.context.alphabet r.unit r.offset (.ofChar c) =
      .ok ⟨.idle, some (.endTag name)⟩) (h : r.step (.ofChar c) = .ok r') :
    ∃ outer, r.stack = name :: outer := by
  rw [step_eq_actOn hphase hlexed] at h
  obtain ⟨next, hnext, -⟩ := map_eq_ok_iff.mp h
  simp only [actOn, act, closeElement, readTo] at hnext
  split at hnext
  · cases hnext
  · rename_i innermost outer hstack
    split at hnext
    · rename_i hname
      exact ⟨outer, hname ▸ hstack⟩
    · cases hnext

end Content

end Reader

end AccessPatch.Xml
