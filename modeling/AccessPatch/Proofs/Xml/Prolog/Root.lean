import AccessPatch.Proofs.Xml.Quiet
import AccessPatch.Xml.Prolog.Grammar

/-!
# The way to the root element

What stands before the root element and what stands after it is read with another set of tokens.
Here it is shown where the root element begins and where a document may end:

* `readChar_leads`: what one more character can lead to. That no token but the `<` of a tag begins
  the root element (`readChar_apart`) follows from it.
* `exists_root`: a document that is read to its end has a root element, and from the `<` of its
  tag on it is read as content. As long as no document type is declared, nothing is declared at
  all.
* `finish_eq_ok_iff`: the end of a document lies after the root element, outside any token, and no
  bytes are left.
-/

namespace AccessPatch.Xml

namespace Prolog

/-! ## The beginning of the root element -/

/-- What the character `c` at `pos` leads to: no token is the beginning of the root element, and a
token that begins with `<` begins with that character. -/
structure Lexed.Apart (c : Char) (pos : Nat) (lexed : Lexed) : Prop where
  noRoot : ∀ t ∈ lexed.tokens, t.2 ≠ .rootOpen
  lessThan : ∀ mark, lexed.next = .ok (.lessThan, mark) → c = '<' ∧ mark = pos

namespace Lexed

variable {c : Char} {pos start : Nat}

theorem apart_single {token : Token} (h : token ≠ .rootOpen) : (single pos token).Apart c pos where
  noRoot t ht := by
    rw [List.mem_singleton.mp ht]
    exact h
  lessThan mark hmark := by cases hmark

theorem apart_done {token : Token} (h : token ≠ .rootOpen) : (done start token).Apart c pos where
  noRoot t ht := by
    rw [List.mem_singleton.mp ht]
    exact h
  lessThan mark hmark := by cases hmark

theorem apart_going {lexer : Lexer} (h : lexer ≠ .lessThan) : (going lexer start).Apart c pos where
  noRoot t ht := by cases ht
  lessThan mark hmark := by
    cases hmark
    exact absurd rfl h

theorem apart_failed {flaw : Flaw} : (failed flaw).Apart c pos where
  noRoot t ht := by cases ht
  lessThan mark hmark := by cases hmark

theorem Apart.after {lexed : Lexed} {token : Token} (h : lexed.Apart c pos)
    (htoken : token ≠ .rootOpen) :
    (lexed.after start token).Apart c pos where
  noRoot t ht := by
    rcases List.mem_cons.mp ht with rfl | ht
    · exact htoken
    · exact h.noRoot t ht
  lessThan := h.lessThan

end Lexed

namespace Lexer

open Lexed

variable (alphabet : Alphabet) (start pos : Nat) (c : Char)

theorem first_apart : (first alphabet pos c).Apart c pos := by
  unfold first
  split
  case h_3 =>
    exact ⟨fun t ht => (by cases ht), fun mark hmark => (by cases hmark; exact ⟨rfl, rfl⟩)⟩
  case h_13 =>
    split
    · exact apart_single (by simp)
    · split
      · exact apart_going (by simp)
      · split
        · exact apart_going (by simp)
        · exact apart_failed
  all_goals first
    | exact apart_going (by simp)
    | exact apart_single (by simp)

theorem afterPercent_apart : (afterPercent alphabet start pos c).Apart c pos := by
  unfold afterPercent
  split
  · exact apart_going (by simp)
  · split
    · exact (first_apart alphabet pos c).after (by simp)
    · exact apart_failed

end Lexer

/-- Whether what is under way may stand outside the root element of a document without type. -/
def Lexer.isLive : Lexer → Bool
  | .idle | .lessThan | .bang | .comment _ | .instruction _ => true
  | _ => false

/-- Whether a token may stand outside the root element of a document without type. -/
def Token.isPlain : Token → Bool
  | .space | .comment | .instruction _ | .rootOpen => true
  | _ => false

/-- What the character `c` at `pos` leads to where a token is under way since the offset given
first: it begins a token, or the one under way goes on or ends with it, or that ends before it.
What has no place in a document without type leads to nothing that has. -/
inductive Lexer.Leads (alphabet : Alphabet) (pos : Nat) (c : Char) :
    Nat → Lexer → Lexed → Prop where
  | first (start : Nat) : Leads alphabet pos c start .idle (first alphabet pos c)
  | percent (start : Nat) : Leads alphabet pos c start .percent (afterPercent alphabet start pos c)
  | failed {start : Nat} {lexer : Lexer} (flaw : Flaw) :
      Leads alphabet pos c start lexer (.failed flaw)
  | going {start : Nat} {lexer next : Lexer} (apart : next ≠ .lessThan)
      (live : lexer.isLive = false → next.isLive = false) :
      Leads alphabet pos c start lexer (.going next start)
  | done {start : Nat} {lexer : Lexer} {token : Token} (apart : token ≠ .rootOpen)
      (plain : lexer.isLive = false → token.isPlain = false) :
      Leads alphabet pos c start lexer (.done start token)
  | after {start start' : Nat} {lexer lexer' : Lexer} {token : Token} {lexed : Lexed}
      (plain : token.isPlain = false) (rest : Leads alphabet pos c start' lexer' lexed) :
      Leads alphabet pos c start lexer (lexed.after start token)

namespace Lexer

variable (alphabet : Alphabet) (start pos : Nat) (c : Char)

theorem readChar_leads {lexer : Lexer} (h : lexer ≠ .lessThan) :
    Leads alphabet pos c start lexer (readChar alphabet start pos lexer c) := by
  have hfirst : Leads alphabet pos c start .idle (first alphabet pos c) := .first start
  cases lexer with
  | idle => exact hfirst
  | lessThan => exact absurd rfl h
  | bang =>
    simp only [readChar]
    split
    · exact .going (by simp) (by simp [isLive])
    · exact .done (by simp) (by simp [isLive])
    · split
      · exact .going (by simp) (by simp [isLive])
      · exact .failed _
  | keyword read =>
    simp only [readChar]
    split
    · exact .going (by simp) fun _ => rfl
    · split
      · exact .after rfl hfirst
      · split
        · exact .going (by simp) fun _ => rfl
        · exact .failed _
  | keywordPercent read percentPos =>
    simp only [readChar]
    split
    · exact .failed _
    · exact .after rfl (.percent percentPos)
  | comment state =>
    simp only [readChar]
    split
    · exact .done (by simp) (by simp [isLive])
    · exact .going (by simp) (by simp [isLive])
    · exact .failed _
  | instruction state =>
    simp only [readChar]
    split
    · exact .done (by simp) (by simp [isLive])
    · exact .going (by simp) (by simp [isLive])
    · exact .failed _
  | literal quote read =>
    simp only [readChar]
    split
    · exact .going (by simp) fun _ => rfl
    · exact .going (by simp) fun _ => rfl
  | literalEnd read =>
    simp only [readChar]
    split
    · exact .after rfl hfirst
    · exact .failed _
  | percent => exact .percent start
  | parameterName =>
    simp only [readChar]
    split
    · exact .done (by simp) fun _ => rfl
    · split
      · exact .going (by simp) fun _ => rfl
      · exact .failed _
  | hash =>
    simp only [readChar]
    split
    · exact .going (by simp) fun _ => rfl
    · exact .failed _
  | hashName read =>
    simp only [readChar]
    split
    · exact .going (by simp) fun _ => rfl
    · split
      · exact .after rfl hfirst
      · exact .failed _
  | name proper read =>
    have hname : (nameToken proper read).isPlain = false := by cases proper <;> rfl
    simp only [readChar]
    split
    · exact .going (by simp) fun _ => rfl
    · split
      · exact .after hname hfirst
      · split
        · split
          · exact .done (by simp) fun _ => rfl
          · exact .failed _
        · exact .failed _
  | closeParen =>
    simp only [readChar]
    split
    · exact .done (by simp) fun _ => rfl
    · split
      · exact .after rfl hfirst
      · exact .failed _
  | closeBracket =>
    simp only [readChar]
    split
    · exact .going (by simp) fun _ => rfl
    · exact .after rfl hfirst
  | twoBrackets second =>
    have hbefore : Leads alphabet pos c second .closeBracket
        ((first alphabet pos c).after second .closeBracket) := .after rfl hfirst
    simp only [readChar]
    split
    · exact .done (by simp) fun _ => rfl
    · exact .after rfl hbefore

variable {alphabet start pos c} in
theorem Leads.apart {lexer : Lexer} {lexed : Lexed} (h : Leads alphabet pos c start lexer lexed) :
    lexed.Apart c pos := by
  induction h with
  | first start => exact first_apart alphabet pos c
  | percent start => exact afterPercent_apart alphabet start pos c
  | failed flaw => exact Lexed.apart_failed
  | going apart => exact Lexed.apart_going apart
  | done apart => exact Lexed.apart_done apart
  | after plain _ ih => exact ih.after (by rintro rfl; cases plain)

theorem readChar_apart {lexer : Lexer} (h : lexer ≠ .lessThan) :
    (readChar alphabet start pos lexer c).Apart c pos :=
  (readChar_leads alphabet start pos c h).apart

end Lexer

/-! ## States outside the root element -/

namespace State

/-- The states in which nothing but comments, instructions and the root element may come. -/
def isOuter : State → Bool
  | .beforeDoctype | .epilog => true
  | _ => false

variable {s s' : State} {t : Token} {a : Action}

theorem attributeTypeNext?_inner {word : String} (h : attributeTypeNext? word = some (s', a)) :
    s'.isOuter = false := by
  unfold attributeTypeNext? at h
  split at h
  · cases h
    rfl
  · obtain ⟨t, -, ht⟩ := Option.map_eq_some_iff.mp h
    cases ht
    rfl

theorem inDeclaration?_inner (h : s.inDeclaration? t = some (s', a)) :
    s.isOuter = false ∧ s'.isOuter = false := by
  unfold inDeclaration? at h
  split at h
  case h_32 => exact ⟨rfl, attributeTypeNext?_inner h⟩
  case h_48 => cases h
  all_goals
    cases h
    exact ⟨rfl, rfl⟩

theorem inModel?_inner (h : s.inModel? t = some s') : s.isOuter = false ∧ s'.isOuter = false := by
  unfold inModel? at h
  split at h
  case h_18 groups _ =>
    cases h
    refine ⟨rfl, ?_⟩
    unfold closeGroup
    split <;> rfl
  case h_19 | h_20 =>
    obtain ⟨groups, -, rfl⟩ := Option.map_eq_some_iff.mp h
    exact ⟨rfl, rfl⟩
  case h_21 => cases h
  all_goals
    cases h
    exact ⟨rfl, rfl⟩

/-- A token that is no part of a declaration, with what it means in a state. -/
inductive Plain (s : State) : Token → Action → Prop where
  | space : Plain s .space .nothing
  | comment : Plain s .comment .nothing
  | instruction (target : String) (h : target ≠ Instruction.declarationTarget) :
      Plain s (.instruction target) (.instruction target)
  | rootOpen (h : s = .beforeDoctype) : Plain s .rootOpen .root

theorem ofKeyword?_inner {keyword : String} (h : s.ofKeyword? keyword = some s') :
    s'.isOuter = false ∧ (s.isOuter = true → s' = .doctypeName) := by
  unfold ofKeyword? at h
  split at h
  case h_6 => cases h
  all_goals
    cases h
    exact ⟨rfl, by simp [isOuter]⟩

theorem inDeclaration?_ne_root (h : s.inDeclaration? t = some (s', a)) : a ≠ .root := by
  unfold inDeclaration? at h
  split at h
  case h_32 =>
    unfold attributeTypeNext? at h
    split at h
    · cases h
      simp
    · obtain ⟨t, -, ht⟩ := Option.map_eq_some_iff.mp h
      cases ht
      simp
  case h_48 => cases h
  all_goals
    cases h
    simp

/-- Only the `<` of a tag begins the root element, before or after the declarations. -/
theorem next?_root (h : s.next? t = some (s', .root)) :
    t = .rootOpen ∧ (s = .beforeDoctype ∨ s = .afterDoctype) := by
  unfold next? at h
  split at h
  case h_4 =>
    split at h
    · rename_i hstate
      exact ⟨rfl, hstate⟩
    · cases h
  case h_5 =>
    obtain ⟨s₁, -, hresult⟩ := Option.map_eq_some_iff.mp h
    cases hresult
  case h_8 =>
    split at h
    · rename_i result hfound
      cases h
      exact absurd rfl (inDeclaration?_ne_root hfound)
    · obtain ⟨s₁, -, hresult⟩ := Option.map_eq_some_iff.mp h
      cases hresult
  all_goals
    first
      | cases h
      | (split at h <;> cases h)

/-- Outside declarations a token leaves the state as it is, unless the declaration of a document
type begins. -/
theorem next?_outer (h : s.next? t = some (s', a)) (hs : s.isOuter = true ∨ s'.isOuter = true)
    (hname : s' ≠ .doctypeName) : s' = s ∧ Plain s t a := by
  have hdeclaration : ∀ {result : Option (State × Action)}, result = some (s', a) →
      (∀ r, result = some r → s.isOuter = false ∧ r.1.isOuter = false) →
      s' = s ∧ Plain s t a := by
    intro result hresult hinner
    obtain ⟨hs₁, hs₂⟩ := hinner _ hresult
    rcases hs with hs | hs
    · rw [hs₁] at hs
      cases hs
    · rw [hs₂] at hs
      cases hs
  unfold next? at h
  split at h
  · cases h
    exact ⟨rfl, .space⟩
  · split at h
    · cases h
      exact ⟨rfl, .comment⟩
    · cases h
  · split at h
    · rename_i htarget
      cases h
      exact ⟨rfl, .instruction _ htarget.2⟩
    · cases h
  · split at h
    · rename_i hstate
      cases h
      refine ⟨rfl, .rootOpen ?_⟩
      rcases hstate with rfl | rfl
      · rfl
      · simp [isOuter] at hs
    · cases h
  · obtain ⟨s₁, hs₁, hresult⟩ := Option.map_eq_some_iff.mp h
    cases hresult
    obtain ⟨hinner, hdoctype⟩ := ofKeyword?_inner hs₁
    rcases hs with hs | hs
    · exact absurd (hdoctype hs) hname
    · rw [hinner] at hs
      cases hs
  · split at h
    · rename_i hstate
      cases h
      simp [hstate, isOuter] at hs
    · cases h
  · split at h
    · rename_i hstate
      cases h
      simp [hstate, isOuter] at hs
    · cases h
  · refine hdeclaration h ?_
    rintro ⟨s₁, a₁⟩ hresult
    split at hresult
    · rename_i result hfound
      cases hresult
      exact inDeclaration?_inner hfound
    · obtain ⟨s₂, hs₂, heq⟩ := Option.map_eq_some_iff.mp hresult
      cases heq
      exact inModel?_inner hs₂

end State

end Prolog

/-- An event of a tag. -/
def Event.isTag : Event → Bool
  | .opened .. | .closed .. => true
  | _ => false

/-- No element begins or ends. -/
def NoTags (events : List Event) : Prop :=
  ∀ e ∈ events, e.isTag = false

theorem noTags_nil : NoTags [] := by
  intro e he
  cases he

theorem NoTags.append {es es' : List Event} (h : NoTags es) (h' : NoTags es') :
    NoTags (es ++ es') :=
  fun e he => (List.mem_append.mp he).elim (h e) (h' e)

theorem NoTags.reverse {es : List Event} (h : NoTags es) : NoTags es.reverse :=
  fun e he => h e (List.mem_reverse.mp he)

theorem Content.OnlyInstructions.noTags {es : List Event} (h : OnlyInstructions es) :
    NoTags es := by
  intro e he
  obtain ⟨target, rfl⟩ := h e he
  rfl

/-- Within the declaration of a document type, or after it and before the root element. -/
def Phase.inType : Phase → Bool
  | .prolog state _ => ! state.isOuter
  | .content _ => false

namespace Reader

open Prolog (State Token Action Lexer)
open Prolog.State (Plain)

/-! ## Tokens outside the root element -/

/-- The same reader under another rule about elements from entities. -/
def admitting (r : Reader) (admits : Bool) : Reader :=
  { r with admitsEntityTags := admits }

theorem take_eq_ok_iff {r r' : Reader} {start : Nat} {state state' : State} {token : Token}
    {action : Action} : r.take start state token = .ok (r', state', action) ↔
      state.next? token = some (state', action) ∧
      ∃ context, r.context.perform action = .ok context ∧
        r' = { r with mark := start, context, events := (eventOf? action).toList ++ r.events } := by
  unfold take
  cases hnext : state.next? token with
  | none => simp
  | some result =>
    obtain ⟨s, a⟩ := result
    simp only [Option.some.injEq, Prod.mk.injEq]
    cases hperform : r.context.perform a with
    | error flaw =>
      constructor
      · intro h
        cases h
      · rintro ⟨⟨rfl, rfl⟩, context, hcontext, -⟩
        rw [hperform] at hcontext
        cases hcontext
    | ok context =>
      constructor
      · intro h
        cases h
        exact ⟨⟨rfl, rfl⟩, context, hperform, rfl⟩
      · rintro ⟨⟨rfl, rfl⟩, context', hcontext, rfl⟩
        rw [hperform] at hcontext
        cases hcontext
        rfl

/-- Takes one of several tokens into account. -/
def takeNext (s : Reader × State × Bool) (token : Nat × Token) :
    Except Stop (Reader × State × Bool) := do
  let (r, state, action) ← s.1.take token.1 s.2.1 token.2
  return (r, state, s.2.2 || action = .root)

theorem takeAll_eq (r : Reader) (state : State) (tokens : List (Nat × Token)) :
    r.takeAll state tokens = tokens.foldlM takeNext (r, state, false) := rfl

theorem takeNext_eq_ok_iff {s s' : Reader × State × Bool} {token : Nat × Token} :
    takeNext s token = .ok s' ↔
      ∃ action, s.1.take token.1 s.2.1 token.2 = .ok (s'.1, s'.2.1, action) ∧
        s'.2.2 = (s.2.2 || decide (action = .root)) := by
  constructor
  · intro h
    obtain ⟨⟨r, state, action⟩, htake, hs'⟩ := bind_eq_ok_iff.mp h
    cases hs'
    exact ⟨action, htake, rfl⟩
  · rintro ⟨action, htake, hroot⟩
    obtain ⟨r, state, root⟩ := s'
    simp only at hroot
    subst hroot
    exact bind_eq_ok_iff.mpr ⟨_, htake, rfl⟩

theorem takeAll_singleton {r r' : Reader} {state state' : State} {start : Nat} {token : Token}
    {root : Bool} (h : r.takeAll state [(start, token)] = .ok (r', state', root)) :
    ∃ action, r.take start state token = .ok (r', state', action) ∧
      root = decide (action = .root) := by
  rw [takeAll_eq] at h
  obtain ⟨s, hs, hend⟩ := foldlM_cons_eq_ok_iff.mp h
  cases hend
  exact takeNext_eq_ok_iff.mp hs

theorem perform_of_plain {state : State} {token : Token} {action : Action}
    (h : Plain state token action) (context : Prolog.Context) :
    context.perform action = .ok context := by
  cases h <;> rfl

theorem noTags_eventOf? (action : Action) : NoTags (eventOf? action).toList := by
  intro e he
  rw [Option.mem_toList] at he
  unfold eventOf? at he
  split at he <;> cases he <;> rfl

/-- What tokens outside the root element leave as it is. -/
structure Taken (r r' : Reader) (state state' : State) : Prop where
  unit : r'.unit = r.unit
  offset : r'.offset = r.offset
  stack : r'.stack = r.stack
  events : ∃ notes, NoTags notes ∧ r'.events = notes ++ r.events
  outer : state'.isOuter = true → state' = state ∧ r'.context = r.context

theorem taken_of_takeAll {r r' : Reader} {state state' : State} {tokens : List (Nat × Token)}
    {root : Bool} (h : r.takeAll state tokens = .ok (r', state', root)) :
    Taken r r' state state' := by
  rw [takeAll_eq] at h
  refine foldlM_keeps (P := fun s => Taken r s.1 state s.2.1) ?_ h
    ⟨rfl, rfl, rfl, ⟨[], noTags_nil, rfl⟩, fun _ => ⟨rfl, rfl⟩⟩
  rintro ⟨r₁, s₁, b₁⟩ ⟨start, token⟩ ⟨r₂, s₂, b₂⟩ hstep ht
  obtain ⟨action, htake, -⟩ := takeNext_eq_ok_iff.mp hstep
  obtain ⟨hnext, context, hperform, hr₂⟩ := take_eq_ok_iff.mp htake
  simp only at hr₂ hnext hperform
  subst hr₂
  obtain ⟨notes, hnotes, hevents⟩ := ht.events
  refine ⟨ht.unit, ht.offset, ht.stack, ⟨(eventOf? action).toList ++ notes, ?_, ?_⟩,
    fun houter => ?_⟩
  · exact (noTags_eventOf? action).append hnotes
  · rw [List.append_assoc]
    exact congrArg _ hevents
  · obtain ⟨rfl, hplain⟩ := State.next?_outer hnext (.inr houter) (by rintro rfl; cases houter)
    rw [perform_of_plain hplain] at hperform
    cases hperform
    exact ht.outer houter

theorem takeAll_admitting {r r' : Reader} {state state' : State} {tokens : List (Nat × Token)}
    {root : Bool} (h : r.takeAll state tokens = .ok (r', state', root)) (admits : Bool) :
    (r.admitting admits).takeAll state tokens = .ok (r'.admitting admits, state', root) := by
  rw [takeAll_eq] at h ⊢
  have hstep : ∀ s token s', takeNext s token = .ok s' →
      takeNext (s.1.admitting admits, s.2) token = .ok (s'.1.admitting admits, s'.2) := by
    rintro ⟨r₁, s₁, b₁⟩ ⟨start, token⟩ ⟨r₂, s₂, b₂⟩ htake
    obtain ⟨action, htake, hb₂⟩ := takeNext_eq_ok_iff.mp htake
    obtain ⟨hnext, context, hperform, hr₂⟩ := take_eq_ok_iff.mp htake
    simp only at hr₂ hb₂ hnext hperform
    subst hr₂
    exact takeNext_eq_ok_iff.mpr ⟨action, take_eq_ok_iff.mpr ⟨hnext, context, hperform, rfl⟩, hb₂⟩
  have hmap := foldlM_map_eq_ok (k := id) hstep h
  rwa [List.map_id] at hmap

/-- Without a `<` that begins the root element, no token begins it. -/
theorem root_eq_false {r r' : Reader} {state state' : State} {tokens : List (Nat × Token)}
    {root : Bool} (h : r.takeAll state tokens = .ok (r', state', root))
    (hno : ∀ t ∈ tokens, t.2 ≠ .rootOpen) :
    root = false := by
  have hall : ∀ {s s' : Reader × State × Bool}, tokens.foldlM takeNext s = .ok s' → s.2.2 = false →
      s'.2.2 = false := by
    clear h
    induction tokens with
    | nil =>
      intro s s' h hs
      cases h
      exact hs
    | cons token tokens ih =>
      intro s s' h hs
      obtain ⟨m, hm, hrest⟩ := foldlM_cons_eq_ok_iff.mp h
      obtain ⟨action, htake, hroot⟩ := takeNext_eq_ok_iff.mp hm
      obtain ⟨hnext, -⟩ := take_eq_ok_iff.mp htake
      refine ih (fun t ht => hno t (List.mem_cons_of_mem _ ht)) hrest ?_
      rw [hroot, hs, Bool.false_or, decide_eq_false_iff_not]
      rintro rfl
      exact hno token List.mem_cons_self (State.next?_root hnext).1
  exact hall h rfl

/-! ## One character outside the root element -/

/-- Where the token under way begins when a symbol is read. -/
def startAt (r : Reader) (lexer : Lexer) : Nat :=
  if lexer = .idle then r.offset else r.mark

/-- A symbol goes on with what stands outside the root element, or the root element has begun with
the symbol before it. -/
theorem step_prolog_eq_ok_iff {r r' : Reader} {state : State} {lexer : Lexer} {s : Symbol}
    (hphase : r.phase = .prolog state lexer) : r.step s = .ok r' ↔
      ∃ r₁ state₁ root, r.takeAll state
          (lexer.step r.context.alphabet (r.startAt lexer) r.offset s.glyph).tokens =
            .ok (r₁, state₁, root) ∧
        if root then ∃ next,
          ({ r₁ with mark := r.startAt lexer } : Reader).stepContent .lessThan s = .ok next ∧
            r' = { next with offset := r.offset + s.width }
        else ∃ lexer' mark,
          (lexer.step r.context.alphabet (r.startAt lexer) r.offset s.glyph).next =
            .ok (lexer', mark) ∧
            r' =
              { r₁ with phase := .prolog state₁ lexer', mark, offset := r.offset + s.width } := by
  rw [step_prolog hphase, map_eq_ok_iff]
  unfold stepProlog
  constructor
  · rintro ⟨next, hnext, rfl⟩
    obtain ⟨⟨r₁, state₁, root⟩, htake, hrest⟩ := bind_eq_ok_iff.mp hnext
    refine ⟨r₁, state₁, root, htake, ?_⟩
    cases root with
    | true => exact ⟨next, hrest, rfl⟩
    | false =>
      simp only [Bool.false_eq_true, if_false] at hrest ⊢
      split at hrest
      · cases hrest
      · rename_i lexer' mark hlexed
        cases hrest
        exact ⟨lexer', mark, hlexed, rfl⟩
  · rintro ⟨r₁, state₁, root, htake, hrest⟩
    cases root with
    | true =>
      obtain ⟨next, hnext, rfl⟩ := hrest
      exact ⟨next, bind_eq_ok_iff.mpr ⟨_, htake, hnext⟩, rfl⟩
    | false =>
      obtain ⟨lexer', mark, hnext, rfl⟩ := hrest
      refine ⟨{ r₁ with phase := .prolog state₁ lexer', mark }, ?_, rfl⟩
      refine bind_eq_ok_iff.mpr ⟨_, htake, ?_⟩
      simp only [startAt] at hnext
      simp only [Bool.false_eq_true, if_false, hnext]
      rfl

/-- The symbol after the `<` of the root element is read as content. -/
theorem step_of_stepContent_lessThan {r next : Reader} {s : Symbol} {mark : Nat}
    (h : ({ r with mark } : Reader).stepContent .lessThan s = .ok next) :
    ({ r with phase := .content .lessThan, mark } : Reader).step s =
      .ok { next with offset := r.offset + s.width } := by
  have hphase : ({ r with phase := .content .lessThan, mark } : Reader).phase =
    .content .lessThan := rfl
  rw [step_content hphase]
  exact congrArg (Except.map _) h

/-! ## The end of a document -/

/-- What the end of the document completes may not stand after the root element, spoiled or not. -/
theorem ended_refused {start : Nat} {lexer : Lexer} {t : Nat × Token} (h : t ∈ lexer.ended start) :
    State.epilog.next? t.2 = none ∧ State.epilog.next? (spoil t.2) = none := by
  unfold Lexer.ended at h
  split at h
  case h_3 proper read =>
    rw [List.mem_singleton.mp h]
    cases proper <;> exact ⟨rfl, rfl⟩
  case h_6 => cases h
  all_goals
    rw [List.mem_singleton.mp h]
    exact ⟨rfl, rfl⟩

/-- So nothing is pending where a document ends after its root element. -/
theorem eq_nil_of_takeAll {r r' : Reader} {state : State} {pending : List (Nat × Token)}
    {root : Bool} (hrefused : ∀ t ∈ pending, State.epilog.next? t.2 = none)
    (h : r.takeAll state pending = .ok (r', .epilog, root)) :
    state = .epilog ∧ pending = [] ∧ r' = r := by
  obtain ⟨rfl, -⟩ := (taken_of_takeAll h).outer rfl
  cases pending with
  | nil =>
    cases h
    exact ⟨rfl, rfl, rfl⟩
  | cons t rest =>
    rw [takeAll_eq] at h
    obtain ⟨s, hs, -⟩ := foldlM_cons_eq_ok_iff.mp h
    obtain ⟨action, htake, -⟩ := takeNext_eq_ok_iff.mp hs
    have hnext := hrefused t List.mem_cons_self
    rw [(take_eq_ok_iff.mp htake).1] at hnext
    cases hnext

theorem idle_of_mayEnd {start : Nat} {lexer : Lexer} (hend : lexer.mayEnd = true)
    (hnil : lexer.ended start = []) : lexer = .idle := by
  cases lexer with
  | idle => rfl
  | literalEnd read | hashName read | name proper read | closeParen | closeBracket => cases hnil
  | _ => cases hend

/-- **The end.** A document ends well after its root element only, where no token is under way and
no bytes are left. -/
theorem finish_eq_ok_iff {r : Reader} {ragged : Bool} {events : List Event} :
    r.finish ragged = .ok events ↔
      ragged = false ∧ r.phase = .prolog .epilog .idle ∧ events = r.events.reverse := by
  constructor
  · intro h
    unfold finish at h
    split at h
    · rename_i state lexer hphase
      unfold finishProlog at h
      by_cases hend : lexer.mayEnd
      · simp only [hend, Bool.not_true, Bool.false_eq_true, if_false] at h
        obtain ⟨⟨r₁, last, root⟩, htake, h⟩ := bind_eq_ok_iff.mp h
        by_cases hlast : last = .epilog
        · subst hlast
          have hrefused :
              ∀ t ∈ (lexer.ended r.mark).map fun t => (t.1, if ragged then spoil t.2 else t.2),
              State.epilog.next? t.2 = none := by
            intro t ht
            obtain ⟨t', ht', rfl⟩ := List.mem_map.mp ht
            obtain ⟨hplain, hspoiled⟩ := ended_refused ht'
            cases ragged
            · exact hplain
            · exact hspoiled
          obtain ⟨rfl, hnone, rfl⟩ := eq_nil_of_takeAll hrefused htake
          have hended := List.map_eq_nil_iff.mp hnone
          cases ragged with
          | false =>
            cases h
            exact ⟨rfl, hphase.trans (congrArg _ (idle_of_mayEnd hend hended)), rfl⟩
          | true =>
            rw [hended] at h
            cases h
        · exfalso
          repeat' split at h
          all_goals cases h
      · simp only [hend, Bool.not_false, if_true] at h
        cases h
    · cases h
  · rintro ⟨rfl, hphase, rfl⟩
    simp only [finish, hphase]
    rfl

/-! ## The way to the root element -/

/-- Whether the symbols declare a document type. -/
def declaresType (r : Reader) : List Symbol → Bool
  | [] => false
  | s :: rest =>
    match r.step s with
    | .error _ => false
    | .ok next => next.phase.inType || next.declaresType rest

theorem takeAll_rootOpen (r : Reader) {state : State}
    (hstate : state = .beforeDoctype ∨ state = .afterDoctype) :
    r.takeAll state [(r.mark, .rootOpen)] = .ok (r, state, true) := by
  rcases hstate with rfl | rfl <;> rfl

theorem afterLessThan_of_tokens {alphabet : Alphabet} {start : Nat} {c : Char}
    (h : (Lexer.afterLessThan alphabet start c).tokens ≠ []) :
    Lexer.afterLessThan alphabet start c = .done start .rootOpen := by
  unfold Lexer.afterLessThan at h ⊢
  split at h
  · exact absurd rfl h
  · exact absurd rfl h
  · split at h
    · rename_i hc
      rw [if_pos hc]
    · exact absurd rfl h

variable [Code]

theorem inType_of_feed {r r' : Reader} {cs rest : List Char} (h : r.feed cs = .ok r')
    (hnone : r.declaresType ((cs ++ rest).map Symbol.ofChar) = false)
    (hr : r.phase.inType = false) :
    r'.phase.inType = false := by
  induction cs generalizing r with
  | nil =>
    cases h
    exact hr
  | cons c cs ih =>
    obtain ⟨m, hm, hrest⟩ := feed_cons_eq_ok_iff.mp h
    simp only [List.cons_append, List.map_cons, declaresType, hm, Bool.or_eq_false_iff] at hnone
    exact ih hrest hnone.2 hnone.1

/-- What a reader is in that has read `cs` since `r₀` and has not come to the root element. -/
structure Outside (r₀ : Reader) (cs : List Char) (r : Reader) (state : State)
    (lexer : Lexer) : Prop where
  phase : r.phase = .prolog state lexer
  unfinished : state ≠ .epilog
  unit : r.unit = r₀.unit
  stack : r.stack = r₀.stack
  events : ∃ notes, NoTags notes ∧ r.events = notes ++ r₀.events
  context : state.isOuter = true → r.context = r₀.context
  feed : ∀ admits, (r₀.admitting admits).feed cs = .ok (r.admitting admits)
  lessThan : lexer = .lessThan → ∃ head, cs = head ++ ['<'] ∧ r.mark + 1 = r.offset

/-- The root element begins after `head`, where the reader may be in content as well: in `enter`. -/
structure Entry (r₀ : Reader) (head : List Char) (c : Char) (enter : Reader) : Prop where
  phase : enter.phase = .content .idle
  unit : enter.unit = r₀.unit
  stack : enter.stack = r₀.stack
  offset : enter.offset = r₀.offset + (inCode head).length
  events : ∃ notes, NoTags notes ∧ enter.events = notes ++ r₀.events
  context : ∀ rest, r₀.phase.inType = false →
    r₀.declaresType ((head ++ '<' :: rest).map Symbol.ofChar) = false → enter.context = r₀.context
  feed : ∀ admits rest last, (r₀.admitting admits).feed (head ++ '<' :: c :: rest) = .ok last ↔
    (enter.admitting admits).feed ('<' :: c :: rest) = .ok last

/-- The character after the `<` of the root element is read as in content. -/
theorem step_root {r r' : Reader} {state : State} {c : Char}
    (hphase : r.phase = .prolog state .lessThan)
    (hstate : state = .beforeDoctype ∨ state = .afterDoctype)
    (hc : Lexer.afterLessThan r.context.alphabet r.mark c = .done r.mark .rootOpen) :
    r.step (.ofChar c) = .ok r' ↔
      ({ r with phase := .content .lessThan } : Reader).step (.ofChar c) = .ok r' := by
  have htokens : (Lexer.step r.context.alphabet (r.startAt .lessThan) r.offset .lessThan
      (Symbol.ofChar c).glyph).tokens = [(r.mark, .rootOpen)] :=
    congrArg Prolog.Lexed.tokens hc
  have hcontent : ({ r with phase := .content .lessThan } : Reader).phase = .content .lessThan :=
    rfl
  rw [step_prolog_eq_ok_iff hphase, htokens, takeAll_rootOpen r hstate,
    step_content hcontent, map_eq_ok_iff]
  constructor
  · rintro ⟨r₁, state₁, root, htake, hrest⟩
    cases htake
    obtain ⟨next, hnext, rfl⟩ := hrest
    exact ⟨next, hnext, rfl⟩
  · rintro ⟨next, hnext, rfl⟩
    exact ⟨r, state, true, rfl, next, hnext, rfl⟩

theorem feed_enter (r : Reader) (hmark : r.mark + 1 = r.offset) (cs : List Char) :
    ({ r with phase := .content .idle, offset := r.mark } : Reader).feed ('<' :: cs) =
      ({ r with phase := .content .lessThan } : Reader).feed cs := by
  rw [feed_cons]
  have hstep : ({ r with phase := .content .idle, offset := r.mark } : Reader).step (.ofChar '<') =
      .ok { r with phase := .content .lessThan, offset := r.mark + 1 } := by
    rw [ofChar_of_lt (by decide)]
    rfl
  rw [hstep, hmark]
  rfl

/-- From the `<` of the root element on, a document may be read as content as well. -/
theorem Outside.entry {r₀ r : Reader} {head : List Char} {c : Char} {state : State}
    (h : Outside r₀ (head ++ ['<']) r state .lessThan)
    (hstate : state = .beforeDoctype ∨ state = .afterDoctype)
    (hc : Lexer.afterLessThan r.context.alphabet r.mark c = .done r.mark .rootOpen) :
    Entry r₀ head c { r with phase := .content .idle, offset := r.mark } := by
  obtain ⟨-, -, hmark⟩ := h.lessThan rfl
  have hoffset := feed_offset (h.feed r₀.admitsEntityTags)
  refine ⟨rfl, h.unit, h.stack, ?_, h.events, ?_, ?_⟩
  · rw [inCode_append, List.length_append] at hoffset
    simp only [admitting] at hoffset
    have hone : (inCode ['<']).length = 1 := length_inCode_of_isCommon (by decide)
    simp only
    omega
  · intro rest hr₀ hnone
    refine h.context ?_
    have hfeed : r₀.feed (head ++ ['<']) = .ok (r.admitting r₀.admitsEntityTags) :=
      h.feed r₀.admitsEntityTags
    rw [← List.singleton_append, ← List.append_assoc] at hnone
    have houter := inType_of_feed hfeed hnone hr₀
    simpa [admitting, h.phase, Phase.inType] using houter
  · intro admits rest last
    have henter := feed_enter (r.admitting admits) hmark (c :: rest)
    refine Iff.trans ?_ (Eq.congr_left henter.symm)
    rw [← List.singleton_append, ← List.append_assoc, feed_append_eq_ok_iff]
    constructor
    · rintro ⟨m, hm, hfeed⟩
      obtain rfl := Except.ok.inj ((h.feed admits).symm.trans hm)
      obtain ⟨q, hq, hrest⟩ := feed_cons_eq_ok_iff.mp hfeed
      exact feed_cons_eq_ok_iff.mpr
        ⟨q, (step_root (r := r.admitting admits) h.phase hstate hc).mp hq, hrest⟩
    · intro hfeed
      obtain ⟨q, hq, hrest⟩ := feed_cons_eq_ok_iff.mp hfeed
      exact ⟨_, h.feed admits, feed_cons_eq_ok_iff.mpr
        ⟨q, (step_root (r := r.admitting admits) h.phase hstate hc).mpr hq, hrest⟩⟩

theorem outside_step {r₀ r r' : Reader} {cs : List Char} {c : Char} {state : State} {lexer : Lexer}
    (h : Outside r₀ cs r state lexer) (hstep : r.step (.ofChar c) = .ok r') :
    (∃ state' lexer', Outside r₀ (cs ++ [c]) r' state' lexer') ∨
      ∃ head enter, cs = head ++ ['<'] ∧ Entry r₀ head c enter := by
  obtain ⟨r₁, state₁, root, htake, hrest⟩ := (step_prolog_eq_ok_iff h.phase).mp hstep
  cases root with
  | false =>
    left
    obtain ⟨lexer', mark, hnext, rfl⟩ := hrest
    have htaken := taken_of_takeAll htake
    obtain ⟨notes, hnotes, hevents⟩ := h.events
    obtain ⟨notes₁, hnotes₁, hevents₁⟩ := htaken.events
    refine ⟨state₁, lexer', rfl, ?_, htaken.unit.trans h.unit, htaken.stack.trans h.stack,
      ⟨notes₁ ++ notes, hnotes₁.append hnotes, ?_⟩, ?_, ?_, ?_⟩
    · rintro rfl
      exact h.unfinished (htaken.outer rfl).1.symm
    · simp only [hevents₁, hevents, List.append_assoc]
    · intro houter
      obtain ⟨rfl, hcontext⟩ := htaken.outer houter
      exact hcontext.trans (h.context houter)
    · intro admits
      refine feed_append_eq_ok_iff.mpr ⟨_, h.feed admits, ?_⟩
      rw [feed_singleton]
      exact (step_prolog_eq_ok_iff (r := r.admitting admits) h.phase).mpr
        ⟨_, state₁, false, takeAll_admitting htake admits, lexer', mark, hnext, rfl⟩
    · rintro rfl
      by_cases hlexer : lexer = .lessThan
      · subst hlexer
        have hafter : (Lexer.afterLessThan r.context.alphabet r.mark c).next =
            .ok (.lessThan, mark) :=
          hnext
        unfold Lexer.afterLessThan at hafter
        split at hafter
        · cases hafter
        · cases hafter
        · split at hafter <;> cases hafter
      · have hapart := Lexer.readChar_apart r.context.alphabet (r.startAt lexer) r.offset c hlexer
        obtain ⟨rfl, rfl⟩ := hapart.lessThan mark hnext
        refine ⟨cs, rfl, ?_⟩
        rw [ofChar_of_lt (by decide)]
  | true =>
    right
    have hlexer : lexer = .lessThan := by
      by_contra hlexer
      have hapart := Lexer.readChar_apart r.context.alphabet (r.startAt lexer) r.offset c hlexer
      cases root_eq_false htake hapart.noRoot
    subst hlexer
    have hc : Lexer.afterLessThan r.context.alphabet r.mark c = .done r.mark .rootOpen := by
      refine afterLessThan_of_tokens ?_
      intro hnil
      have htokens : (Lexer.step r.context.alphabet (r.startAt .lessThan) r.offset .lessThan
        (Symbol.ofChar c).glyph).tokens = [] := hnil
      rw [htokens] at htake
      cases htake
    have htokens : (Lexer.step r.context.alphabet (r.startAt .lessThan) r.offset .lessThan
        (Symbol.ofChar c).glyph).tokens = [(r.mark, .rootOpen)] :=
      congrArg Prolog.Lexed.tokens hc
    rw [htokens] at htake
    obtain ⟨action, htake, haction⟩ := takeAll_singleton htake
    obtain ⟨hnext, -⟩ := take_eq_ok_iff.mp htake
    obtain rfl : action = .root := of_decide_eq_true haction.symm
    have hstate := (State.next?_root hnext).2
    obtain ⟨head, rfl, -⟩ := h.lessThan rfl
    exact ⟨head, _, rfl, h.entry hstate hc⟩

/-- **The root element.** A document that is read to its end has a root element, and from the `<`
of its tag on it is read as content. -/
theorem exists_root {r₀ last : Reader} {state : State} {cs : List Char} {events : List Event}
    (hphase : r₀.phase = .prolog state .idle) (hstate : state ≠ .epilog) (h : r₀.feed cs = .ok last)
    (hend : last.finish false = .ok events) :
    ∃ head c rest enter, cs = head ++ '<' :: c :: rest ∧ Entry r₀ head c enter := by
  have houtside : ∀ (ds : List Char) {cs : List Char} {r : Reader} {state : State} {lexer : Lexer},
      Outside r₀ cs r state lexer → r.feed ds = .ok last →
      ∃ head c rest enter, cs ++ ds = head ++ '<' :: c :: rest ∧ Entry r₀ head c enter := by
    intro ds
    induction ds with
    | nil =>
      intro cs r state lexer hr hfeed
      cases hfeed
      have hphase := (finish_eq_ok_iff.mp hend).2.1
      rw [hr.phase] at hphase
      cases hphase
      exact absurd rfl hr.unfinished
    | cons d ds ih =>
      intro cs r state lexer hr hfeed
      obtain ⟨r', hstep, hrest⟩ := feed_cons_eq_ok_iff.mp hfeed
      rcases outside_step hr hstep with ⟨state', lexer', hr'⟩ | ⟨head, enter, rfl, hentry⟩
      · obtain ⟨head, c, rest, enter, hcs, hentry⟩ := ih hr' hrest
        refine ⟨head, c, rest, enter, ?_, hentry⟩
        rw [← hcs, List.append_assoc, List.singleton_append]
      · refine ⟨head, d, ds, enter, ?_, hentry⟩
        rw [List.append_assoc, List.singleton_append]
  have hstart : Outside r₀ [] r₀ state .idle :=
    ⟨hphase, hstate, rfl, rfl, ⟨[], noTags_nil, rfl⟩, fun _ => rfl, fun _ => rfl, by rintro ⟨⟩⟩
  exact houtside cs hstart h

end Reader

end AccessPatch.Xml
