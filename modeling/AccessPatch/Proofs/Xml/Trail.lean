import AccessPatch.Proofs.Xml.Stretch

/-!
# The root element as a list of stretches

Cutting off one stretch after the other, a reader's way through the root element becomes a list of
sound stretches whose tags nest (`exists_trail`). Conversely each such list is read to its end,
wherever it stands, and yields the events of its stretches (`feed_trail`). So a document can be
changed stretch by stretch.
-/

namespace AccessPatch.Xml

/-- The tags of the stretches nest: they end what is open in `stack` and all that they begin, and
the last of them ends the last element that is open. -/
def Nests : List String → List Stretch → Prop
  | _, [] => False
  | stack, st :: rest => ∃ stack', st.stackAfter? stack = some stack' ∧
      if stack' = [] then rest = [] else Nests stack' rest

/-- All characters of some stretches. -/
def trailChars (sts : List Stretch) : List Char :=
  sts.flatMap Stretch.chars

@[simp] theorem trailChars_nil : trailChars [] = [] := rfl

@[simp] theorem trailChars_cons (st : Stretch) (sts : List Stretch) :
    trailChars (st :: sts) = st.chars ++ trailChars sts := rfl

/-- A tag stands between `<` and `>`. -/
theorem Stretch.Spelled.exists_text {alphabet : Alphabet} {st : Stretch} (h : st.Spelled alphabet) :
    ∃ inner, st.text = '<' :: (inner ++ ['>']) := by
  unfold Stretch.Spelled at h
  cases hform : st.form <;> rw [hform] at h
  · obtain ⟨-, more, htext, -⟩ := h
    exact ⟨_, htext⟩
  · obtain ⟨-, more, htext, -⟩ := h
    exact ⟨_, htext⟩
  · obtain ⟨-, space, htext, -⟩ := h
    exact ⟨'/' :: (st.name.toList ++ space), htext⟩

theorem Stretch.Spelled.two_le_length {alphabet : Alphabet} {st : Stretch}
    (h : st.Spelled alphabet) :
    2 ≤ st.text.length := by
  obtain ⟨inner, htext⟩ := h.exists_text
  rw [htext, List.length_cons, List.length_append, List.length_singleton]
  omega

theorem Reader.between_phase_of_ne_nil {r : Reader} {stack : List String} (h : stack ≠ [])
    (mark : Nat) (events : List Event) (offset : Nat) :
    (r.between mark stack events offset).phase = .content .idle := by
  cases stack with
  | nil => exact absurd rfl h
  | cons name outer => rfl

variable [Code]

/-- The number of bytes of some stretches. -/
def trailSize (sts : List Stretch) : Nat :=
  (inCode (trailChars sts)).length

/-- The events of some stretches that begin at `pos`, last one first. -/
def trailEvents (pos : Nat) : List Stretch → List Event
  | [] => []
  | st :: rest => trailEvents (pos + st.size) rest ++ st.events pos

@[simp] theorem trailSize_nil : trailSize [] = 0 := rfl

@[simp] theorem trailSize_cons (st : Stretch) (sts : List Stretch) :
    trailSize (st :: sts) = st.size + trailSize sts := by
  rw [trailSize, trailChars_cons, inCode_append, List.length_append]
  rfl

namespace Reader

/-- A reader goes through stretches that nest, wherever they stand. -/
theorem feed_trail {sts : List Stretch} {r : Reader} (hr : r.phase = .content .idle)
    (hunit : r.unit = 1) (hnests : Nests r.stack sts) (hsound : ∀ st ∈ sts, st.Passes r.context) :
    ∃ mark, r.feed (trailChars sts) =
      .ok
        (r.between mark [] (trailEvents r.offset sts ++ r.events) (r.offset + trailSize sts)) := by
  induction sts generalizing r with
  | nil => exact hnests.elim
  | cons st sts ih =>
    obtain ⟨stack, hstack, hrest⟩ := hnests
    obtain ⟨mark, hfeed⟩ := hsound st List.mem_cons_self r stack hr hunit rfl hstack
    by_cases hend : stack = []
    · rw [if_pos hend] at hrest
      subst hend hrest
      exact ⟨mark, by simpa [trailEvents] using hfeed⟩
    · rw [if_neg hend] at hrest
      obtain ⟨mark', hfeed'⟩ := ih
        (r := r.between mark stack (st.events r.offset ++ r.events) (r.offset + st.size))
        (between_phase_of_ne_nil hend _ _ _) hunit hrest
        fun st hst => hsound st (List.mem_cons_of_mem _ hst)
      refine ⟨mark', ?_⟩
      rw [trailChars_cons]
      refine feed_append_eq_ok_iff.mpr ⟨_, hfeed, hfeed'.trans ?_⟩
      simp only [between, trailEvents, trailSize_cons, List.append_assoc, Nat.add_assoc]

/-- **The root element.** What a reader between two tags goes through up to the end of the root
element are sound stretches that nest. -/
theorem exists_trail {r last : Reader} {cs : List Char} (hr : r.phase = .content .idle)
    (hunit : r.unit = 1) (hadmits : r.admitsEntityTags = false) (h : r.feed cs = .ok last)
    (hlast : ∀ lexer, last.phase ≠ .content lexer) :
    ∃ (sts : List Stretch) (tail : List Char), cs = trailChars sts ++ tail ∧ Nests r.stack sts ∧
      ∀ st ∈ sts, st.Sound r.context := by
  induction hn : cs.length using Nat.strongRecOn generalizing r cs with
  | ind n ih =>
    obtain ⟨st, rest, stack, rfl, hsound, hstack⟩ := exists_stretch hr hunit hadmits h hlast
    by_cases hend : stack = []
    · refine ⟨[st], rest, by simp, ⟨stack, hstack, ?_⟩, ?_⟩
      · rw [if_pos hend]
      · intro st' hst'
        rw [List.mem_singleton.mp hst']
        exact hsound
    · obtain ⟨m, hm, hrest⟩ := feed_append_eq_ok_iff.mp h
      obtain ⟨mark, hfeed⟩ := hsound.passes r stack hr hunit rfl hstack
      obtain rfl := Except.ok.inj (hm.symm.trans hfeed)
      have hshort : rest.length < n := by
        have htext := hsound.spelled.two_le_length
        rw [← hn, List.length_append, Stretch.chars, List.length_append]
        omega
      obtain ⟨sts, tail, rfl, hnests, hall⟩ :=
        ih rest.length hshort (between_phase_of_ne_nil hend _ _ _) hunit hadmits hrest rfl
      refine ⟨st :: sts, tail, by rw [trailChars_cons, List.append_assoc], ⟨stack, hstack, ?_⟩, ?_⟩
      · rw [if_neg hend]
        exact hnests
      · intro st' hst'
        rcases List.mem_cons.mp hst' with rfl | hst'
        · exact hsound
        · exact hall st' hst'

end Reader

end AccessPatch.Xml
