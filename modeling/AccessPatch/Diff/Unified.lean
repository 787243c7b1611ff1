import AccessPatch.Diff.Matching
import AccessPatch.Text.Blank
import AccessPatch.Text.Utf8

/-!
# Unified differences

`unified` shows how one text becomes another: hunks of removed and added lines with three lines of
context. A text without a difference has no hunks and no heading.
-/

namespace AccessPatch.Diff

/-- A stretch of both texts: lines that are the same in both, or old lines and the new lines in
their place. -/
structure Stretch where
  same : Bool
  oldStart : Nat
  oldStop : Nat
  newStart : Nat
  newStop : Nat
deriving DecidableEq, Repr

/-- The stretches from two indices on, given the runs in common; the texts end at `oldEnd` and
`newEnd`. -/
def stretchesFrom (oldEnd newEnd : Nat) : Nat → Nat → List Block → List Stretch
  | old, new, [] => changed old oldEnd new newEnd
  | old, new, block :: rest =>
    changed old block.old new block.new ++
      { same := true, oldStart := block.old, oldStop := block.old + block.size,
        newStart := block.new, newStop := block.new + block.size } ::
      stretchesFrom oldEnd newEnd (block.old + block.size) (block.new + block.size) rest
where
  /-- The stretch between two runs, if there is anything between them. -/
  changed (oldStart oldStop newStart newStop : Nat) : List Stretch :=
    if oldStart < oldStop ∨ newStart < newStop then
      [{ same := false, oldStart, oldStop, newStart, newStop }]
    else []

/-- The stretches of two texts. -/
def stretches (a b : List String) : List Stretch :=
  stretchesFrom a.length b.length 0 0 (blocks a b)

/-- The number of lines of context around a change. -/
def context : Nat := 3

namespace Stretch

/-- The last lines of a stretch. -/
def lastLines (s : Stretch) : Stretch :=
  { s with oldStart := max s.oldStart (s.oldStop - context)
           newStart := max s.newStart (s.newStop - context) }

/-- The first lines of a stretch. -/
def firstLines (s : Stretch) : Stretch :=
  { s with oldStop := min s.oldStop (s.oldStart + context)
           newStop := min s.newStop (s.newStart + context) }

end Stretch

/-- Stretches with what is the same at their two ends cut down to the context. -/
def trimEnds (l : List Stretch) : List Stretch :=
  let l := match l with
    | s :: rest => (if s.same then s.lastLines else s) :: rest
    | [] => []
  match l.reverse with
  | s :: rest => ((if s.same then s.firstLines else s) :: rest).reverse
  | [] => []

/-- Cuts stretches into hunks wherever more is the same than two contexts hold; `hunk` is the one
under way. -/
def hunksFrom (hunk : List Stretch) : List Stretch → List (List Stretch)
  | [] => [hunk]
  | s :: rest =>
    if s.same ∧ 2 * context < s.oldStop - s.oldStart then
      (hunk ++ [s.firstLines]) :: hunksFrom [s.lastLines] rest
    else hunksFrom (hunk ++ [s]) rest

/-- The hunks of two texts: groups of stretches that hold a change. -/
def hunks (a b : List String) : List (List Stretch) :=
  (hunksFrom [] (trimEnds (stretches a b))).filter fun hunk => hunk.any (! ·.same)

/-- A range of lines in the heading of a hunk. An empty range has the number of the line before
it. -/
def rangeText (start stop : Nat) : String :=
  if stop - start = 1 then toString (start + 1)
  else if stop = start then toString start ++ ",0"
  else toString (start + 1) ++ "," ++ toString (stop - start)

/-- The heading of a hunk. -/
def heading (hunk : List Stretch) : String :=
  match hunk.head?, hunk.getLast? with
  | some first, some last =>
    "@@ -" ++ rangeText first.oldStart last.oldStop ++
      " +" ++ rangeText first.newStart last.newStop ++ " @@\n"
  | _, _ => ""

/-- The lines of a stretch, each with its mark. -/
def Stretch.text (a b : List String) (s : Stretch) : String :=
  let marked (mark : String) (lines : List String) := String.join (lines.map (mark ++ ·))
  if s.same then marked " " (slice a s.oldStart s.oldStop)
  else marked "-" (slice a s.oldStart s.oldStop) ++ marked "+" (slice b s.newStart s.newStop)

/-- The difference between two texts, given as lines with their terminators. -/
def unifiedLines (a b : List String) (path : String) : String :=
  match hunks a b with
  | [] => ""
  | hunks =>
    "--- a/" ++ path ++ "\n+++ b/" ++ path ++ "\n" ++
      String.join (hunks.map fun hunk => heading hunk ++ String.join (hunk.map (Stretch.text a b)))

/-- The lines of a document as text, each with its terminator. -/
def linesOf (document : Bytes) : List String :=
  (Text.lines (Utf8.decodeLossy document).toList).map String.ofList

/-- The difference between two documents. -/
def unified (before after : Bytes) (path : String) : String :=
  unifiedLines (linesOf before) (linesOf after) path

end AccessPatch.Diff
