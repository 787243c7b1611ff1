/-!
# Matching lines

`blocks` finds the runs of lines that two texts have in common, in order: the longest run first,
then what matches before and after it. In a long text, lines that occur often are no evidence of a
match; they only extend one.
-/

namespace AccessPatch.Diff

/-- A run of lines that both texts have: where it begins in each, and how long it is. -/
structure Block where
  old : Nat
  new : Nat
  size : Nat
deriving DecidableEq, Repr

/-- The lines from one index up to another. -/
def slice (lines : List String) (start stop : Nat) : List String :=
  (lines.drop start).take (stop - start)

/-- The number of lines that two texts have in common at their beginnings. -/
def commonLead : List String → List String → Nat
  | a :: as, b :: bs => if a = b then commonLead as bs + 1 else 0
  | _, _ => 0

/-- The number of lines from which on a text is long. -/
def longText : Nat := 200

/-- Whether a line occurs too often in a long text: more than once in a hundred lines, and once
more. -/
def isFrequent (lines : List String) (line : String) : Bool :=
  decide (longText ≤ lines.length ∧ lines.length / 100 + 1 < lines.count line)

/-- The indices of a line in a text, none if it is frequent. -/
def indicesOf (lines : List String) (line : String) : List Nat :=
  if isFrequent lines line then []
  else (lines.zipIdx.filter fun (other, _) => other == line).map Prod.snd

/-- The state of a search: the best run so far, and the lengths of the runs that end with the last
line of the old text, by their last index in the new one. -/
structure Search where
  best : Block
  ending : List (Nat × Nat) := []
deriving DecidableEq, Repr

/-- The length of the run that ends before an index. -/
def Search.lengthBefore (s : Search) (index : Nat) : Nat :=
  match index with
  | 0 => 0
  | n + 1 => (s.ending.lookup n).getD 0

/-- Takes the next line of the old text, which has the index `old` and the given indices in the
new one. -/
def Search.step (s : Search) (old : Nat) (indices : List Nat) : Search :=
  let ending := indices.map fun new => (new, s.lengthBefore new + 1)
  let best := ending.foldl (fun best (new, size) =>
    if best.size < size then { old := old + 1 - size, new := new + 1 - size, size }
      else best) s.best
  { best, ending }

/-- The longest run in ranges of both texts, the first of several. `rows` are the indices of each
old line in the new text. -/
def longestRun (rows : List (List Nat)) (oldStart oldStop newStart newStop : Nat) : Block :=
  let range := ((rows.drop oldStart).take (oldStop - oldStart)).zipIdx oldStart
  (range.foldl (fun s (indices, old) =>
    s.step old (indices.filter fun new => decide (newStart ≤ new ∧ new < newStop)))
    { best := { old := oldStart, new := newStart, size := 0 } : Search }).best

/-- A run extended on both sides by the lines that match there. -/
def extend (a b : List String) (oldStart oldStop newStart newStop : Nat) (run : Block) : Block :=
  let back := commonLead (slice a oldStart run.old).reverse (slice b newStart run.new).reverse
  let forth :=
    commonLead (slice a (run.old + run.size) oldStop) (slice b (run.new + run.size) newStop)
  { old := run.old - back, new := run.new - back, size := back + run.size + forth }

/-- The runs in ranges of both texts, in order; `fuel` is greater than the number of old lines. -/
def blocksIn (a b : List String) (rows : List (List Nat)) :
    Nat → Nat → Nat → Nat → Nat → List Block
  | 0, _, _, _, _ => []
  | fuel + 1, oldStart, oldStop, newStart, newStop =>
    let block := extend a b oldStart oldStop newStart newStop
      (longestRun rows oldStart oldStop newStart newStop)
    if block.size = 0 then []
    else
      (if oldStart < block.old ∧ newStart < block.new then
        blocksIn a b rows fuel oldStart block.old newStart block.new else []) ++
      block ::
      (if block.old + block.size < oldStop ∧ block.new + block.size < newStop then
        blocksIn a b rows fuel (block.old + block.size) oldStop (block.new + block.size) newStop
        else [])

/-- Runs with those joined that touch in both texts. -/
def join : List Block → List Block
  | [] => []
  | block :: rest =>
    match join rest with
    | next :: later =>
      if block.old + block.size = next.old ∧ block.new + block.size = next.new then
        { block with size := block.size + next.size } :: later
      else block :: next :: later
    | [] => [block]

/-- The runs of lines that two texts have in common, in order. -/
def blocks (a b : List String) : List Block :=
  join (blocksIn a b (a.map (indicesOf b)) (a.length + 1) 0 a.length 0 b.length)

end AccessPatch.Diff
