/-!
# White space and line boundaries in text

`isBlank` is the class of white-space characters that separates words in seeds and in lists of
tags; `lines` cuts a text after each of its line boundaries, keeping them.
-/

namespace AccessPatch.Text

/-- The characters of bidirectional class B, S or WS and those of category Zs: white space in the
sense of the Unicode property lists, the four information separators included. -/
def isBlank (c : Char) : Bool :=
  let n := c.toNat
  (0x09 ≤ n && n ≤ 0x0D) || (0x1C ≤ n && n ≤ 0x20) || n == 0x85 || n == 0xA0 || n == 0x1680 ||
    (0x2000 ≤ n && n ≤ 0x200A) || n == 0x2028 || n == 0x2029 || n == 0x202F || n == 0x205F ||
    n == 0x3000

/-- The text without the white space at its two ends. -/
def trim (cs : List Char) : List Char :=
  ((cs.dropWhile isBlank).reverse.dropWhile isBlank).reverse

/-- The parts of a comma-separated list, trimmed, without the empty ones. -/
def splitCommas (s : String) : List String :=
  ((s.toList.splitOn ',').map trim).filter (· ≠ []) |>.map String.ofList

/-- The characters that end a line of text. CR and LF together are one boundary. -/
def isBoundary (c : Char) : Bool :=
  let n := c.toNat
  (0x0A ≤ n && n ≤ 0x0D) || (0x1C ≤ n && n ≤ 0x1E) || n == 0x85 || n == 0x2028 || n == 0x2029

/-- The lines of a text, each with its boundary; the last may have none. -/
def lines (cs : List Char) : List (List Char) :=
  go [] [] cs
where
  /-- `line` holds the line under way and `done` the lines before it, both last one first. -/
  go (line : List Char) (done : List (List Char)) : List Char → List (List Char)
    | [] => (if line.isEmpty then done else line.reverse :: done).reverse
    | '\r' :: '\n' :: rest => go [] (('\n' :: '\r' :: line).reverse :: done) rest
    | c :: rest =>
      if isBoundary c then go [] ((c :: line).reverse :: done) rest
      else go (c :: line) done rest

end AccessPatch.Text
