/-!
# Blank characters

Two sets of blanks: all white space, which separates the words of a name, and the smaller
set that may surround a number written as text.
-/

namespace Criterion.Text

/-- White space: the ASCII blanks and separators, and the blanks of Unicode. -/
def isBlank (c : Char) : Bool :=
  let n := c.toNat
  (9 ≤ n && n ≤ 13) || (0x1c ≤ n && n ≤ 0x20) || n == 0x85 || n == 0xa0 || n == 0x1680
    || (0x2000 ≤ n && n ≤ 0x200a) || n == 0x2028 || n == 0x2029 || n == 0x202f || n == 0x205f
    || n == 0x3000

/-- Blanks that may surround a number: white space without the ASCII separators. -/
def isNumberBlank (c : Char) : Bool :=
  isBlank c && !(0x1c ≤ c.toNat && c.toNat ≤ 0x1f)

/-- Text without the characters of a kind at its two ends. -/
def trimWhere (p : Char → Bool) (cs : List Char) : List Char :=
  ((cs.dropWhile p).reverse.dropWhile p).reverse

/-- The maximal runs of characters that are not blank. -/
def words (cs : List Char) : List (List Char) :=
  go [] cs
where
  /-- `word` holds the characters of the run that is being read, the last one first. -/
  go (word : List Char) : List Char → List (List Char)
    | [] => if word.isEmpty then [] else [word.reverse]
    | c :: rest =>
      if isBlank c then (if word.isEmpty then go [] rest else word.reverse :: go [] rest)
      else go (c :: word) rest

/-- The words of a name with one space between each two. -/
def normalizeBlanks (s : String) : String :=
  String.ofList ([' '].intercalate (words s.toList))

end Criterion.Text
