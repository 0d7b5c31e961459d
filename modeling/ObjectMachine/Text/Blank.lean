namespace ObjectMachine.Text

/-!
# White space

The characters that separate words, and the two ways to cut a text at them.

* `isBlank` — white space in the sense of Unicode's `White_Space` property;
* `trimChars` — what is left of a text without the white space at its ends;
* `words` — the maximal runs of other characters, from left to right.
-/

/-- Whether a character is white space. -/
def isBlank (c : Char) : Bool :=
  let n := c.toNat
  (9 ≤ n && n ≤ 13) || n = 0x20 || n = 0x85 || n = 0xa0 || n = 0x1680 ||
    (0x2000 ≤ n && n ≤ 0x200a) || n = 0x2028 || n = 0x2029 || n = 0x202f || n = 0x205f ||
    n = 0x3000

/-- The characters without white space at either end. -/
def trimChars (cs : List Char) : List Char :=
  ((cs.dropWhile isBlank).reverse.dropWhile isBlank).reverse

/-- Cuts a list of characters into words; `current` holds the word being read, reversed. -/
def wordsFrom (current : List Char) : List Char → List String
  | [] => if current.isEmpty then [] else [String.ofList current.reverse]
  | c :: cs =>
    if isBlank c then
      if current.isEmpty then wordsFrom [] cs
      else String.ofList current.reverse :: wordsFrom [] cs
    else wordsFrom (c :: current) cs

/-- The words of a text. -/
def words (s : String) : List String :=
  wordsFrom [] s.toList

end ObjectMachine.Text
