namespace ObjectMachine.Yaml

/-!
# Positioned characters

A YAML text as a list of characters that know where they stand. Line breaks of every spelling are
one character here, and characters that YAML does not allow are refused.

* `Glyph` — a character with its line, column and offset;
* `isBlank`, `isBreak`, `blankAhead` — the character classes of the format;
* `glyphs?` — the glyphs of a text.
-/

/-- A character and its position, counted from zero. -/
structure Glyph where
  char : Char
  line : Nat
  column : Nat
  offset : Nat
deriving DecidableEq, Repr, Inhabited

/-- Whether a character is a space or a tab. -/
def isBlank (c : Char) : Bool :=
  c = ' ' || c = '\t'

/-- Whether a character ends a line. -/
def isBreak (c : Char) : Bool :=
  c = '\n' || c.toNat = 0x2028 || c.toNat = 0x2029

/-- Whether a character can stand in an anchor or in a tag handle. -/
def isWordChar (c : Char) : Bool :=
  c.isAlphanum || c = '_' || c = '-'

/-- Whether a text may hold a character. -/
def isAllowed (c : Char) : Bool :=
  let n := c.toNat
  n = 0x09 || n = 0x0a || n = 0x0d || (0x20 ≤ n && n ≤ 0x7e) || n = 0x85 ||
    (0xa0 ≤ n && n ≤ 0xd7ff) || (0xe000 ≤ n && n ≤ 0xfffd) || 0x10000 ≤ n

/-- The mark that may stand at the start of a text or of a line. -/
def isByteOrderMark (c : Char) : Bool :=
  c.toNat = 0xfeff

/-- Every spelling of a plain line break as a line feed. -/
def normalizeBreaks : List Char → List Char
  | [] => []
  | '\r' :: '\n' :: cs => '\n' :: normalizeBreaks cs
  | c :: cs => (if c = '\r' || c.toNat = 0x85 then '\n' else c) :: normalizeBreaks cs

/-- Gives each character its position. -/
def position (line column offset : Nat) : List Char → List Glyph
  | [] => []
  | c :: cs =>
    ⟨c, line, column, offset⟩ ::
      if isBreak c then position (line + 1) 0 (offset + 1) cs
      else position line (column + 1) (offset + 1) cs

/-- The glyphs of a text, without a mark at its start; nothing if a character is not allowed. -/
def glyphs? (text : String) : Option (List Glyph) :=
  let cs := match text.toList with
    | c :: cs => if isByteOrderMark c then cs else c :: cs
    | [] => []
  if cs.all isAllowed then some (position 0 0 0 (normalizeBreaks cs)) else none

/-- Whether a blank, a line break or the end of the text comes next. -/
def blankAhead : List Glyph → Bool
  | [] => true
  | g :: _ => isBlank g.char || isBreak g.char

/-- Whether the next character is `c`. -/
def startsWith (c : Char) : List Glyph → Bool
  | [] => false
  | g :: _ => g.char = c

/-- Whether three characters `c` stand at the start of a line and a blank follows. -/
def marksDocument (c : Char) : List Glyph → Bool
  | a :: b :: d :: rest =>
    a.column = 0 && a.char = c && b.char = c && d.char = c && blankAhead rest
  | _ => false

/-- Whether a line that separates documents comes next. -/
def documentAhead (gs : List Glyph) : Bool :=
  marksDocument '-' gs || marksDocument '.' gs

end ObjectMachine.Yaml
