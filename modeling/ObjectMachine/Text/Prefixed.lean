import ObjectMachine.Text.Numeral

namespace ObjectMachine.Text

/-!
# Numerals with a base

Integers as options and documents write them: a sign, a base given by how the numeral starts,
and digits that may be grouped by single underscores.

* `digitValue?` — the value of a digit up to sixteen;
* `inBase?` — the value of digits in a base;
* `readPrefixed?` — the 64-bit integer of a whole numeral.
-/

/-- The value of a digit, letters in either case standing for ten to fifteen. -/
def digitValue? (c : Char) : Option Nat :=
  if isDigit c then some (c.toNat - 48)
  else if 'a' ≤ c && c ≤ 'f' then some (c.toNat - 87)
  else if 'A' ≤ c && c ≤ 'F' then some (c.toNat - 55)
  else none

/-- Adds a digit to the right of a number, if it is a digit of the base. -/
def shiftDigit? (base value : Nat) (c : Char) : Option Nat := do
  let d ← digitValue? c
  if d < base then some (base * value + d) else none

/-- The value of a list of digits in a base; no digits are zero. -/
def inBase? (base : Nat) (cs : List Char) : Option Nat :=
  cs.foldlM (shiftDigit? base) 0

/-- How a numeral starts, and what is left of it. -/
structure NumeralStart where
  base : Nat
  /-- Whether what was read counts as a digit. -/
  started : Bool
  rest : List Char

/-- The base of a numeral: a zero followed by a letter names it, and a zero alone means eight. -/
def numeralStart : List Char → NumeralStart
  | '0' :: c :: d :: rest =>
    if c = 'b' || c = 'B' then ⟨2, true, d :: rest⟩
    else if c = 'o' || c = 'O' then ⟨8, true, d :: rest⟩
    else if c = 'x' || c = 'X' then ⟨16, true, d :: rest⟩
    else ⟨8, true, c :: d :: rest⟩
  | '0' :: rest => ⟨8, true, rest⟩
  | cs => ⟨10, false, cs⟩

/-- Whether every underscore stands between two digits; `after` tells whether a digit comes
before. -/
def groupedFrom (after : Bool) : List Char → Bool
  | [] => true
  | ['_'] => false
  | '_' :: cs => after && groupedFrom false cs
  | _ :: cs => groupedFrom true cs

/-- The value of a numeral without a sign. -/
def unsignedPrefixed? (cs : List Char) : Option Nat :=
  let start := numeralStart cs
  if (start.started || !start.rest.isEmpty) && groupedFrom start.started start.rest then
    inBase? start.base (start.rest.filter (· ≠ '_'))
  else none

/-- The value of a numeral with at most one sign. -/
def signedPrefixed? : List Char → Option Int
  | '-' :: cs => (unsignedPrefixed? cs).map fun n => -(n : Int)
  | '+' :: cs => (unsignedPrefixed? cs).map fun n => (n : Int)
  | cs => (unsignedPrefixed? cs).map fun n => (n : Int)

/-- The 64-bit integer a numeral denotes. -/
def readPrefixed? (s : String) : Option Int :=
  (signedPrefixed? s.toList).filter fits

end ObjectMachine.Text
