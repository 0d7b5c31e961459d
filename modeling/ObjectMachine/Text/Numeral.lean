namespace ObjectMachine.Text

/-!
# Decimal numerals of 64-bit integers

Integers are kept as decimal text. This module reads such a text, decides its range and brings
a sum back into the range.

* `digits?` — the value of a non-empty run of decimal digits;
* `readInt?` — an optionally signed numeral whose value fits in 64 bits;
* `wrap` — the two's complement representative of an integer;
* `total` — a sum, each addition brought back into the range.
-/

/-- The least 64-bit integer. -/
def minInt : Int := -9223372036854775808

/-- The greatest 64-bit integer. -/
def maxInt : Int := 9223372036854775807

/-- Whether an integer fits in 64 bits. -/
def fits (n : Int) : Bool :=
  minInt ≤ n && n ≤ maxInt

/-- How many 64-bit integers there are, `2 ^ 64`. -/
def modulus : Nat := 18446744073709551616

/-- The 64-bit integer that agrees with `n` modulo `2 ^ 64`. -/
def wrap (n : Int) : Int :=
  n.bmod modulus

/-- The sum of integers in a 64-bit word: each one is added to the sum of those before it, starting
from zero, and every addition wraps around. -/
def total (ns : List Int) : Int :=
  ns.foldl (fun sum n => wrap (sum + n)) 0

/-- Whether a character is one of the ten ASCII digits. -/
def isDigit (c : Char) : Bool :=
  '0' ≤ c && c ≤ '9'

/-- The value of a list of decimal digits, most significant first. -/
def digitsValue (cs : List Char) : Nat :=
  cs.foldl (fun n c => 10 * n + (c.toNat - 48)) 0

/-- The value of a non-empty list of decimal digits. -/
def digits? (cs : List Char) : Option Nat :=
  if !cs.isEmpty && cs.all isDigit then some (digitsValue cs) else none

/-- A sign is read, and the digits after it. -/
def signedDigits? : List Char → Option Int
  | '-' :: cs => (digits? cs).map fun n => -(n : Int)
  | '+' :: cs => (digits? cs).map fun n => (n : Int)
  | cs => (digits? cs).map fun n => (n : Int)

/-- The 64-bit integer a text denotes in base ten, if it is a numeral with at most one sign and
its value fits. -/
def readInt? (s : String) : Option Int :=
  (signedDigits? s.toList).filter fits

/-- The canonical numeral of an integer: a minus sign if it is negative, no leading zeros. -/
def showInt (n : Int) : String :=
  if n < 0 then "-" ++ Nat.repr n.natAbs else Nat.repr n.natAbs

end ObjectMachine.Text
