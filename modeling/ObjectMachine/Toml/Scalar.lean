import ObjectMachine.Text.Prefixed

namespace ObjectMachine.Toml

/-!
# Scalars of settings files

Strings in four kinds of quotes, numbers, dates and times. Every reader takes the characters after
what it was chosen by, and returns the rest.

* `readBasic`, `readLiteral` — strings on one line;
* `readMultilineBasic`, `readMultilineLiteral` — strings over several lines;
* `integer?`, `isFloat`, `isMoment` — what a bare word stands for.
-/

/-- A value that has no parts. Fractions, dates and times are told apart from other values, but
not from each other. -/
inductive Scalar where
  | integer (n : Int)
  | boolean (b : Bool)
  | string (s : String)
  | other
deriving DecidableEq, Repr

/-! ### Strings -/

/-- The character with a code of hexadecimal digits. -/
def charOf? (digits : List Char) : Option Char := do
  let n ← Text.inBase? 16 digits
  if h : n.isValidChar then some (Char.ofNatAux n h) else none

/-- What a letter after a backslash stands for. -/
def escaped? : Char → Option Char
  | 'b' => some '\x08'
  | 't' => some '\t'
  | 'n' => some '\n'
  | 'f' => some '\x0c'
  | 'r' => some '\r'
  | 'e' => some '\x1b'
  | '"' => some '"'
  | '\\' => some '\\'
  | _ => none

/-- The character that is written after a backslash, and the rest. -/
def readEscape? : List Char → Option (Char × List Char)
  | 'x' :: a :: b :: rest => (charOf? [a, b]).map fun c => (c, rest)
  | 'u' :: a :: b :: c :: d :: rest => (charOf? [a, b, c, d]).map fun c => (c, rest)
  | 'U' :: a :: b :: c :: d :: e :: f :: g :: h :: rest =>
    (charOf? [a, b, c, d, e, f, g, h]).map fun c => (c, rest)
  | c :: rest => (escaped? c).map fun c => (c, rest)
  | [] => none

/-- A string in double quotes. -/
def readBasic : (fuel : Nat) → List Char → Option (List Char × List Char)
  | 0, _ => none
  | fuel + 1, cs =>
    match cs with
    | '"' :: rest => some ([], rest)
    | '\\' :: rest => do
      let (c, rest) ← readEscape? rest
      let (text, rest) ← readBasic fuel rest
      return (c :: text, rest)
    | '\n' :: _ | '\r' :: _ | [] => none
    | c :: rest => do
      let (text, rest) ← readBasic fuel rest
      return (c :: text, rest)

/-- A string in single quotes, which nothing in it escapes. -/
def readLiteral : List Char → Option (List Char × List Char)
  | '\'' :: rest => some ([], rest)
  | '\n' :: _ | '\r' :: _ | [] => none
  | c :: rest => (readLiteral rest).map fun (text, rest) => (c :: text, rest)

/-- Whether a character is white space between lines. -/
def isGap (c : Char) : Bool :=
  c = ' ' || c = '\t' || c = '\n' || c = '\r'

/-- Closes a string over several lines at a run of quotes. Three close it, and up to two more
belong to the string. The answer is how many belong to it, if it is closed. -/
def closingRun? (run : Nat) : Option (Option Nat) :=
  if run < 3 then some none
  else if run ≤ 5 then some (some (run - 3))
  else none

/-- A string over several lines in double quotes. A backslash at the end of a line skips all white
space after it. -/
def readMultilineBasic : (fuel : Nat) → List Char → Option (List Char × List Char)
  | 0, _ => none
  | fuel + 1, cs =>
    match cs with
    | [] => none
    | '"' :: _ => do
      let run := (cs.takeWhile (· = '"')).length
      match ← closingRun? run with
      | some extra => return (List.replicate extra '"', cs.drop run)
      | none =>
        let (text, rest) ← readMultilineBasic fuel (cs.drop run)
        return (List.replicate run '"' ++ text, rest)
    | '\\' :: rest =>
      let gap := rest.takeWhile isGap
      if gap.isEmpty then do
        let (c, rest) ← readEscape? rest
        let (text, rest) ← readMultilineBasic fuel rest
        return (c :: text, rest)
      else if '\n' ∈ gap then readMultilineBasic fuel (rest.dropWhile isGap)
      else none
    | c :: rest => do
      let (text, rest) ← readMultilineBasic fuel rest
      return (c :: text, rest)

/-- A string over several lines in single quotes. -/
def readMultilineLiteral : (fuel : Nat) → List Char → Option (List Char × List Char)
  | 0, _ => none
  | fuel + 1, cs =>
    match cs with
    | [] => none
    | '\'' :: _ => do
      let run := (cs.takeWhile (· = '\'')).length
      match ← closingRun? run with
      | some extra => return (List.replicate extra '\'', cs.drop run)
      | none =>
        let (text, rest) ← readMultilineLiteral fuel (cs.drop run)
        return (List.replicate run '\'' ++ text, rest)
    | c :: rest => do
      let (text, rest) ← readMultilineLiteral fuel rest
      return (c :: text, rest)

/-- The characters after a line end right after the opening quotes. -/
def skipFirstLineEnd : List Char → List Char
  | '\n' :: cs => cs
  | '\r' :: '\n' :: cs => cs
  | cs => cs

/-! ### Numbers -/

/-- The value of digits that single underscores may group. -/
def grouped? (base : Nat) (cs : List Char) : Option Nat :=
  if !cs.isEmpty && Text.groupedFrom false cs then
    Text.inBase? base (cs.filter (· ≠ '_'))
  else none

/-- The value of a decimal numeral without a sign, which has no leading zero. -/
def decimal? (cs : List Char) : Option Nat :=
  match cs with
  | '0' :: _ :: _ => none
  | cs => grouped? 10 cs

/-- The value of an integer of any size. Only decimal numerals have a sign. -/
def integer? : List Char → Option Int
  | '0' :: 'x' :: cs => (grouped? 16 cs).map fun n => (n : Int)
  | '0' :: 'o' :: cs => (grouped? 8 cs).map fun n => (n : Int)
  | '0' :: 'b' :: cs => (grouped? 2 cs).map fun n => (n : Int)
  | '+' :: cs => (decimal? cs).map fun n => (n : Int)
  | '-' :: cs => (decimal? cs).map fun n => -(n : Int)
  | cs => (decimal? cs).map fun n => (n : Int)

/-- Whether a character belongs to grouped decimal digits. -/
def isGroupChar (c : Char) : Bool :=
  Text.isDigit c || c = '_'

/-- Whether nothing or an exponent is left. -/
def isExponent : List Char → Bool
  | [] => true
  | c :: cs =>
    (c = 'e' || c = 'E') &&
      match cs with
      | '+' :: ds => (grouped? 10 ds).isSome
      | '-' :: ds => (grouped? 10 ds).isSome
      | ds => (grouped? 10 ds).isSome

/-- Whether characters are a fraction, perhaps with an exponent. -/
def isFraction : List Char → Bool
  | '.' :: cs =>
    (grouped? 10 (cs.takeWhile isGroupChar)).isSome && isExponent (cs.dropWhile isGroupChar)
  | cs => isExponent cs

/-- Whether characters are a number with a fraction, an infinity or no number, without a sign. -/
def isUnsignedFloat (cs : List Char) : Bool :=
  cs = "inf".toList || cs = "nan".toList ||
    ((decimal? (cs.takeWhile isGroupChar)).isSome && isFraction (cs.dropWhile isGroupChar))

/-- Whether characters are a number with a fraction, an infinity or no number. -/
def isFloat : List Char → Bool
  | '+' :: cs => isUnsignedFloat cs
  | '-' :: cs => isUnsignedFloat cs
  | cs => isUnsignedFloat cs

/-! ### Dates and times -/

/-- How many days a month has. -/
def daysIn (year month : Nat) : Nat :=
  if month = 2 then
    if year % 4 = 0 && (year % 100 ≠ 0 || year % 400 = 0) then 29 else 28
  else if month = 4 || month = 6 || month = 9 || month = 11 then 30
  else 31

/-- The characters after a date. -/
def afterDate? : List Char → Option (List Char)
  | y₁ :: y₂ :: y₃ :: y₄ :: '-' :: m₁ :: m₂ :: '-' :: d₁ :: d₂ :: rest => do
    let year ← Text.digits? [y₁, y₂, y₃, y₄]
    let month ← Text.digits? [m₁, m₂]
    let day ← Text.digits? [d₁, d₂]
    if 1 ≤ month ∧ month ≤ 12 ∧ 1 ≤ day ∧ day ≤ daysIn year month then some rest else none
  | _ => none

/-- The characters after seconds, which may be left out. -/
def afterSeconds? : List Char → Option (List Char)
  | ':' :: s₁ :: s₂ :: rest => do
    let second ← Text.digits? [s₁, s₂]
    if second < 60 then
      match rest with
      | '.' :: places =>
        if (places.takeWhile Text.isDigit).isEmpty then none
        else some (places.dropWhile Text.isDigit)
      | rest => some rest
    else none
  | rest => some rest

/-- The characters after a time of day. -/
def afterTime? : List Char → Option (List Char)
  | h₁ :: h₂ :: ':' :: m₁ :: m₂ :: rest => do
    let hour ← Text.digits? [h₁, h₂]
    let minute ← Text.digits? [m₁, m₂]
    if hour < 24 ∧ minute < 60 then afterSeconds? rest else none
  | _ => none

/-- Whether characters are an offset from universal time, or nothing. -/
def isOffset : List Char → Bool
  | [] => true
  | [c] => c = 'Z' || c = 'z'
  | [s, h₁, h₂, ':', m₁, m₂] =>
    (s = '+' || s = '-') && (Text.digits? [h₁, h₂]).any (· ≤ 24) &&
      (Text.digits? [m₁, m₂]).any (· ≤ 60)
  | _ => false

/-- Whether characters are a date alone. -/
def isDate (cs : List Char) : Bool :=
  afterDate? cs = some []

/-- Whether characters are a date, a time of day, or both with a letter in between. -/
def isMoment (cs : List Char) : Bool :=
  match afterDate? cs with
  | some [] => true
  | some (t :: time) =>
    (t = 'T' || t = 't') &&
      match afterTime? time with
      | some offset => isOffset offset
      | none => false
  | none => afterTime? cs = some []

/-! ### Bare words -/

/-- Whether a character can be part of a bare word. -/
def isWordChar (c : Char) : Bool :=
  c.isAlphanum || c = '_' || c = '+' || c = '-' || c = '.' || c = ':'

/-- What a bare word stands for; an integer has to fit in 64 bits. -/
def ofWord? (cs : List Char) : Option Scalar :=
  if cs = "true".toList then some (.boolean true)
  else if cs = "false".toList then some (.boolean false)
  else
    match integer? cs with
    | some n => if Text.fits n then some (.integer n) else none
    | none => if isFloat cs || isMoment cs then some .other else none

/-- A bare word. A date may be followed by a space and a time. -/
def readWord? (cs : List Char) : Option (Scalar × List Char) :=
  let word := cs.takeWhile isWordChar
  let rest := cs.dropWhile isWordChar
  match rest with
  | ' ' :: c :: _ =>
    if isDate word && Text.isDigit c then
      let time := (rest.drop 1).takeWhile isWordChar
      (ofWord? (word ++ 'T' :: time)).map fun s => (s, (rest.drop 1).dropWhile isWordChar)
    else (ofWord? word).map fun s => (s, rest)
  | rest => (ofWord? word).map fun s => (s, rest)

/-- A scalar at the front of the characters. -/
def readScalar? (cs : List Char) : Option (Scalar × List Char) :=
  let text (r : Option (List Char × List Char)) : Option (Scalar × List Char) :=
    r.map fun (t, rest) => (.string (String.ofList t), rest)
  match cs with
  | '"' :: '"' :: '"' :: rest => text (readMultilineBasic (cs.length + 1) (skipFirstLineEnd rest))
  | '"' :: rest => text (readBasic (cs.length + 1) rest)
  | '\'' :: '\'' :: '\'' :: rest =>
    text (readMultilineLiteral (cs.length + 1) (skipFirstLineEnd rest))
  | '\'' :: rest => text (readLiteral rest)
  | cs => readWord? cs

end ObjectMachine.Toml
