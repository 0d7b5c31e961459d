import ObjectMachine.Toml.Scalar

namespace ObjectMachine.Toml

/-!
# Lines of settings files

A settings file is a list of headers and of keys with values.

* `Value`, `Line` — the types;
* `Line.readAll?` — the lines of a text, nothing if it is malformed.
-/

/-- A key, the names between its dots. -/
abbrev Key := List String

/-- A value as it is written. -/
inductive Value where
  | scalar (s : Scalar)
  | array (items : List Value)
  | inlineTable (entries : List (Key × Value))
deriving Repr, Inhabited

/-- A header or an entry. -/
inductive Line where
  | table (key : Key)
  | arrayTable (key : Key)
  | entry (key : Key) (value : Value)
deriving Repr

/-! ### Blanks and keys -/

/-- Whether a character is white space in a line. -/
def isSpace (c : Char) : Bool :=
  c = ' ' || c = '\t'

/-- The characters without white space in front. -/
def skipSpace (cs : List Char) : List Char :=
  cs.dropWhile isSpace

/-- The characters from the end of the line on. -/
def skipComment (cs : List Char) : List Char :=
  cs.dropWhile (· ≠ '\n')

/-- The characters without white space, line ends and comments in front. -/
def skipBlank : (fuel : Nat) → List Char → List Char
  | 0, cs => cs
  | fuel + 1, cs =>
    match cs.dropWhile isGap with
    | '#' :: rest => skipBlank fuel (skipComment rest)
    | rest => rest

/-- Whether a character can be part of a name without quotes. -/
def isBareChar (c : Char) : Bool :=
  c.isAlphanum || c = '_' || c = '-'

/-- One name of a key. -/
def readName? (cs : List Char) : Option (String × List Char) :=
  match cs with
  | '"' :: rest => (readBasic (rest.length + 1) rest).map fun (t, rest) => (String.ofList t, rest)
  | '\'' :: rest => (readLiteral rest).map fun (t, rest) => (String.ofList t, rest)
  | cs =>
    let name := cs.takeWhile isBareChar
    if name.isEmpty then none else some (String.ofList name, cs.dropWhile isBareChar)

/-- The names of a key, and what follows it. -/
def readKey? : (fuel : Nat) → List Char → Option (Key × List Char)
  | 0, _ => none
  | fuel + 1, cs => do
    let (name, rest) ← readName? (skipSpace cs)
    match skipSpace rest with
    | '.' :: rest =>
      let (key, rest) ← readKey? fuel rest
      return (name :: key, rest)
    | rest => return ([name], rest)

/-- A key and the equals sign after it. -/
def readKeyEquals? (cs : List Char) : Option (Key × List Char) := do
  let (key, rest) ← readKey? (cs.length + 1) cs
  match rest with
  | '=' :: rest => some (key, rest)
  | _ => none

/-! ### Values -/

mutual

/-- A value. -/
def readValue? : (fuel : Nat) → List Char → Option (Value × List Char)
  | 0, _ => none
  | fuel + 1, cs =>
    match skipSpace cs with
    | '[' :: rest => do
      let (items, rest) ← readItems? fuel rest
      return (.array items, rest)
    | '\x7b' :: rest => do
      let (entries, rest) ← readEntries? fuel rest
      return (.inlineTable entries, rest)
    | cs => (readScalar? cs).map fun (s, rest) => (.scalar s, rest)

/-- The items of an array up to its end; a comma may follow the last one. -/
def readItems? : (fuel : Nat) → List Char → Option (List Value × List Char)
  | 0, _ => none
  | fuel + 1, cs =>
    match skipBlank (cs.length + 1) cs with
    | ']' :: rest => some ([], rest)
    | cs => do
      let (item, rest) ← readValue? fuel cs
      match skipBlank (rest.length + 1) rest with
      | ',' :: rest =>
        let (items, rest) ← readItems? fuel rest
        return (item :: items, rest)
      | ']' :: rest => return ([item], rest)
      | _ => none

/-- The entries of an inline table up to its end; a comma may follow the last one. -/
def readEntries? : (fuel : Nat) → List Char → Option (List (Key × Value) × List Char)
  | 0, _ => none
  | fuel + 1, cs =>
    match skipBlank (cs.length + 1) cs with
    | '\x7d' :: rest => some ([], rest)
    | cs => do
      let (key, rest) ← readKeyEquals? cs
      let (value, rest) ← readValue? fuel rest
      match skipBlank (rest.length + 1) rest with
      | ',' :: rest =>
        let (entries, rest) ← readEntries? fuel rest
        return ((key, value) :: entries, rest)
      | '\x7d' :: rest => return ([(key, value)], rest)
      | _ => none

end

/-! ### Lines -/

/-- A header or an entry. -/
def readLine? (cs : List Char) : Option (Line × List Char) := do
  match cs with
  | '[' :: '[' :: rest =>
    let (key, rest) ← readKey? (cs.length + 1) rest
    match rest with
    | ']' :: ']' :: rest => some (.arrayTable key, rest)
    | _ => none
  | '[' :: rest =>
    let (key, rest) ← readKey? (cs.length + 1) rest
    match rest with
    | ']' :: rest => some (.table key, rest)
    | _ => none
  | cs =>
    let (key, rest) ← readKeyEquals? cs
    let (value, rest) ← readValue? (cs.length + 1) rest
    return (.entry key value, rest)

/-- The characters after a line, of which only white space and a comment may be left. -/
def endLine? (cs : List Char) : Option (List Char) :=
  match skipSpace cs with
  | [] => some []
  | '#' :: rest => some (skipComment rest)
  | '\n' :: rest => some rest
  | '\r' :: '\n' :: rest => some rest
  | _ => none

/-- The lines of the characters. -/
def readLines? : (fuel : Nat) → List Char → Option (List Line)
  | 0, _ => none
  | fuel + 1, cs =>
    match skipBlank (cs.length + 1) cs with
    | [] => some []
    | cs => do
      let (line, rest) ← readLine? cs
      let lines ← readLines? fuel (← endLine? rest)
      return line :: lines

/-- Whether no character is a control character, apart from tabs and line ends. -/
def isPlain : List Char → Bool
  | [] => true
  | '\r' :: '\n' :: cs => isPlain cs
  | c :: cs => (c = '\t' || c = '\n' || (0x20 ≤ c.toNat && c.toNat ≠ 0x7f)) && isPlain cs

/-- The lines of a text; a mark of the byte order in front is left out. -/
def Line.readAll? (text : String) : Option (List Line) :=
  let cs := text.toList
  let cs := if cs.head? = some '\ufeff' then cs.drop 1 else cs
  if isPlain cs then readLines? (cs.length + 1) cs else none

end ObjectMachine.Toml
