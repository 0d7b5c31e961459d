import ObjectMachine.Text.Numeral

namespace ObjectMachine.Sql

/-!
# Tokens of a query

* `Token`, `Lexeme` — a token, and where it stands in the text;
* `scan?` — the tokens of a text.
-/

/-- A token. Words and numbers keep their spelling. -/
inductive Token where
  | word (s : String)
  | number (s : String)
  /-- A text between single quotes. -/
  | text (s : String)
  /-- A name or a text between double quotes. -/
  | quoted (s : String)
  | symbol (s : String)
deriving DecidableEq, Repr

/-- A token with the positions of its first character and of the one after its last. -/
structure Lexeme where
  token : Token
  start : Nat
  stop : Nat
deriving DecidableEq, Repr

/-- Whether a character can start a word. -/
def startsWord (c : Char) : Bool :=
  c.isAlpha || c = '_' || 0x80 ≤ c.toNat

/-- Whether a character can stand in a word. -/
def inWord (c : Char) : Bool :=
  startsWord c || Text.isDigit c || c = '$'

/-- Whether a character separates tokens. -/
def isSpace (c : Char) : Bool :=
  c = ' ' || c = '\t' || c = '\n' || c = '\r' || c = '\x0c'

/-- The body of a quoted token after its opening quote, and what follows the closing one. A quote
in the body is written twice. -/
def quotedBody? (q : Char) : List Char → Option (List Char × List Char)
  | [] => none
  | c :: cs =>
    if c = q then
      match cs with
      | [] => some ([], [])
      | d :: ds =>
        if d = q then (quotedBody? q ds).map fun r => (q :: r.1, r.2)
        else some ([], d :: ds)
    else (quotedBody? q cs).map fun r => (c :: r.1, r.2)

/-- The symbol at the front of the characters. -/
def symbol? : List Char → Option String
  | '<' :: '=' :: _ => some "<="
  | '>' :: '=' :: _ => some ">="
  | '<' :: '>' :: _ => some "<>"
  | '!' :: '=' :: _ => some "!="
  | '=' :: '=' :: _ => some "=="
  | c :: _ => if "=<>(),*-+;".toList.contains c then some (String.singleton c) else none
  | [] => none

/-- The token at the front of the characters, which are not blank, and what follows it. -/
def next? (cs : List Char) : Option (Token × List Char) :=
  match cs with
  | [] => none
  | c :: rest =>
    if startsWord c then
      some (.word (String.ofList (cs.takeWhile inWord)), cs.dropWhile inWord)
    else if Text.isDigit c then
      let after := cs.dropWhile Text.isDigit
      -- a number does not run into a word
      if after.head?.any inWord then none
      else some (.number (String.ofList (cs.takeWhile Text.isDigit)), after)
    else if c = '\'' then (quotedBody? c rest).map fun r => (.text (String.ofList r.1), r.2)
    else if c = '"' then (quotedBody? c rest).map fun r => (.quoted (String.ofList r.1), r.2)
    else (symbol? cs).map fun s => (.symbol s, cs.drop s.length)

/-- The characters after a comment in front, if there is one: two hyphens up to the end of the
line, or everything between a slash with a star and a star with a slash. -/
def afterComment? : List Char → Option (List Char)
  | '-' :: '-' :: cs => some (cs.dropWhile (· ≠ '\n'))
  | '/' :: '*' :: cs => some (afterStar cs)
  | _ => none
where
  /-- The characters after the end of a comment. -/
  afterStar : List Char → List Char
    | '*' :: '/' :: cs => cs
    | _ :: cs => afterStar cs
    | [] => []

/-- The tokens of the characters from position `pos` on. -/
def scanFrom (pos : Nat) : (fuel : Nat) → List Char → Option (List Lexeme)
  | 0, _ => none
  | fuel + 1, cs =>
    match cs with
    | [] => some []
    | c :: rest =>
      if isSpace c then scanFrom (pos + 1) fuel rest
      else
        match afterComment? cs, next? cs with
        | some after, _ => scanFrom (pos + (cs.length - after.length)) fuel after
        | none, none => none
        | none, some (token, after) =>
          let stop := pos + (cs.length - after.length)
          (scanFrom stop fuel after).map fun ls => ⟨token, pos, stop⟩ :: ls

/-- The tokens of a text; nothing if some of it is no token. -/
def scan? (text : String) : Option (List Lexeme) :=
  scanFrom 0 (text.length + 1) text.toList

end ObjectMachine.Sql
