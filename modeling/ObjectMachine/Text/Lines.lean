namespace ObjectMachine.Text

/-!
# Lines

* `splitLines`, `joinLines` — cut a list of characters at line feeds, and put it together again;
* `typedLines` — the lines of a text as someone types them, each ended by a line feed.
-/

/-- The parts between the line feeds, at least one. -/
def splitLines : List Char → List (List Char)
  | [] => [[]]
  | c :: cs =>
    if c = '\n' then [] :: splitLines cs
    else
      match splitLines cs with
      | [] => [[c]]
      | line :: rest => (c :: line) :: rest

/-- Puts line feeds between the parts. -/
def joinLines : List (List Char) → List Char
  | [] => []
  | [line] => line
  | line :: next :: rest => line ++ '\n' :: joinLines (next :: rest)

/-- A line without a carriage return at its end. -/
def dropReturn (line : List Char) : List Char :=
  if line.getLast? = some '\r' then line.dropLast else line

/-- The lines of a text. Each ends in a line feed, perhaps after a carriage return; what follows
the last line feed is a line of its own if there is anything. -/
def typedLines (text : String) : List String :=
  let parts := splitLines text.toList
  let ended := parts.dropLast.map fun line => String.ofList (dropReturn line)
  match parts.getLast? with
  | none | some [] => ended
  | some rest => ended ++ [String.ofList rest]

end ObjectMachine.Text
