import ObjectMachine.Yaml.Scalar

namespace ObjectMachine.Yaml

/-!
# Tokens

Indentation, flow collections and the colons after simple keys are turned into tokens here. A
simple key is known as such only when its colon is found, so that the tokens that open it are put
in front of it afterwards.

* `Token` — the tokens with the lines they start on;
* `Layout` — what is known while tokens are read;
* `Token.scan` — the tokens of a text, as far as they can be told.
-/

/-- What a token is. -/
inductive Mark where
  | documentStart
  | documentEnd
  | version (major minor : Nat)
  | blockSequence
  | blockMapping
  | blockEnd
  | flowSequence
  | flowSequenceEnd
  | flowMapping
  | flowMappingEnd
  | blockEntry
  | flowEntry
  | key
  | value
  | reference (name : String)
  | anchor (name : String)
  | tag (handle rest : String)
  /-- A scalar; `quoted` tells whether it was written in another style than plain. -/
  | scalar (quoted : Bool) (text : String)
  | streamEnd
  /-- From here on the text is not well-formed. -/
  | broken
deriving DecidableEq, Repr, Inhabited

/-- A token and the line it starts on, counted from zero. -/
structure Token where
  mark : Mark
  line : Nat
deriving DecidableEq, Repr, Inhabited

/-- A place where a key without an indicator may have started. -/
structure SimpleKey where
  /-- The number of the first token of the key. -/
  token : Nat
  line : Nat
  column : Nat
  offset : Nat
  /-- Whether nothing but a key can stand there. -/
  required : Bool
deriving DecidableEq, Repr

/-- The tokens read so far, with the last one at hand: a token is put in front of another one
only if that one was read a short while ago. -/
structure Row where
  /-- The tokens, the last first. -/
  reversed : List Token
  size : Nat
  size_eq : size = reversed.length := by simp

namespace Row

/-- No token. -/
def empty : Row where
  reversed := []
  size := 0

/-- Appends a token. -/
def push (r : Row) (t : Token) : Row where
  reversed := t :: r.reversed
  size := r.size + 1
  size_eq := by simp [r.size_eq]

/-- Puts a token in front of the token number `place`. -/
def insertAt (r : Row) (place : Nat) (t : Token) : Row where
  reversed := r.reversed.insertIdx (r.size - place) t
  size := r.size + 1
  size_eq := by
    rw [List.length_insertIdx_of_le_length (by have := r.size_eq; omega), r.size_eq]

/-- The tokens in the order of the text. -/
def toList (r : Row) : List Token :=
  r.reversed.reverse

end Row

/-- What is known while tokens are read. -/
structure Layout where
  tokens : Row
  rest : List Glyph
  /-- The position after the last character, as a glyph without meaning. -/
  eof : Glyph
  /-- The current indentation; nothing outside all block collections. -/
  indent : Option Nat
  /-- The indentations around the current one, the innermost first. -/
  outer : List (Option Nat)
  /-- The possible simple key of each flow level, the innermost first. -/
  keys : List (Option SimpleKey)
  keyAllowed : Bool

namespace Layout

/-- Whether a flow collection is open. -/
def inFlow (l : Layout) : Bool :=
  1 < l.keys.length

/-- Where the next character stands. -/
def here (l : Layout) : Glyph :=
  l.rest.head?.getD l.eof

/-- Appends a token that starts here. -/
def emit (l : Layout) (m : Mark) : Layout :=
  { l with tokens := l.tokens.push ⟨m, l.here.line⟩ }

/-- Drops the next characters. -/
def advance (l : Layout) (n : Nat) : Layout :=
  { l with rest := l.rest.drop n }

/-- Whether a column lies right of an indentation. -/
def exceeds (column : Nat) (indent : Option Nat) : Bool :=
  match indent with
  | none => true
  | some n => n < column

/-- Closes the block collections that are indented further than `column`; all of them if there is
none. -/
def closeBlocks (column : Option Nat) (line : Nat) :
    (outer : List (Option Nat)) → Option Nat → Row →
      Row × Option Nat × List (Option Nat)
  | [], indent, tokens => (tokens, indent, [])
  | next :: outer, indent, tokens =>
    let closes := match indent, column with
      | none, _ => false
      | some _, none => true
      | some n, some c => c < n
    if closes then closeBlocks column line outer next (tokens.push ⟨.blockEnd, line⟩)
    else (tokens, indent, next :: outer)

/-- Ends the block collections right of `column`, outside flow collections. -/
def unroll (l : Layout) (column : Option Nat) : Layout :=
  if l.inFlow then l
  else
    let (tokens, indent, outer) := closeBlocks column l.here.line l.outer l.indent l.tokens
    { l with tokens, indent, outer }

/-- Opens a block collection at `column` if it lies right of the current indentation; its token
is put in front of the token number `place`. -/
def roll (l : Layout) (column : Nat) (place : Nat) (line : Nat) (m : Mark) : Layout :=
  if !l.inFlow && exceeds column l.indent then
    { l with
      tokens := l.tokens.insertAt place ⟨m, line⟩
      outer := l.indent :: l.outer
      indent := some column }
  else l

/-! ### Simple keys -/

/-- Forgets the possible key of the current level, which must not be required. -/
def removeKey? (l : Layout) : Option Layout :=
  match l.keys with
  | some k :: keys => if k.required then none else some { l with keys := none :: keys }
  | _ => some l

/-- Notes that a key may start here, if keys are allowed here. -/
def saveKey? (l : Layout) : Option Layout :=
  if l.keyAllowed then do
    let l ← l.removeKey?
    let g := l.here
    let key : SimpleKey :=
      ⟨l.tokens.size, g.line, g.column, g.offset, !l.inFlow && l.indent = some g.column⟩
    return { l with keys := some key :: l.keys.drop 1 }
  else some l

/-- Whether a possible key can still turn out to be one: its colon has to stand on the same line,
at most 1024 characters after its start. -/
def canBeKey (l : Layout) (k : SimpleKey) : Bool :=
  k.line = l.here.line && l.here.offset ≤ k.offset + 1024

/-! ### Blanks and comments -/

/-- Where blanks are skipped: between tokens, inside a comment, or between two comments. -/
inductive Skip where
  | blanks
  | comment
  | untilComment
deriving DecidableEq, Repr

/-- Skips blanks, comments and line breaks. A line break outside flow collections allows a key
to start, and tabs are blanks only where no key can start. -/
def skipFrom (inFlow : Bool) : Skip → (keyAllowed : Bool) → List Glyph → Bool × List Glyph
  | _, allowed, [] => (allowed, [])
  | .blanks, allowed, g :: gs =>
    if isByteOrderMark g.char && g.column = 0 then skipFrom inFlow .blanks allowed gs
    else if g.char = ' ' || ((inFlow || !allowed) && g.char = '\t') then
      skipFrom inFlow .blanks allowed gs
    else if g.char = '#' then skipFrom inFlow .comment allowed gs
    else if isBreak g.char then skipFrom inFlow .blanks (allowed || !inFlow) gs
    else (allowed, g :: gs)
  | .comment, allowed, g :: gs =>
    if isBreak g.char then
      let next := gs.dropWhile fun g => isBlank g.char || isBreak g.char
      if startsWith '#' next then skipFrom inFlow .untilComment (allowed || !inFlow) gs
      else skipFrom inFlow .blanks (allowed || !inFlow) gs
    else skipFrom inFlow .comment allowed gs
  | .untilComment, allowed, g :: gs =>
    if g.char = '#' then skipFrom inFlow .comment allowed gs
    else skipFrom inFlow .untilComment allowed gs

/-- Skips what stands before the next token. -/
def skipBlanks (l : Layout) : Layout :=
  let (keyAllowed, rest) := skipFrom l.inFlow .blanks l.keyAllowed l.rest
  { l with keyAllowed, rest }

/-- Skips a comment on the line of the token that was just read. -/
def skipLineComment (l : Layout) : Layout :=
  let next := l.rest.dropWhile fun g => isBlank g.char
  if startsWith '#' next then { l with rest := next.dropWhile fun g => !isBreak g.char } else l

/-! ### Single tokens -/

/-- A line that starts or ends a document. -/
def readDocumentMark? (l : Layout) (m : Mark) : Option Layout := do
  let l ← (l.unroll none).removeKey?
  return { l.emit m with keyAllowed := false }.advance 3

/-- The version that a directive asks for. -/
def readVersion? (cs : List Char) : Option (Nat × Nat) :=
  match (String.ofList cs).splitOn "." with
  | [major, minor] =>
    if !major.isEmpty && !minor.isEmpty && major.all Char.isDigit && minor.all Char.isDigit then do
      return (← major.toNat?, ← minor.toNat?)
    else none
  | _ => none

/-- A directive, of which only the one for the version is known. -/
def readDirective? (l : Layout) : Option Layout := do
  let l ← (l.unroll none).removeKey?
  let line := (l.rest.takeWhile fun g => !isBreak g.char).map Glyph.char
  let words := ((String.ofList (line.map fun c => if c = '\t' then ' ' else c)).splitOn " ").filter
    fun w => !w.isEmpty
  match words.takeWhile fun w => !w.startsWith "#" with
  | ["%YAML", version] =>
    let (major, minor) ← readVersion? version.toList
    return { l.emit (.version major minor) with
      keyAllowed := false
      rest := l.rest.dropWhile fun g => !isBreak g.char }
  | _ => none

/-- The start of a flow collection. -/
def openFlow? (l : Layout) (m : Mark) : Option Layout := do
  let l ← l.saveKey?
  return { (l.emit m).advance 1 with keys := none :: l.keys, keyAllowed := true }

/-- The end of a flow collection. -/
def closeFlow? (l : Layout) (m : Mark) : Option Layout := do
  let l ← l.removeKey?
  let keys := if l.inFlow then l.keys.drop 1 else l.keys
  return { (l.emit m).advance 1 with keys, keyAllowed := false }

/-- The comma between entries of a flow collection. -/
def readFlowEntry? (l : Layout) : Option Layout := do
  let l ← l.removeKey?
  return { (l.emit .flowEntry).advance 1 with keyAllowed := true }

/-- The dash before an entry of a block sequence. -/
def readBlockEntry? (l : Layout) : Option Layout := do
  let l ←
    if l.inFlow then some l
    else if l.keyAllowed then
      some (l.roll l.here.column l.tokens.size l.here.line .blockSequence)
    else none
  let l ← l.removeKey?
  return { (l.emit .blockEntry).advance 1 with keyAllowed := true }

/-- The question mark before a key. -/
def readKey? (l : Layout) : Option Layout := do
  let l ←
    if l.inFlow then some l
    else if l.keyAllowed then
      some (l.roll l.here.column l.tokens.size l.here.line .blockMapping)
    else none
  let l ← l.removeKey?
  return { (l.emit .key).advance 1 with keyAllowed := !l.inFlow }

/-- The colon before a value. If a simple key stands before it, the tokens for it are put in
front of it now. -/
def readValue? (l : Layout) : Option Layout :=
  let complex : Option Layout :=
    if l.inFlow then some ({ l with keyAllowed := false }.emit .value)
    else if l.keyAllowed then
      let l := l.roll l.here.column l.tokens.size l.here.line .blockMapping
      some ({ l with keyAllowed := true }.emit .value)
    else none
  let found : Option Layout :=
    match l.keys with
    | some k :: keys =>
      if l.canBeKey k then
        let tokens := l.tokens.insertAt k.token ⟨.key, k.line⟩
        let l := { l with tokens, keys := none :: keys, keyAllowed := false }
        some ((l.roll k.column k.token k.line .blockMapping).emit .value)
      else if k.required then none
      else complex
    | _ => complex
  found.map fun l => l.advance 1

/-- The name after the sign of an anchor or an alias. -/
def readAnchor? (l : Layout) (m : String → Mark) : Option Layout := do
  let l ← l.saveKey?
  let after := l.rest.drop 1
  let name := (after.takeWhile fun g => isWordChar g.char).map Glyph.char
  let rest := after.dropWhile fun g => isWordChar g.char
  let ends := blankAhead rest || rest.head?.any fun g => "?:,]\x7d%@\x60".toList.contains g.char
  if name.isEmpty || !ends then none
  else return { l.emit (m (String.ofList name)) with rest, keyAllowed := false }

/-- Whether a character can stand in the second part of a tag. -/
def isTagChar (c : Char) : Bool :=
  isWordChar c || ";/?:@&=+$,.!~*'()[]%".toList.contains c

/-- A tag: a handle between exclamation marks, or none, and the rest; or the whole of it between
angle brackets. -/
def readTag? (l : Layout) : Option Layout := do
  let l ← l.saveKey?
  let take (p : Char → Bool) (gs : List Glyph) := (gs.takeWhile fun g => p g.char).map Glyph.char
  let drop (p : Char → Bool) (gs : List Glyph) := gs.dropWhile fun g => p g.char
  let after := l.rest.drop 1
  let (handle, suffix, rest) ←
    if startsWith '<' after then
      let uri := take isTagChar (after.drop 1)
      let rest := drop isTagChar (after.drop 1)
      if uri.isEmpty || !startsWith '>' rest then none
      else some ("", String.ofList uri, rest.drop 1)
    else
      let word := take isWordChar after
      let afterWord := drop isWordChar after
      if startsWith '!' afterWord then
        let uri := take isTagChar (afterWord.drop 1)
        if uri.isEmpty then none
        else some (String.ofList ('!' :: word ++ ['!']), String.ofList uri,
          drop isTagChar (afterWord.drop 1))
      else
        let uri := word ++ take isTagChar afterWord
        let rest := drop isTagChar afterWord
        if uri.isEmpty then some ("", "!", rest) else some ("!", String.ofList uri, rest)
  if blankAhead rest then
    return { l.emit (.tag handle suffix) with rest, keyAllowed := false }
  else none

/-- A block scalar. -/
def readBlockScalar? (l : Layout) (folded : Bool) : Option Layout := do
  let l ← l.removeKey?
  let (text, rest) ← readBlock? folded l.indent (l.rest.drop 1)
  return { l.emit (.scalar true (String.ofList text)) with rest, keyAllowed := true }

/-- A quoted scalar. -/
def readQuoted? (l : Layout) (read : List Glyph → Option (List Char × List Glyph)) :
    Option Layout := do
  let l ← l.saveKey?
  let (text, rest) ← read (l.rest.drop 1)
  return { l.emit (.scalar true (String.ofList text)) with rest, keyAllowed := false }

/-- A plain scalar. -/
def readPlainScalar? (l : Layout) : Option Layout := do
  let l ← l.saveKey?
  let indent := match l.indent with
    | none => 0
    | some n => n + 1
  let p ← readPlain? l.inFlow indent l.rest
  return { l.emit (.scalar false (String.ofList p.text)) with
    rest := p.rest
    keyAllowed := p.onNewLine }

/-- The end of the text. -/
def readEnd? (l : Layout) : Option Layout := do
  let eof := if l.eof.column = 0 then l.eof else { l.eof with line := l.eof.line + 1, column := 0 }
  let l ← ({ l with eof }.unroll none).removeKey?
  return { l.emit .streamEnd with keyAllowed := false }

/-- Whether a plain scalar can start with the first of the glyphs. -/
def startsPlain (inFlow : Bool) : List Glyph → Bool
  | [] => false
  | g :: gs =>
    let next := match gs with
      | [] => false
      | h :: _ => isBlank h.char
    !(isBlank g.char || isBreak g.char || "-?:,[]\x7b\x7d#&*!|>'\"%@\x60".toList.contains g.char) ||
      (g.char = '-' && !next) ||
      (!inFlow && (g.char = '?' || g.char = ':') && !blankAhead gs)

/-- Skips a comment after a token that ends on its own line. -/
def withComment (l : Option Layout) : Option Layout :=
  l.map skipLineComment

/-- Reads the next token, and the tokens that come before it because of its indentation. -/
def next? (l : Layout) : Option Layout :=
  let l := l.skipBlanks
  let l := l.unroll (some l.here.column)
  match l.rest with
  | [] => l.readEnd?
  | g :: after =>
    if g.column = 0 && g.char = '%' then l.readDirective?
    else if marksDocument '-' l.rest then l.readDocumentMark? .documentStart
    else if marksDocument '.' l.rest then l.readDocumentMark? .documentEnd
    else if g.char = '[' then withComment (l.openFlow? .flowSequence)
    else if g.char = '\x7b' then withComment (l.openFlow? .flowMapping)
    else if g.char = ']' then withComment (l.closeFlow? .flowSequenceEnd)
    else if g.char = '\x7d' then withComment (l.closeFlow? .flowMappingEnd)
    else if g.char = ',' then withComment l.readFlowEntry?
    else if g.char = '-' && blankAhead after then l.readBlockEntry?
    else if g.char = '?' && (l.inFlow || blankAhead after) then withComment l.readKey?
    else if g.char = ':' && (l.inFlow || blankAhead after) then withComment l.readValue?
    else if g.char = '*' then withComment (l.readAnchor? .reference)
    else if g.char = '&' then withComment (l.readAnchor? .anchor)
    else if g.char = '!' then withComment l.readTag?
    else if g.char = '|' && !l.inFlow then l.readBlockScalar? false
    else if g.char = '>' && !l.inFlow then l.readBlockScalar? true
    else if g.char = '\'' then withComment (l.readQuoted? readSingleQuoted?)
    else if g.char = '"' then withComment (l.readQuoted? readDoubleQuoted?)
    else if startsPlain l.inFlow l.rest then
      l.readPlainScalar?.map fun l => if l.keyAllowed then l else l.skipLineComment
    else none

/-- How many tokens can be told when the text breaks off: two tokens after a token have to be
known, and a token that may start a key has to be decided. -/
def settled (l : Layout) : Nat :=
  let undecided := l.keys.filterMap fun k => k.filter l.canBeKey |>.map SimpleKey.token
  undecided.foldl min (l.tokens.size - 2)

/-- Reads tokens up to the end of the text, or to where it is not well-formed. -/
def readAll : (fuel : Nat) → Layout → List Token
  | 0, l => l.tokens.toList
  | fuel + 1, l =>
    match l.next? with
    | none => l.tokens.toList.take l.settled ++ [⟨.broken, l.here.line⟩]
    | some l =>
      if l.tokens.reversed.head?.any fun t => t.mark = .streamEnd then l.tokens.toList
      else readAll fuel l

end Layout

/-- The tokens of a text. Every token takes a character, so the number of characters is fuel
enough. -/
def Token.scan (text : String) : List Token :=
  match glyphs? text with
  | none => [⟨.broken, 0⟩]
  | some gs =>
    let eof : Glyph := match gs.getLast? with
      | none => ⟨' ', 0, 0, 0⟩
      | some g =>
        if isBreak g.char then ⟨' ', g.line + 1, 0, g.offset + 1⟩
        else ⟨' ', g.line, g.column + 1, g.offset + 1⟩
    Layout.readAll (gs.length + 2)
      { tokens := .empty, rest := gs, eof, indent := none, outer := [], keys := [none],
        keyAllowed := true }

end ObjectMachine.Yaml
