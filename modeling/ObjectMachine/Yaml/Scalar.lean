import ObjectMachine.Yaml.Glyph

namespace ObjectMachine.Yaml

/-!
# Scalars

The text of a scalar in each of its styles, read off the front of the glyphs. Lines of a plain or
quoted scalar are folded: a single line break becomes a space, further ones are kept.

* `Gap` — the blanks and breaks between two pieces of a scalar; `Gap.fold` — what becomes of them;
* `readPlain?`, `readSingleQuoted?`, `readDoubleQuoted?`, `readBlock?` — the scalars.
-/

/-- The blanks and line breaks between two pieces of a scalar. -/
structure Gap where
  /-- The blanks before the first line break. -/
  blanks : List Char
  breaks : List Char
  /-- Whether the first line break was escaped and is not among `breaks`. -/
  escaped : Bool
deriving Repr

namespace Gap

/-- The text that stands for a gap between two pieces. -/
def fold (g : Gap) : List Char :=
  if g.escaped then g.breaks
  else
    match g.breaks with
    | [] => g.blanks
    | '\n' :: [] => [' ']
    | '\n' :: rest => rest
    | breaks => breaks

/-- Whether a gap reaches the next line. -/
def hasBreak (g : Gap) : Bool :=
  g.escaped || !g.breaks.isEmpty

end Gap

/-- The blanks and the line breaks at the front of the glyphs. Blanks after a line break, which
may be `broken` before, do not count. -/
def readGap (broken : Bool) : List Glyph → List Char × List Char × List Glyph
  | [] => ([], [], [])
  | g :: gs =>
    if isBlank g.char then
      let (blanks, breaks, rest) := readGap broken gs
      (if broken then blanks else g.char :: blanks, breaks, rest)
    else if isBreak g.char then
      let (blanks, breaks, rest) := readGap true gs
      (blanks, g.char :: breaks, rest)
    else ([], [], g :: gs)

/-- The gap at the front of the glyphs, possibly after an escaped line break. -/
def gap (escaped : Bool) (gs : List Glyph) : Gap × List Glyph :=
  let (blanks, breaks, rest) := readGap escaped gs
  (⟨blanks, breaks, escaped⟩, rest)

/-- Whether a tab stands left of `indent` on a later line of the gap at the front. -/
def tabInIndent (indent : Nat) (broken : Bool) : List Glyph → Bool
  | [] => false
  | g :: gs =>
    if isBlank g.char then
      (broken && g.char = '\t' && g.column < indent) || tabInIndent indent broken gs
    else if isBreak g.char then tabInIndent indent true gs
    else false

/-! ### Plain scalars -/

/-- Whether a plain scalar ends before the next glyph, which is not blank. -/
def endsPlain (inFlow : Bool) : List Glyph → Bool
  | [] => true
  | g :: gs =>
    (g.char = ':' && blankAhead gs) || (inFlow && ",?[]\x7b\x7d".toList.contains g.char)

/-- A piece of a plain scalar without blanks. -/
def plainPiece (inFlow : Bool) : List Glyph → List Char × List Glyph
  | [] => ([], [])
  | g :: gs =>
    if isBlank g.char || isBreak g.char || endsPlain inFlow (g :: gs) then ([], g :: gs)
    else
      let (piece, rest) := plainPiece inFlow gs
      (g.char :: piece, rest)

/-- What was read of a plain scalar, and whether it ended on a later line than its text. -/
structure Plain where
  text : List Char
  onNewLine : Bool
  rest : List Glyph

/-- Reads pieces of a plain scalar; `before` is the text so far and `between` the gap after it. -/
def plainFrom (inFlow : Bool) (indent : Nat) :
    (fuel : Nat) → (before : List Char) → (between : Gap) → List Glyph → Option Plain
  | 0, _, _, _ => none
  | fuel + 1, before, between, gs =>
    let stop : Option Plain := some ⟨before, between.hasBreak, gs⟩
    if documentAhead gs || startsWith '#' gs then stop
    else
      match plainPiece inFlow gs with
      | ([], _) => stop
      | (piece, rest) =>
        let text := before ++ between.fold ++ piece
        if rest.isEmpty || !blankAhead rest then some ⟨text, false, rest⟩
        else if tabInIndent indent false rest then none
        else
          let (between, after) := gap false rest
          if !inFlow && after.head?.any fun g => g.column < indent then
            some ⟨text, between.hasBreak, after⟩
          else plainFrom inFlow indent fuel text between after

/-- The plain scalar at the front of the glyphs. Its later lines have to be indented by `indent`
columns outside flow collections. -/
def readPlain? (inFlow : Bool) (indent : Nat) (gs : List Glyph) : Option Plain :=
  plainFrom inFlow indent (gs.length + 1) [] ⟨[], [], false⟩ gs

/-! ### Quoted scalars -/

/-- What ends a piece of a quoted scalar. -/
inductive PieceEnd where
  | quote
  | gap
  | escapedBreak
deriving DecidableEq, Repr

/-- A piece of a single quoted scalar; a quote in it is written twice. -/
def singlePiece : List Glyph → List Char × PieceEnd × List Glyph
  | [] => ([], .gap, [])
  | g :: gs =>
    if isBlank g.char || isBreak g.char then ([], .gap, g :: gs)
    else if g.char = '\'' then
      match gs with
      | h :: hs =>
        if h.char = '\'' then
          let (piece, stop, rest) := singlePiece hs
          ('\'' :: piece, stop, rest)
        else ([], .quote, gs)
      | [] => ([], .quote, gs)
    else
      let (piece, stop, rest) := singlePiece gs
      (g.char :: piece, stop, rest)

/-- The value of a hexadecimal digit. -/
def hexValue? (c : Char) : Option Nat :=
  if '0' ≤ c && c ≤ '9' then some (c.toNat - 48)
  else if 'a' ≤ c && c ≤ 'f' then some (c.toNat - 87)
  else if 'A' ≤ c && c ≤ 'F' then some (c.toNat - 55)
  else none

/-- The number that hexadecimal digits denote. -/
def hexNumber? (n : Nat) : List Char → Option Nat
  | [] => some n
  | c :: cs => do
    let d ← hexValue? c
    hexNumber? (16 * n + d) cs

/-- The character of a code point. -/
def codePoint? (n : Nat) : Option Char :=
  if n ≤ 0x10ffff && !(0xd800 ≤ n && n ≤ 0xdfff) then some (Char.ofNat n) else none

/-- The character that a letter after a backslash stands for. -/
def escapeLetter? (c : Char) : Option Char :=
  match c with
  | '0' => some (Char.ofNat 0)
  | 'a' => some (Char.ofNat 7)
  | 'b' => some (Char.ofNat 8)
  | 't' => some '\t'
  | '\t' => some '\t'
  | 'n' => some '\n'
  | 'v' => some (Char.ofNat 11)
  | 'f' => some (Char.ofNat 12)
  | 'r' => some '\r'
  | 'e' => some (Char.ofNat 27)
  | ' ' => some ' '
  | '"' => some '"'
  | '\'' => some '\''
  | '\\' => some '\\'
  | 'N' => some (Char.ofNat 0x85)
  | '_' => some (Char.ofNat 0xa0)
  | 'L' => some (Char.ofNat 0x2028)
  | 'P' => some (Char.ofNat 0x2029)
  | _ => none

/-- How many hexadecimal digits follow a letter after a backslash. -/
def escapeDigits? (c : Char) : Option Nat :=
  match c with
  | 'x' => some 2
  | 'u' => some 4
  | 'U' => some 8
  | _ => none

/-- The character of the escape sequence after a backslash, and what follows it. -/
def readEscape? : List Glyph → Option (Char × List Glyph)
  | [] => none
  | g :: gs =>
    match escapeDigits? g.char with
    | some width => do
      let digits := gs.take width
      if digits.length < width then none
      else
        let n ← hexNumber? 0 (digits.map Glyph.char)
        let c ← codePoint? n
        return (c, gs.drop width)
    | none => (escapeLetter? g.char).map fun c => (c, gs)

/-- A piece of a double quoted scalar. -/
def doublePiece : (fuel : Nat) → List Glyph → Option (List Char × PieceEnd × List Glyph)
  | 0, _ => none
  | _ + 1, [] => some ([], .gap, [])
  | fuel + 1, g :: gs =>
    if isBlank g.char || isBreak g.char then some ([], .gap, g :: gs)
    else if g.char = '"' then some ([], .quote, gs)
    else if g.char = '\\' then
      match gs with
      | [] => none
      | h :: hs =>
        if isBreak h.char then some ([], .escapedBreak, hs)
        else do
          let (c, gs) ← readEscape? gs
          let (piece, stop, rest) ← doublePiece fuel gs
          return (c :: piece, stop, rest)
    else do
      let (piece, stop, rest) ← doublePiece fuel gs
      return (g.char :: piece, stop, rest)

/-- Reads pieces up to the closing quote. -/
def quotedFrom (piece? : List Glyph → Option (List Char × PieceEnd × List Glyph)) :
    (fuel : Nat) → List Glyph → Option (List Char × List Glyph)
  | 0, _ => none
  | fuel + 1, gs =>
    if gs.isEmpty || documentAhead gs then none
    else do
      let (piece, stop, rest) ← piece? gs
      match stop with
      | .quote => return (piece, rest)
      | stop =>
        let (between, after) := gap (stop = .escapedBreak) rest
        let (text, rest) ← quotedFrom piece? fuel after
        return (piece ++ between.fold ++ text, rest)

/-- The rest of a single quoted scalar after its opening quote. -/
def readSingleQuoted? (gs : List Glyph) : Option (List Char × List Glyph) :=
  quotedFrom (fun gs => some (singlePiece gs)) (gs.length + 1) gs

/-- The rest of a double quoted scalar after its opening quote. -/
def readDoubleQuoted? (gs : List Glyph) : Option (List Char × List Glyph) :=
  quotedFrom (doublePiece (gs.length + 1)) (gs.length + 1) gs

/-! ### Block scalars -/

/-- What becomes of the line breaks at the end of a block scalar. -/
inductive Chomp where
  | strip
  | clip
  | keep
deriving DecidableEq, Repr

/-- The indicators after the sign of a block scalar: how its end is treated, and how far it is
indented, zero if that is not said. -/
def readBlockHead? (gs : List Glyph) : Option (Chomp × Nat × List Glyph) :=
  let chomp (gs : List Glyph) : Chomp × List Glyph :=
    match gs with
    | [] => (.clip, [])
    | g :: rest =>
      if g.char = '+' then (.keep, rest) else if g.char = '-' then (.strip, rest) else (.clip, gs)
  let width (gs : List Glyph) : Option (Nat × List Glyph) :=
    match gs with
    | [] => some (0, [])
    | g :: rest =>
      if g.char = '0' then none
      else if g.char.isDigit then some (g.char.toNat - 48, rest)
      else some (0, gs)
  match chomp gs with
  | (.clip, _) => do
    let (n, gs) ← width gs
    if n = 0 then return (.clip, 0, gs)
    else
      let (c, gs) := chomp gs
      return (c, n, gs)
  | (c, gs) => do
    let (n, gs) ← width gs
    return (c, n, gs)

/-- The line after the indicators of a block scalar, which hold nothing but a comment. -/
def endBlockHead? (gs : List Glyph) : Option (List Glyph) :=
  let gs := gs.dropWhile fun g => isBlank g.char
  let gs := if startsWith '#' gs then gs.dropWhile fun g => !isBreak g.char else gs
  match gs with
  | [] => some []
  | g :: rest => if isBreak g.char then some rest else none

/-- The line breaks before the next line that is not empty, and the widest indentation among
them. With `indent` zero every space counts as indentation. -/
def blockBreaks? (indent widest : Nat) : List Glyph → Option (List Char × Nat × List Glyph)
  | [] => some ([], widest, [])
  | g :: gs =>
    let inside := indent = 0 || g.column < indent
    if inside && g.char = ' ' then blockBreaks? indent (max widest (g.column + 1)) gs
    else if inside && g.char = '\t' then none
    else if isBreak g.char then do
      let (breaks, widest, rest) ← blockBreaks? indent (max widest g.column) gs
      return (g.char :: breaks, widest, rest)
    else some ([], max widest g.column, g :: gs)

/-- What is known while the lines of a block scalar are read. -/
structure BlockState where
  text : List Char
  /-- The break that ended the last line. -/
  lineBreak : List Char
  /-- The breaks of the empty lines after it. -/
  emptyLines : List Char
  /-- Whether the last line started with a blank. -/
  indented : Bool

/-- The text before a further line of a block scalar. -/
def BlockState.join (folded : Bool) (s : BlockState) (startsBlank : Bool) : List Char :=
  if folded && s.lineBreak = ['\n'] && !s.indented && !startsBlank then
    s.text ++ (if s.emptyLines.isEmpty then [' '] else s.emptyLines)
  else s.text ++ s.lineBreak ++ s.emptyLines

/-- Reads the lines of a block scalar. -/
def blockFrom? (folded : Bool) (indent : Nat) :
    (fuel : Nat) → BlockState → List Glyph → Option (BlockState × List Glyph)
  | 0, _, _ => none
  | fuel + 1, s, gs =>
    match gs with
    | [] => some (s, [])
    | g :: _ =>
      if g.column ≠ indent then some (s, gs)
      else do
        let startsBlank := isBlank g.char
        let line := (gs.takeWhile fun g => !isBreak g.char).map Glyph.char
        let after := gs.dropWhile fun g => !isBreak g.char
        let text := s.join folded startsBlank ++ line
        let lineBreak := (after.take 1).map Glyph.char
        let (emptyLines, _, rest) ← blockBreaks? indent 0 (after.drop 1)
        blockFrom? folded indent fuel ⟨text, lineBreak, emptyLines, startsBlank⟩ rest

/-- The rest of a block scalar after its sign; `parent` is the indentation it stands in, none at
the outermost level. -/
def readBlock? (folded : Bool) (parent : Option Nat) (gs : List Glyph) :
    Option (List Char × List Glyph) := do
  let (chomp, width, gs) ← readBlockHead? gs
  let gs ← endBlockHead? gs
  let given := if width = 0 then 0 else parent.getD 0 + width
  let (emptyLines, widest, gs) ← blockBreaks? given 0 gs
  let least := match parent with
    | none => 1
    | some p => max 1 (p + 1)
  let indent := if given = 0 then max widest least else given
  let (s, rest) ← blockFrom? folded indent (gs.length + 1) ⟨[], [], emptyLines, false⟩ gs
  let text := match chomp with
    | .strip => s.text
    | .clip => s.text ++ s.lineBreak
    | .keep => s.text ++ s.lineBreak ++ s.emptyLines
  return (text, rest)

end ObjectMachine.Yaml
