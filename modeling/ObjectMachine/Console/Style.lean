import ObjectMachine.Text.Lines
import ObjectMachine.Text.Numeral
import ObjectMachine.Text.Replace

namespace ObjectMachine.Console

/-!
# Colours

Text for a terminal is wrapped in escape codes, or left as it is when colours are off.

* `Style` — what text is highlighted for; `paint` — highlighted text;
* `title`, `errorText` — section titles and error messages;
* `highlightBy` — a trace with its frames and headings highlighted, `highlight` — in these colours.
-/

/-- What a text is highlighted for. -/
inductive Style where
  | good
  | heading
  | frame
  | quiet
  | title
  | alarm
deriving DecidableEq, Repr

/-- The codes of a style, separated by semicolons. -/
def Style.codes : Style → String
  | good => "32"
  | heading => "33"
  | frame => "36"
  | quiet => "90"
  | title => "32;1"
  | alarm => "91;1"

/-- What switches a style on. -/
def Style.opening (s : Style) : String :=
  "\x1b[" ++ s.codes ++ "m"

/-- What switches every style off. -/
def closing : String := "\x1b[0m"

/-- A text in a style. -/
def paint (color : Bool) (s : Style) (text : String) : String :=
  if color then s.opening ++ text ++ closing else text

/-- A section title. -/
def title (color : Bool) (text : String) : String :=
  paint color .title ("=== " ++ text ++ " ===")

/-- An error message; only what introduces it is highlighted. -/
def errorText (color : Bool) (message : String) : String :=
  paint color .alarm "Error: " ++ message

/-! ### Traces -/

/-- Whether a character separates words in a trace. -/
def isSeparator (c : Char) : Bool :=
  c = ' ' || c = '\t' || c = '\n' || c = '\x0c' || c = '\r'

/-- Whether characters are an owner followed by a colon. -/
def isOwner (cs : List Char) : Bool :=
  2 ≤ cs.length && cs.getLast? = some ':' && cs.all fun c => !isSeparator c

/-- Whether a line introduces a frame. -/
def isFrameHeader : List Char → Bool
  | 'P' :: 'r' :: 'c' :: cs =>
    !(cs.takeWhile Text.isDigit).isEmpty &&
      match cs.dropWhile Text.isDigit with
      | '@' :: owner => isOwner owner
      | _ => false
  | _ => false

section

variable (paint : Style → String → String)

/-- A line of a trace, highlighted if it introduces a frame. -/
def highlightLine (line : List Char) : List Char :=
  if isFrameHeader line then (paint .frame (String.ofList line)).toList else line

/-- Highlights the lines that introduce frames. -/
def highlightFrames (text : String) : String :=
  String.ofList (Text.joinLines ((Text.splitLines text.toList).map (highlightLine paint)))

/-- The headings of a trace. -/
def headings : List String := ["Global store:", "Stack:", "Statement:"]

/-- A trace with its frames and then its headings highlighted. -/
def highlightBy (text : String) : String :=
  headings.foldl (fun t h => Text.replaceAll t h (paint .heading h)) (highlightFrames paint text)

end

/-- A trace, highlighted if colours are on. -/
def highlight (color : Bool) (text : String) : String :=
  if color then highlightBy (paint true) text else text

end ObjectMachine.Console
