import ObjectMachine.Text.Quoted

namespace ObjectMachine.Console

/-!
# Notices

What the log says about a run, one line for each notice.

* `Notice` — the notices; `Notice.line` — how one is written.
-/

/-- Something worth telling about a run. -/
inductive Notice where
  | loading (file : String)
  | restored (file : String) (objects : Nat)
  | breakpoint (frame steps : Nat)
  | stopped (steps : Nat)
  | finished (steps objects : Nat)
deriving DecidableEq, Repr

/-- Whether a character can be part of a value without quotes. -/
def isPlainChar (c : Char) : Bool :=
  '-' ≤ c && c ≤ '~'

/-- How a character is written in a quoted value. Backslashes stand for themselves. -/
def escapeChar (c : Char) : List Char :=
  if c = '\\' then [c] else if c = '\x7f' then "\\u007f".toList else Text.escape c

/-- A value in a notice, between quotes if it has characters that would not stand out. -/
def valueText (value : String) : String :=
  if value ≠ "" && value.toList.all isPlainChar then value
  else String.ofList ('"' :: value.toList.flatMap escapeChar ++ ['"'])

/-- A name and a number in a notice. -/
def countText (name : String) (n : Nat) : String :=
  " " ++ name ++ "=" ++ Nat.repr n

/-- Notices have a level and the name of the program in front. -/
def noticeLine (level message : String) : String :=
  level ++ " MICROOBJ: " ++ message ++ "\n"

/-- The line of a notice. -/
def Notice.line : Notice → String
  | loading file => noticeLine "INFO" ("Loading program file=" ++ valueText file)
  | restored file objects =>
    noticeLine "INFO" ("Restored heap file=" ++ valueText file ++ countText "objects" objects)
  | breakpoint frame steps =>
    noticeLine "INFO" ("breakpoint" ++ countText "frame" frame ++ countText "steps" steps)
  | stopped steps =>
    noticeLine "WARN" ("Stopped before the program finished" ++ countText "steps" steps)
  | finished steps objects =>
    noticeLine "INFO" ("Program finished" ++ countText "steps" steps ++ countText "objects" objects)

end ObjectMachine.Console
