import ObjectMachine.Console.Style
import ObjectMachine.Files
import ObjectMachine.Machine.Trace
import ObjectMachine.Program.Load
import ObjectMachine.Snapshot
import ObjectMachine.Text.Blank

namespace ObjectMachine.Console

/-!
# Commands

What can be typed while a program is paused. A command shows something or says how to go on; none
changes the machine.

* `Command.ofLine` — the command on a line;
* `Action` — how to go on after a command;
* `Reply` — what a command answers; `Command.run` — carries a command out.
-/

/-- How to go on after a command. -/
inductive Action where
  /-- Ask for another command. -/
  | prompt
  /-- Run one step and ask again. -/
  | step
  /-- Run to the next breakpoint. -/
  | resume
  /-- Stop the program. -/
  | quit
deriving DecidableEq, Repr

/-- A command. -/
inductive Command where
  | nothing
  | step
  | resume
  | quit
  | trace
  | eval (source : String)
  | snapshot (file : String)
  | help
  | unknown (word : String)
deriving DecidableEq, Repr

/-- Why a command fails. -/
inductive CommandFault where
  | unreadable (cause : ParseFault)
  | terminated
  | evaluation (cause : Fault)
  | noFileName
  | file (cause : FileFault)
  | unknown (word : String)
deriving Repr

/-- The wording of a fault. -/
def CommandFault.message : CommandFault → String
  | unreadable cause => cause.message
  | terminated => "program terminated"
  | evaluation cause => cause.message
  | noFileName => "snapshot needs a file name"
  | file cause => cause.message
  | unknown word => "unknown command " ++ Text.quote word ++ ", try help"

/-- What a command answers. -/
structure Reply where
  /-- The text it shows. -/
  shown : String
  /-- The files after it. -/
  files : Files
  result : Except CommandFault Action

/-- The list of all commands. -/
def helpText : String :=
  "commands:\n" ++
  "  s, step              run one step\n" ++
  "  c, continue          run to the next breakpoint\n" ++
  "  t, trace             show heap and stack\n" ++
  "  e, eval <expr>       evaluate an expression in the top frame, e.g. eval \x7bown: n\x7d\n" ++
  "  snapshot <file>      write the heap to file\n" ++
  "  q, quit              stop the program"

namespace Command

/-- The command on a line: the first word up to a space says which, and the rest is its
argument. -/
def ofLine (line : String) : Command :=
  let cs := Text.trimChars line.toList
  let word := String.ofList (cs.takeWhile (· ≠ ' '))
  let argument := String.ofList (Text.trimChars (cs.dropWhile (· ≠ ' ')))
  match word with
  | "" => nothing
  | "s" | "step" => step
  | "c" | "continue" => resume
  | "q" | "quit" => quit
  | "t" | "trace" => trace
  | "e" | "eval" => eval argument
  | "snapshot" => snapshot argument
  | "h" | "help" => help
  | word => unknown word

/-- The text of the value of an expression in the top frame. -/
def evalText (m : Machine) (source : String) : Except CommandFault String :=
  match Expr.parse source with
  | .error cause => .error (.unreadable cause)
  | .ok e =>
    match m.evalTop e with
    | none => .error .terminated
    | some (.error cause) => .error (.evaluation cause)
    | some (.ok v) => .ok v.text

/-- Writes the heap to a file. -/
def writeSnapshot (m : Machine) (files : Files) (file : String) : Except CommandFault Files :=
  if file = "" then .error .noFileName
  else (files.write file (Snapshot.encode m.heap)).mapError .file

/-- Carries a command out on a machine. -/
def run (color : Bool) (m : Machine) (files : Files) : Command → Reply
  | nothing => ⟨"", files, .ok .prompt⟩
  | step => ⟨"", files, .ok .step⟩
  | resume => ⟨"", files, .ok .resume⟩
  | quit => ⟨"", files, .ok .quit⟩
  | trace => ⟨highlight color m.trace, files, .ok .prompt⟩
  | help => ⟨paint color .quiet helpText ++ "\n", files, .ok .prompt⟩
  | unknown word => ⟨"", files, .error (.unknown word)⟩
  | eval source =>
    match evalText m source with
    | .ok text => ⟨text ++ "\n", files, .ok .prompt⟩
    | .error fault => ⟨"", files, .error fault⟩
  | snapshot file =>
    match writeSnapshot m files file with
    | .error fault => ⟨"", files, .error fault⟩
    | .ok files =>
      let text := "wrote " ++ Nat.repr m.heap.size ++ " objects to " ++ file
      ⟨paint color .good text ++ "\n", files, .ok .prompt⟩

end Command

/-- Whether a session goes on step by step after an action. -/
def Action.stepping (before : Bool) : Action → Bool
  | step => true
  | resume => false
  | prompt | quit => before

end ObjectMachine.Console
