import ObjectMachine.Console.Options

open ObjectMachine
open ObjectMachine.Console

/-!
# The command line program

Reads files, the environment and typed commands, and shows what the library answers.
-/

/-- What is shown on the terminal, in order. -/
def emit (text : String) : IO Unit := do
  let out ← IO.getStdout
  out.putStr text
  out.flush

/-- Writes notices to the log. -/
def emitNotices (notices : List Notice) : IO Unit :=
  notices.forM fun n => IO.eprint n.line

/-- Whether there is something by a name. -/
def isPresent (name : String) : IO Bool := do
  try
    let _ ← IO.FS.realPath name
    return true
  catch _ => return false

/-- Adds a file or a directory by its name, if it is there. -/
def addByName (files : Files) (name : String) : IO Files := do
  let path := Path.ofString name
  try
    let content ← IO.FS.readBinFile name
    return files.set path content.toList
  catch _ => return if ← isPresent name then files.addDirectory path else files

/-- Adds what is known about a file: itself and the directory it is in. -/
def addFile (files : Files) (name : String) : IO Files := do
  let directory := "/".intercalate (name.splitOn "/").dropLast
  let files ← if directory = "" then pure files else addByName files directory
  if name = "" then pure files else addByName files name

/-- Carries out a command, and writes the file it asks for. -/
def answerLine (setup : Setup Store) (r : Run Store) (line : String) :
    IO (Run Store × Status) := do
  match Command.ofLine line with
  | .snapshot file =>
    let files ← addFile r.files file
    let (r, status) := { r with files := files }.answer setup (some line)
    match r.files.read file with
    | .error _ => pure ()
    | .ok content => IO.FS.writeBinFile file ⟨content.toArray⟩
    return (r, status)
  | _ => return r.answer setup (some line)

/-- Goes on with a run until it is over. -/
partial def interact (setup : Setup Store) (r : Run Store) (status : Status) :
    IO (Run Store × Ending) := do
  emitNotices r.notices.reverse
  emit r.shown
  let r := { r with shown := "", notices := [] }
  match status with
  | .over e => return (r, e)
  | .running =>
    let (r, status) := r.step setup
    interact setup r status
  | .asking =>
    let line ← (← IO.getStdin).getLine
    if line.isEmpty then
      let (r, status) := r.answer setup none
      interact setup r status
    else
      let (r, status) ← answerLine setup r line
      interact setup r status

/-- Runs a job and returns the code to leave with. -/
def launch (j : Job) (files : Files) : IO UInt32 := do
  let files ← addFile files j.settings.source
  match j.prepare files with
  | (notices, .error fault) =>
    emitNotices notices.reverse
    IO.eprintln ("Execution failed: " ++ fault.message)
    return 1
  | (_, .ok r) =>
    let (r, e) ← interact j.setup r .running
    let report := Job.conclude r (some e)
    emitNotices report.notices
    match report.fault with
    | none => pure ()
    | some fault => IO.eprintln ("Execution failed: " ++ fault.message)
    return report.code.toUInt32

/-- The files that a command line names. -/
def namedFiles (arguments : List String) : List String :=
  match Options.parse arguments with
  | .error _ => []
  | .ok o => o.settingsFile :: o.restore :: o.arguments.take 1

/-- The variables of the environment that decide about colours. -/
def colorVariables : List String := ["TERM", "NO_COLOR", "CLICOLOR", "CLICOLOR_FORCE", "CI"]

/-- Runs the program that the command line names. -/
def main (arguments : List String) : IO UInt32 := do
  let values ← colorVariables.mapM fun name => do
    return (name, (← IO.getEnv name).getD "")
  let environment (name : String) : String := (values.lookup name).getD ""
  let color := wantsColor environment (← (← IO.getStdout).isTty)
  let files ← (namedFiles arguments).foldlM addFile Files.empty
  match plan "microobj" arguments color files with
  | .leave code shown remark =>
    emit shown
    IO.eprint remark
    return code.toUInt32
  | .launch j => launch j files
