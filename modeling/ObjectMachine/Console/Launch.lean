import ObjectMachine.Console.Run
import ObjectMachine.Knowledge.Store
import ObjectMachine.Settings

namespace ObjectMachine.Console

/-!
# Launching programs

From the name of a program file to the end of its run.

* `Job` — what is to be run, and how;
* `LaunchFault` — why a job fails;
* `Job.prepare` — loads the program and the heap it starts with;
* `Job.conclude` — the outcome of a run that is over;
* `Job.execute` — a whole job with the commands that are typed.
-/

/-- What is to be run, and how. -/
structure Job where
  program : String
  /-- The snapshot to start with; empty for an empty heap. -/
  restore : String
  settings : Settings
  trace : Bool
  color : Bool

/-- Why a job fails. -/
inductive LaunchFault where
  | noProgram (file : String) (cause : FileFault)
  | program (file : String) (cause : LoadFault)
  | noSnapshot (cause : FileFault)
  | snapshot (cause : Snapshot.Fault)
  /-- A snapshot has an object whose class the program does not declare. -/
  | foreignObject (file : String) (object : Ref)
  /-- The knowledge base cannot be opened. -/
  | noKnowledge (source : String)
  | start (cause : Fault)
  | run (cause : StepFault)

/-- The wording of a fault. -/
def LaunchFault.message : LaunchFault → String
  | noProgram file cause => "loading program: cannot read " ++ file ++ ": " ++ cause.message
  | program file cause => "loading program: " ++ file ++ ": " ++ cause.message
  | noSnapshot cause => "reading snapshot: " ++ cause.message
  | snapshot cause => cause.message
  | foreignObject file object =>
    "snapshot " ++ file ++ ": " ++ Category.unknownClass.message ++ ": " ++ object.text
  | noKnowledge source => "creating triples table: cannot open " ++ source
  | start cause => cause.message
  | run cause => "interpretation failed: " ++ cause.message

/-- What a job leaves behind. -/
structure Report where
  shown : String
  files : Files
  notices : List Notice
  fault : Option LaunchFault

namespace Report

/-- The log of a report. -/
def log (r : Report) : String :=
  String.join (r.notices.map Notice.line)

end Report

/-- The program in a file. -/
def loadProgram (files : Files) (file : String) : Except LaunchFault Program :=
  match files.read file with
  | .error cause => .error (.noProgram file cause)
  | .ok content =>
    match String.fromUTF8? ⟨content.toArray⟩ with
    | none => .error (.program file .malformed)
    | some text => (Program.load text).mapError (.program file)

/-- The first object of a heap whose class is neither declared nor that of the main program. -/
def foreignObject? (classes : ClassTable) (h : Heap) : Option Ref :=
  h.objects.keys.find? fun r => !(r.cls = entryClass || classes.contains r.cls)

/-- The heap in a snapshot file, checked against the classes of a program. -/
def restoreHeap (classes : ClassTable) (files : Files) (file : String) : Except LaunchFault Heap :=
  match files.read file with
  | .error cause => .error (.noSnapshot cause)
  | .ok content =>
    match Snapshot.decode content with
    | .error cause => .error (.snapshot cause)
    | .ok h =>
      match foreignObject? classes h with
      | some r => .error (.foreignObject file r)
      | none => .ok h

/-- How a database file starts. -/
def databaseMark : Content :=
  "SQLite format 3\x00".toUTF8.toList

/-- Whether a knowledge base can be kept somewhere: in memory, or in a database whose directory
exists. -/
def canOpen (files : Files) (source : String) : Bool :=
  source = Settings.inMemory || source = "" ||
    match files.locate source with
    | .error _ => false
    | .ok path =>
      !source.endsWith "/" && !files.hasDirectory path &&
        match files.get? path with
        | none => true
        | some content => content.isEmpty || databaseMark.isPrefixOf content

namespace Job

/-- What stays the same during the run of a job. -/
def setup (j : Job) : Setup Store where
  knowledgeBase := if j.settings.knowledge then some Store.base else none
  interactive := j.settings.interactive
  trace := j.trace
  color := j.color

/-- A run that has not started, with the notices so far. -/
def fresh (m : Machine) (files : Files) (notices : List Notice) : Run Store where
  machine := m
  knowledge := Store.empty
  stepping := false
  files := files
  shown := ""
  notices := notices

/-- The heap a job starts with, and the notice of it. -/
def initialHeap (j : Job) (classes : ClassTable) (files : Files) :
    Except LaunchFault (Heap × List Notice) :=
  if j.restore = "" then .ok (∅, [])
  else do
    let h ← restoreHeap classes files j.restore
    return (h, [.restored j.restore h.size])

/-- Loads the program and the heap it starts with, and schedules its main statement. The notices of
what was done come along, the last one first. -/
def prepare (j : Job) (files : Files) : List Notice × Except LaunchFault (Run Store) :=
  let loading : List Notice := [.loading j.program]
  match loadProgram files j.program with
  | .error fault => (loading, .error fault)
  | .ok p =>
    match j.initialHeap p.classes files with
    | .error fault => (loading, .error fault)
    | .ok (h, restored) =>
      let notices := restored ++ loading
      if j.settings.knowledge && !canOpen files j.settings.source then
        (notices, .error (.noKnowledge j.settings.source))
      else
        match (Machine.new p.classes h j.settings.maxSteps.toNat).start p.main with
        | .error cause => (notices, .error (.start cause))
        | .ok (_, m) => (notices, .ok (fresh m files notices))

/-- The report of a run that is over, or ran out of fuel. -/
def conclude (r : Run Store) (e : Option Ending) : Report :=
  match e with
  | some (.failed fault) => ⟨r.shown, r.files, r.notices.reverse, some (.run fault)⟩
  | _ =>
    let r := r.notify (.finished r.machine.steps r.machine.heap.size)
    ⟨r.shown, r.files, r.notices.reverse, none⟩

/-- A whole job with the commands that are typed. -/
def execute (j : Job) (files : Files) (fuel : Nat) (lines : List String) : Report :=
  match j.prepare files with
  | (notices, .error fault) => ⟨"", files, notices.reverse, some fault⟩
  | (_, .ok r) =>
    let (r, e) := Run.drive j.setup fuel r .running lines
    conclude r e

end Job

end ObjectMachine.Console
