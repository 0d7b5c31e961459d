import ObjectMachine.Console.Command
import ObjectMachine.Console.Notice
import ObjectMachine.Machine.Step

namespace ObjectMachine.Console

/-!
# Runs

A program is run step by step. Where it pauses, commands are asked for until one of them says how
to go on. Commands only look at the machine, so the steps are those of an uninterrupted run.

* `Setup` — what stays the same during a run; `Run` — what changes;
* `Status` — whether the program goes on, a command is asked for or the run is over;
* `Run.step` — one step of the program; `Run.answer` — one command;
* `Run.drive` — a whole run with the commands that are typed.
-/

variable {σ : Type}

/-- What stays the same during a run. -/
structure Setup (σ : Type) where
  knowledgeBase : Option (KnowledgeBase σ)
  /-- Whether to ask for commands where the program pauses. -/
  interactive : Bool
  /-- Whether to show the machine after every step. -/
  trace : Bool
  color : Bool

/-- What changes during a run. -/
structure Run (σ : Type) where
  machine : Machine
  knowledge : σ
  /-- Whether to pause after every step. -/
  stepping : Bool
  files : Files
  /-- The text shown so far. -/
  shown : String
  /-- The notices so far, the last one first. -/
  notices : List Notice

/-- How a run ends. -/
inductive Ending where
  | finished
  /-- The program was stopped by a command or because there are no more of them. -/
  | stopped
  | failed (fault : StepFault)

/-- What comes next in a run. -/
inductive Status where
  | running
  | asking
  | over (e : Ending)

namespace Run

/-- Shows a text. -/
def display (r : Run σ) (text : String) : Run σ :=
  { r with shown := r.shown ++ text }

/-- Gives notice of something. -/
def notify (r : Run σ) (n : Notice) : Run σ :=
  { r with notices := n :: r.notices }

/-- Asks for a command. -/
def ask (r : Run σ) : Run σ × Status :=
  (r.display ("[" ++ Nat.repr r.machine.steps ++ "] > "), .asking)

/-- Stops the program. -/
def stop (r : Run σ) : Run σ × Status :=
  (r.notify (.stopped r.machine.steps), .over .stopped)

/-- Gives notice if a step reached a breakpoint. -/
def notifyOutcome (r : Run σ) : Outcome → Run σ
  | .paused frame => r.notify (.breakpoint frame r.machine.steps)
  | _ => r

/-- Shows the machine after a step, if that is wanted. -/
def displayStep (setup : Setup σ) (r : Run σ) : Run σ :=
  if setup.trace then
    r.display (title setup.color ("Step " ++ Nat.repr r.machine.steps) ++ "\n" ++
      highlight setup.color r.machine.trace)
  else r

/-- Whether to ask for a command after a step with a given outcome. -/
def pauses (setup : Setup σ) (r : Run σ) (o : Outcome) : Bool :=
  setup.interactive && !r.machine.done && (!o.goesOn || r.stepping)

/-- One step of the program. -/
def step (setup : Setup σ) (r : Run σ) : Run σ × Status :=
  if r.machine.done then (r, .over .finished)
  else
    let s := r.machine.step setup.knowledgeBase r.knowledge
    let r := { r with machine := s.machine, knowledge := s.knowledge }.display s.printed
    match s.outcome with
    | .failed fault =>
      (r.display (highlight setup.color r.machine.trace ++ "\n"), .over (.failed fault))
    | o =>
      let r := (r.notifyOutcome o).displayStep setup
      if r.pauses setup o then r.ask else (r, .running)

/-- One command, or the end of all commands. -/
def answer (setup : Setup σ) (r : Run σ) : Option String → Run σ × Status
  | none => r.stop
  | some line =>
    let reply := (Command.ofLine line).run setup.color r.machine r.files
    let r := { r with files := reply.files }.display reply.shown
    match reply.result with
    | .error fault => (r.display (errorText setup.color fault.message ++ "\n")).ask
    | .ok action =>
      let r := { r with stepping := action.stepping r.stepping }
      match action with
      | .prompt => r.ask
      | .quit => r.stop
      | .step | .resume => (r, .running)

/-- A run until it is over, with the commands that are typed; `fuel` bounds the steps and commands.
There is no ending if it is used up. -/
def drive (setup : Setup σ) : (fuel : Nat) → Run σ → Status → List String → Run σ × Option Ending
  | _, r, .over e, _ => (r, some e)
  | 0, r, _, _ => (r, none)
  | fuel + 1, r, .running, lines =>
    let (r, status) := r.step setup
    drive setup fuel r status lines
  | fuel + 1, r, .asking, lines =>
    let (r, status) := r.answer setup lines.head?
    drive setup fuel r status lines.tail

end Run

end ObjectMachine.Console
