import ObjectMachine.ClassTable
import ObjectMachine.Eval

namespace ObjectMachine

/-!
# The machine

A stack of frames over a heap. A frame is something left to run, on behalf of an object and with
variables of its own; a frame that makes a call waits beneath the frame of the method. Running a
frame replaces it by a new one with the same id, so a reference to a frame also has to say which
of them is meant.

* `FrameRef`, `Frame`, `Machine` — the state;
* `Machine.push`, `Machine.start` — schedule a frame;
* `Machine.fork` — an independent machine on the same heap;
* `Machine.locals?` — the variables of a frame, also after it has left the stack;
* `Machine.evalTop` — an expression in the scope of the top frame.
-/

/-- A reference to a frame: its id, and the key of the one frame that is meant. -/
structure FrameRef where
  id : Nat
  key : Nat
deriving DecidableEq, Repr, Inhabited

/-- Something left to run: `stmt`, with the variables `locals`, on behalf of `owner`. -/
structure Frame where
  id : Nat
  /-- Tells the frame from every other one, also from those it replaces. -/
  key : Nat
  stmt : Stmt
  locals : Memory
  owner : Value
  /-- The frame that waits for the result of this one. -/
  caller : Option FrameRef
deriving Inhabited

/-- The reference to a frame. -/
def Frame.ref (f : Frame) : FrameRef :=
  ⟨f.id, f.key⟩

/-- The whole state of a program. -/
structure Machine where
  classes : ClassTable
  heap : Heap
  /-- The scheduled frames, the running one first. -/
  stack : List Frame
  /-- The last frame id handed out. -/
  lastFrame : Nat
  /-- The last key handed out. -/
  lastKey : Nat
  /-- How many steps may be run; zero means any number. -/
  maxSteps : Nat
  /-- How many steps were run. -/
  steps : Nat
  /-- The final variables of the frames that have left the stack, the latest first. -/
  retired : List (Nat × Memory)

/-- The class of the object the main program runs on behalf of. -/
def entryClass : String := "_Entry_"

namespace Machine

/-- A machine with nothing scheduled. -/
def new (classes : ClassTable) (heap : Heap) (maxSteps : Nat) : Machine where
  classes := classes
  heap := heap
  stack := []
  lastFrame := 0
  lastKey := 0
  maxSteps := maxSteps
  steps := 0
  retired := []

/-- Whether nothing is left to run. -/
def done (m : Machine) : Bool :=
  m.stack.isEmpty

/-- Schedules `stmt` on behalf of `owner`, which has to be on the heap. The variable `this` is
bound to the owner. -/
def push (m : Machine) (stmt : Stmt) (owner : Value) (locals : Memory) :
    Except Fault (Frame × Machine) :=
  if m.heap.contains owner then
    let id := m.lastFrame + 1
    let key := m.lastKey + 1
    let frame : Frame := ⟨id, key, stmt, locals.insert "this" owner, owner, none⟩
    .ok (frame, { m with stack := frame :: m.stack, lastFrame := id, lastKey := key })
  else .error (.unknownObject owner)

/-- Creates the entry object and schedules the main program on its behalf. -/
def start (m : Machine) (main : Stmt) : Except Fault (Frame × Machine) :=
  let (entry, heap) := m.heap.create entryClass ∅
  { m with heap := heap }.push main (.object entry) ∅

/-- An independent machine on a copy of the heap with nothing scheduled. Frame ids go on from
the same number. -/
def fork (m : Machine) : Machine :=
  { m with stack := [], steps := 0, retired := [] }

/-- The scheduled frame with a given id. -/
def frame? (m : Machine) (id : Nat) : Option Frame :=
  m.stack.find? fun f => f.id = id

/-- The variables of a frame: the current ones while it is scheduled, the final ones after. -/
def locals? (m : Machine) (id : Nat) : Option Memory :=
  match m.frame? id with
  | some f => some f.locals
  | none => (m.retired.find? fun e => e.1 = id).map Prod.snd

/-- Changes the frame at a given depth, the running frame having depth zero. -/
def modifyFrame (m : Machine) (depth : Nat) (change : Frame → Frame) : Machine :=
  { m with stack := m.stack.modify depth change }

/-- The value of an expression in the scope of the top frame; nothing if the program has
terminated. -/
def evalTop (m : Machine) (e : Expr) : Option (Except Fault Value) :=
  m.stack.head?.map fun f => e.eval ⟨f.locals, m.heap, f.owner⟩

end Machine

end ObjectMachine
