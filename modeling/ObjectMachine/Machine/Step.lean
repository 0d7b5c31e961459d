import ObjectMachine.Machine.Effect

namespace ObjectMachine

/-!
# Steps and runs

* `Machine.step` — runs one frame for one step;
* `Machine.runFor` — steps until the stack is empty, a step fails or the fuel is used up;
* `Outcome` — how a step ended; `StepResult` — everything a step changes.
-/

/-- How a step ended. -/
inductive Outcome where
  /-- There was nothing to run. -/
  | idle
  | ran
  /-- A breakpoint of the given frame was executed. -/
  | paused (frame : Nat)
  | failed (fault : StepFault)

/-- Whether a step ran without reaching a breakpoint. -/
def Outcome.goesOn : Outcome → Bool
  | ran => true
  | _ => false

/-- The fault of a failed step. -/
def Outcome.fault? : Outcome → Option StepFault
  | failed fault => some fault
  | _ => none

/-- What a step leaves behind: the machine, the state of the knowledge base, the printed text and
how the step ended. -/
structure StepResult (σ : Type) where
  machine : Machine
  knowledge : σ
  printed : String
  outcome : Outcome

namespace Machine

/-- Takes a frame that was popped off the stack out of service. -/
def retire (m : Machine) (f : Frame) : Machine :=
  { m with retired := (f.id, f.locals) :: m.retired }

/-- Schedules a new frame that runs `s` in place of the popped frame `f`. -/
def rewrite (m : Machine) (f : Frame) (s : Stmt) : Machine :=
  let key := m.lastKey + 1
  { m with stack := { f with key := key, stmt := s } :: m.stack, lastKey := key }

/-- Schedules a popped frame to run what is left of it, if anything. -/
def proceed (m : Machine) (f : Frame) : Option Stmt → Machine
  | none => m.retire f
  | some s => m.rewrite f s

/-- Takes the frame with a given key off the stack. -/
def unschedule (m : Machine) (key : Nat) : Machine :=
  { m with stack := m.stack.eraseP fun f => f.key = key }

/-- Schedules a method on behalf of `callee`, its caller being the frame on top. -/
def spawn (m : Machine) (callee : Ref) (body : Stmt) (locals : Memory) : Machine :=
  let id := m.lastFrame + 1
  let key := m.lastKey + 1
  let caller := m.stack.head?.map Frame.ref
  { m with
    stack := ⟨id, key, body, locals, .object callee, caller⟩ :: m.stack
    lastFrame := id
    lastKey := key }

/-- Carries out an effect for the popped frame `f`, after which `rest` is to run. -/
def perform (m : Machine) (f : Frame) (rest : Option Stmt) : Effect → Machine
  | .finish | .pause | .print _ => m.proceed f rest
  | .setLocal name v => m.proceed { f with locals := f.locals.insert name v } rest
  | .setField r name v => { m with heap := m.heap.setField r name v }.proceed f rest
  | .become s => m.proceed f (s.andThen rest)
  | .create target cls fields =>
    let (r, heap) := m.heap.create cls fields
    let next := Stmt.assign target (.lit (.object r))
    { m with heap := heap }.proceed f (next.andThen rest)
  | .enlist target contents =>
    let (front, heap) := m.heap.addList .null contents
    let next := Stmt.assign target (.lit front)
    { m with heap := heap }.proceed f (next.andThen rest)
  | .invoke target callee body locals =>
    (m.rewrite f ((Stmt.storeReturn target).andThen rest)).spawn callee body locals
  | .resume caller callerRest => ((m.retire f).unschedule caller.key).proceed caller callerRest

/-- The text an effect prints. -/
def printedBy : Effect → String
  | .print v => v.text ++ "\n"
  | _ => ""

/-- How a step with a given effect ends. -/
def outcomeOf (f : Frame) : Effect → Outcome
  | .pause => .paused f.id
  | _ => .ran

/-- Whether the step limit is used up. -/
def limitReached (m : Machine) : Bool :=
  0 < m.maxSteps && m.maxSteps ≤ m.steps

/-- Whether answers of a knowledge base can be returned in lists. -/
def hasListClass (classes : ClassTable) : Bool :=
  classes.hasField listClass "content" && classes.hasField listClass "next"

variable {σ : Type}

/-- Turns an intent into an effect, asking the knowledge base if need be. -/
def resolve (m : Machine) (kb : Option (KnowledgeBase σ)) (s : σ) :
    Intent → Except Fault Effect × σ
  | .act e => (.ok e, s)
  | .ask r target =>
    match kb with
    | none => (.error .noKnowledgeBase, s)
    | some kb =>
      if !hasListClass m.classes then (.error .noListClass, s)
      else
        match kb.ask m.heap r s with
        | (.error fault, s) => (.error fault, s)
        | (.ok ids, s) =>
          match m.heap.classifyAll ids with
          | .error cause => (.error (.knowledge cause), s)
          | .ok contents => (.ok (.enlist target contents), s)

/-- What the frame `f` wants to do; its owner has to be on the heap. -/
def intentOf (m : Machine) (f : Frame) (below : List Frame) :
    Except Fault (Intent × Option Stmt) :=
  if m.heap.contains f.owner then
    f.stmt.intent m.classes ⟨f.locals, m.heap, f.owner⟩ (f.callerIn below)
  else .error (.unknownObject f.owner)

/-- Runs the top frame for one step. A frame that fails leaves the stack. -/
def step (kb : Option (KnowledgeBase σ)) (m : Machine) (s : σ) : StepResult σ :=
  match m.stack with
  | [] => ⟨m, s, "", .idle⟩
  | f :: below =>
    if m.limitReached then ⟨m, s, "", .failed .limit⟩
    else
      let popped := { m with stack := below, steps := m.steps + 1 }
      match popped.intentOf f below with
      | .error fault => ⟨popped.retire f, s, "", .failed (.frame f.id fault)⟩
      | .ok (intent, rest) =>
        match popped.resolve kb s intent with
        | (.error fault, s) => ⟨popped.retire f, s, "", .failed (.frame f.id fault)⟩
        | (.ok e, s) => ⟨popped.perform f rest e, s, printedBy e, outcomeOf f e⟩

/-- What a run leaves behind. -/
structure RunResult (σ : Type) where
  machine : Machine
  knowledge : σ
  printed : String
  /-- The fault that stopped the run. -/
  fault : Option StepFault

/-- Steps until the stack is empty, a step fails or `fuel` steps were tried; `printed` is what was
printed before. Breakpoints do not stop a run. -/
def runFrom (kb : Option (KnowledgeBase σ)) :
    (fuel : Nat) → Machine → σ → (printed : String) → RunResult σ
  | 0, m, s, printed => ⟨m, s, printed, none⟩
  | fuel + 1, m, s, printed =>
    if m.done then ⟨m, s, printed, none⟩
    else
      let r := m.step kb s
      match r.outcome with
      | .failed fault => ⟨r.machine, r.knowledge, printed ++ r.printed, some fault⟩
      | _ => runFrom kb fuel r.machine r.knowledge (printed ++ r.printed)

/-- Runs for at most `fuel` steps, with nothing printed before. -/
def runFor (kb : Option (KnowledgeBase σ)) (fuel : Nat) (m : Machine) (s : σ) : RunResult σ :=
  runFrom kb fuel m s ""

end Machine

end ObjectMachine
