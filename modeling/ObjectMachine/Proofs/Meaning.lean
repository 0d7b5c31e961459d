import ObjectMachine.Machine.Step

namespace ObjectMachine

/-!
# The meaning of statements

What a statement does, by recursion on the statement and without frames, continuations or steps:
a sequence runs its parts one after the other, a call runs the body of a method and waits for the
value it returns. This is what the machine is measured against.

* `State` — what a statement reads and changes; `Activation` — on whose behalf it runs;
* `Exit` — how it ends;
* `Stmt.runWith` — one statement, given the meaning of repetitions and of method bodies;
* `Stmt.run` — with as much nesting of repetitions and calls as the fuel allows;
* `Stmt.meaning` — a main program on a heap.
-/

/-- What running a statement reads and changes. -/
structure State (σ : Type) where
  heap : Heap
  /-- The state of the knowledge base. -/
  knowledge : σ
  printed : String
  /-- The last activation id handed out. -/
  lastFrame : Nat
  locals : Memory

/-- What a statement is part of: the main program or one run of a method. -/
structure Activation where
  id : Nat
  owner : Value
  /-- Whether a caller waits for a result. -/
  called : Bool
deriving DecidableEq

/-- How running a statement ends. -/
inductive Exit where
  | completed
  /-- The whole method body ends with a value. -/
  | returned (v : Value)
  | failed (fault : StepFault)

/-- What running a statement leaves behind and how it ends; nothing if it was cut short. -/
abbrev Ran (σ : Type) := Option (State σ × Exit)

/-- A method body that is to run: on behalf of `callee`, with variables of its own. -/
structure Invocation where
  callee : Ref
  body : Stmt
  locals : Memory

/-- Goes on with `next` if everything so far completed normally. -/
def Ran.andThen {σ : Type} (r : Ran σ) (next : State σ → Ran σ) : Ran σ :=
  match r with
  | some (st, .completed) => next st
  | r => r

/-- The state a method starts with. -/
def State.enter {σ : Type} (inv : Invocation) (st : State σ) : State σ :=
  { st with locals := inv.locals, lastFrame := st.lastFrame + 1 }

namespace Activation

variable {σ : Type}

/-- What the expressions of an activation can see. -/
def scope (a : Activation) (st : State σ) : Scope :=
  ⟨st.locals, st.heap, a.owner⟩

/-- Fails in this activation. -/
def fail (a : Activation) (fault : Fault) : Exit :=
  .failed (.frame a.id fault)

/-- Goes on with something that was evaluated, or fails as its evaluation did. -/
def given (a : Activation) (st : State σ) {α : Type} (x : Except Fault α) (next : α → Ran σ) :
    Ran σ :=
  match x with
  | .error fault => some (st, a.fail fault)
  | .ok v => next v

/-- Takes one of two branches by the value of a guard. -/
def test (a : Activation) (st : State σ) (guard : Expr) (onTrue onFalse : Ran σ) : Ran σ :=
  a.given st (guard.eval (a.scope st)) fun
    | .boolean true => onTrue
    | .boolean false => onFalse
    | v => some (st, a.fail (.guardType guard v))

/-- Writes a declared field of an object of the heap. -/
def writeField (classes : ClassTable) (a : Activation) (st : State σ) (v : Value) (name : String)
    (new : Value) : State σ × Exit :=
  match v with
  | .object r =>
    if st.heap.contains v then
      if classes.hasField r.cls name then
        ({ st with heap := st.heap.setField r name new }, .completed)
      else (st, a.fail (.unknownField name v))
    else (st, a.fail (.unknownObject v))
  | v => (st, a.fail (.unknownObject v))

/-- Assigns a value; the location is looked at last. -/
def assign (classes : ClassTable) (a : Activation) (target : Location) (v : Value)
    (st : State σ) : State σ × Exit :=
  match target with
  | .var name => ({ st with locals := st.locals.insert name v }, .completed)
  | .own name => a.writeField classes st a.owner name v
  | .field base name =>
    match base.eval (a.scope st) with
    | .error fault => (st, a.fail fault)
    | .ok b => a.writeField classes st b name v

/-- Assigns a value if it is wanted. -/
def assign? (classes : ClassTable) (a : Activation) (target : Option Location) (v : Value)
    (st : State σ) : State σ × Exit :=
  match target with
  | none => (st, .completed)
  | some l => a.assign classes l v st

/-- The fields of a new object, bound to the values of the arguments in order. -/
def newFields (classes : ClassTable) (a : Activation) (st : State σ) (cls : String)
    (args : List Expr) : Except Fault Memory :=
  match classes.fields? cls with
  | none => .error (.unknownClass cls)
  | some fields =>
    if fields.length = args.length then do
      let vs ← Expr.evalAll (a.scope st) args
      return .ofList (fields.zip vs)
    else .error (.creationCount cls fields.length args.length)

/-- The method that a call runs: the callee and then the arguments are evaluated, and the
    variables of the method are the parameters and `this`. -/
def invocation (classes : ClassTable) (a : Activation) (st : State σ) (callee : Expr)
    (name : String) (args : List Expr) : Except Fault Invocation := do
  match ← callee.eval (a.scope st) with
  | .object r =>
    if st.heap.contains (.object r) then
      let m ← classes.method r.cls name
      if m.params.length = args.length then
        let vs ← Expr.evalAll (a.scope st) args
        return ⟨r, m.body, .ofList (("this", .object r) :: m.params.zip vs)⟩
      else .error (.argumentCount r.cls name m.params.length args.length)
    else .error (.unknownObject (.object r))
  | v => .error (.notCallable name v)

/-- The activation of a method, which is the next one. -/
def ofInvocation (inv : Invocation) (st : State σ) : Activation where
  id := st.lastFrame + 1
  owner := .object inv.callee
  called := true

/-- Goes on after a call made in the state `st`: the caller has its variables back, and the result
    is assigned. A method that ends without a result leaves the marker of the call behind. -/
def receive (classes : ClassTable) (a : Activation) (st : State σ) (target : Option Location)
    (r : Ran σ) : Ran σ :=
  match r with
  | none => none
  | some (st', exit) =>
    -- the target is evaluated after the call, with what the caller can see
    let st' := { st' with locals := st.locals }
    match exit with
    | .completed => some (st', a.fail (.notReturned (.storeReturn target)))
    | .returned v => some (a.assign? classes target v st')
    | .failed fault => some (st', .failed fault)

/-- Puts a request to a knowledge base and assigns the list of its answers. -/
def ask (classes : ClassTable) (kb : Option (KnowledgeBase σ)) (a : Activation)
    (target : Location) (r : Request) (st : State σ) : State σ × Exit :=
  match kb with
  | none => (st, a.fail .noKnowledgeBase)
  | some kb =>
    if classes.hasField listClass "content" && classes.hasField listClass "next" then
      match kb.ask st.heap r st.knowledge with
      | (.error fault, s) => ({ st with knowledge := s }, a.fail fault)
      | (.ok ids, s) =>
        match st.heap.classifyAll ids with
        | .error cause => ({ st with knowledge := s }, a.fail (.knowledge cause))
        | .ok contents =>
          let (front, heap) := st.heap.addList .null contents
          a.assign classes target front { st with knowledge := s, heap := heap }
    else (st, a.fail .noListClass)

end Activation

namespace Stmt

variable {σ : Type}

/-- The meaning of a statement. `again` is the meaning of a loop that is run again and of the body
    of a method; everything else is found by recursion on the statement. -/
def runWith (classes : ClassTable) (kb : Option (KnowledgeBase σ))
    (again : Stmt → Activation → State σ → Ran σ) : Stmt → Activation → State σ → Ran σ
  | skip, _, st => some (st, .completed)
  | breakpoint, _, st => some (st, .completed)
  | print e, a, st =>
    a.given st (e.eval (a.scope st)) fun v =>
      some ({ st with printed := st.printed ++ (v.text ++ "\n") }, .completed)
  | assign target e, a, st =>
    a.given st (e.eval (a.scope st)) fun v => some (a.assign classes target v st)
  | seq first second, a, st =>
    (first.runWith classes kb again a st).andThen (second.runWith classes kb again a)
  | cond guard onTrue onFalse, a, st =>
    a.test st guard (onTrue.runWith classes kb again a st) (onFalse.runWith classes kb again a st)
  | loop guard body, a, st =>
    a.test st guard ((body.runWith classes kb again a st).andThen (again (loop guard body) a))
      (some (st, .completed))
  | create target cls args, a, st =>
    a.given st (a.newFields classes st cls args) fun fields =>
      let (r, heap) := st.heap.create cls fields
      some (a.assign classes target (.object r) { st with heap := heap })
  | call target callee name args, a, st =>
    a.given st (a.invocation classes st callee name args) fun inv =>
      a.receive classes st target (again inv.body (.ofInvocation inv st) (.enter inv st))
  | ret e, a, st =>
    if a.called then a.given st (e.eval (a.scope st)) fun v => some (st, .returned v)
    else some (st, a.fail .returnOutsideCall)
  | query target text params, a, st =>
    a.given st (queryIntent (a.scope st) text params) fun r =>
      some (a.ask classes kb target r st)
  | derive target cls, a, st =>
    a.given st (requestText (a.scope st) "derive" cls) fun text =>
      some (a.ask classes kb target (.derive text) st)
  | storeReturn target, a, st => some (st, a.fail (.notReturned (.storeReturn target)))

/-- The meaning of a statement whose repetitions and calls are nested at most `fuel` deep. -/
def run (classes : ClassTable) (kb : Option (KnowledgeBase σ)) :
    (fuel : Nat) → Stmt → Activation → State σ → Ran σ
  | 0 => runWith classes kb fun _ _ _ => none
  | fuel + 1 => runWith classes kb (run classes kb fuel)

/-- The meaning of a main program: it runs on behalf of a new entry object. -/
def meaning (classes : ClassTable) (kb : Option (KnowledgeBase σ)) (fuel : Nat) (main : Stmt)
    (heap : Heap) (s : σ) : Ran σ :=
  let (entry, heap) := heap.create entryClass ∅
  main.run classes kb fuel ⟨1, .object entry, false⟩
    ⟨heap, s, "", 1, SortedMap.insert ∅ "this" (.object entry)⟩

end Stmt

end ObjectMachine
