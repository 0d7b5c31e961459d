import ObjectMachine.Knowledge.Basic
import ObjectMachine.Machine.Basic

namespace ObjectMachine

/-!
# What a statement does

Running a frame executes its leftmost statement. This module evaluates what that statement needs
and says what is to be done; nothing is changed yet, so a failing statement leaves no trace.

* `Effect` — what is to be done; `Intent` — an effect, or a request to a knowledge base first;
* `Stmt.awaiting?` — where a suspended statement wants the result of its call;
* `Stmt.intent` — the intent of the leftmost statement, and what is to run after it.
-/

/-- What the leftmost statement of a frame does, its expressions evaluated. -/
inductive Effect where
  | finish
  | pause
  | print (v : Value)
  | setLocal (name : String) (v : Value)
  | setField (r : Ref) (name : String) (v : Value)
  /-- The statement goes on as another one. -/
  | become (s : Stmt)
  | create (target : Location) (cls : String) (fields : Memory)
  /-- The answers of a knowledge base become a list, which is assigned. -/
  | enlist (target : Location) (contents : List Value)
  /-- The frame waits while a method runs on behalf of `callee`. -/
  | invoke (target : Option Location) (callee : Ref) (body : Stmt) (locals : Memory)
  /-- The frame ends and its caller goes on, if there is anything left of it. -/
  | resume (caller : Frame) (rest : Option Stmt)

/-- What the leftmost statement of a frame wants. -/
inductive Intent where
  | act (e : Effect)
  | ask (r : Request) (target : Location)

/-- The frame that waits for the result of the running one. -/
inductive Caller where
  | none
  | missing (id : Nat)
  | waiting (f : Frame)

/-- The caller of `f` among the frames beneath it. -/
def Frame.callerIn (f : Frame) (below : List Frame) : Caller :=
  match f.caller with
  | .none => .none
  | .some r =>
    match below.find? fun g => g.key = r.key with
    | .none => .missing r.id
    | .some g => .waiting g

/-- Where a suspended statement wants the result of its call, and what it runs after that. -/
def Stmt.awaiting? : Stmt → Option (Option Location × Option Stmt)
  | .storeReturn target => some (target, none)
  | .seq (.storeReturn target) rest => some (target, some rest)
  | _ => none

/-- What is left of a suspended statement once the result `v` has arrived. -/
def Stmt.received (target : Option Location) (rest : Option Stmt) (v : Value) : Option Stmt :=
  match target, rest with
  | some l, some s => some (.seq (.assign l (.lit v)) s)
  | some l, none => some (.assign l (.lit v))
  | none, rest => rest

/-- The reference in `v` and the declared field `name` of it that is to be written. -/
def writeField (classes : ClassTable) (heap : Heap) (v : Value) (name : String) (new : Value) :
    Except Fault Effect :=
  match v with
  | .object r =>
    if !heap.contains v then .error (.unknownObject v)
    else if !classes.hasField r.cls name then .error (.unknownField name v)
    else .ok (.setField r name new)
  | v => .error (.unknownObject v)

/-- Writes `v` to a location. -/
def Location.write (classes : ClassTable) (sc : Scope) (v : Value) :
    Location → Except Fault Effect
  | .var name => .ok (.setLocal name v)
  | .own name => writeField classes sc.heap sc.owner name v
  | .field base name => do
    let ref ← base.eval sc
    writeField classes sc.heap ref name v

/-- The method of a class. -/
def ClassTable.method (classes : ClassTable) (cls name : String) : Except Fault Method :=
  match classes.get? cls with
  | none => .error (.unknownClass cls)
  | some info =>
    match info.methods.get? name with
    | none => .error (.unknownMethod cls name)
    | some m => .ok m

/-- The fields of a class in the order of creation arguments. -/
def ClassTable.fields (classes : ClassTable) (cls : String) : Except Fault (List String) :=
  match classes.fields? cls with
  | none => .error (.unknownClass cls)
  | some fields => .ok fields

/-- Calls a method of the object that `callee` evaluates to. -/
def callIntent (classes : ClassTable) (sc : Scope) (target : Option Location) (callee : Expr)
    (method : String) (args : List Expr) : Except Fault Effect := do
  let v ← callee.eval sc
  match v with
  | .object r =>
    if !sc.heap.contains v then .error (.unknownObject v)
    else
      let m ← classes.method r.cls method
      if m.params.length ≠ args.length then
        .error (.argumentCount r.cls method m.params.length args.length)
      else
        let vs ← Expr.evalAll sc args
        return .invoke target r m.body (.ofList (("this", v) :: m.params.zip vs))
  | v => .error (.notCallable method v)

/-- Creates an object with the arguments bound to its fields in order. -/
def createIntent (classes : ClassTable) (sc : Scope) (target : Location) (cls : String)
    (args : List Expr) : Except Fault Effect := do
  let fields ← classes.fields cls
  if fields.length ≠ args.length then
    .error (.creationCount cls fields.length args.length)
  else
    let vs ← Expr.evalAll sc args
    return .create target cls (.ofList (fields.zip vs))

/-- Returns a value to the caller, which has to be waiting for it. -/
def returnIntent (sc : Scope) (caller : Caller) (value : Expr) : Except Fault Effect :=
  match caller with
  | .none => .error .returnOutsideCall
  | .missing id => .error (.callerNotScheduled id)
  | .waiting f =>
    match f.stmt.awaiting? with
    | .none => .error (.callerNotWaiting f.id f.stmt)
    | .some (target, rest) => do
      let v ← value.eval sc
      return .resume f (Stmt.received target rest v)

/-- The text a request is made of. -/
def requestText (sc : Scope) (request : String) (e : Expr) : Except Fault String := do
  match ← e.eval sc with
  | .string s => .ok s
  | v => .error (.requestType request v)

/-- A query with its parameters filled in. Parameters are evaluated from the last to the
first. -/
def queryIntent (sc : Scope) (text : Expr) (params : List Expr) : Except Fault Request := do
  let q ← requestText sc "query" text
  let vs ← Expr.evalAll sc params.reverse
  return .query (Request.fill q ((List.range' 1 vs.length).reverse.zip vs))

/-- What the leftmost statement wants, and what is to run after it. -/
def Stmt.intent (classes : ClassTable) (sc : Scope) (caller : Caller) :
    Stmt → Except Fault (Intent × Option Stmt)
  | .skip => return (.act .finish, none)
  | .breakpoint => return (.act .pause, none)
  | .print e => do
    let v ← e.eval sc
    return (.act (.print v), none)
  | .assign target value => do
    let v ← value.eval sc
    let e ← target.write classes sc v
    return (.act e, none)
  | .call target callee method args => do
    let e ← callIntent classes sc target callee method args
    return (.act e, none)
  | .create target cls args => do
    let e ← createIntent classes sc target cls args
    return (.act e, none)
  | .ret value => do
    let e ← returnIntent sc caller value
    return (.act e, none)
  | .cond guard onTrue onFalse => do
    match ← guard.eval sc with
    | .boolean true => return (.act (.become onTrue), none)
    | .boolean false => return (.act (.become onFalse), none)
    | v => .error (.guardType guard v)
  | .loop guard body =>
    return (.act (.become (.cond guard (body.append (.loop guard body)) .skip)), none)
  | .seq first second => do
    let (i, rest) ← first.intent classes sc caller
    return (i, some (Stmt.before rest second))
  | .query target text params => do
    let r ← queryIntent sc text params
    return (.ask r target, none)
  | .derive target cls => do
    let text ← requestText sc "derive" cls
    return (.ask (.derive text) target, none)
  | .storeReturn target => .error (.notReturned (.storeReturn target))

end ObjectMachine
