import ObjectMachine.Stmt

namespace ObjectMachine

/-!
# Faults

Why a step fails. Every cause has a wording and belongs to one category; only what a knowledge
base reports in its own words has none.

* `KnowledgeFault` — what a knowledge base reports;
* `Fault` — the causes; `Fault.message` — their wording; `Fault.category?` — their category;
* `StepFault` — a fault together with the frame it arose in, or an exhausted step limit.
-/

/-- The families of faults that callers can tell apart. -/
inductive Category where
  | unknownObject
  | unknownField
  | unknownVariable
  | unknownClass
  | unknownMethod
  | parameterCount
  | malformedContinuation
  | unsupportedConstruct
  | typeMismatch
  | knowledgeContract
  | stepLimit
deriving DecidableEq, Repr

/-- The wording every fault of a category starts with. -/
def Category.message : Category → String
  | unknownObject => "unknown object"
  | unknownField => "unknown field"
  | unknownVariable => "unknown variable"
  | unknownClass => "unknown class"
  | unknownMethod => "unknown method"
  | parameterCount => "mismatched number of parameters"
  | malformedContinuation => "malformed continuation"
  | unsupportedConstruct => "unsupported construct"
  | typeMismatch => "type mismatch"
  | knowledgeContract => "knowledge base contract violation"
  | stepLimit => "maximum steps exceeded"

/-- What goes wrong between the machine and a knowledge base. -/
inductive KnowledgeFault where
  /-- An answer is neither an object of the heap nor a literal. -/
  | unknownIdentifier (id : String)
  /-- An answer is a numeral that does not fit in 64 bits. -/
  | integerOutOfRange (id : String)
  /-- A query selects no column called `obj`. -/
  | missingColumn (columns : List String)
  /-- A query has a row without an object. -/
  | nullAnswer
  | malformedClassExpr (text : String)
  | unknownConnective (word text : String)
  | invalidClassName (word text : String)
  /-- The database does not accept a request. -/
  | rejected
  /-- The knowledge base fails with a message of its own. -/
  | unavailable (message : String)
deriving DecidableEq, Repr

namespace KnowledgeFault

/-- The category of a fault, if it breaks the contract. -/
def category? : KnowledgeFault → Option Category
  | rejected | unavailable _ => none
  | _ => some .knowledgeContract

/-- What is said after the category. -/
def detail : KnowledgeFault → String
  | unknownIdentifier id => "unknown object or literal " ++ Text.quote id
  | integerOutOfRange id =>
    "strconv.ParseInt: parsing " ++ Text.quote id ++ ": value out of range"
  | missingColumn columns =>
    "query must select an obj column, got [" ++ " ".intercalate columns ++ "]"
  | nullAnswer => "query returned a NULL obj"
  | malformedClassExpr text => "malformed class expression " ++ Text.quote text
  | unknownConnective word text =>
    "unknown connective " ++ Text.quote word ++ " in " ++ Text.quote text
  | invalidClassName word text =>
    "invalid class name " ++ Text.quote word ++ " in " ++ Text.quote text
  | rejected => "request rejected by the database"
  | unavailable message => message

/-- The wording of a fault. -/
def message (f : KnowledgeFault) : String :=
  match f.category? with
  | none => f.detail
  | some c => c.message ++ ": " ++ f.detail

end KnowledgeFault

/-- Why evaluating an expression or running a statement fails. -/
inductive Fault where
  | unknownObject (v : Value)
  /-- The base of a field access is no object of the heap. -/
  | danglingBase (v : Value) (access : Expr)
  /-- A method is called on a value that is no reference. -/
  | notCallable (method : String) (v : Value)
  | unknownField (name : String) (on : Value)
  | unknownVariable (name : String)
  | unknownClass (cls : String)
  | unknownMethod (cls method : String)
  | argumentCount (cls method : String) (takes got : Nat)
  | creationCount (cls : String) (requires got : Nat)
  | operandCount (op : Operator) (got : Nat)
  | operandType (op : Operator) (v : Value)
  | guardType (guard : Expr) (v : Value)
  | requestType (request : String) (v : Value)
  | notReference (v : Value)
  | unsupportedOperator (symbol : String)
  | noKnowledgeBase
  /-- The class table has no `List` with the fields `content` and `next`. -/
  | noListClass
  /-- A marker of a pending call is run although nothing was returned. -/
  | notReturned (marker : Stmt)
  | returnOutsideCall
  /-- The caller of a returning frame is not waiting for a result. -/
  | callerNotWaiting (frame : Nat) (pending : Stmt)
  | callerNotScheduled (frame : Nat)
  | dump (cause : KnowledgeFault)
  | knowledge (cause : KnowledgeFault)
deriving Repr

namespace Fault

/-- The category of a fault; what a knowledge base says in its own words has none. -/
def category? : Fault → Option Category
  | unknownObject _ | danglingBase _ _ | notCallable _ _ => some .unknownObject
  | unknownField _ _ => some .unknownField
  | unknownVariable _ => some .unknownVariable
  | unknownClass _ | noListClass => some .unknownClass
  | unknownMethod _ _ => some .unknownMethod
  | argumentCount _ _ _ _ | creationCount _ _ _ | operandCount _ _ => some .parameterCount
  | operandType _ _ | guardType _ _ | requestType _ _ | notReference _ => some .typeMismatch
  | unsupportedOperator _ | noKnowledgeBase => some .unsupportedConstruct
  | notReturned _ | returnOutsideCall | callerNotWaiting _ _ | callerNotScheduled _ =>
    some .malformedContinuation
  | dump cause | knowledge cause => cause.category?

/-- What is said after the category. -/
def detail : Fault → String
  | unknownObject v => v.text
  | danglingBase v access => v.text ++ " stored in " ++ access.text
  | notCallable method v => "cannot call " ++ method ++ " on " ++ v.text
  | unknownField name on => name ++ " on " ++ on.text
  | unknownVariable name => name
  | unknownClass cls => cls
  | unknownMethod cls method => cls ++ "." ++ method
  | argumentCount cls method takes got =>
    cls ++ "." ++ method ++ " takes " ++ Nat.repr takes ++ " arguments, got " ++ Nat.repr got
  | creationCount cls requires got =>
    "creation of " ++ cls ++ " requires " ++ Nat.repr requires ++ " arguments, got " ++
      Nat.repr got
  | operandCount op got => op.symbol ++ " requires two operands, got " ++ Nat.repr got
  | operandType op v => op.symbol ++ ": " ++ v.text ++ " is not an integer"
  | guardType guard v => "guard " ++ guard.text ++ " evaluated to " ++ v.text
  | requestType request v => request ++ " expects a string, got " ++ v.text
  | notReference v => v.text ++ " is not an object reference"
  | unsupportedOperator symbol => "operator " ++ Text.quote symbol
  | noKnowledgeBase => "no knowledge base configured"
  | noListClass => "List with fields content and next is required for knowledge base results"
  | notReturned marker => marker.text ++ " scheduled without a pending call"
  | returnOutsideCall => "return outside of a method call"
  | callerNotWaiting frame pending =>
    "caller frame " ++ Nat.repr frame ++ " is pending " ++ pending.text
  | callerNotScheduled frame => "caller frame " ++ Nat.repr frame ++ " is not scheduled"
  | dump cause => cause.message
  | knowledge cause => cause.message

/-- The wording of a fault. -/
def message : Fault → String
  | dump cause => "dumping state: " ++ cause.message
  | knowledge cause => cause.message
  | f =>
    match f.category? with
    | none => f.detail
    | some c => c.message ++ ": " ++ f.detail

end Fault

/-- Why a step of the machine fails. -/
inductive StepFault where
  /-- The step limit is reached; nothing was run. -/
  | limit
  /-- Running the frame failed. -/
  | frame (id : Nat) (cause : Fault)
deriving Repr

namespace StepFault

/-- The category of a failed step. -/
def category? : StepFault → Option Category
  | limit => some .stepLimit
  | frame _ cause => cause.category?

/-- The wording of a failed step. -/
def message : StepFault → String
  | limit => Category.stepLimit.message
  | frame id cause => "frame " ++ Nat.repr id ++ ": " ++ cause.message

end StepFault

end ObjectMachine
