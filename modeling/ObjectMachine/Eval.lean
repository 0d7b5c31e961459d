import ObjectMachine.Fault
import ObjectMachine.Heap

namespace ObjectMachine

/-!
# Evaluation

Expressions are evaluated on behalf of an object, in the scope of a frame. Operands are
evaluated from left to right before the operator looks at them; integers are 64-bit words, so
sums and differences wrap around.

* `Scope` — what an expression can see;
* `Operator.apply` — an operator on the values of its operands;
* `Expr.eval`, `Expr.evalAll` — the value of an expression, or of each one of a list.
-/

/-- What an expression can see: the variables of a frame, the heap, and the object on whose
behalf the frame runs. -/
structure Scope where
  locals : Memory
  heap : Heap
  owner : Value

namespace Operator

/-- The integer an operand denotes. -/
def operand (op : Operator) (v : Value) : Except Fault Int :=
  match v.toInt? with
  | some n => .ok n
  | none => .error (.operandType op v)

/-- The integers that the operands denote, from left to right. -/
def operands (op : Operator) : List Value → Except Fault (List Int)
  | [] => .ok []
  | v :: vs => do
    let n ← op.operand v
    let ns ← op.operands vs
    return n :: ns

/-- Applies `f` to the two operands there have to be. -/
def binary (op : Operator) (f : Value → Value → Except Fault Value) :
    List Value → Except Fault Value
  | [a, b] => f a b
  | vs => .error (.operandCount op vs.length)

/-- Applies `f` to the integers of the two operands there have to be. -/
def binaryInt (op : Operator) (f : Int → Int → Value) : List Value → Except Fault Value :=
  op.binary fun a b => do
    let m ← op.operand a
    let n ← op.operand b
    return f m n

/-- The value of an operator applied to values. -/
def apply (op : Operator) (vs : List Value) : Except Fault Value :=
  match op with
  | eq => op.binary (fun a b => .ok (.boolean (a = b))) vs
  | neq => op.binary (fun a b => .ok (.boolean (a ≠ b))) vs
  | geq => op.binaryInt (fun m n => .boolean (m ≥ n)) vs
  | leq => op.binaryInt (fun m n => .boolean (m ≤ n)) vs
  | minus => op.binaryInt (fun m n => .ofInt (Text.wrap (m - n))) vs
  | plus => do
    let ns ← op.operands vs
    return .ofInt (Text.total ns)
  | other symbol => .error (.unsupportedOperator symbol)

end Operator

mutual

/-- The value of an expression, given the fields `own` of the owner. -/
def Expr.evalWith (sc : Scope) (own : Memory) : Expr → Except Fault Value
  | .lit v => .ok v
  | .var name =>
    match sc.locals.get? name with
    | some v => .ok v
    | none => .error (.unknownVariable name)
  | .own name =>
    match own.get? name with
    | some v => .ok v
    | none => .error (.unknownField name sc.owner)
  | .field base name => do
    let ref ← base.evalWith sc own
    match sc.heap.lookup ref with
    | none => .error (.danglingBase ref (.field base name))
    | some fields =>
      match fields.get? name with
      | some v => .ok v
      | none => .error (.unknownField name ref)
  | .apply op operands => do
    let vs ← Expr.evalAllWith sc own operands
    op.apply vs

/-- The values of a list of expressions, from left to right. -/
def Expr.evalAllWith (sc : Scope) (own : Memory) : List Expr → Except Fault (List Value)
  | [] => .ok []
  | e :: es => do
    let v ← e.evalWith sc own
    let vs ← Expr.evalAllWith sc own es
    return v :: vs

end

/-- The value of an expression. The owner has to be on the heap, whatever the expression is. -/
def Expr.eval (sc : Scope) (e : Expr) : Except Fault Value :=
  match sc.heap.lookup sc.owner with
  | none => .error (.unknownObject sc.owner)
  | some fields => e.evalWith sc fields

/-- The values of a list of expressions, from left to right. -/
def Expr.evalAll (sc : Scope) : List Expr → Except Fault (List Value)
  | [] => .ok []
  | e :: es => do
    let v ← e.eval sc
    let vs ← Expr.evalAll sc es
    return v :: vs

end ObjectMachine
