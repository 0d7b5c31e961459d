import ObjectMachine.Value

namespace ObjectMachine

/-!
# Expressions

* `Operator` — the six operators of the language, and any other symbol;
* `Expr` — literals, variables, fields of the current object, fields of other objects and
  operators applied to operands;
* `Location` — the expressions that can be assigned to;
* `Expr.text`, `Location.text` — how they are shown.
-/

/-- The symbol in front of an operand list. -/
inductive Operator where
  | eq
  | neq
  | geq
  | leq
  | plus
  | minus
  | other (symbol : String)
deriving DecidableEq, Repr, Inhabited

namespace Operator

/-- The symbol as it is written. -/
def symbol : Operator → String
  | eq => "EQ"
  | neq => "NEQ"
  | geq => "GEQ"
  | leq => "LEQ"
  | plus => "PLUS"
  | minus => "MINUS"
  | other s => s

/-- The operator with a given symbol. -/
def ofSymbol (s : String) : Operator :=
  match s with
  | "EQ" => eq
  | "NEQ" => neq
  | "GEQ" => geq
  | "LEQ" => leq
  | "PLUS" => plus
  | "MINUS" => minus
  | s => other s

end Operator

/-- An expression. -/
inductive Expr where
  | lit (v : Value)
  | var (name : String)
  | own (name : String)
  | field (base : Expr) (name : String)
  | apply (op : Operator) (operands : List Expr)
deriving Repr, Inhabited

/-- An expression that can be assigned to: a variable, a field of the current object or a field
of the object that `base` evaluates to. -/
inductive Location where
  | var (name : String)
  | own (name : String)
  | field (base : Expr) (name : String)
deriving Repr, Inhabited

mutual

/-- How an expression is shown. -/
def Expr.text : Expr → String
  | .lit v => v.text
  | .var name => name
  | .own name => "this." ++ name
  | .field base name => base.text ++ "." ++ name
  | .apply op operands => op.symbol ++ "(" ++ ", ".intercalate (Expr.texts operands) ++ ")"

/-- How each expression of a list is shown. -/
def Expr.texts : List Expr → List String
  | [] => []
  | e :: es => e.text :: Expr.texts es

end

/-- How an operand or argument list is shown. -/
def Expr.listText (es : List Expr) : String :=
  ", ".intercalate (Expr.texts es)

namespace Location

/-- The location as an expression. -/
def toExpr : Location → Expr
  | var name => .var name
  | own name => .own name
  | field base name => .field base name

/-- How a location is shown. -/
def text (l : Location) : String :=
  l.toExpr.text

end Location

/-- The location an expression denotes, if it can be assigned to. -/
def Expr.toLocation? : Expr → Option Location
  | .var name => some (.var name)
  | .own name => some (.own name)
  | .field base name => some (.field base name)
  | _ => none

end ObjectMachine
