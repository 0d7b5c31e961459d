import ObjectMachine.Program.Shape
import ObjectMachine.Stmt

namespace ObjectMachine

open ObjectMachine.Yaml (Node)
open ObjectMachine.Program

/-!
# Statements and expressions from trees

A list of statements is their sequence, and nothing at all is the statement that does nothing.
Every other statement and every expression is a mapping with one key.

* `Expr.ofNode`, `Location.ofNode` — the expression or location a node stands for;
* `Stmt.ofNode` — the statement a node stands for.

Recursion is bounded by the depth of the node, which no tree exceeds.
-/

/-! ### Literals -/

/-- Whether a text is one of the words for true. -/
def isYes (text : String) : Bool :=
  text ∈ ["y", "Y", "yes", "Yes", "YES", "on", "On", "ON"]

/-- Whether a text is one of the words for false. -/
def isNo (text : String) : Bool :=
  text ∈ ["n", "N", "no", "No", "NO", "off", "Off", "OFF"]

/-- The truth value a word stands for. -/
def ofYesNo? (text : String) : Option Bool :=
  if isYes text then some true else if isNo text then some false else none

/-- The truth value that `true` or `false` stands for. -/
def ofTrueFalse? (text : String) : Option Bool :=
  if text ∈ ["true", "True", "TRUE"] then some true
  else if text ∈ ["false", "False", "FALSE"] then some false
  else none

/-- The truth value of a scalar. A tag has to agree with the spelling, quotes leave only the
words for yes and no, and null is false. -/
def truthOfScalar? (tag : Option String) (quoted : Bool) (text : String) : Option Bool :=
  match tag with
  | none =>
    if quoted then ofYesNo? text
    else if Yaml.spellsNull text then some false
    else (ofTrueFalse? text).or (ofYesNo? text)
  | some tag =>
    if tag = Yaml.textTag then ofYesNo? text
    else if tag = Yaml.nullTag then if Yaml.spellsNull text then some false else none
    else if tag = "!!bool" then ofTrueFalse? text
    else none

/-- The truth value of a node; an alias stands for what it refers to. -/
def truthOf? (n : Node) : Option Bool :=
  match n.follow? with
  | some (.scalar _ tag quoted text) => truthOfScalar? tag quoted text
  | _ => none

/-- The integer literal of a scalar. -/
def readInteger (n : Node) : Except ShapeFault Value := do
  let text ← scalar n
  match Text.readInt? text with
  | some v => return .ofInt v
  | none => faultAt n (.invalidInteger text)

/-- The truth value of a node as a literal. -/
def readTruth (n : Node) : Except ShapeFault Value :=
  match truthOf? n with
  | some b => .ok (.boolean b)
  | none => faultAt n (.invalidBoolean n.text)

/-! ### Expressions -/

/-- A letter without its case. The dotted capital letter counts as its plain one. -/
def lowerCase (c : Char) : Char :=
  if c = 'İ' then 'i' else c.toLower

/-- The operator a key names, in any case. -/
def Operator.ofKey? (key : String) : Option Operator :=
  match String.ofList (key.toList.map lowerCase) with
  | "eq" => some .eq
  | "neq" => some .neq
  | "geq" => some .geq
  | "leq" => some .leq
  | "plus" => some .plus
  | "minus" => some .minus
  | _ => none

/-- The location a node stands for, when `readExpr` reads the object of a field access. -/
def Location.read (readExpr : Node → Except ShapeFault Expr) (n : Node) :
    Except ShapeFault Location := do
  let (kind, body) ← single n
  match kind with
  | "local" => return .var (← scalar body)
  | "own" => return .own (← scalar body)
  | "field" =>
    let fields ← Fields.ofNode ["of", "name"] body
    let base ← readExpr (← fields.required "of")
    let name ← scalar (← fields.required "name")
    return .field base name
  | _ => faultAt n (.notAssignable kind)

/-- The expression a node of bounded depth stands for. -/
def Expr.read : (depth : Nat) → Node → Except ShapeFault Expr
  | 0, n => faultAt n .notSingle
  | depth + 1, n => do
    let (kind, body) ← single n
    match Operator.ofKey? kind with
    | some op =>
      let operands ← (← list body).mapM (Expr.read depth)
      return .apply op operands
    | none =>
      match kind with
      | "int" => return .lit (← readInteger body)
      | "str" => return .lit (.string (← scalar body))
      | "bool" => return .lit (← readTruth body)
      | "null" => return .lit .null
      | "local" | "own" | "field" =>
        let l ← Location.read (Expr.read depth) n
        return l.toExpr
      | _ => faultAt n (.unknownExpression kind)

/-- The expression a node stands for. -/
def Expr.ofNode (n : Node) : Except ShapeFault Expr :=
  Expr.read n.depth n

/-- The location a node stands for. -/
def Location.ofNode (n : Node) : Except ShapeFault Location :=
  Location.read Expr.ofNode n

/-- The expressions a list stands for. -/
def Expr.listOfNode (n : Node) : Except ShapeFault (List Expr) := do
  (← list n).mapM Expr.ofNode

/-! ### Statements -/

namespace Program.Fields

/-- The expression under a key. -/
def expr (f : Fields) (key : String) : Except ShapeFault Expr := do
  Expr.ofNode (← f.required key)

/-- The location under a key. -/
def location (f : Fields) (key : String) : Except ShapeFault Location := do
  Location.ofNode (← f.required key)

/-- The text under a key. -/
def text (f : Fields) (key : String) : Except ShapeFault String := do
  scalar (← f.required key)

/-- The expressions under a key; without it there are none. -/
def exprs (f : Fields) (key : String) : Except ShapeFault (List Expr) :=
  match f.get? key with
  | none => .ok []
  | some n => Expr.listOfNode n

/-- The location under a key, if it is there. -/
def location? (f : Fields) (key : String) : Except ShapeFault (Option Location) :=
  match f.get? key with
  | none => .ok none
  | some n => do return some (← Location.ofNode n)

/-- The statement under a key as `readStmt` reads it; without the key nothing is done. -/
def stmt (readStmt : Node → Except ShapeFault Stmt) (f : Fields) (key : String) :
    Except ShapeFault Stmt :=
  match f.get? key with
  | none => .ok .skip
  | some n => readStmt n

end Program.Fields

/-- The statement that a mapping with one key stands for, when `readStmt` reads the statements
inside of it. -/
def Stmt.readMapping (readStmt : Node → Except ShapeFault Stmt) (n : Node) :
    Except ShapeFault Stmt := do
  let (kind, body) ← single n
  match kind with
  | "skip" => return .skip
  | "breakpoint" => return .breakpoint
  | "print" => return .print (← Expr.ofNode body)
  | "return" => return .ret (← Expr.ofNode body)
  | "assign" =>
    let f ← Fields.ofNode ["target", "value"] body
    return .assign (← f.location "target") (← f.expr "value")
  | "call" =>
    let f ← Fields.ofNode ["target", "callee", "method", "args"] body
    return .call (← f.location? "target") (← f.expr "callee") (← f.text "method") (← f.exprs "args")
  | "new" =>
    let f ← Fields.ofNode ["target", "class", "args"] body
    return .create (← f.location "target") (← f.text "class") (← f.exprs "args")
  | "if" =>
    let f ← Fields.ofNode ["guard", "then", "else"] body
    return .cond (← f.expr "guard") (← f.stmt readStmt "then") (← f.stmt readStmt "else")
  | "while" =>
    let f ← Fields.ofNode ["guard", "body"] body
    return .loop (← f.expr "guard") (← f.stmt readStmt "body")
  | "query" =>
    let f ← Fields.ofNode ["target", "query", "params"] body
    return .query (← f.location "target") (← f.expr "query") (← f.exprs "params")
  | "derive" =>
    let f ← Fields.ofNode ["target", "class"] body
    return .derive (← f.location "target") (← f.expr "class")
  | _ => faultAt n (.unknownStatement kind)

/-- The statement a node of bounded depth stands for. -/
def Stmt.read : (depth : Nat) → Node → Except ShapeFault Stmt
  | 0, n => faultAt n .notSingle
  | depth + 1, n =>
    if n.isNull then .ok .skip
    else
      match n with
      | .sequence _ items => do return .block (← items.mapM (Stmt.read depth))
      | .scalar _ _ _ "skip" => .ok .skip
      | .scalar _ _ _ "breakpoint" => .ok .breakpoint
      | .scalar _ _ _ text => faultAt n (.unknownStatement text)
      | n => Stmt.readMapping (Stmt.read depth) n

/-- The statement a node stands for. -/
def Stmt.ofNode (n : Node) : Except ShapeFault Stmt :=
  Stmt.read n.depth n

end ObjectMachine
