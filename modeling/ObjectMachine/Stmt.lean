import ObjectMachine.Expr

namespace ObjectMachine

/-!
# Statements

A statement is also what is left to run of a frame. Sequencing is binary; a continuation is
extended on the right, so that what stands first stays first.

* `Stmt` — the statements, with the marker `storeReturn` that stands for a pending call;
* `Stmt.block` — a list of statements as one statement;
* `Stmt.append` — runs a statement after another one;
* `Stmt.andThen`, `Stmt.before` — the same where one of the two may be missing;
* `Stmt.text` — how a statement is shown.
-/

/-- A statement. `storeReturn` only ever arises while a call is pending: it marks where the
result of the call goes. -/
inductive Stmt where
  | skip
  | breakpoint
  | print (e : Expr)
  | assign (target : Location) (value : Expr)
  | call (target : Option Location) (callee : Expr) (method : String) (args : List Expr)
  | create (target : Location) (cls : String) (args : List Expr)
  | ret (value : Expr)
  | cond (guard : Expr) (onTrue onFalse : Stmt)
  | loop (guard : Expr) (body : Stmt)
  | seq (first second : Stmt)
  | query (target : Location) (text : Expr) (params : List Expr)
  | derive (target : Location) (cls : Expr)
  | storeReturn (target : Option Location)
deriving Repr, Inhabited

namespace Stmt

/-- Runs the statements of a list one after the other. -/
def block : List Stmt → Stmt
  | [] => skip
  | [s] => s
  | s :: t :: rest => seq s (block (t :: rest))

/-- Runs `s` and then `next`. The first statement of `s` stays the first one. -/
def append : Stmt → Stmt → Stmt
  | seq first second, next => seq first (second.append next)
  | s, next => seq s next

/-- Runs `s` and then whatever is still to come. -/
def andThen (s : Stmt) : Option Stmt → Stmt
  | none => s
  | some next => s.append next

/-- What is left to run before `next`, and then `next`. -/
def before (rest : Option Stmt) (next : Stmt) : Stmt :=
  match rest with
  | none => next
  | some s => s.append next

/-- A text with the target it is assigned to in front, if there is one. -/
def withTarget (target : Option Location) (text : String) : String :=
  match target with
  | none => text
  | some l => l.text ++ " := " ++ text

/-- How a statement is shown. -/
def text : Stmt → String
  | skip => "skip"
  | breakpoint => "breakpoint"
  | print e => "print(" ++ e.text ++ ")"
  | assign target value => target.text ++ " := " ++ value.text
  | call target callee method args =>
    withTarget target (callee.text ++ "." ++ method ++ "(" ++ Expr.listText args ++ ")")
  | create target cls args =>
    target.text ++ " := new " ++ cls ++ "(" ++ Expr.listText args ++ ")"
  | ret value => "return " ++ value.text
  | cond guard onTrue onFalse =>
    "if " ++ guard.text ++ " then " ++ onTrue.text ++ " else " ++ onFalse.text ++ " end"
  | loop guard body => "while " ++ guard.text ++ " do " ++ body.text ++ " end"
  | seq first second => first.text ++ "; " ++ second.text
  | query target text params =>
    target.text ++ " := query(" ++ Expr.listText (text :: params) ++ ")"
  | derive target cls => target.text ++ " := derive(" ++ cls.text ++ ")"
  | storeReturn target => withTarget target "<return>"

end Stmt

end ObjectMachine
