import ObjectMachine.ClassTable
import ObjectMachine.Program.Outline
import ObjectMachine.Program.Tree

namespace ObjectMachine

open ObjectMachine.Yaml (Node Document)
open ObjectMachine.Program

/-!
# Programs

A program is a class table and a main statement.

* `Program` — the type; `Program.load` — the program that a document describes;
* `LoadFault` — why a document describes none;
* `Expr.parse` — the expression that a text describes.
-/

/-- The classes and the main statement of a program. -/
structure Program where
  classes : ClassTable
  main : Stmt

/-- Why a text is not a program. -/
inductive LoadFault where
  /-- The text is not well-formed. -/
  | malformed
  /-- The document has other keys or other types than a program. -/
  | mistyped
  /-- There is no document. -/
  | empty
  | method (cls name : String) (cause : ShapeFault)
  | declaration (cause : DeclFault)
  | main (cause : ShapeFault)
deriving DecidableEq, Repr

/-- The wording of a fault. -/
def LoadFault.message : LoadFault → String
  | malformed => "decoding program: malformed document"
  | mistyped => "decoding program: document does not describe a program"
  | empty => "decoding program: EOF"
  | method cls name cause => "method " ++ cls ++ "." ++ name ++ ": " ++ cause.message
  | declaration cause => cause.message
  | main cause => "main: " ++ cause.message

namespace Program

/-- The statement of a body; a missing body does nothing. -/
def bodyOf : Option Node → Except ShapeFault Stmt
  | none => .ok .skip
  | some n => Stmt.ofNode n

/-- The declaration of a method of `cls`. -/
def declareMethod (cls : String) (m : String × MethodOutline) :
    Except LoadFault (String × MethodDecl) :=
  match bodyOf m.2.body with
  | .ok body => .ok (m.1, ⟨m.2.params, some body⟩)
  | .error cause => .error (.method cls m.1 cause)

/-- The declaration of a class. -/
def declareClass (c : ClassOutline) : Except LoadFault ClassDecl := do
  let methods ← c.methods.mapM (declareMethod c.name)
  return ⟨c.name, c.fields, methods⟩

/-- The program of an outline. Methods are read first, then classes are declared, and the main
statement is read last. -/
def ofOutline (o : Outline) : Except LoadFault Program := do
  let decls ← o.classes.mapM declareClass
  let classes ← (ClassTable.ofDecls decls).mapError .declaration
  let main ← (bodyOf o.main).mapError .main
  return ⟨classes, main⟩

/-- The program that the first document of a text describes. -/
def load (text : String) : Except LoadFault Program :=
  match Document.read text with
  | .malformed => .error .malformed
  | .absent => .error .empty
  | .root n =>
    match Outline.ofNode n with
    | none => .error .malformed
    | some r =>
      if r.fits then ofOutline (r.value.getD ⟨[], none⟩) else .error .mistyped

end Program

/-- Why a text is not an expression. -/
inductive ParseFault where
  /-- The text is not well-formed. -/
  | malformed
  /-- There is no document. -/
  | absent
  | shape (cause : ShapeFault)
deriving DecidableEq, Repr

/-- The wording of a fault. -/
def ParseFault.message : ParseFault → String
  | malformed => "decoding expression: malformed document"
  | absent => "expected one expression"
  | shape cause => cause.message

/-- The expression that the first document of a text describes. -/
def Expr.parse (text : String) : Except ParseFault Expr :=
  match Document.read text with
  | .malformed => .error .malformed
  | .absent => .error .absent
  | .root n => (Expr.ofNode n).mapError .shape

end ObjectMachine
