import ObjectMachine.SortedMap
import ObjectMachine.Stmt

namespace ObjectMachine

/-!
# Classes

* `ClassDecl` — a class as it is declared;
* `ClassTable` — the classes of a program by name, never changed once built;
* `ClassTable.ofDecls` — checks declarations one after the other and builds the table;
* `ClassTable.fields?`, `ClassTable.method?`, `ClassTable.hasField` — what a class declares.
-/

/-- A method: its parameter names in order, and its body. -/
structure Method where
  params : List String
  body : Stmt
deriving Repr, Inhabited

/-- A declared method, whose body may be missing. -/
structure MethodDecl where
  params : List String
  body : Option Stmt
deriving Repr, Inhabited

/-- A declared class: its fields in the order of creation arguments, and its methods. -/
structure ClassDecl where
  name : String
  fields : List String
  methods : List (String × MethodDecl)
deriving Repr, Inhabited

/-- What is known of one class. -/
structure ClassInfo where
  fields : List String
  methods : SortedMap String Method
deriving Inhabited

/-- The classes of a program by name. -/
abbrev ClassTable := SortedMap String ClassInfo

/-- Why declarations do not make a class table. -/
inductive DeclFault where
  | unnamedClass
  | duplicateClass (cls : String)
  | duplicateField (cls field : String)
  | missingBody (cls method : String)
deriving DecidableEq, Repr

/-- The wording of a faulty declaration. -/
def DeclFault.message : DeclFault → String
  | unnamedClass => "class without a name"
  | duplicateClass cls => "class " ++ cls ++ " declared twice"
  | duplicateField cls field => "field " ++ field ++ " declared twice in class " ++ cls
  | missingBody cls method => "method " ++ cls ++ "." ++ method ++ " has no body"

/-- The first name of a list that occurs before in it; `seen` holds what came before. -/
def firstRepeated? (seen : List String) : List String → Option String
  | [] => none
  | name :: rest => if name ∈ seen then some name else firstRepeated? (name :: seen) rest

namespace ClassTable

/-- The methods of a class by name; every one needs a body. -/
def methodsOf (cls : String) :
    List (String × MethodDecl) → Except DeclFault (SortedMap String Method)
  | [] => .ok ∅
  | (name, m) :: rest =>
    match m.body with
    | none => .error (.missingBody cls name)
    | some body => do
      let methods ← methodsOf cls rest
      return methods.insert name ⟨m.params, body⟩

/-- Adds one declaration. -/
def declare (table : ClassTable) (c : ClassDecl) : Except DeclFault ClassTable :=
  if c.name = "" then .error .unnamedClass
  else if table.contains c.name then .error (.duplicateClass c.name)
  else
    match firstRepeated? [] c.fields with
    | some field => .error (.duplicateField c.name field)
    | none => do
      let methods ← methodsOf c.name c.methods
      return table.insert c.name ⟨c.fields, methods⟩

/-- The table of a list of declarations. -/
def ofDecls (decls : List ClassDecl) : Except DeclFault ClassTable :=
  decls.foldlM declare ∅

/-- The fields of a class in the order of creation arguments. -/
def fields? (table : ClassTable) (cls : String) : Option (List String) :=
  (table.get? cls).map ClassInfo.fields

/-- Whether a class declares a field. -/
def hasField (table : ClassTable) (cls field : String) : Bool :=
  match table.fields? cls with
  | none => false
  | some fields => field ∈ fields

end ClassTable

end ObjectMachine
