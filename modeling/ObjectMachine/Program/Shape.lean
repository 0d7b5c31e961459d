import ObjectMachine.Text.Quoted
import ObjectMachine.Yaml.Node

namespace ObjectMachine.Program

open ObjectMachine.Yaml (Node)

/-!
# Shapes of program trees

A statement or an expression is written as a mapping with one key that names its kind. The body
of most kinds is a mapping with a fixed set of keys.

* `ShapeFault` — where a tree has the wrong shape, and why;
* `single` — the key and the body of a mapping with one key;
* `Fields` — a mapping with known keys; `Fields.get?`, `Fields.required` — what a key holds;
* `scalar`, `list` — the text of a scalar, the items of a list.
-/

/-- What is wrong with a node. -/
inductive ShapeCause where
  | notSingle
  | notMapping
  | notScalar
  | notList
  | unknownKey (key : String)
  | missing (key : String)
  | invalidInteger (text : String)
  | invalidBoolean (text : String)
  | unknownStatement (kind : String)
  | unknownExpression (kind : String)
  | notAssignable (kind : String)
deriving DecidableEq, Repr

/-- A node of the wrong shape, by its line. -/
structure ShapeFault where
  line : Nat
  cause : ShapeCause
deriving DecidableEq, Repr

/-- The wording of a cause. -/
def ShapeCause.message : ShapeCause → String
  | notSingle => "expected a mapping with a single key"
  | notMapping => "expected a mapping"
  | notScalar => "expected a scalar"
  | notList => "expected a list of expressions"
  | unknownKey key => "unknown key " ++ Text.quote key
  | missing key => "missing " ++ Text.quote key
  | invalidInteger text => "invalid integer " ++ Text.quote text
  | invalidBoolean text => "invalid boolean " ++ Text.quote text
  | unknownStatement kind => "unknown statement " ++ Text.quote kind
  | unknownExpression kind => "unknown expression " ++ Text.quote kind
  | notAssignable kind => Text.quote kind ++ " cannot be assigned to"

/-- The wording of a fault. -/
def ShapeFault.message (f : ShapeFault) : String :=
  "line " ++ Nat.repr f.line ++ ": " ++ f.cause.message

/-- A fault at a node. -/
def faultAt {α : Type} (n : Node) (cause : ShapeCause) : Except ShapeFault α :=
  .error ⟨n.line, cause⟩

/-- The key and the body of a mapping with one key. -/
def single (n : Node) : Except ShapeFault (String × Node) :=
  match n with
  | .mapping _ [(key, body)] => .ok (key.text, body)
  | n => faultAt n .notSingle

/-- The text of a scalar. -/
def scalar (n : Node) : Except ShapeFault String :=
  match n with
  | .scalar _ _ _ text => .ok text
  | n => faultAt n .notScalar

/-- The items of a list; nothing at all is an empty list. -/
def list (n : Node) : Except ShapeFault (List Node) :=
  if n.isNull then .ok []
  else
    match n with
    | .sequence _ items => .ok items
    | n => faultAt n .notList

/-- The entries of a mapping, in order, with the line of the mapping. -/
structure Fields where
  line : Nat
  entries : List (String × Node)

namespace Fields

/-- The entries with their keys as texts; every key has to be among the allowed ones. -/
def check (allowed : List String) : List (Node × Node) → Except ShapeFault (List (String × Node))
  | [] => .ok []
  | (key, body) :: rest =>
    if key.text ∈ allowed then do
      let entries ← check allowed rest
      return (key.text, body) :: entries
    else faultAt key (.unknownKey key.text)

/-- The entries of a mapping that has none but the allowed keys. -/
def ofNode (allowed : List String) (n : Node) : Except ShapeFault Fields :=
  match n with
  | .mapping line entries => do
    let entries ← check allowed entries
    return ⟨line, entries⟩
  | n => faultAt n .notMapping

/-- What a key holds; of several entries with one key the last one counts. -/
def get? (f : Fields) (key : String) : Option Node :=
  (f.entries.reverse.find? fun e => e.1 = key).map Prod.snd

/-- What a key holds that has to be there. -/
def required (f : Fields) (key : String) : Except ShapeFault Node :=
  match f.get? key with
  | some n => .ok n
  | none => .error ⟨f.line, .missing key⟩

end Fields

end ObjectMachine.Program
