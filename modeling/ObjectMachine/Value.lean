import ObjectMachine.Text.Numeral
import ObjectMachine.Text.Quoted

namespace ObjectMachine

/-!
# Values

What variables and fields hold: null, integers, booleans, texts and references to objects. An
integer is kept as the numeral it was given by, and two values are equal exactly when they are
written alike, so `+5` and `5` are different values of equal size.

* `Ref`, `Value` — the types, with `Value.ofInt` and `Value.ref`;
* `Value.text` — how traces show a value; `Value.identifier` — how knowledge bases store it;
* `Value.toInt?` — the integer its literal denotes;
* `Value.ofParts` — a value from its kind, literal and class, with the rules of each kind.
-/

/-- A reference to the object called `name` of class `cls`. -/
structure Ref where
  name : String
  cls : String
deriving DecidableEq, Repr, Inhabited

/-- The value of a variable, of a field or of an expression. -/
inductive Value where
  | null
  | integer (numeral : String)
  | boolean (b : Bool)
  | string (s : String)
  | object (r : Ref)
deriving DecidableEq, Repr, Inhabited

/-- How a reference is shown: its name, a colon and its class. -/
def Ref.text (r : Ref) : String :=
  r.name ++ ":" ++ r.cls

namespace Value

/-- The integer `n` by its canonical numeral. -/
def ofInt (n : Int) : Value :=
  .integer (Text.showInt n)

/-- A reference to the object `name` of class `cls`. -/
def ref (name cls : String) : Value :=
  .object ⟨name, cls⟩

/-- The text of the value without its kind. -/
def literal : Value → String
  | null => "null"
  | integer numeral => numeral
  | boolean b => if b then "True" else "False"
  | string s => s
  | object r => r.name

/-- The class of an object reference; empty for every other kind. -/
def className : Value → String
  | object r => r.cls
  | _ => ""

/-- Whether the value refers to an object. -/
def isObject : Value → Bool
  | object _ => true
  | _ => false

/-- The name of the kind, or the class of an object reference. -/
def tag : Value → String
  | null => "null"
  | integer _ => "integer"
  | boolean _ => "boolean"
  | string _ => "string"
  | object r => r.cls

/-- How traces and printed output show the value: texts are quoted, references carry their
class. -/
def text : Value → String
  | string s => Text.quote s
  | object r => r.text
  | v => v.literal

/-- How knowledge bases store and return the value: texts between double quotes as they are,
everything else as its bare literal. -/
def identifier : Value → String
  | string s => "\"" ++ s ++ "\""
  | v => v.literal

/-- The 64-bit integer that the literal denotes, whatever the kind of the value. -/
def toInt? (v : Value) : Option Int :=
  Text.readInt? v.literal

/-! ### Values from their parts -/

/-- Why a kind, a literal and a class do not make a value. -/
inductive PartsFault where
  | invalidInteger (literal : String)
  | invalidBoolean (literal : String)
  | incompleteReference
  | unknownKind (kind : Nat)
deriving DecidableEq, Repr

/-- The wording of a faulty combination of parts. -/
def PartsFault.message : PartsFault → String
  | invalidInteger literal => "invalid integer literal " ++ Text.quote literal
  | invalidBoolean literal => "invalid boolean literal " ++ Text.quote literal
  | incompleteReference => "object reference needs a name and a class"
  | unknownKind kind => "unknown value kind " ++ Nat.repr kind

/-- The number of the kind, as snapshots store it. -/
def kindCode : Value → Nat
  | null => 0
  | integer _ => 1
  | boolean _ => 2
  | string _ => 3
  | object _ => 4

/-- The value with the given kind, literal and class. Null ignores the other parts, an integer
keeps its numeral as it is, and a class matters for object references only. -/
def ofParts (kind : Nat) (literal cls : String) : Except PartsFault Value :=
  match kind with
  | 0 => .ok .null
  | 1 =>
    if (Text.readInt? literal).isSome then .ok (.integer literal)
    else .error (.invalidInteger literal)
  | 2 =>
    if literal = "True" then .ok (.boolean true)
    else if literal = "False" then .ok (.boolean false)
    else .error (.invalidBoolean literal)
  | 3 => .ok (.string literal)
  | 4 =>
    if literal = "" || cls = "" then .error .incompleteReference
    else .ok (.object ⟨literal, cls⟩)
  | kind => .error (.unknownKind kind)

end Value

end ObjectMachine
