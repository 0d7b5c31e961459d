import ObjectMachine.Knowledge.Triple
import ObjectMachine.Text.Numeral

namespace ObjectMachine.Sql

/-!
# Selections from the triple table

The queries that the store understands: one selection over the table of triples, with conditions,
an order and a limit.

* `Cell` — what a row holds in a column; `Operand` — what is computed from a triple;
* `Comparison`, `Condition` — which triples are selected;
* `Select` — a query; `Select.columns` — the names of its result columns;
* `Select.rows` — its result.
-/

/-- What a row holds in a column. -/
inductive Cell where
  | null
  | int (n : Int)
  | text (s : String)
deriving DecidableEq, Repr, Inhabited

namespace Cell

/-- The text of a cell; null has none. -/
def text? : Cell → Option String
  | null => none
  | int n => some (Text.showInt n)
  | text s => some s

/-- Cells in ascending order: null, then integers, then texts. -/
def order : Cell → Cell → Ordering
  | null, null => .eq
  | null, _ => .lt
  | _, null => .gt
  | int m, int n => compare m n
  | int _, text _ => .lt
  | text _, int _ => .gt
  | text s, text t => compare s t

/-- Whether a character may surround a number in a text. -/
def isBlank (c : Char) : Bool :=
  c = ' ' || (9 ≤ c.toNat && c.toNat ≤ 13)

/-- The integer that a whole text is, blanks around it aside. -/
def wholeInt? (s : String) : Option Int :=
  let cs := s.toList.dropWhile isBlank
  Text.readInt? (String.ofList (cs.reverse.dropWhile isBlank).reverse)

/-- The integer at the front of a text after blanks, zero if there is none; a number that does
not fit is replaced by the nearest one that does. -/
def leadingInt (s : String) : Int :=
  let cs := s.toList.dropWhile isBlank
  let magnitude (cs : List Char) : Int := Text.digitsValue (cs.takeWhile Text.isDigit)
  let n : Int :=
    match cs with
    | '-' :: cs => -magnitude cs
    | '+' :: cs => magnitude cs
    | cs => magnitude cs
  max Text.minInt (min Text.maxInt n)

/-- A cell as an integer. -/
def toInteger : Cell → Cell
  | null => null
  | int n => int n
  | text s => int (leadingInt s)

end Cell

/-- A column of the table. -/
inductive Column where
  | subject
  | predicate
  | object
deriving DecidableEq, Repr

/-- The name of a column. -/
def Column.name : Column → String
  | subject => "subject"
  | predicate => "predicate"
  | object => "object"

/-- What a triple holds in a column. -/
def Column.of (t : Triple) : Column → String
  | subject => t.subject
  | predicate => t.predicate
  | object => t.object

/-- What is computed from a triple. -/
inductive Operand where
  | column (c : Column)
  | literal (v : Cell)
  /-- The integer that the operand starts with. -/
  | integer (o : Operand)
deriving DecidableEq, Repr

namespace Operand

/-- The value of an operand. -/
def eval (t : Triple) : Operand → Cell
  | column c => .text (c.of t)
  | literal v => v
  | integer o => (o.eval t).toInteger

/-- Whether an operand needs a triple. -/
def usesTable : Operand → Bool
  | column _ => true
  | literal _ => false
  | integer o => o.usesTable

end Operand

/-- How two operands are compared. -/
inductive Comparator where
  | eq
  | ne
  | lt
  | le
  | gt
  | ge
deriving DecidableEq, Repr

/-- Whether an ordering satisfies a comparator. -/
def Comparator.holds : Comparator → Ordering → Bool
  | eq, o => o == .eq
  | ne, o => o != .eq
  | lt, o => o == .lt
  | le, o => o != .gt
  | gt, o => o == .gt
  | ge, o => o != .lt

/-- A comparison of two operands. -/
structure Comparison where
  left : Operand
  comparator : Comparator
  right : Operand
deriving DecidableEq, Repr

/-- The value of an operand as it is compared with `other`: against a column, integer literals are
texts, and against what was made an integer, texts that are numerals are integers. -/
def Operand.comparand (t : Triple) (o other : Operand) : Cell :=
  match o, other, o.eval t with
  | .literal _, .column _, .int n => .text (Text.showInt n)
  | _, .integer _, .text s =>
    match Cell.wholeInt? s with
    | some n => .int n
    | none => .text s
  | _, _, v => v

/-- Whether a comparison holds of a triple; with null nothing holds. -/
def Comparison.holds (t : Triple) (c : Comparison) : Bool :=
  match c.left.comparand t c.right, c.right.comparand t c.left with
  | .null, _ => false
  | _, .null => false
  | a, b => c.comparator.holds (a.order b)

/-- Alternatives, each of which is a list of comparisons that all have to hold. -/
abbrev Condition := List (List Comparison)

/-- Whether a condition holds of a triple. -/
def Condition.holds (t : Triple) (c : Condition) : Bool :=
  c.any fun alternative => alternative.all fun x => x.holds t

/-- What a result column shows. -/
inductive Shown where
  | operand (o : Operand)
  /-- The number of selected triples. -/
  | count
deriving DecidableEq, Repr

/-- A result column: its name and what it shows. -/
structure ResultColumn where
  name : String
  item : Shown
deriving DecidableEq, Repr

/-- A query. -/
structure Select where
  distinct : Bool
  columns : List ResultColumn
  /-- Whether the table of triples is read; without it there is one row. -/
  fromTable : Bool
  condition : Option Condition
  /-- What rows are ordered by, the most significant first, and whether descending. -/
  order : List (Operand × Bool)
  limit : Option Nat
deriving DecidableEq, Repr

namespace Select

/-- What a result column shows for one of the selected triples. -/
def cellOf (selected : Nat) (t : Triple) (c : ResultColumn) : Cell :=
  match c.item with
  | .operand o => o.eval t
  | .count => .int selected

/-- What a result column shows if no triple is selected. -/
def cellOfNone (c : ResultColumn) : Cell :=
  match c.item with
  | .operand o => if o.usesTable then .null else o.eval default
  | .count => .int 0

/-- The only row of a query that counts: other columns show the first selected triple. -/
def countRow (columns : List ResultColumn) : List Triple → List Cell
  | [] => columns.map cellOfNone
  | t :: rest => columns.map (cellOf (rest.length + 1) t)

/-- Whether a query counts rows, so that its result has one row. -/
def counts (q : Select) : Bool :=
  q.columns.any fun c => c.item = .count

/-- The order of two triples under a list of sort keys. -/
def compareBy : List (Operand × Bool) → Triple → Triple → Ordering
  | [], _, _ => .eq
  | (o, descending) :: rest, s, t =>
    let here := (o.eval s).order (o.eval t)
    (if descending then here.swap else here).then (compareBy rest s t)

/-- The triples that a query reads. -/
def selected (q : Select) (table : List Triple) : List Triple :=
  let source := if q.fromTable then table else [default]
  match q.condition with
  | none => source
  | some c => source.filter fun t => c.holds t

/-- Drops every row that an earlier one equals in all result columns. -/
def dedup (q : Select) (rows : List Triple) : List Triple :=
  let shown (t : Triple) := q.columns.map (cellOf 0 t)
  rows.foldl (fun kept t => if kept.any fun k => shown k = shown t then kept else kept ++ [t]) []

/-- The result of a query, row by row. -/
def rows (q : Select) (table : List Triple) : List (List Cell) :=
  let chosen := q.selected table
  let result :=
    if q.counts then [countRow q.columns chosen]
    else
      let chosen := if q.distinct then q.dedup chosen else chosen
      let sorted := chosen.mergeSort fun s t => compareBy q.order s t != .gt
      sorted.map fun t => q.columns.map (cellOf chosen.length t)
  match q.limit with
  | none => result
  | some n => result.take n

end Select

end ObjectMachine.Sql
