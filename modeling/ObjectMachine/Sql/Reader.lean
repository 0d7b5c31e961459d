import ObjectMachine.Sql.Select
import ObjectMachine.Sql.Token

namespace ObjectMachine.Sql

/-!
# Queries from text

Keywords and column names may be written in any case of letters; a result column without a name
of its own is named by its column, or else by the text it was written with.

* `Select.read?` — the query a text denotes, if it is one that the store understands.
-/

/-- A text in lower case. -/
def lower (s : String) : String :=
  String.ofList (s.toList.map Char.toLower)

/-- The words that cannot name a result column. -/
def keywords : List String :=
  ["select", "distinct", "all", "from", "where", "and", "or", "order", "by", "limit", "as", "asc",
    "desc", "not", "null", "cast"]

/-- The column with a given name. -/
def Column.ofName? (s : String) : Option Column :=
  match lower s with
  | "subject" => some .subject
  | "predicate" => some .predicate
  | "object" => some .object
  | _ => none

/-- The tokens after a keyword. -/
def keyword? (k : String) : List Lexeme → Option (List Lexeme)
  | ⟨.word w, _, _⟩ :: rest => if lower w = k then some rest else none
  | _ => none

/-- The tokens after a symbol. -/
def symbolAt? (s : String) : List Lexeme → Option (List Lexeme)
  | ⟨.symbol t, _, _⟩ :: rest => if t = s then some rest else none
  | _ => none

/-- The integer that a spelling denotes. -/
def integer? (negated : Bool) (digits : String) : Option Cell :=
  (Text.readInt? ((if negated then "-" else "") ++ digits)).map Cell.int

/-- A column, or a literal. -/
def readAtom : List Lexeme → Option (Operand × List Lexeme)
  | ⟨.number s, _, _⟩ :: rest => (integer? false s).map fun n => (.literal n, rest)
  | ⟨.symbol "-", _, _⟩ :: ⟨.number s, _, _⟩ :: rest =>
    (integer? true s).map fun n => (.literal n, rest)
  | ⟨.symbol "+", _, _⟩ :: ⟨.number s, _, _⟩ :: rest =>
    (integer? false s).map fun n => (.literal n, rest)
  | ⟨.text s, _, _⟩ :: rest => some (.literal (.text s), rest)
  | ⟨.quoted s, _, _⟩ :: rest =>
    match Column.ofName? s with
    | some c => some (.column c, rest)
    | none => some (.literal (.text s), rest)
  | ⟨.word w, _, _⟩ :: rest =>
    if lower w = "null" then some (.literal .null, rest)
    else (Column.ofName? w).map fun c => (.column c, rest)
  | _ => none

/-- An atom, or the integer at the front of one. -/
def readOperand (ls : List Lexeme) : Option (Operand × List Lexeme) :=
  match keyword? "cast" ls with
  | none => readAtom ls
  | some ls => do
    let ls ← symbolAt? "(" ls
    let (o, ls) ← readAtom ls
    let ls ← keyword? "as" ls
    let ls ← keyword? "integer" ls
    let ls ← symbolAt? ")" ls
    return (.integer o, ls)

/-- The tokens after `COUNT(*)`. -/
def count? (ls : List Lexeme) : Option (List Lexeme) := do
  let ls ← keyword? "count" ls
  let ls ← symbolAt? "(" ls
  let ls ← symbolAt? "*" ls
  symbolAt? ")" ls

/-- A name for a result column. -/
def readName : List Lexeme → Option (String × List Lexeme)
  | ⟨.word w, _, _⟩ :: rest => if lower w ∈ keywords then none else some (w, rest)
  | ⟨.quoted s, _, _⟩ :: rest => some (s, rest)
  | ⟨.text s, _, _⟩ :: rest => some (s, rest)
  | _ => none

/-- The name given to a result column, if there is one. -/
def readAlias (ls : List Lexeme) : Option (Option String × List Lexeme) :=
  match keyword? "as" ls with
  | some ls => (readName ls).map fun r => (some r.1, r.2)
  | none =>
    match readName ls with
    | some (name, ls) => some (some name, ls)
    | none => some (none, ls)

/-- The text from the first of `ls` up to the tokens of `after`. -/
def sourceText (source : List Char) (ls after : List Lexeme) : String :=
  match ls, (ls.take (ls.length - after.length)).getLast? with
  | first :: _, some last =>
    String.ofList ((source.drop first.start).take (last.stop - first.start))
  | _, _ => ""

/-- A result column. -/
def readColumn (source : List Char) (ls : List Lexeme) : Option (ResultColumn × List Lexeme) := do
  let (item, after) ←
    match count? ls with
    | some after => some (Shown.count, after)
    | none => (readOperand ls).map fun r => (Shown.operand r.1, r.2)
  let (given, rest) ← readAlias after
  let name :=
    match given, item with
    | some name, _ => name
    | none, .operand (.column c) => c.name
    | none, _ => sourceText source ls after
  return (⟨name, item⟩, rest)

/-- Result columns with commas between them. -/
def readColumns (source : List Char) :
    (fuel : Nat) → List Lexeme → Option (List ResultColumn × List Lexeme)
  | 0, _ => none
  | fuel + 1, ls => do
    let (c, ls) ← readColumn source ls
    match symbolAt? "," ls with
    | none => return ([c], ls)
    | some ls =>
      let (cs, ls) ← readColumns source fuel ls
      return (c :: cs, ls)

/-- The comparator of a symbol. -/
def Comparator.ofSymbol? : String → Option Comparator
  | "=" => some .eq
  | "==" => some .eq
  | "<>" => some .ne
  | "!=" => some .ne
  | "<" => some .lt
  | "<=" => some .le
  | ">" => some .gt
  | ">=" => some .ge
  | _ => none

/-- A comparison. -/
def readComparison (ls : List Lexeme) : Option (Comparison × List Lexeme) := do
  let (left, ls) ← readOperand ls
  match ls with
  | ⟨.symbol s, _, _⟩ :: ls =>
    let comparator ← Comparator.ofSymbol? s
    let (right, ls) ← readOperand ls
    return (⟨left, comparator, right⟩, ls)
  | _ => none

/-- Comparisons joined by `AND` and `OR`, of which `AND` binds tighter. -/
def readCondition : (fuel : Nat) → List Lexeme → Option (Condition × List Lexeme)
  | 0, _ => none
  | fuel + 1, ls => do
    let (c, ls) ← readComparison ls
    match keyword? "and" ls, keyword? "or" ls with
    | some ls, _ =>
      let (alternatives, ls) ← readCondition fuel ls
      match alternatives with
      | [] => none
      | a :: others => return ((c :: a) :: others, ls)
    | none, some ls =>
      let (alternatives, ls) ← readCondition fuel ls
      return ([c] :: alternatives, ls)
    | none, none => return ([[c]], ls)

/-- The operand that a sort key stands for: a result column by name or by number, or else an
operand. -/
def readKey (columns : List ResultColumn) (ls : List Lexeme) : Option (Operand × List Lexeme) :=
  let shown (c : ResultColumn) : Operand :=
    match c.item with
    | .operand o => o
    | .count => .literal .null
  match ls with
  | ⟨.number s, _, _⟩ :: rest => do
    let k ← Text.digits? s.toList
    if k = 0 then none else (columns[k - 1]?).map fun c => (shown c, rest)
  | ⟨.word w, _, _⟩ :: rest =>
    match columns.find? fun c => lower c.name = lower w with
    | some c => some (shown c, rest)
    | none => readOperand ls
  | _ => readOperand ls

/-- Sort keys with commas between them. -/
def readOrder (columns : List ResultColumn) :
    (fuel : Nat) → List Lexeme → Option (List (Operand × Bool) × List Lexeme)
  | 0, _ => none
  | fuel + 1, ls => do
    let (key, ls) ← readKey columns ls
    let (descending, ls) :=
      match keyword? "desc" ls, keyword? "asc" ls with
      | some ls, _ => (true, ls)
      | none, some ls => (false, ls)
      | none, none => (false, ls)
    match symbolAt? "," ls with
    | none => return ([(key, descending)], ls)
    | some ls =>
      let (keys, ls) ← readOrder columns fuel ls
      return ((key, descending) :: keys, ls)

/-- An optional part that starts with a keyword. -/
def readOptional {α : Type} (k : String) (read : List Lexeme → Option (α × List Lexeme))
    (ls : List Lexeme) : Option (Option α × List Lexeme) :=
  match keyword? k ls with
  | none => some (none, ls)
  | some ls => (read ls).map fun r => (some r.1, r.2)

/-- How many rows are wanted; a negative number wants all. -/
def readLimit : List Lexeme → Option (Option Nat × List Lexeme)
  | ⟨.number s, _, _⟩ :: rest => (Text.digits? s.toList).map fun n => (some n, rest)
  | ⟨.symbol "-", _, _⟩ :: ⟨.number _, _, _⟩ :: rest => some (none, rest)
  | _ => none

/-- The tokens after the table of triples. -/
def readTable : List Lexeme → Option (Unit × List Lexeme)
  | ⟨.word w, _, _⟩ :: rest => if lower w = "triples" then some ((), rest) else none
  | ⟨.quoted s, _, _⟩ :: rest => if lower s = "triples" then some ((), rest) else none
  | _ => none

namespace Select

/-- Whether no part of a query needs the table. -/
def tableFree (q : Select) : Bool :=
  let free (o : Operand) := !o.usesTable
  (q.columns.all fun c => match c.item with | .operand o => free o | .count => true) &&
    (q.condition.getD []).all (fun a => a.all fun c => free c.left && free c.right) &&
    q.order.all fun k => free k.1

/-- The query that tokens denote. -/
def ofLexemes? (source : List Char) (ls : List Lexeme) : Option Select := do
  let fuel := ls.length + 1
  let ls ← keyword? "select" ls
  let (distinct, ls) :=
    match keyword? "distinct" ls, keyword? "all" ls with
    | some ls, _ => (true, ls)
    | none, some ls => (false, ls)
    | none, none => (false, ls)
  let (columns, ls) ← readColumns source fuel ls
  let (table, ls) ← readOptional "from" readTable ls
  let (condition, ls) ← readOptional "where" (readCondition fuel) ls
  let (order, ls) ←
    readOptional "order" (fun ls => do readOrder columns fuel (← keyword? "by" ls)) ls
  let (limit, ls) ← readOptional "limit" readLimit ls
  let q : Select := ⟨distinct, columns, table.isSome, condition, order.getD [], limit.join⟩
  let ls := (symbolAt? ";" ls).getD ls
  if ls.isEmpty && (q.fromTable || q.tableFree) then some q else none

/-- The query that a text denotes. -/
def read? (text : String) : Option Select := do
  let ls ← scan? text
  ofLexemes? text.toList ls

end Select

end ObjectMachine.Sql
