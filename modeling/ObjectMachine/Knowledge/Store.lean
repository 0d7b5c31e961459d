import ObjectMachine.Knowledge.Basic
import ObjectMachine.Knowledge.ClassExpr
import ObjectMachine.Sql.Reader

namespace ObjectMachine

/-!
# The triple store

A knowledge base that keeps the heap as a table of triples. Queries are selections from the
table, class expressions are answered from the triples that give an object's class.

* `Store` — the table, and whether it can still be used;
* `Store.base` — the knowledge base.
-/

/-- The table of triples, and whether the store was closed. -/
structure Store where
  table : List Triple
  closed : Bool
deriving Inhabited

namespace Store

/-- A new, empty store. -/
def empty : Store := ⟨[], false⟩

/-- Closes the store; every later request is rejected. -/
def close (s : Store) : Store :=
  { s with closed := true }

/-- Replaces the table by the triples of a heap. -/
def dump (h : Heap) (s : Store) : Except KnowledgeFault Unit × Store :=
  if s.closed then (.error .rejected, s) else (.ok (), { s with table := h.triples })

/-- The column called `obj` of a result, which has to be filled in every row. -/
def objColumn (index : Nat) : List (List Sql.Cell) → Except KnowledgeFault (List String)
  | [] => .ok []
  | row :: rest =>
    match (row[index]?).bind Sql.Cell.text? with
    | none => .error .nullAnswer
    | some id => do
      let ids ← objColumn index rest
      return id :: ids

/-- Answers a query. A text without any token selects nothing at all. -/
def query (text : String) (s : Store) : Except KnowledgeFault (List String) :=
  if s.closed then .error .rejected
  else if Sql.scan? text = some [] then .error (.missingColumn [])
  else
    match Sql.Select.read? text with
    | none => .error .rejected
    | some q =>
      let names := q.columns.map Sql.ResultColumn.name
      match names.findIdx? fun n => n = "obj" with
      | none => .error (.missingColumn names)
      | some index => objColumn index (q.rows s.table)

/-- Answers a class expression. -/
def derive (classExpr : String) (s : Store) : Except KnowledgeFault (List String) :=
  match ClassExpr.read classExpr with
  | .error fault => .error fault
  | .ok e => if s.closed then .error .rejected else .ok (e.instances s.table)

/-- The triple store as a knowledge base. -/
def base : KnowledgeBase Store where
  dump := dump
  query text s := (s.query text, s)
  derive classExpr s := (s.derive classExpr, s)

end Store

end ObjectMachine
