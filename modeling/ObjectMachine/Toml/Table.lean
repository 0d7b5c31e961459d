import ObjectMachine.Toml.Line

namespace ObjectMachine.Toml

/-!
# Tables of settings files

What a settings file means: tables within tables. A table that came into being only because a key
leads through it can be defined by a header later on; everything else is defined once.

* `Tree`, `Entries` — tables and what they hold;
* `Builder` — a table while lines are added to it;
* `Document.read?` — the table of a text, and all keys in the order they are written.
-/

/-- What a name holds. -/
inductive Tree where
  | scalar (s : Scalar)
  /-- An array of values; what it holds is of no interest. -/
  | array
  | table (entries : List (String × Tree))
  /-- A list of tables, the last one apart. -/
  | tables (last : List (String × Tree)) (earlier : List (List (String × Tree)))
deriving Repr, Inhabited

/-- The content of a table. -/
abbrev Entries := List (String × Tree)

namespace Tree

/-- Whether a tree is an array of values. -/
def isArray : Tree → Bool
  | array => true
  | _ => false

/-- The table that a tree is, the last one of a list of tables. -/
def entries? : Tree → Option Entries
  | table entries => some entries
  | tables last _ => some last
  | _ => none

/-- A tree with other content in place of its table. -/
def withEntries (entries : Entries) : Tree → Tree
  | tables _ earlier => tables entries earlier
  | _ => table entries

end Tree

namespace Entries

/-- What a name holds in a table. -/
def find? (es : Entries) (name : String) : Option Tree :=
  (List.find? (fun e => e.1 = name) es).map Prod.snd

/-- Binds a name in a table. -/
def bind (name : String) (t : Tree) : Entries → Entries
  | [] => [(name, t)]
  | e :: rest => if e.1 = name then (name, t) :: rest else e :: bind name t rest

/-- The table that a key leads to. -/
def tableAt? : Key → Entries → Option Entries
  | [], es => some es
  | name :: key, es => do tableAt? key (← (← es.find? name).entries?)

/-- Binds a name in the table that a key leads to. -/
def bindAt (name : String) (t : Tree) : Key → Entries → Entries
  | [], es => es.bind name t
  | step :: key, es =>
    match es.find? step with
    | none => es
    | some inner => es.bind step (inner.withEntries (bindAt name t key (inner.entries?.getD [])))

end Entries

/-- A table while lines are added to it. -/
structure Builder where
  root : Entries
  /-- The keys that only lead through a table so far. -/
  implicit : List Key
  /-- All keys in the order they are written, the last one first. -/
  written : List Key

namespace Builder

/-- Nothing added yet. -/
def empty : Builder := ⟨[], [], []⟩

/-- Notes that a key is written. -/
def note (b : Builder) (key : Key) : Builder :=
  { b with written := key :: b.written }

/-- Marks a key that only leads through a table. -/
def addImplicit (b : Builder) (key : Key) : Builder :=
  { b with implicit := key :: b.implicit }

/-- A key does not only lead through a table any more. -/
def removeImplicit (b : Builder) (key : Key) : Builder :=
  { b with implicit := b.implicit.filter fun k => k ≠ key }

/-- Binds a name in the table at `context`, whatever it held. -/
def put (b : Builder) (context : Key) (name : String) (t : Tree) : Builder :=
  { b with root := b.root.bindAt name t context }

/-- Binds a name in the table at `context`. A name that only led through a table keeps it, except
that arrays are replaced and replace; any other name is bound once. -/
def define (b : Builder) (context : Key) (name : String) (t : Tree) : Option Builder := do
  let key := context ++ [name]
  match (← b.root.tableAt? context).find? name with
  | none => some (b.put context name t)
  | some old =>
    if b.implicit.any fun k => k = key then
      let b := b.removeImplicit key
      some (if old.isArray || t.isArray then b.put context name t else b)
    else none

/-- Makes sure that there are tables along a key, from `context` on. -/
def ensure (b : Builder) (context : Key) : Key → Option Builder
  | [] => some b
  | name :: rest => do
    let next := context ++ [name]
    match (← b.root.tableAt? context).find? name with
    | none => ((b.addImplicit next).put context name (.table [])).ensure next rest
    | some t => if t.entries?.isSome then b.ensure next rest else none

/-- Opens a table. -/
def openTable (b : Builder) (key : Key) : Option Builder := do
  let b ← b.ensure [] key.dropLast
  b.define key.dropLast (key.getLast?.getD "") (.table [])

/-- Opens another table of a list of tables. -/
def openArrayTable (b : Builder) (key : Key) : Option Builder := do
  let context := key.dropLast
  let name := key.getLast?.getD ""
  let b ← b.ensure [] context
  match (← b.root.tableAt? context).find? name with
  | none => some (b.put context name (.tables [] []))
  | some (.tables last earlier) => some (b.put context name (.tables [] (last :: earlier)))
  | some _ => none

/-- Leads through the tables of a key, from `context` on. -/
def leadThrough (b : Builder) (context : Key) : Key → Option Builder
  | [] => some b
  | name :: rest => do
    let next := context ++ [name]
    let b ← (b.addImplicit next).openTable next
    b.leadThrough next rest

mutual

/-- Adds what a value defines under a key; `inArray` tells whether it is an item of an array. -/
def addValue (key : Key) (inArray : Bool) (b : Builder) : Value → Option (Tree × Builder)
  | .scalar s => some (.scalar s, b)
  | .array items => do
    let b ← addItems key b items
    return (.array, b)
  | .inlineTable entries => do
    let b := b.addImplicit key
    let b ← if inArray then b.openArrayTable key else b.openTable key
    let b ← addEntries key b entries
    return (.table [], b)

/-- Adds what the items of an array define. -/
def addItems (key : Key) (b : Builder) : List Value → Option Builder
  | [] => some b
  | v :: rest => do
    let (_, b) ← addValue key true b v
    addItems key b rest

/-- Adds the entries of a table at `context`. -/
def addEntries (context : Key) (b : Builder) : List (Key × Value) → Option Builder
  | [] => some b
  | (key, v) :: rest => do
    let b ← b.leadThrough context key.dropLast
    let path := context ++ key
    let (t, b) ← addValue path false (b.note path) v
    let b ← b.define path.dropLast (path.getLast?.getD "") t
    addEntries context b rest

end

/-- Adds lines to the table at `context`, which headers change. -/
def addLines (context : Key) (b : Builder) : List Line → Option Builder
  | [] => some b
  | .table key :: rest => do
    let b ← b.openTable key
    addLines key (b.note key) rest
  | .arrayTable key :: rest => do
    let b ← b.openArrayTable key
    addLines key (b.note key) rest
  | .entry key v :: rest => do
    let b ← addEntries context b [(key, v)]
    addLines context b rest

end Builder

/-- The table of a text, and all its keys in the order they are written. -/
structure Document where
  root : Entries
  keys : List Key

/-- What a text means; nothing if it is malformed or defines something twice. -/
def Document.read? (text : String) : Option Document := do
  let b ← Builder.empty.addLines [] (← Line.readAll? text)
  return ⟨b.root, b.written.reverse⟩

end ObjectMachine.Toml
