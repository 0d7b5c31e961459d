import ObjectMachine.Cbor.Content
import ObjectMachine.Cbor.Reader
import ObjectMachine.Heap

namespace ObjectMachine.Snapshot

open Cbor

/-!
# Heap snapshots

A heap as bytes: its counter and its objects in order, each with its fields in the order of their
names, as CBOR maps with integer keys. Equal heaps have equal snapshots.

* `encode` — the canonical snapshot of a heap;
* `decode` — the heap of a snapshot; first all bytes are read, then the values are checked;
* `Fault` — what can be wrong with a snapshot.
-/

/-! ### Writing -/

/-- The item of a value: kind, literal and, for references, the class. -/
def ofValue (v : Value) : Item :=
  let cls := v.className
  .map ([(.unsigned 1, .unsigned v.kindCode), (.unsigned 2, .ofString v.literal)] ++
    if cls = "" then [] else [(.unsigned 3, .ofString cls)])

/-- A list of items; the empty list is null. -/
def ofList (items : List Item) : Item :=
  if items.isEmpty then .null else .array items

/-- The item of a field. -/
def ofField (f : String × Value) : Item :=
  .map [(.unsigned 1, .ofString f.1), (.unsigned 2, ofValue f.2)]

/-- The item of an object. -/
def ofObject (o : Ref × Memory) : Item :=
  .map [(.unsigned 1, ofValue (.object o.1)), (.unsigned 2, ofList (o.2.entries.map ofField))]

/-- The item of a heap. -/
def ofHeap (h : Heap) : Item :=
  .map [(.unsigned 1, .ofInt h.counter), (.unsigned 2, ofList (h.objects.entries.map ofObject))]

/-- The snapshot of a heap. -/
def encode (h : Heap) : Bytes :=
  (ofHeap h).encode

/-! ### Records -/

/-- A value as it is stored, not checked yet. -/
structure ValueRecord where
  kind : Nat
  literal : String
  cls : String

/-- A field as it is stored. -/
structure FieldRecord where
  name : String
  value : ValueRecord

/-- An object as it is stored. -/
structure ObjectRecord where
  ref : ValueRecord
  fields : List FieldRecord

/-- A heap as it is stored. -/
structure HeapRecord where
  counter : Int
  objects : List ObjectRecord

/-- The stored value in an item. -/
def toValue? (i : Item) : Option ValueRecord := do
  let r ← i.toRecord?
  return ⟨← (r.get 1).toNat? 255, ← (r.get 2).toText?, ← (r.get 3).toText?⟩

/-- The stored field in an item. -/
def toField? (i : Item) : Option FieldRecord := do
  let r ← i.toRecord?
  return ⟨← (r.get 1).toText?, ← toValue? (r.get 2)⟩

/-- The stored object in an item. -/
def toObject? (i : Item) : Option ObjectRecord := do
  let r ← i.toRecord?
  return ⟨← toValue? (r.get 1), ← (← (r.get 2).toList?).mapM toField?⟩

/-- The stored heap in an item. -/
def toHeap? (i : Item) : Option HeapRecord := do
  let r ← i.toRecord?
  return ⟨← (r.get 1).toInt?, ← (← (r.get 2).toList?).mapM toObject?⟩

/-! ### Reading -/

/-- What can be wrong with a snapshot. -/
inductive Fault where
  /-- The bytes are no data item, or none of a heap. -/
  | malformed
  | badReference (cause : Value.PartsFault)
  | badField (name : String) (owner : Value) (cause : Value.PartsFault)
  | notReference (v : Value)
deriving DecidableEq, Repr

/-- The wording of a faulty snapshot. -/
def Fault.message : Fault → String
  | malformed => "interpreter: unmarshal heap: malformed snapshot"
  | badReference cause => "interpreter: unmarshal heap: " ++ cause.message
  | badField name owner cause =>
    "interpreter: unmarshal heap: field " ++ name ++ " of " ++ owner.text ++ ": " ++ cause.message
  | notReference v => "type mismatch: " ++ v.text ++ " is not an object reference"

/-- The value of a record, if its parts fit together. -/
def ValueRecord.check (r : ValueRecord) : Except Value.PartsFault Value :=
  Value.ofParts r.kind r.literal r.cls

/-- The fields of an object; of two with one name the later counts. -/
def checkFields (owner : Value) : Memory → List FieldRecord → Except Fault Memory
  | m, [] => .ok m
  | m, f :: rest =>
    match f.value.check with
    | .error cause => .error (.badField f.name owner cause)
    | .ok v => checkFields owner (m.insert f.name v) rest

/-- Adds stored objects to a heap one after the other. -/
def checkObjects : Heap → List ObjectRecord → Except Fault Heap
  | h, [] => .ok h
  | h, o :: rest =>
    match o.ref.check with
    | .error cause => .error (.badReference cause)
    | .ok owner =>
      match checkFields owner ∅ o.fields with
      | .error fault => .error fault
      | .ok fields =>
        match owner with
        | .object r => checkObjects (h.insert r fields) rest
        | v => .error (.notReference v)

/-- The heap of a snapshot. -/
def decode (bs : Bytes) : Except Fault Heap :=
  match Item.decode? bs >>= toHeap? with
  | none => .error .malformed
  | some r => checkObjects ⟨r.counter, ∅⟩ r.objects

end ObjectMachine.Snapshot
