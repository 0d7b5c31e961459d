import ObjectMachine.Heap

namespace ObjectMachine

/-!
# Triples

A heap as a table of statements: the class of every object, followed by its fields in the order
of their names.
-/

/-- A statement about an object. -/
structure Triple where
  subject : String
  predicate : String
  object : String
deriving DecidableEq, Repr, Inhabited

/-- The predicate that relates an object to its class. -/
def typePredicate : String := "a"

/-- The triples of one object. -/
def Ref.triples (r : Ref) (fields : Memory) : List Triple :=
  ⟨r.name, typePredicate, r.cls⟩ ::
    fields.entries.map fun f => ⟨r.name, f.1, f.2.identifier⟩

/-- The triples of a heap, object after object. -/
def Heap.triples (h : Heap) : List Triple :=
  h.objects.entries.flatMap fun o => o.1.triples o.2

end ObjectMachine
