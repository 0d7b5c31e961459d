import ObjectMachine.Memory

namespace ObjectMachine

/-!
# The heap

Objects by reference, with a counter that names new objects. References are ordered by the
length of their name first, so `obj2` comes before `obj10` and listing a heap gives the order of
allocation.

* `Ref` is ordered by byte length of the name, name and class;
* `Heap.alloc` — a fresh reference; `Heap.insert` — stores an object;
* `Heap.lookup`, `Heap.find?` — objects by reference and references by name;
* `Heap.objects` — all objects in order.
-/

/-- References in the order of their names, shorter names first. -/
def Ref.order : Ref → Ref → Ordering :=
  compareLex (compareOn fun r => r.name.utf8ByteSize)
    (compareLex (compareOn Ref.name) (compareOn Ref.cls))

instance : Ord Ref := ⟨Ref.order⟩

instance : Std.TransOrd Ref :=
  inferInstanceAs (Std.TransCmp (compareLex (compareOn fun r : Ref => r.name.utf8ByteSize)
    (compareLex (compareOn Ref.name) (compareOn Ref.cls))))

instance : Std.LawfulEqOrd Ref where
  eq_of_compare {a b} h := by
    have h' : Ref.order a b = .eq := h
    simp only [Ref.order, compareLex_eq_eq, compareOn, Std.compare_eq_iff_eq] at h'
    obtain ⟨_, hname, hcls⟩ := h'
    cases a
    cases b
    simp_all
  compare_self {a} := by
    show Ref.order a a = .eq
    simp [Ref.order, compareLex_eq_eq, compareOn]

/-- All objects, and the number of the last reference handed out. -/
structure Heap where
  counter : Int
  objects : SortedMap Ref Memory
deriving DecidableEq

namespace Heap

/-- The heap without objects. -/
def empty : Heap := ⟨0, ∅⟩

instance : EmptyCollection Heap := ⟨empty⟩

instance : Inhabited Heap := ⟨∅⟩

/-- The fields of the object that a value refers to. -/
def lookup (h : Heap) : Value → Option Memory
  | .object r => h.objects.get? r
  | _ => none

/-- Whether a value refers to an object of the heap. -/
def contains (h : Heap) (v : Value) : Bool :=
  (h.lookup v).isSome

/-- The number of objects. -/
def size (h : Heap) : Nat :=
  h.objects.size

/-- A fresh reference to an object of class `cls`. Nothing is stored yet. -/
def alloc (h : Heap) (cls : String) : Ref × Heap :=
  let n := Text.wrap (h.counter + 1)
  (⟨"obj" ++ Text.showInt n, cls⟩, { h with counter := n })

/-- Stores an object under a reference. -/
def insert (h : Heap) (r : Ref) (fields : Memory) : Heap :=
  { h with objects := h.objects.insert r fields }

/-- A fresh object of class `cls` with the given fields. -/
def create (h : Heap) (cls : String) (fields : Memory) : Ref × Heap :=
  let (r, h) := h.alloc cls
  (r, h.insert r fields)

/-- Sets one field of the object stored under `r`. -/
def setField (h : Heap) (r : Ref) (name : String) (v : Value) : Heap :=
  match h.objects.get? r with
  | none => h
  | some fields => h.insert r (fields.insert name v)

/-- The first reference with the given name. -/
def find? (h : Heap) (name : String) : Option Ref :=
  h.objects.keys.find? fun r => r.name = name

end Heap

end ObjectMachine
