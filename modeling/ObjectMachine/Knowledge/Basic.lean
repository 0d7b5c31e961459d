import ObjectMachine.Fault
import ObjectMachine.Heap
import ObjectMachine.Text.Replace

namespace ObjectMachine

/-!
# Knowledge bases

A knowledge base answers requests about the heap. It keeps a state of its own, which every
machine that uses it shares; before each request it is shown the current heap.

* `KnowledgeBase` — the operations, over a type of states;
* `Request` — a query or a class expression; `Request.fill` — the parameters of a query;
* `KnowledgeBase.ask` — shows the heap and puts one request;
* `Heap.classify` — the value an answer stands for;
* `Heap.addList` — a linked list of answers on the heap.
-/

/-- A service that is shown a heap and answers requests about it with lists of identifiers. -/
structure KnowledgeBase (σ : Type) where
  dump : Heap → σ → Except KnowledgeFault Unit × σ
  query : String → σ → Except KnowledgeFault (List String) × σ
  derive : String → σ → Except KnowledgeFault (List String) × σ

/-- What is asked: the answers to a query, or the instances of a class expression. -/
inductive Request where
  | query (text : String)
  | derive (classExpr : String)
deriving DecidableEq, Repr

/-- Replaces the placeholders `%k` of a query by stored values. The list gives, from the highest
placeholder down, its number and its value, so that `%1` is not found inside `%10`. -/
def Request.fill (text : String) : List (Nat × Value) → String
  | [] => text
  | (k, v) :: rest => fill (Text.replaceAll text ("%" ++ Nat.repr k) v.identifier) rest

namespace KnowledgeBase

variable {σ : Type}

/-- Puts a request to a knowledge base. -/
def put (kb : KnowledgeBase σ) : Request → σ → Except KnowledgeFault (List String) × σ
  | .query text => kb.query text
  | .derive classExpr => kb.derive classExpr

/-- Shows the heap to a knowledge base and puts a request right after it. -/
def ask (kb : KnowledgeBase σ) (h : Heap) (r : Request) (s : σ) :
    Except Fault (List String) × σ :=
  match kb.dump h s with
  | (.error cause, s) => (.error (.dump cause), s)
  | (.ok (), s) =>
    match kb.put r s with
    | (.error cause, s) => (.error (.knowledge cause), s)
    | (.ok ids, s) => (.ok ids, s)

end KnowledgeBase

/-- The class of the objects that answers are returned in. -/
def listClass : String := "List"

/-- What stands between the double quotes of a quoted identifier. -/
def quotedBody? : List Char → Option (List Char)
  | '"' :: rest =>
    match rest.reverse with
    | '"' :: body => some body.reverse
    | _ => none
  | _ => none

/-- Whether a text is a run of digits with at most a minus sign in front. -/
def isNumeral (s : String) : Bool :=
  match s.toList with
  | '-' :: ds => (Text.digits? ds).isSome
  | ds => (Text.digits? ds).isSome

namespace Heap

/-- The value an identifier stands for: an object of the heap with that name, else a text
between double quotes, else an integer. -/
def classify (h : Heap) (id : String) : Except KnowledgeFault Value :=
  match h.find? id with
  | some r => .ok (.object r)
  | none =>
    match quotedBody? id.toList with
    | some body => .ok (.string (String.ofList body))
    | none =>
      if isNumeral id then
        match Text.readInt? id with
        | some n => .ok (.ofInt n)
        | none => .error (.integerOutOfRange id)
      else .error (.unknownIdentifier id)

/-- The values of a list of identifiers. -/
def classifyAll (h : Heap) : List String → Except KnowledgeFault (List Value)
  | [] => .ok []
  | id :: ids => do
    let v ← h.classify id
    let vs ← h.classifyAll ids
    return v :: vs

/-- Puts a list node on the heap for every value, each one in front of the former ones, and
returns the front of the list. -/
def addList (h : Heap) (front : Value) : List Value → Value × Heap
  | [] => (front, h)
  | v :: vs =>
    let (node, h) := h.create listClass (.ofList [("content", v), ("next", front)])
    h.addList (.object node) vs

end Heap

end ObjectMachine
