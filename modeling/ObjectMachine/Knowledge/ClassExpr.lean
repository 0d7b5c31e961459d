import ObjectMachine.Fault
import ObjectMachine.Knowledge.Triple
import ObjectMachine.Text.Blank

namespace ObjectMachine

/-!
# Class expressions

Class names joined by `and` and `or`, both of the same rank and applied from left to right.

* `ClassExpr.read` — a class expression from its text;
* `ClassExpr.members` — the objects it stands for, in no particular order;
* `ClassExpr.instances` — the same, shorter names first.
-/

/-- What joins two class names. -/
inductive Connective where
  | and
  | or
deriving DecidableEq, Repr

/-- A class name and what is joined to it, from left to right. -/
structure ClassExpr where
  first : String
  rest : List (Connective × String)
deriving DecidableEq, Repr

/-- Whether a character can stand in a class name. -/
def isNameChar (c : Char) : Bool :=
  c.isAlpha || c = '_' || Text.isDigit c

/-- Whether a word is a class name: letters, digits and underscores, no digit first. -/
def isClassName (word : String) : Bool :=
  match word.toList with
  | [] => false
  | c :: cs => isNameChar c && !Text.isDigit c && cs.all isNameChar

/-- The connective that a word spells, in any case of letters. -/
def Connective.ofWord? (word : String) : Option Connective :=
  let w := String.ofList (word.toList.map Char.toLower)
  if w = "and" then some .and else if w = "or" then some .or else none

namespace ClassExpr

/-- Reads connectives and class names by turns; `text` is the whole expression. -/
def readRest (text : String) : List String → Except KnowledgeFault (List (Connective × String))
  | [] => .ok []
  | [_] => .error (.malformedClassExpr text)
  | joiner :: name :: rest =>
    match Connective.ofWord? joiner with
    | none => .error (.unknownConnective joiner text)
    | some c =>
      if isClassName name then do
        let rest ← readRest text rest
        return (c, name) :: rest
      else .error (.invalidClassName name text)

/-- The class expression that a text denotes. An even number of words is never one. -/
def read (text : String) : Except KnowledgeFault ClassExpr :=
  match Text.words text with
  | [] => .error (.malformedClassExpr text)
  | name :: rest =>
    if rest.length % 2 = 1 then .error (.malformedClassExpr text)
    else if isClassName name then do
      let rest ← readRest text rest
      return ⟨name, rest⟩
    else .error (.invalidClassName name text)

/-- The subjects that are stated to belong to a class, in the order of the table. -/
def ofClass (table : List Triple) (cls : String) : List String :=
  (table.filter fun t => t.predicate = typePredicate && t.object = cls).map Triple.subject

/-- Joins the members so far with those of another class; nothing occurs twice afterwards. -/
def join (c : Connective) (members others : List String) : List String :=
  match c with
  | .and => (members.filter fun s => others.contains s).eraseDups
  | .or => (members ++ others).eraseDups

/-- The members of a class expression. -/
def members (table : List Triple) (e : ClassExpr) : List String :=
  e.rest.foldl (fun ms j => join j.1 ms (ofClass table j.2)) (ofClass table e.first)

/-- Whether a name comes no later than another: shorter names first, then by their characters. -/
def before (a b : String) : Bool :=
  a.length < b.length || (a.length = b.length && a ≤ b)

/-- The members of a class expression, shorter names first. -/
def instances (table : List Triple) (e : ClassExpr) : List String :=
  (e.members table).mergeSort before

end ClassExpr

end ObjectMachine
