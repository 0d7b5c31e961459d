import ObjectMachine.Proofs.Instances

namespace ObjectMachine

/-!
# Class expressions as queries

The store can answer a class expression by one query: a selection of subjects for each class name,
joined by the set operators that the connectives stand for. The query has parameters in place of the
class names, so what its text selects depends on which parameter goes where.

* `Sql.Compound` — selections joined by set operators, with its text and its rows;
* `Sql.Compound.text_inj` — a text is that of one compound only;
* `ClassExpr.compile` — the text and the parameters for a class expression, word by word;
* `ClassExpr.compile_eq` — they are those of the compound that the class expression stands for;
* `ClassExpr.rows?_compound` — the rows of this compound are the instances of the class expression.
-/

/-! ### Compound selections -/

namespace Sql

/-- What joins two selections. -/
inductive SetOperator where
  | intersect
  | union
deriving DecidableEq, Repr

/-- How an operator is written between two selections. -/
def SetOperator.text : SetOperator → String
  | intersect => " INTERSECT "
  | union => " UNION "

/-- The rows so far joined with those of another selection; nothing occurs twice afterwards. -/
def SetOperator.combine (o : SetOperator) (rows others : List String) : List String :=
  match o with
  | intersect => (rows.filter fun s => others.contains s).eraseDups
  | union => (rows ++ others).eraseDups

/-- How a selection of subjects is written, with parameters for the predicate and the object. -/
def selectionText : String :=
  "SELECT subject AS obj FROM triples WHERE predicate = ? AND object = ?"

/-- The selection of the subjects with a predicate and an object. -/
def selection (predicate object : String) : Select where
  distinct := false
  columns := [⟨"obj", .operand (.column .subject)⟩]
  fromTable := true
  condition := some [[⟨.column .predicate, .eq, .literal (.text predicate)⟩,
    ⟨.column .object, .eq, .literal (.text object)⟩]]
  order := []
  limit := none

example :
    Select.read? "SELECT subject AS obj FROM triples WHERE predicate = 'a' AND object = 'Flag'" =
      some (selection "a" "Flag") := by
  decide +kernel

/-- The texts in the only column of the selection. -/
def subjects (predicate object : String) (table : List Triple) : List String :=
  ((selection predicate object).rows table).filterMap fun row => row.head?.bind Cell.text?

/-- Selections of subjects that are joined from left to right: a first one, and one more after each
    operator. -/
structure Compound where
  operators : List SetOperator
deriving DecidableEq, Repr

namespace Compound

/-- How operators are written, each with the selection after it. -/
def textFrom : List SetOperator → String
  | [] => ""
  | o :: os => o.text ++ (selectionText ++ textFrom os)

/-- What is written around the selections: the query orders their rows by length first. -/
def enclose (selections : String) : String :=
  "SELECT obj FROM (" ++ selections ++ ") ORDER BY length(obj), obj"

/-- How the query is written. -/
def text (c : Compound) : String :=
  enclose (selectionText ++ textFrom c.operators)

/-- Joins the rows so far with those of the remaining selections. Each of them takes the next two
    parameters, and no parameter may be left. -/
def joinFrom (table : List Triple) :
    List SetOperator → (params : List String) → (rows : List String) → Option (List String)
  | [], [], rows => some rows
  | o :: os, p :: q :: params, rows =>
    joinFrom table os params (o.combine rows (subjects p q table))
  | _, _, _ => none

/-- The rows of the query for a list of parameters, if it has as many as the text. -/
def rows? (c : Compound) (params : List String) (table : List Triple) : Option (List String) :=
  match params with
  | p :: q :: params =>
    (joinFrom table c.operators params (subjects p q table)).map fun rows =>
      rows.mergeSort ClassExpr.before
  | _ => none

end Compound

/-- A comparison with a parameter is equality. -/
theorem compare_text_eq (a b : String) :
    Comparator.eq.holds ((Cell.text a).order (.text b)) = decide (a = b) := by
  rw [Bool.eq_iff_iff, decide_eq_true_eq]
  show (compare a b == .eq) = true ↔ a = b
  rw [beq_iff_eq, Std.LawfulEqOrd.compare_eq_iff_eq]

/-- The selection has one row for each triple that it is about. -/
theorem subjects_eq (predicate object : String) (table : List Triple) :
    subjects predicate object table =
      (table.filter fun t => t.predicate = predicate && t.object = object).map Triple.subject := by
  have hholds : ∀ t : Triple,
      Condition.holds t [[⟨.column .predicate, .eq, .literal (.text predicate)⟩,
        ⟨.column .object, .eq, .literal (.text object)⟩]] =
        (t.predicate = predicate && t.object = object) := by
    intro t
    show ((Comparator.eq.holds ((Cell.text t.predicate).order (.text predicate)) &&
      (Comparator.eq.holds ((Cell.text t.object).order (.text object)) && true)) || false) = _
    rw [compare_text_eq, compare_text_eq, Bool.or_false, Bool.and_true]
  have hselected : (selection predicate object).selected table =
      table.filter fun t => t.predicate = predicate && t.object = object := by
    simp only [Select.selected, selection, if_true, hholds]
  -- without an order the rows stay as they were selected
  have hsorted : ∀ ts : List Triple,
      (ts.mergeSort fun s t => Select.compareBy [] s t != .gt) = ts := by
    intro ts
    exact List.mergeSort_of_pairwise (List.pairwise_of_forall fun _ _ => rfl)
  have hrows : (selection predicate object).rows table =
      ((selection predicate object).selected table).map fun t => [.text t.subject] := by
    show (((selection predicate object).selected table).mergeSort
      fun s t => Select.compareBy [] s t != .gt).map _ = _
    rw [hsorted]
    rfl
  rw [subjects, hrows, hselected, List.filterMap_map]
  exact congrFun List.filterMap_eq_map _

namespace Compound

/-- What is written after an operator cannot be written after the other one, or without any. -/
theorem textFrom_inj {os os' : List SetOperator} (h : textFrom os = textFrom os') : os = os' := by
  have hne : ∀ (o : SetOperator) (s : String), o.text ++ s ≠ "" := by
    intro o s hempty
    have hlen := congrArg String.length hempty
    rw [String.length_append] at hlen
    cases o <;> exact absurd hlen (Nat.ne_of_gt (Nat.lt_add_right _ (by decide)))
  induction os generalizing os' with
  | nil =>
    cases os' with
    | nil => rfl
    | cons o' os' => exact absurd h.symm (hne o' _)
  | cons o os ih =>
    cases os' with
    | nil => exact absurd h (hne o _)
    | cons o' os' =>
      have hsame : o = o' := by
        have hchars := congrArg String.toList h
        rw [textFrom, textFrom, String.toList_append, String.toList_append (s := o'.text)] at hchars
        cases o <;> cases o'
        · rfl
        · exact absurd (List.cons.inj (List.cons.inj hchars).2).1 (by decide)
        · exact absurd (List.cons.inj (List.cons.inj hchars).2).1 (by decide)
        · rfl
      subst hsame
      rw [textFrom, textFrom, String.append_right_inj, String.append_right_inj] at h
      rw [ih h]

theorem enclose_inj {s s' : String} (h : enclose s = enclose s') : s = s' :=
  (String.append_right_inj _).1 ((String.append_left_inj _).1 h)

/-- A text is that of one compound only. -/
theorem text_inj {c c' : Compound} (h : c.text = c'.text) : c = c' := by
  have hselections :
      selectionText ++ textFrom c.operators = selectionText ++ textFrom c'.operators :=
    enclose_inj h
  have hoperators : c.operators = c'.operators :=
    textFrom_inj ((String.append_right_inj _).1 hselections)
  cases c
  exact congrArg Compound.mk hoperators

end Compound

end Sql

/-! ### Compiling -/

/-- The operator that a connective stands for. -/
def Connective.operator : Connective → Sql.SetOperator
  | and => .intersect
  | or => .union

namespace ClassExpr

/-- The text and the parameters for words, the first of which stands at the given position: class
    names at even positions, connectives at odd ones. -/
def compileFrom (text : String) :
    (position : Nat) → List String → Except KnowledgeFault (String × List String)
  | _, [] => .ok ("", [])
  | position, word :: words =>
    if position % 2 = 1 then
      match Connective.ofWord? word with
      | none => .error (.unknownConnective word text)
      | some c => do
        let (sql, params) ← compileFrom text (position + 1) words
        return (c.operator.text ++ sql, params)
    else if isClassName word then do
      let (sql, params) ← compileFrom text (position + 1) words
      return (Sql.selectionText ++ sql, typePredicate :: word :: params)
    else .error (.invalidClassName word text)

/-- The query for a class expression: its text, and its parameters in the order in which they are
    written. -/
def compile (text : String) : Except KnowledgeFault (String × List String) :=
  let words := Text.words text
  if words.length % 2 = 0 then .error (.malformedClassExpr text)
  else do
    let (sql, params) ← compileFrom text 0 words
    return (Sql.Compound.enclose sql, params)

/-- The compound that a class expression stands for. -/
def compound (e : ClassExpr) : Sql.Compound :=
  ⟨e.rest.map fun j => j.1.operator⟩

/-- The parameters for the class names of a list. -/
def paramsOf (names : List String) : List String :=
  names.flatMap fun name => [typePredicate, name]

/-- The words after the first one are compiled as they are read. -/
theorem compileFrom_rest (text : String) (words : List String) {position : Nat}
    (hposition : position % 2 = 1) (hlen : words.length % 2 = 0) :
    compileFrom text position words = (readRest text words).map fun rest =>
      (Sql.Compound.textFrom (rest.map fun j => j.1.operator), paramsOf (rest.map Prod.snd)) := by
  have hnext : ¬(position + 1) % 2 = 1 := by omega
  fun_induction readRest text words generalizing position with
  | case1 => rfl
  | case2 => simp at hlen
  | case3 joiner name words hjoiner =>
    rw [compileFrom, if_pos hposition, hjoiner]
    rfl
  | case4 joiner name words c hjoiner hname ih =>
    simp only [List.length_cons] at hlen
    rw [compileFrom, if_pos hposition, hjoiner, compileFrom, if_neg hnext, if_pos hname,
      ih (by omega) (by omega) (by omega)]
    cases readRest text words <;> rfl
  | case5 joiner name words c hjoiner hname =>
    rw [compileFrom, if_pos hposition, hjoiner, compileFrom, if_neg hnext, if_neg hname]
    rfl

/-- A class expression is compiled to the text and the parameters of its compound. -/
theorem compile_eq (text : String) :
    compile text = (read text).map fun e => (e.compound.text, paramsOf e.names) := by
  rw [compile, read]
  cases hwords : Text.words text with
  | nil => rfl
  | cons name rest =>
    show (if (rest.length + 1) % 2 = 0 then _ else _) =
      Except.map _ (if rest.length % 2 = 1 then _ else _)
    by_cases hlen : rest.length % 2 = 1
    · rw [if_pos (by omega), if_pos hlen]
      rfl
    · rw [if_neg (by omega), if_neg hlen, compileFrom, if_neg (by decide)]
      split
      · rw [compileFrom_rest text rest rfl (by omega)]
        cases readRest text rest <;> rfl
      · rfl

/-- Every selection takes the parameters of its own class name. -/
theorem joinFrom_eq (table : List Triple) (rest : List (Connective × String)) (ms : List String) :
    Sql.Compound.joinFrom table (rest.map fun j => j.1.operator) (paramsOf (rest.map Prod.snd)) ms =
      some (rest.foldl (fun ms j => join j.1 ms (ofClass table j.2)) ms) := by
  induction rest generalizing ms with
  | nil => rfl
  | cons j rest ih =>
    have hjoin : j.1.operator.combine ms (Sql.subjects typePredicate j.2 table) =
        join j.1 ms (ofClass table j.2) := by
      rw [Sql.subjects_eq]
      cases j.1 <;> rfl
    show Sql.Compound.joinFrom table (rest.map fun j => j.1.operator)
      (paramsOf (rest.map Prod.snd)) (j.1.operator.combine ms _) = _
    rw [hjoin, ih]
    rfl

/-- The rows of the compound are the instances. -/
theorem rows?_compound (e : ClassExpr) (table : List Triple) :
    e.compound.rows? (paramsOf e.names) table = some (e.instances table) := by
  show (Sql.Compound.joinFrom table (e.rest.map fun j => j.1.operator)
    (paramsOf (e.rest.map Prod.snd)) (Sql.subjects typePredicate e.first table)).map _ = _
  rw [joinFrom_eq, Sql.subjects_eq]
  rfl

end ClassExpr

/-- What an open store answers to a class expression is what the query for it selects, and the text
    of the query leaves no choice which one this is. -/
theorem Store.derive_eq_compile (table : List Triple) (text : String) :
    (∃ fault, ClassExpr.compile text = .error fault ∧
      Store.derive text ⟨table, false⟩ = .error fault) ∨
    ∃ sql params query ids, ClassExpr.compile text = .ok (sql, params) ∧
      (∀ query' : Sql.Compound, query'.text = sql ↔ query' = query) ∧
      query.rows? params table = some ids ∧ Store.derive text ⟨table, false⟩ = .ok ids := by
  rw [ClassExpr.compile_eq, Store.derive]
  cases ClassExpr.read text with
  | error fault => exact .inl ⟨fault, rfl, rfl⟩
  | ok e =>
    refine .inr ⟨_, _, e.compound, _, rfl, fun query' => ⟨Sql.Compound.text_inj, ?_⟩,
      e.rows?_compound table, rfl⟩
    rintro rfl
    rfl

end ObjectMachine
