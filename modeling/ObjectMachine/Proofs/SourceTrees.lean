import ObjectMachine.Proofs.SourceLanguage

namespace ObjectMachine

open ObjectMachine.Yaml (Node)
open ObjectMachine.Program

/-!
# Trees of the source language

Every statement of the source language can be written as a tree that is read as this statement. A
tree is read to a bounded depth, so the trees are chosen such that every sufficient depth will do:

* `Node.record` — a mapping that is written out;
* `Expr.ReadFrom`, `Stmt.ReadFrom` — an expression or a statement is read from a tree;
* `Expr.Source.exists_readFrom`, `Stmt.Source.exists_readFrom` — there is such a tree for everything
  in the source language;
* `trees_denote_source_statements` — trees are read as the statements of the source language.
-/

/-! ### Trees -/

namespace Yaml.Node

/-- A text between quotes. -/
def quoted (text : String) : Node :=
  .scalar 1 none true text

/-- A mapping with the given keys. -/
def record (parts : List (String × Node)) : Node :=
  .mapping 1 (parts.map fun p => (quoted p.1, p.2))

/-- A collection takes one level more than anything in it. -/
theorem depth_lt_of_mem_items {line : Nat} {items : List Node} {n : Node} (hn : n ∈ items) :
    n.depth < (sequence line items).depth := by
  have hle : n.depth ≤ depthAll items := by
    induction items with
    | nil => simp at hn
    | cons m rest ih =>
      rw [depthAll]
      rcases List.mem_cons.1 hn with rfl | hn
      · exact Nat.le_max_left ..
      · exact Nat.le_trans (ih hn) (Nat.le_max_right ..)
  rw [depth]
  omega

theorem depth_lt_of_mem_parts {parts : List (String × Node)} {p : String × Node} (hp : p ∈ parts) :
    p.2.depth < (record parts).depth := by
  have hle : p.2.depth ≤ depthEntries (parts.map fun p => (quoted p.1, p.2)) := by
    induction parts with
    | nil => simp at hp
    | cons q rest ih =>
      rw [List.map_cons, depthEntries]
      rcases List.mem_cons.1 hp with rfl | hp
      · exact Nat.le_trans (Nat.le_max_right ..) (Nat.le_max_left ..)
      · exact Nat.le_trans (ih hp) (Nat.le_max_right ..)
  rw [record, depth]
  omega

end Yaml.Node

theorem Program.Fields.ofNode_record {allowed : List String} {parts : List (String × Node)}
    (h : ∀ p ∈ parts, p.1 ∈ allowed) : Fields.ofNode allowed (.record parts) = .ok ⟨1, parts⟩ := by
  refine ofNode_eq_ok.2 ⟨1, _, rfl, ?_, ?_⟩
  · intro e he
    obtain ⟨p, hp, rfl⟩ := List.mem_map.1 he
    exact h p hp
  · rw [List.map_map]
    exact congrArg (Fields.mk 1) (List.map_id parts).symm

/-- If everything in a list comes from something, so does the list. -/
theorem exists_forall₂ {α β : Type} {R : α → β → Prop} {bs : List β} (h : ∀ b ∈ bs, ∃ a, R a b) :
    ∃ as, List.Forall₂ R as bs := by
  induction bs with
  | nil => exact ⟨[], .nil⟩
  | cons b bs ih =>
    obtain ⟨a, ha⟩ := h b (by simp)
    obtain ⟨as, has⟩ := ih fun b' hb' => h b' (by simp [hb'])
    exact ⟨a :: as, .cons ha has⟩

/-! ### Expressions -/

/-- The expression is read from the tree, to every depth that suffices for it. -/
def Expr.ReadFrom (n : Node) (e : Expr) : Prop :=
  ∀ depth, n.depth ≤ depth → Expr.read depth n = .ok e

theorem Expr.ReadFrom.ofNode {n : Node} {e : Expr} (h : e.ReadFrom n) : Expr.ofNode n = .ok e :=
  h n.depth (Nat.le_refl _)

theorem Expr.mapM_read {items : List Node} {es : List Expr} {depth : Nat}
    (h : List.Forall₂ Expr.ReadFrom items es) (hdepth : ∀ n ∈ items, n.depth ≤ depth) :
    items.mapM (Expr.read depth) = .ok es := by
  refine mapM_eq_ok.2 ?_
  induction h with
  | nil => exact .nil
  | cons he _ ih =>
    obtain ⟨hn, hrest⟩ := List.forall_mem_cons.1 hdepth
    exact .cons (he depth hn) (ih hrest)

/-- A mapping with one key is an expression if what is below it is read as it should be. -/
theorem Expr.readFrom_record {kind : String} {body : Node} {e : Expr}
    (h : ∀ depth, body.depth ≤ depth → Expr.read (depth + 1) (.record [(kind, body)]) = .ok e) :
    e.ReadFrom (.record [(kind, body)]) := by
  intro depth hdepth
  have hbody : body.depth < (Node.record [(kind, body)]).depth :=
    Node.depth_lt_of_mem_parts (p := (kind, body)) (by simp)
  obtain ⟨depth, rfl⟩ := Nat.exists_eq_succ_of_ne_zero (n := depth) (by omega)
  exact h depth (by omega)

theorem single_record (kind : String) (body : Node) :
    single (.record [(kind, body)]) = .ok (kind, body) :=
  rfl

theorem Location.read_field {readExpr : Node → Except ShapeFault Expr} {of : Node} {base : Expr}
    (h : readExpr of = .ok base) (name : String) :
    Location.read readExpr (.record [("field", .record [("of", of), ("name", .quoted name)])]) =
      .ok (.field base name) := by
  have hfields : Fields.ofNode ["of", "name"] (.record [("of", of), ("name", .quoted name)]) =
      .ok ⟨1, [("of", of), ("name", .quoted name)]⟩ := Fields.ofNode_record (by simp)
  refine bind_eq_ok.2 ⟨_, single_record .., ?_⟩
  refine bind_eq_ok.2 ⟨_, hfields, ?_⟩
  refine bind_eq_ok.2 ⟨of, rfl, ?_⟩
  refine bind_eq_ok.2 ⟨base, h, ?_⟩
  refine bind_eq_ok.2 ⟨.quoted name, rfl, ?_⟩
  exact bind_eq_ok.2 ⟨name, rfl, rfl⟩

theorem Value.Written.exists_readFrom {v : Value} (h : v.Written) :
    ∃ n, (Expr.lit v).ReadFrom n := by
  cases h with
  | null =>
    have hkey : Operator.ofKey? "null" = none := by decide
    refine ⟨.record [("null", .quoted "")], Expr.readFrom_record fun depth _ => ?_⟩
    refine bind_eq_ok.2 ⟨_, single_record .., ?_⟩
    simp only [hkey]
    rfl
  | boolean b =>
    have hkey : Operator.ofKey? "bool" = none := by decide
    let word : Node := .scalar 1 none false (if b then "true" else "false")
    have hword : readTruth word = .ok (.boolean b) := by
      cases b <;> rfl
    refine ⟨.record [("bool", word)], Expr.readFrom_record fun depth _ => ?_⟩
    refine bind_eq_ok.2 ⟨_, single_record .., ?_⟩
    simp only [hkey]
    exact bind_eq_ok.2 ⟨_, hword, rfl⟩
  | string s =>
    have hkey : Operator.ofKey? "str" = none := by decide
    refine ⟨.record [("str", .quoted s)], Expr.readFrom_record fun depth _ => ?_⟩
    refine bind_eq_ok.2 ⟨_, single_record .., ?_⟩
    simp only [hkey]
    exact bind_eq_ok.2 ⟨s, rfl, rfl⟩
  | @integer i hi =>
    have hkey : Operator.ofKey? "int" = none := by decide
    have hnumeral : readInteger (.quoted (Text.showInt i)) = .ok (.ofInt i) := by
      refine bind_eq_ok.2 ⟨Text.showInt i, rfl, ?_⟩
      simp only [Text.readInt?_showInt hi]
      rfl
    refine ⟨.record [("int", .quoted (Text.showInt i))], Expr.readFrom_record fun depth _ => ?_⟩
    refine bind_eq_ok.2 ⟨_, single_record .., ?_⟩
    simp only [hkey]
    exact bind_eq_ok.2 ⟨_, hnumeral, rfl⟩

/-- A tree that is read as a location is read as the same expression. -/
theorem Expr.read_of_location {depth : Nat} {kind : String} {body : Node} {l : Location}
    (hkind : kind ∈ ["local", "own", "field"])
    (h : Location.read (Expr.read depth) (.record [(kind, body)]) = .ok l) :
    Expr.read (depth + 1) (.record [(kind, body)]) = .ok l.toExpr := by
  have hkey : ∀ kind ∈ ["local", "own", "field"], Operator.ofKey? kind = none := by decide
  refine bind_eq_ok.2 ⟨_, single_record .., ?_⟩
  simp only [hkey kind hkind]
  obtain rfl | rfl | rfl : kind = "local" ∨ kind = "own" ∨ kind = "field" := by simpa using hkind
  all_goals exact bind_eq_ok.2 ⟨l, h, rfl⟩

/-- An operator is written as its symbol. -/
theorem Operator.ofKey?_symbol {op : Operator} (h : ∀ symbol, op ≠ .other symbol) :
    Operator.ofKey? op.symbol = some op := by
  cases op with
  | other symbol => exact absurd rfl (h symbol)
  | _ => decide

/-- For every expression of the source language there is a tree that it is read from. -/
theorem Expr.Source.exists_readFrom {e : Expr} (h : e.Source) : ∃ n, e.ReadFrom n := by
  induction h with
  | lit hv hint => exact (Value.written_iff.2 ⟨hv, hint⟩).exists_readFrom
  | var name =>
    refine ⟨.record [("local", .quoted name)], readFrom_record fun depth _ => ?_⟩
    exact read_of_location (l := .var name) (by simp) rfl
  | own name =>
    refine ⟨.record [("own", .quoted name)], readFrom_record fun depth _ => ?_⟩
    exact read_of_location (l := .own name) (by simp) rfl
  | @field base _ name ih =>
    obtain ⟨of, hof⟩ := ih
    refine ⟨.record [("field", .record [("of", of), ("name", .quoted name)])],
      readFrom_record fun depth hdepth => ?_⟩
    have hlt : of.depth < (Node.record [("of", of), ("name", .quoted name)]).depth :=
      Node.depth_lt_of_mem_parts (p := ("of", of)) (by simp)
    have hread := Location.read_field (hof depth (by omega)) name
    exact read_of_location (l := .field base name) (by simp) hread
  | @apply op hop operands _ ih =>
    obtain ⟨items, hitems⟩ := exists_forall₂ ih
    refine ⟨.record [(op.symbol, .sequence 1 items)], readFrom_record fun depth hdepth => ?_⟩
    have hlist : Program.list (.sequence 1 items) = .ok items := rfl
    have hread : items.mapM (Expr.read depth) = .ok operands :=
      mapM_read hitems fun n hn =>
        Nat.le_trans (Nat.le_of_lt (Node.depth_lt_of_mem_items hn)) hdepth
    refine bind_eq_ok.2 ⟨_, single_record .., ?_⟩
    simp only [Operator.ofKey?_symbol hop]
    exact bind_eq_ok.2 ⟨items, hlist, bind_eq_ok.2 ⟨operands, hread, rfl⟩⟩

theorem Expr.Source.exists_node {e : Expr} (h : e.Source) : ∃ n, Expr.ofNode n = .ok e := by
  obtain ⟨n, hn⟩ := h.exists_readFrom
  exact ⟨n, hn.ofNode⟩

theorem Location.Source.exists_node {l : Location} (h : l.Source) :
    ∃ n, Location.ofNode n = .ok l := by
  cases l with
  | var name => exact ⟨.record [("local", .quoted name)], rfl⟩
  | own name => exact ⟨.record [("own", .quoted name)], rfl⟩
  | field base name =>
    cases h with
    | field hbase _ =>
      obtain ⟨of, hof⟩ := Expr.Source.exists_node hbase
      exact ⟨_, Location.read_field hof name⟩

/-- The expressions of a list are read from the items of a list. -/
theorem Expr.exists_list {es : List Expr} (h : ∀ e ∈ es, e.Source) :
    ∃ n, Expr.listOfNode n = .ok es := by
  obtain ⟨items, hitems⟩ := exists_forall₂ fun e he => (h e he).exists_node
  exact ⟨.sequence 1 items, bind_eq_ok.2 ⟨items, rfl, mapM_eq_ok.2 hitems⟩⟩

/-! ### Statements -/

/-- The statement is read from the tree, to every depth that suffices for it. -/
def Stmt.ReadFrom (n : Node) (s : Stmt) : Prop :=
  ∀ depth, n.depth ≤ depth → Stmt.read depth n = .ok s

namespace Stmt

/-- A mapping with one key is a statement if what is below it makes one. -/
theorem readFrom_record {kind : String} {body : Node} {s : Stmt}
    (h : ∀ depth, body.depth ≤ depth → Reads (Stmt.read depth) kind body s) :
    s.ReadFrom (.record [(kind, body)]) := by
  intro depth hdepth
  have hbody : body.depth < (Node.record [(kind, body)]).depth :=
    Node.depth_lt_of_mem_parts (p := (kind, body)) (by simp)
  obtain ⟨depth, rfl⟩ := Nat.exists_eq_succ_of_ne_zero (n := depth) (by omega)
  have hreads : Reads (Stmt.read depth) (Node.quoted kind).text body s := h depth (by omega)
  exact hreads.readMapping_eq

/-- A statement under a key of a record is read. -/
theorem stmt_record {parts : List (String × Node)} {key : String} {part : Node} {s : Stmt}
    (h : s.ReadFrom part) (hpart : (key, part) ∈ parts)
    (hget : Fields.get? ⟨1, parts⟩ key = some part) {depth : Nat}
    (hdepth : (Node.record parts).depth ≤ depth) :
    Fields.stmt (Stmt.read depth) ⟨1, parts⟩ key = .ok s := by
  have hlt : part.depth < (Node.record parts).depth := Node.depth_lt_of_mem_parts hpart
  rw [Fields.stmt, hget]
  exact h depth (Nat.le_trans (Nat.le_of_lt hlt) hdepth)

/-- For every statement of the source language there is a tree that it is read from. -/
theorem Source.exists_readFrom {s : Stmt} (h : s.Source) : ∃ n, s.ReadFrom n := by
  induction h with
  | skip => exact ⟨.record [("skip", .quoted "")], readFrom_record fun depth _ => .skip _⟩
  | breakpoint =>
    exact ⟨.record [("breakpoint", .quoted "")], readFrom_record fun depth _ => .breakpoint _⟩
  | print he =>
    obtain ⟨n, hn⟩ := he.exists_node
    exact ⟨.record [("print", n)], readFrom_record fun depth _ => .print hn⟩
  | ret he =>
    obtain ⟨n, hn⟩ := he.exists_node
    exact ⟨.record [("return", n)], readFrom_record fun depth _ => .ret hn⟩
  | assign ht hv =>
    obtain ⟨target, htarget⟩ := ht.exists_node
    obtain ⟨value, hvalue⟩ := hv.exists_node
    let parts := [("target", target), ("value", value)]
    refine ⟨.record [("assign", .record parts)], readFrom_record fun depth _ => ?_⟩
    exact .assign (f := ⟨1, parts⟩) (Fields.ofNode_record (by simp [parts]))
      (bind_eq_ok.2 ⟨target, rfl, htarget⟩) (bind_eq_ok.2 ⟨value, rfl, hvalue⟩)
  | @call target _ _ ht hc method ha =>
    obtain ⟨callee, hcallee⟩ := hc.exists_node
    obtain ⟨args, hargs⟩ := Expr.exists_list ha
    let parts := [("callee", callee), ("method", .quoted method), ("args", args)]
    -- a call without a target is written without the key
    cases target with
    | none =>
      refine ⟨.record [("call", .record parts)], readFrom_record fun depth _ => ?_⟩
      exact .call (f := ⟨1, parts⟩) (Fields.ofNode_record (by simp [parts])) rfl
        (bind_eq_ok.2 ⟨callee, rfl, hcallee⟩) (bind_eq_ok.2 ⟨_, rfl, rfl⟩) hargs
    | some l =>
      obtain ⟨target, htarget⟩ := (ht l rfl).exists_node
      let all := ("target", target) :: parts
      refine ⟨.record [("call", .record all)], readFrom_record fun depth _ => ?_⟩
      exact .call (f := ⟨1, all⟩) (Fields.ofNode_record (by simp [all, parts]))
        (bind_eq_ok.2 ⟨l, htarget, rfl⟩) (bind_eq_ok.2 ⟨callee, rfl, hcallee⟩)
        (bind_eq_ok.2 ⟨_, rfl, rfl⟩) hargs
  | create ht cls ha =>
    obtain ⟨target, htarget⟩ := ht.exists_node
    obtain ⟨args, hargs⟩ := Expr.exists_list ha
    let parts := [("target", target), ("class", .quoted cls), ("args", args)]
    refine ⟨.record [("new", .record parts)], readFrom_record fun depth _ => ?_⟩
    exact .create (f := ⟨1, parts⟩) (Fields.ofNode_record (by simp [parts]))
      (bind_eq_ok.2 ⟨target, rfl, htarget⟩) (bind_eq_ok.2 ⟨_, rfl, rfl⟩) hargs
  | cond hg _ _ ih₁ ih₂ =>
    obtain ⟨guard, hguard⟩ := hg.exists_node
    obtain ⟨onTrue, htrue⟩ := ih₁
    obtain ⟨onFalse, hfalse⟩ := ih₂
    let parts := [("guard", guard), ("then", onTrue), ("else", onFalse)]
    refine ⟨.record [("if", .record parts)], readFrom_record fun depth hdepth => ?_⟩
    exact .cond (f := ⟨1, parts⟩) (Fields.ofNode_record (by simp [parts]))
      (bind_eq_ok.2 ⟨guard, rfl, hguard⟩) (stmt_record htrue (by simp [parts]) rfl hdepth)
      (stmt_record hfalse (by simp [parts]) rfl hdepth)
  | loop hg _ ih =>
    obtain ⟨guard, hguard⟩ := hg.exists_node
    obtain ⟨body, hbody⟩ := ih
    let parts := [("guard", guard), ("body", body)]
    refine ⟨.record [("while", .record parts)], readFrom_record fun depth hdepth => ?_⟩
    exact .loop (f := ⟨1, parts⟩) (Fields.ofNode_record (by simp [parts]))
      (bind_eq_ok.2 ⟨guard, rfl, hguard⟩) (stmt_record hbody (by simp [parts]) rfl hdepth)
  | @seq first second _ _ ih₁ ih₂ =>
    -- a list of two is one sequence, so lists within lists give every bracketing
    obtain ⟨a, ha⟩ := ih₁
    obtain ⟨b, hb⟩ := ih₂
    refine ⟨.sequence 1 [a, b], fun depth hdepth => ?_⟩
    have ha' : a.depth < (Node.sequence 1 [a, b]).depth := Node.depth_lt_of_mem_items (by simp)
    have hb' : b.depth < (Node.sequence 1 [a, b]).depth := Node.depth_lt_of_mem_items (by simp)
    obtain ⟨depth, rfl⟩ := Nat.exists_eq_succ_of_ne_zero (n := depth) (by omega)
    have hitems : [a, b].mapM (Stmt.read depth) = .ok [first, second] :=
      mapM_eq_ok.2 (.cons (ha depth (by omega)) (.cons (hb depth (by omega)) .nil))
    exact bind_eq_ok.2 ⟨_, hitems, rfl⟩
  | query ht hq hp =>
    obtain ⟨target, htarget⟩ := ht.exists_node
    obtain ⟨text, htext⟩ := hq.exists_node
    obtain ⟨params, hparams⟩ := Expr.exists_list hp
    let parts := [("target", target), ("query", text), ("params", params)]
    refine ⟨.record [("query", .record parts)], readFrom_record fun depth _ => ?_⟩
    exact .query (f := ⟨1, parts⟩) (Fields.ofNode_record (by simp [parts]))
      (bind_eq_ok.2 ⟨target, rfl, htarget⟩) (bind_eq_ok.2 ⟨text, rfl, htext⟩) hparams
  | derive ht hc =>
    obtain ⟨target, htarget⟩ := ht.exists_node
    obtain ⟨cls, hcls⟩ := hc.exists_node
    let parts := [("target", target), ("class", cls)]
    refine ⟨.record [("derive", .record parts)], readFrom_record fun depth _ => ?_⟩
    exact .derive (f := ⟨1, parts⟩) (Fields.ofNode_record (by simp [parts]))
      (bind_eq_ok.2 ⟨target, rfl, htarget⟩) (bind_eq_ok.2 ⟨cls, rfl, hcls⟩)

end Stmt

/-- The statements that trees are read as are exactly those of the source language; and in a tree
    that is read, the body of every statement has only keys that the statement allows, and all of
    those that it requires. -/
theorem trees_denote_source_statements :
    (∀ s : Stmt, (∃ n, Stmt.ofNode n = .ok s) ↔ s.Source) ∧
      ∀ root s, Stmt.ofNode root = .ok s → ∀ n, root.StatementIn n → n.Keyed := by
  refine ⟨fun s => ⟨?_, ?_⟩, ?_⟩
  · rintro ⟨n, hn⟩
    exact Stmt.source_of_read hn
  · intro h
    obtain ⟨n, hn⟩ := h.exists_readFrom
    exact ⟨n, hn n.depth (Nat.le_refl _)⟩
  · intro root s hroot n hn
    exact Stmt.keyed_of_read hn hroot

end ObjectMachine
