import ObjectMachine.Proofs.Integers
import ObjectMachine.Proofs.Reading

namespace ObjectMachine

open ObjectMachine.Yaml (Node)
open ObjectMachine.Program

/-!
# The source language

A tree that is read as a statement cannot say everything a statement of the machine can. What it can
say is described without reading, and so are the keys that such a tree has to have:

* `Expr.Source`, `Location.Source`, `Stmt.Source` — the statements of the source language: no
  pending calls, no references, canonical integers and the six operators only;
* `Stmt.source_of_read` — whatever is read belongs to the source language;
* `Node.Keyed` — the body of a statement has the keys that its kind allows and requires;
* `Node.StatementIn` — the statements inside of a tree, `Stmt.keyed_of_read` — they have such
  bodies.
-/

/-! ### Statements of the source language -/

/-- The expressions that can be written: no reference is a literal, integers are canonical, and
    operators are among the six. -/
inductive Expr.Source : Expr → Prop where
  | lit {v : Value} (hv : v.isObject = false) (hint : v.Canonical) : Source (.lit v)
  | var (name : String) : Source (.var name)
  | own (name : String) : Source (.own name)
  | field {base : Expr} (h : Source base) (name : String) : Source (.field base name)
  | apply {op : Operator} (hop : ∀ symbol, op ≠ .other symbol) {operands : List Expr}
      (h : ∀ e ∈ operands, Source e) : Source (.apply op operands)

/-- The locations that can be written. -/
def Location.Source (l : Location) : Prop :=
  l.toExpr.Source

/-- The statements that can be written. No pending call is one of them. -/
inductive Stmt.Source : Stmt → Prop where
  | skip : Source skip
  | breakpoint : Source breakpoint
  | print {e : Expr} (h : e.Source) : Source (print e)
  | assign {target : Location} {value : Expr} (ht : target.Source) (hv : value.Source) :
      Source (assign target value)
  | call {target : Option Location} {callee : Expr} {args : List Expr}
      (ht : ∀ l ∈ target, l.Source) (hc : callee.Source) (method : String)
      (ha : ∀ e ∈ args, e.Source) : Source (call target callee method args)
  | create {target : Location} {args : List Expr} (ht : target.Source) (cls : String)
      (ha : ∀ e ∈ args, e.Source) : Source (create target cls args)
  | ret {value : Expr} (h : value.Source) : Source (ret value)
  | cond {guard : Expr} {onTrue onFalse : Stmt} (hg : guard.Source) (ht : Source onTrue)
      (hf : Source onFalse) : Source (cond guard onTrue onFalse)
  | loop {guard : Expr} {body : Stmt} (hg : guard.Source) (hb : Source body) :
      Source (loop guard body)
  | seq {first second : Stmt} (h₁ : Source first) (h₂ : Source second) : Source (seq first second)
  | query {target : Location} {text : Expr} {params : List Expr} (ht : target.Source)
      (hq : text.Source) (hp : ∀ e ∈ params, e.Source) : Source (query target text params)
  | derive {target : Location} {cls : Expr} (ht : target.Source) (hc : cls.Source) :
      Source (derive target cls)

/-- A list of statements of the source language is one of them. -/
theorem Stmt.source_block {ss : List Stmt} (h : ∀ s ∈ ss, s.Source) : (block ss).Source := by
  induction ss with
  | nil => exact .skip
  | cons s ss ih =>
    have hrest := ih fun s' hs' => h s' (by simp [hs'])
    cases ss with
    | nil => exact h s (by simp)
    | cons t rest => exact .seq (h s (by simp)) hrest

/-- The values that a document can write are those the source language has literals for. -/
theorem Value.written_iff {v : Value} : v.Written ↔ v.isObject = false ∧ v.Canonical := by
  constructor
  · intro h
    refine ⟨?_, h.canonical⟩
    cases h <;> rfl
  · intro ⟨hobject, hint⟩
    cases v with
    | null => exact .null
    | boolean b => exact .boolean b
    | string s => exact .string s
    | object r => exact absurd hobject (by simp [isObject])
    | integer numeral =>
      obtain ⟨n, hn, rfl⟩ := (hint numeral rfl).exists_showInt
      exact .integer hn

theorem Expr.source_lit {v : Value} (h : v.Written) : (Expr.lit v).Source :=
  .lit (Value.written_iff.1 h).1 (Value.written_iff.1 h).2

/-! ### What is read is source language -/

theorem Location.source_of_read {readExpr : Node → Except ShapeFault Expr}
    (hread : ∀ n e, readExpr n = .ok e → e.Source) {n : Node} {l : Location}
    (h : Location.read readExpr n = .ok l) : l.Source := by
  obtain ⟨⟨kind, body⟩, -, h⟩ := bind_eq_ok.1 h
  simp only at h
  split at h
  · obtain ⟨name, -, h⟩ := bind_eq_ok.1 h
    obtain rfl := pure_eq_ok.1 h
    exact .var name
  · obtain ⟨name, -, h⟩ := bind_eq_ok.1 h
    obtain rfl := pure_eq_ok.1 h
    exact .own name
  · obtain ⟨fields, -, h⟩ := bind_eq_ok.1 h
    obtain ⟨of, -, h⟩ := bind_eq_ok.1 h
    obtain ⟨base, hbase, h⟩ := bind_eq_ok.1 h
    obtain ⟨named, -, h⟩ := bind_eq_ok.1 h
    obtain ⟨name, -, h⟩ := bind_eq_ok.1 h
    obtain rfl := pure_eq_ok.1 h
    exact .field (hread of base hbase) name
  · exact (faultAt_ne_ok.1 h).elim

/-- A key names no operators but the six. -/
theorem Operator.ne_other_of_ofKey? {key : String} {op : Operator}
    (h : Operator.ofKey? key = some op) (symbol : String) : op ≠ .other symbol := by
  rw [ofKey?] at h
  split at h
  case h_7 => simp at h
  all_goals
    obtain rfl := Option.some.inj h
    exact nofun

theorem Expr.source_of_read {depth : Nat} {n : Node} {e : Expr}
    (h : Expr.read depth n = .ok e) : e.Source := by
  induction depth generalizing n e with
  | zero => exact (faultAt_ne_ok.1 h).elim
  | succ depth ih =>
    have hlocation : ∀ {e}, (do
        let l ← Location.read (Expr.read depth) n
        return l.toExpr) = Except.ok e → e.Source := by
      intro e h
      obtain ⟨l, hl, h⟩ := bind_eq_ok.1 h
      obtain rfl := pure_eq_ok.1 h
      exact Location.source_of_read (fun _ _ => ih) hl
    rw [Expr.read] at h
    obtain ⟨⟨kind, body⟩, -, h⟩ := bind_eq_ok.1 h
    simp only at h
    split at h
    · rename_i op hop
      obtain ⟨items, -, h⟩ := bind_eq_ok.1 h
      obtain ⟨operands, hoperands, h⟩ := bind_eq_ok.1 h
      obtain rfl := pure_eq_ok.1 h
      refine .apply (Operator.ne_other_of_ofKey? hop) fun e he => ?_
      obtain ⟨item, -, hitem⟩ := mem_of_mapM_eq_ok hoperands e he
      exact ih hitem
    · split at h
      · obtain ⟨v, hv, h⟩ := bind_eq_ok.1 h
        obtain rfl := pure_eq_ok.1 h
        exact source_lit (written_of_readInteger hv)
      · obtain ⟨s, -, h⟩ := bind_eq_ok.1 h
        obtain rfl := pure_eq_ok.1 h
        exact source_lit (.string s)
      · obtain ⟨v, hv, h⟩ := bind_eq_ok.1 h
        obtain rfl := pure_eq_ok.1 h
        exact source_lit (written_of_readTruth hv)
      · obtain rfl := pure_eq_ok.1 h
        exact source_lit .null
      · exact hlocation h
      · exact hlocation h
      · exact hlocation h
      · exact (faultAt_ne_ok.1 h).elim

theorem Expr.source_of_ofNode {n : Node} {e : Expr} (h : Expr.ofNode n = .ok e) : e.Source :=
  Expr.source_of_read h

theorem Location.source_of_ofNode {n : Node} {l : Location} (h : Location.ofNode n = .ok l) :
    l.Source :=
  Location.source_of_read (fun _ _ he => Expr.source_of_ofNode he) h

namespace Stmt

variable {readStmt : Node → Except ShapeFault Stmt} {n : Node} {s : Stmt}

theorem Reads.source (hread : ∀ n s, readStmt n = .ok s → s.Source) {kind : String} {body : Node}
    (h : Reads readStmt kind body s) : s.Source := by
  have hexpr : ∀ {f : Fields} {key : String} {e : Expr}, f.expr key = .ok e → e.Source := by
    intro f key e he
    obtain ⟨n, -, hn⟩ := Fields.exists_of_expr he
    exact Expr.source_of_ofNode hn
  have hexprs : ∀ {f : Fields} {key : String} {es : List Expr}, f.exprs key = .ok es →
      ∀ e ∈ es, e.Source := by
    intro f key es hes e he
    obtain ⟨n, hn⟩ := Fields.exists_of_exprs hes e he
    exact Expr.source_of_ofNode hn
  have hlocation : ∀ {f : Fields} {key : String} {l : Location}, f.location key = .ok l →
      l.Source := by
    intro f key l hl
    obtain ⟨n, -, hn⟩ := Fields.exists_of_location hl
    exact Location.source_of_ofNode hn
  have hstmt : ∀ {f : Fields} {key : String} {s : Stmt}, f.stmt readStmt key = .ok s →
      s.Source := by
    intro f key s hs
    rw [Fields.stmt] at hs
    split at hs
    · obtain rfl := Except.ok.inj hs
      exact .skip
    · exact hread _ s hs
  cases h with
  | skip => exact .skip
  | breakpoint => exact .breakpoint
  | print he => exact .print (Expr.source_of_ofNode he)
  | ret he => exact .ret (Expr.source_of_ofNode he)
  | assign _ ht hv => exact .assign (hlocation ht) (hexpr hv)
  | call _ ht hc _ ha =>
    refine .call (fun l hl => ?_) (hexpr hc) _ (hexprs ha)
    obtain ⟨n, hn⟩ := Fields.exists_of_location? ht l hl
    exact Location.source_of_ofNode hn
  | create _ ht _ ha => exact .create (hlocation ht) _ (hexprs ha)
  | cond _ hg ht he => exact .cond (hexpr hg) (hstmt ht) (hstmt he)
  | loop _ hg hb => exact .loop (hexpr hg) (hstmt hb)
  | query _ ht hq hp => exact .query (hlocation ht) (hexpr hq) (hexprs hp)
  | derive _ ht hc => exact .derive (hlocation ht) (hexpr hc)

/-- Every statement that is read belongs to the source language. -/
theorem source_of_read {depth : Nat} (h : Stmt.read depth n = .ok s) : s.Source := by
  induction depth generalizing n s with
  | zero => exact (faultAt_ne_ok.1 h).elim
  | succ depth ih =>
    unfold Stmt.read at h
    split at h
    · obtain rfl := Except.ok.inj h
      exact .skip
    · split at h
      · obtain ⟨ss, hss, h⟩ := bind_eq_ok.1 h
        obtain rfl := pure_eq_ok.1 h
        refine source_block fun s hs => ?_
        obtain ⟨item, -, hitem⟩ := mem_of_mapM_eq_ok hss s hs
        exact ih hitem
      · obtain rfl := Except.ok.inj h
        exact .skip
      · obtain rfl := Except.ok.inj h
        exact .breakpoint
      · exact (faultAt_ne_ok.1 h).elim
      · obtain ⟨line, key, body, -, hreads⟩ := readMapping_eq_ok.1 h
        exact hreads.source fun _ _ hs => ih hs

end Stmt

/-! ### Keys -/

/-- The keys that the body of a statement may have, and those that it has to have. -/
structure Signature where
  allowed : List String
  required : List String

/-- The keys of the statements whose body is a mapping. -/
def Stmt.signature? (kind : String) : Option Signature :=
  match kind with
  | "assign" => some ⟨["target", "value"], ["target", "value"]⟩
  | "call" => some ⟨["target", "callee", "method", "args"], ["callee", "method"]⟩
  | "new" => some ⟨["target", "class", "args"], ["target", "class"]⟩
  | "if" => some ⟨["guard", "then", "else"], ["guard"]⟩
  | "while" => some ⟨["guard", "body"], ["guard"]⟩
  | "query" => some ⟨["target", "query", "params"], ["target", "query"]⟩
  | "derive" => some ⟨["target", "class"], ["target", "class"]⟩
  | _ => none

/-- The keys under which the body of a statement holds other statements. -/
def Stmt.nestedKeys (kind : String) : List String :=
  match kind with
  | "if" => ["then", "else"]
  | "while" => ["body"]
  | _ => []

namespace Yaml.Node

/-- The node is a mapping with allowed keys only, and with all of the required ones. -/
def HasKeys (body : Node) (sig : Signature) : Prop :=
  ∃ line entries, body = .mapping line entries ∧ (∀ e ∈ entries, e.1.text ∈ sig.allowed) ∧
    ∀ key ∈ sig.required, ∃ e ∈ entries, e.1.text = key

/-- What a mapping holds under a key; of several entries with one key the last one counts. -/
def part? (key : String) : Node → Option Node
  | .mapping _ entries => (entries.reverse.find? fun e => e.1.text = key).map Prod.snd
  | _ => none

/-- The body of a statement has the keys of its kind. A node that is not a mapping with one key,
    or that is of a kind whose body is no mapping, has no body to speak of. -/
def Keyed (n : Node) : Prop :=
  ∀ line key body sig, n = .mapping line [(key, body)] → Stmt.signature? key.text = some sig →
    body.HasKeys sig

/-- The nodes that are read as statements when `root` is: itself, the items of lists, and what
    conditions and loops hold under the keys for statements. -/
inductive StatementIn (root : Node) : Node → Prop where
  | root : StatementIn root root
  | item {line : Nat} {items : List Node} {item : Node}
      (h : StatementIn root (.sequence line items)) (hitem : item ∈ items) : StatementIn root item
  | nested {line : Nat} {key body part : Node} {name : String}
      (h : StatementIn root (.mapping line [(key, body)]))
      (hname : name ∈ Stmt.nestedKeys key.text) (hpart : body.part? name = some part) :
      StatementIn root part

theorem part?_eq {allowed : List String} {body : Node} {f : Fields}
    (hf : Fields.ofNode allowed body = .ok f) (key : String) : body.part? key = f.get? key := by
  obtain ⟨line, entries, rfl, -, rfl⟩ := Fields.ofNode_eq_ok.1 hf
  rw [part?, Fields.get?, ← List.map_reverse, List.find?_map, Option.map_map]
  rfl

/-- What a record is read from has the keys that were allowed, and those that were found. -/
theorem hasKeys_of_ofNode {sig : Signature} {body : Node} {f : Fields}
    (hf : Fields.ofNode sig.allowed body = .ok f)
    (hrequired : ∀ key ∈ sig.required, ∃ n, f.get? key = some n) : body.HasKeys sig := by
  have hparts := part?_eq hf
  obtain ⟨line, entries, rfl, hallowed, -⟩ := Fields.ofNode_eq_ok.1 hf
  refine ⟨line, entries, rfl, hallowed, fun key hkey => ?_⟩
  obtain ⟨n, hn⟩ := hrequired key hkey
  rw [← hparts key, part?, Option.map_eq_some_iff] at hn
  obtain ⟨e, he, -⟩ := hn
  exact ⟨e, List.mem_reverse.1 (List.mem_of_find?_eq_some he), by simpa using List.find?_some he⟩

end Yaml.Node

namespace Stmt

variable {readStmt : Node → Except ShapeFault Stmt} {kind : String} {body : Node} {s : Stmt}

/-- The body of a statement that is read has the keys of its kind. -/
theorem Reads.hasKeys (h : Reads readStmt kind body s) {sig : Signature}
    (hsig : signature? kind = some sig) : body.HasKeys sig := by
  have hexpr : ∀ {f : Fields} {key : String} {e : Expr}, f.expr key = .ok e →
      ∃ n, f.get? key = some n := fun he => (Fields.exists_of_expr he).imp fun _ h => h.1
  have hlocation : ∀ {f : Fields} {key : String} {l : Location}, f.location key = .ok l →
      ∃ n, f.get? key = some n := fun hl => (Fields.exists_of_location hl).imp fun _ h => h.1
  have htext : ∀ {f : Fields} {key : String} {t : String}, f.text key = .ok t →
      ∃ n, f.get? key = some n := fun ht => (Fields.exists_of_text ht).imp fun _ h => h.1
  cases h with
  | skip | breakpoint | print | ret => simp [signature?] at hsig
  | assign hf ht hv =>
    obtain rfl := Option.some.inj hsig
    exact Node.hasKeys_of_ofNode hf (by simp [hlocation ht, hexpr hv])
  | call hf _ hc hm _ =>
    obtain rfl := Option.some.inj hsig
    exact Node.hasKeys_of_ofNode hf (by simp [hexpr hc, htext hm])
  | create hf ht hc _ =>
    obtain rfl := Option.some.inj hsig
    exact Node.hasKeys_of_ofNode hf (by simp [hlocation ht, htext hc])
  | cond hf hg _ _ =>
    obtain rfl := Option.some.inj hsig
    exact Node.hasKeys_of_ofNode hf (by simp [hexpr hg])
  | loop hf hg _ =>
    obtain rfl := Option.some.inj hsig
    exact Node.hasKeys_of_ofNode hf (by simp [hexpr hg])
  | query hf ht hq _ =>
    obtain rfl := Option.some.inj hsig
    exact Node.hasKeys_of_ofNode hf (by simp [hlocation ht, hexpr hq])
  | derive hf ht hc =>
    obtain rfl := Option.some.inj hsig
    exact Node.hasKeys_of_ofNode hf (by simp [hlocation ht, hexpr hc])

/-- What the body of a statement that is read holds under the keys for statements is read. -/
theorem Reads.nested (h : Reads readStmt kind body s) {name : String}
    (hname : name ∈ nestedKeys kind) {part : Node} (hpart : body.part? name = some part) :
    ∃ s', readStmt part = .ok s' := by
  have hstmt : ∀ {f : Fields} {key : String} {s : Stmt}, f.get? key = some part →
      f.stmt readStmt key = .ok s → ∃ s', readStmt part = .ok s' := by
    intro f key s hget hs
    rw [Fields.stmt, hget] at hs
    exact ⟨s, hs⟩
  cases h with
  | cond hf _ ht he =>
    rw [Node.part?_eq hf] at hpart
    obtain rfl | rfl : name = "then" ∨ name = "else" := by simpa [nestedKeys] using hname
    · exact hstmt hpart ht
    · exact hstmt hpart he
  | loop hf _ hb =>
    rw [Node.part?_eq hf] at hpart
    obtain rfl : name = "body" := by simpa [nestedKeys] using hname
    exact hstmt hpart hb
  | _ => exact absurd hname (by simp [nestedKeys])

/-- The statements inside of a tree that is read are read as well. -/
theorem read_of_statementIn {root n : Node} (hin : root.StatementIn n) {depth : Nat} {s : Stmt}
    (h : Stmt.read depth root = .ok s) : ∃ depth' s', Stmt.read depth' n = .ok s' := by
  induction hin with
  | root => exact ⟨depth, s, h⟩
  | item _ hitem ih =>
    obtain ⟨depth', s', h'⟩ := ih
    cases depth' with
    | zero => exact (faultAt_ne_ok.1 h').elim
    | succ depth' =>
      obtain ⟨ss, hss, -⟩ := bind_eq_ok.1 h'
      obtain ⟨s'', hs''⟩ := exists_of_mapM_eq_ok hss _ hitem
      exact ⟨depth', s'', hs''⟩
  | nested _ hname hpart ih =>
    obtain ⟨depth', s', h'⟩ := ih
    obtain ⟨depth'', hreads⟩ := reads_of_read h'
    obtain ⟨s'', hs''⟩ := hreads.nested hname hpart
    exact ⟨depth'', s'', hs''⟩

/-- The body of every statement inside of a tree that is read has the keys of its kind. -/
theorem keyed_of_read {root n : Node} (hin : root.StatementIn n) {depth : Nat} {s : Stmt}
    (h : Stmt.read depth root = .ok s) : n.Keyed := by
  obtain ⟨depth', s', h'⟩ := read_of_statementIn hin h
  rintro line key body sig rfl hsig
  obtain ⟨depth'', hreads⟩ := reads_of_read h'
  exact hreads.hasKeys hsig

end Stmt

end ObjectMachine
