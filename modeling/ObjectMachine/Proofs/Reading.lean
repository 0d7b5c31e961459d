import Mathlib.Data.List.Forall2
import ObjectMachine.Proofs.Loading

namespace ObjectMachine

open ObjectMachine.Yaml (Node)
open ObjectMachine.Program

/-!
# What trees are read as

Reading is a chain of attempts that ends at the first fault. This file says once what a chain that
succeeds has come by:

* `mapM_eq_ok` — a list is read item by item;
* `Fields.ofNode_eq_ok`, `Fields.required_eq_ok` — which mappings are records, and what they hold;
* `Stmt.Reads`, `Stmt.readMapping_eq_ok` — everything a mapping can be read as, kind by kind.
-/

/-! ### Lists and records -/

/-- A list is read item by item. -/
theorem mapM_eq_ok {ε α β : Type} {f : α → Except ε β} {as : List α} {bs : List β} :
    as.mapM f = .ok bs ↔ List.Forall₂ (fun a b => f a = .ok b) as bs := by
  induction as generalizing bs with
  | nil =>
    rw [List.mapM_nil, List.forall₂_nil_left_iff]
    exact pure_eq_ok.trans eq_comm
  | cons a as ih =>
    rw [List.mapM_cons, bind_eq_ok, List.forall₂_cons_left_iff]
    constructor
    · rintro ⟨b, hb, h⟩
      obtain ⟨bs', hbs', h⟩ := bind_eq_ok.1 h
      exact ⟨b, bs', hb, ih.1 hbs', (pure_eq_ok.1 h).symm⟩
    · rintro ⟨b, bs', hb, hbs', rfl⟩
      exact ⟨b, hb, bind_eq_ok.2 ⟨bs', ih.2 hbs', rfl⟩⟩

theorem exists_of_mapM_eq_ok {ε α β : Type} {f : α → Except ε β} {as : List α} {bs : List β}
    (h : as.mapM f = .ok bs) : ∀ a ∈ as, ∃ b, f a = .ok b := by
  induction mapM_eq_ok.1 h with
  | nil => simp
  | cons hb _ ih => exact List.forall_mem_cons.2 ⟨⟨_, hb⟩, ih (mapM_eq_ok.2 ‹_›)⟩

theorem single_eq_ok {n : Node} {kind : String} {body : Node} :
    single n = .ok (kind, body) ↔
      ∃ line key, n = .mapping line [(key, body)] ∧ key.text = kind := by
  constructor
  · intro h
    rw [single.eq_def] at h
    split at h
    · obtain ⟨rfl, rfl⟩ := Prod.mk.inj (Except.ok.inj h)
      exact ⟨_, _, rfl, rfl⟩
    · exact (faultAt_ne_ok.1 h).elim
  · rintro ⟨line, key, rfl, rfl⟩
    rfl

namespace Program.Fields

variable {f : Fields} {allowed : List String} {key : String}

theorem check_eq_ok {entries : List (Node × Node)} {named : List (String × Node)} :
    check allowed entries = .ok named ↔
      (∀ e ∈ entries, e.1.text ∈ allowed) ∧ named = entries.map fun e => (e.1.text, e.2) := by
  induction entries generalizing named with
  | nil => simp [check, eq_comm]
  | cons e entries ih =>
    obtain ⟨k, body⟩ := e
    rw [check]
    split
    · rename_i hk
      rw [bind_eq_ok]
      constructor
      · rintro ⟨rest, hrest, h⟩
        obtain ⟨hentries, rfl⟩ := ih.1 hrest
        exact ⟨List.forall_mem_cons.2 ⟨hk, hentries⟩, (pure_eq_ok.1 h).symm⟩
      · rintro ⟨hentries, rfl⟩
        exact ⟨_, ih.2 ⟨(List.forall_mem_cons.1 hentries).2, rfl⟩, rfl⟩
    · rename_i hk
      exact ⟨fun h => (faultAt_ne_ok.1 h).elim,
        fun h => absurd ((List.forall_mem_cons.1 h.1).1) hk⟩

/-- A mapping is read if all of its keys are allowed. -/
theorem ofNode_eq_ok {n : Node} :
    ofNode allowed n = .ok f ↔ ∃ line entries, n = .mapping line entries ∧
      (∀ e ∈ entries, e.1.text ∈ allowed) ∧ f = ⟨line, entries.map fun e => (e.1.text, e.2)⟩ := by
  constructor
  · intro h
    rw [ofNode.eq_def] at h
    split at h
    · obtain ⟨named, hnamed, h⟩ := bind_eq_ok.1 h
      obtain ⟨hentries, rfl⟩ := check_eq_ok.1 hnamed
      exact ⟨_, _, rfl, hentries, (pure_eq_ok.1 h).symm⟩
    · exact (faultAt_ne_ok.1 h).elim
  · rintro ⟨line, entries, rfl, hentries, rfl⟩
    exact bind_eq_ok.2 ⟨_, check_eq_ok.2 ⟨hentries, rfl⟩, rfl⟩

theorem required_eq_ok {n : Node} : f.required key = .ok n ↔ f.get? key = some n := by
  rw [required.eq_def]
  cases f.get? key <;> simp

/-! What is read of a record was read of a node. -/

theorem exists_of_expr {e : Expr} (h : f.expr key = .ok e) :
    ∃ n, f.get? key = some n ∧ Expr.ofNode n = .ok e := by
  obtain ⟨n, hn, h⟩ := bind_eq_ok.1 h
  exact ⟨n, required_eq_ok.1 hn, h⟩

theorem exists_of_location {l : Location} (h : f.location key = .ok l) :
    ∃ n, f.get? key = some n ∧ Location.ofNode n = .ok l := by
  obtain ⟨n, hn, h⟩ := bind_eq_ok.1 h
  exact ⟨n, required_eq_ok.1 hn, h⟩

theorem exists_of_text {s : String} (h : f.text key = .ok s) :
    ∃ n, f.get? key = some n ∧ scalar n = .ok s := by
  obtain ⟨n, hn, h⟩ := bind_eq_ok.1 h
  exact ⟨n, required_eq_ok.1 hn, h⟩

theorem exists_of_location? {target : Option Location} (h : f.location? key = .ok target) :
    ∀ l ∈ target, ∃ n, Location.ofNode n = .ok l := by
  rw [location?] at h
  split at h
  · obtain rfl := Except.ok.inj h
    simp
  · rename_i n _
    obtain ⟨l, hl, h⟩ := bind_eq_ok.1 h
    obtain rfl := pure_eq_ok.1 h
    intro l' hl'
    obtain rfl := Option.some.inj hl'
    exact ⟨n, hl⟩

theorem exists_of_exprs {es : List Expr} (h : f.exprs key = .ok es) :
    ∀ e ∈ es, ∃ n, Expr.ofNode n = .ok e := by
  rw [exprs] at h
  split at h
  · obtain rfl := Except.ok.inj h
    simp
  · obtain ⟨items, -, h⟩ := bind_eq_ok.1 h
    intro e he
    obtain ⟨item, -, hitem⟩ := mem_of_mapM_eq_ok h e he
    exact ⟨item, hitem⟩

end Program.Fields

/-! ### Statements -/

/-- What a mapping with one key can be read as, by the key and by what it holds. -/
inductive Stmt.Reads (readStmt : Node → Except ShapeFault Stmt) : String → Node → Stmt → Prop where
  | skip (body : Node) : Reads readStmt "skip" body .skip
  | breakpoint (body : Node) : Reads readStmt "breakpoint" body .breakpoint
  | print {body : Node} {e : Expr} (he : Expr.ofNode body = .ok e) :
      Reads readStmt "print" body (.print e)
  | ret {body : Node} {e : Expr} (he : Expr.ofNode body = .ok e) :
      Reads readStmt "return" body (.ret e)
  | assign {body : Node} {f : Fields} {target : Location} {value : Expr}
      (hf : Fields.ofNode ["target", "value"] body = .ok f)
      (ht : f.location "target" = .ok target) (hv : f.expr "value" = .ok value) :
      Reads readStmt "assign" body (.assign target value)
  | call {body : Node} {f : Fields} {target : Option Location} {callee : Expr} {method : String}
      {args : List Expr} (hf : Fields.ofNode ["target", "callee", "method", "args"] body = .ok f)
      (ht : f.location? "target" = .ok target) (hc : f.expr "callee" = .ok callee)
      (hm : f.text "method" = .ok method) (ha : f.exprs "args" = .ok args) :
      Reads readStmt "call" body (.call target callee method args)
  | create {body : Node} {f : Fields} {target : Location} {cls : String} {args : List Expr}
      (hf : Fields.ofNode ["target", "class", "args"] body = .ok f)
      (ht : f.location "target" = .ok target) (hc : f.text "class" = .ok cls)
      (ha : f.exprs "args" = .ok args) : Reads readStmt "new" body (.create target cls args)
  | cond {body : Node} {f : Fields} {guard : Expr} {onTrue onFalse : Stmt}
      (hf : Fields.ofNode ["guard", "then", "else"] body = .ok f)
      (hg : f.expr "guard" = .ok guard) (ht : f.stmt readStmt "then" = .ok onTrue)
      (he : f.stmt readStmt "else" = .ok onFalse) :
      Reads readStmt "if" body (.cond guard onTrue onFalse)
  | loop {body : Node} {f : Fields} {guard : Expr} {again : Stmt}
      (hf : Fields.ofNode ["guard", "body"] body = .ok f)
      (hg : f.expr "guard" = .ok guard) (hb : f.stmt readStmt "body" = .ok again) :
      Reads readStmt "while" body (.loop guard again)
  | query {body : Node} {f : Fields} {target : Location} {text : Expr} {params : List Expr}
      (hf : Fields.ofNode ["target", "query", "params"] body = .ok f)
      (ht : f.location "target" = .ok target) (hq : f.expr "query" = .ok text)
      (hp : f.exprs "params" = .ok params) : Reads readStmt "query" body (.query target text params)
  | derive {body : Node} {f : Fields} {target : Location} {cls : Expr}
      (hf : Fields.ofNode ["target", "class"] body = .ok f)
      (ht : f.location "target" = .ok target) (hc : f.expr "class" = .ok cls) :
      Reads readStmt "derive" body (.derive target cls)

namespace Stmt

variable {readStmt : Node → Except ShapeFault Stmt} {n : Node} {s : Stmt}

theorem reads_of_readMapping (h : readMapping readStmt n = .ok s) :
    ∃ line key body, n = .mapping line [(key, body)] ∧ Reads readStmt key.text body s := by
  obtain ⟨⟨kind, body⟩, hsingle, h⟩ := bind_eq_ok.1 h
  obtain ⟨line, key, rfl, rfl⟩ := single_eq_ok.1 hsingle
  refine ⟨line, key, body, rfl, ?_⟩
  generalize key.text = kind at h
  simp only at h
  split at h
  · obtain rfl := pure_eq_ok.1 h
    exact .skip body
  · obtain rfl := pure_eq_ok.1 h
    exact .breakpoint body
  · obtain ⟨e, he, h⟩ := bind_eq_ok.1 h
    obtain rfl := pure_eq_ok.1 h
    exact .print he
  · obtain ⟨e, he, h⟩ := bind_eq_ok.1 h
    obtain rfl := pure_eq_ok.1 h
    exact .ret he
  · obtain ⟨f, hf, h⟩ := bind_eq_ok.1 h
    obtain ⟨target, ht, h⟩ := bind_eq_ok.1 h
    obtain ⟨value, hv, h⟩ := bind_eq_ok.1 h
    obtain rfl := pure_eq_ok.1 h
    exact .assign hf ht hv
  · obtain ⟨f, hf, h⟩ := bind_eq_ok.1 h
    obtain ⟨target, ht, h⟩ := bind_eq_ok.1 h
    obtain ⟨callee, hc, h⟩ := bind_eq_ok.1 h
    obtain ⟨method, hm, h⟩ := bind_eq_ok.1 h
    obtain ⟨args, ha, h⟩ := bind_eq_ok.1 h
    obtain rfl := pure_eq_ok.1 h
    exact .call hf ht hc hm ha
  · obtain ⟨f, hf, h⟩ := bind_eq_ok.1 h
    obtain ⟨target, ht, h⟩ := bind_eq_ok.1 h
    obtain ⟨cls, hc, h⟩ := bind_eq_ok.1 h
    obtain ⟨args, ha, h⟩ := bind_eq_ok.1 h
    obtain rfl := pure_eq_ok.1 h
    exact .create hf ht hc ha
  · obtain ⟨f, hf, h⟩ := bind_eq_ok.1 h
    obtain ⟨guard, hg, h⟩ := bind_eq_ok.1 h
    obtain ⟨onTrue, ht, h⟩ := bind_eq_ok.1 h
    obtain ⟨onFalse, he, h⟩ := bind_eq_ok.1 h
    obtain rfl := pure_eq_ok.1 h
    exact .cond hf hg ht he
  · obtain ⟨f, hf, h⟩ := bind_eq_ok.1 h
    obtain ⟨guard, hg, h⟩ := bind_eq_ok.1 h
    obtain ⟨again, hb, h⟩ := bind_eq_ok.1 h
    obtain rfl := pure_eq_ok.1 h
    exact .loop hf hg hb
  · obtain ⟨f, hf, h⟩ := bind_eq_ok.1 h
    obtain ⟨target, ht, h⟩ := bind_eq_ok.1 h
    obtain ⟨text, hq, h⟩ := bind_eq_ok.1 h
    obtain ⟨params, hp, h⟩ := bind_eq_ok.1 h
    obtain rfl := pure_eq_ok.1 h
    exact .query hf ht hq hp
  · obtain ⟨f, hf, h⟩ := bind_eq_ok.1 h
    obtain ⟨target, ht, h⟩ := bind_eq_ok.1 h
    obtain ⟨cls, hc, h⟩ := bind_eq_ok.1 h
    obtain rfl := pure_eq_ok.1 h
    exact .derive hf ht hc
  · exact (faultAt_ne_ok.1 h).elim

theorem Reads.readMapping_eq {line : Nat} {key body : Node} (h : Reads readStmt key.text body s) :
    readMapping readStmt (.mapping line [(key, body)]) = .ok s := by
  refine bind_eq_ok.2 ⟨(key.text, body), rfl, ?_⟩
  generalize key.text = kind at h
  cases h with
  | skip => rfl
  | breakpoint => rfl
  | print he => exact bind_eq_ok.2 ⟨_, he, rfl⟩
  | ret he => exact bind_eq_ok.2 ⟨_, he, rfl⟩
  | assign hf ht hv => simp [hf, ht, hv, bind, Except.bind, pure, Except.pure]
  | call hf ht hc hm ha => simp [hf, ht, hc, hm, ha, bind, Except.bind, pure, Except.pure]
  | create hf ht hc ha => simp [hf, ht, hc, ha, bind, Except.bind, pure, Except.pure]
  | cond hf hg ht he => simp [hf, hg, ht, he, bind, Except.bind, pure, Except.pure]
  | loop hf hg hb => simp [hf, hg, hb, bind, Except.bind, pure, Except.pure]
  | query hf ht hq hp => simp [hf, ht, hq, hp, bind, Except.bind, pure, Except.pure]
  | derive hf ht hc => simp [hf, ht, hc, bind, Except.bind, pure, Except.pure]

/-- What a mapping with one key is read as. -/
theorem readMapping_eq_ok : readMapping readStmt n = .ok s ↔
    ∃ line key body, n = .mapping line [(key, body)] ∧ Reads readStmt key.text body s := by
  constructor
  · exact reads_of_readMapping
  · rintro ⟨line, key, body, rfl, h⟩
    exact h.readMapping_eq

/-- A mapping that is read is a statement with a body. -/
theorem reads_of_read {depth line : Nat} {key : Node}
    (h : Stmt.read depth (.mapping line [(key, body)]) = .ok s) :
    ∃ depth', Reads (Stmt.read depth') key.text body s := by
  cases depth with
  | zero => exact (faultAt_ne_ok.1 h).elim
  | succ depth =>
    obtain ⟨line', key', body', heq, hreads⟩ := reads_of_readMapping h
    obtain ⟨-, hentries⟩ := Node.mapping.inj heq
    obtain ⟨rfl, rfl⟩ := Prod.mk.inj (List.cons.inj hentries).1
    exact ⟨depth, hreads⟩

end Stmt

end ObjectMachine
