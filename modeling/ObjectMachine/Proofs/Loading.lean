import ObjectMachine.Program.Load
import ObjectMachine.Proofs.Shapes

namespace ObjectMachine

open ObjectMachine.Yaml (Node)
open ObjectMachine.Program

/-!
# What programs are loaded with

A document can write null, truth values, texts and 64-bit integers, and an integer is kept by its
canonical numeral, however it was spelled. So these are the only literals of a program that was
loaded:

* `Value.Written` — the values a document can write;
* `Expr.Written`, `Location.Written`, `Stmt.Written` — nothing else stands in the text;
* `Expr.written_of_ofNode`, `Stmt.written_of_ofNode` — every tree that is read is of this kind;
* `Program.Written`, `Program.written_of_load` — and so is every program that is loaded.
-/

/-- The values that a document can write. -/
inductive Value.Written : Value → Prop where
  | null : Written .null
  | boolean (b : Bool) : Written (.boolean b)
  | string (s : String) : Written (.string s)
  | integer {n : Int} (hn : Text.fits n = true) : Written (.ofInt n)

/-- All literals of the expression can be written in a document. -/
def Expr.Written (e : Expr) : Prop :=
  ∀ v ∈ e.literals, v.Written

/-- All literals of the location can be written in a document. -/
def Location.Written (l : Location) : Prop :=
  ∀ v ∈ l.literals, v.Written

/-- All literals of the statement can be written in a document. -/
def Stmt.Written (s : Stmt) : Prop :=
  ∀ v ∈ s.literals, v.Written

/-- All literals of the program can be written in a document. -/
structure Program.Written (p : Program) : Prop where
  classes : p.classes.AllLiterals Value.Written
  main : p.main.Written

/-! ### Reading in general -/

/-- What is read of a list item by item comes from one of the items. -/
theorem mem_of_mapM_eq_ok {ε α β : Type} {f : α → Except ε β} {as : List α} {bs : List β}
    (h : as.mapM f = .ok bs) : ∀ b ∈ bs, ∃ a ∈ as, f a = .ok b := by
  induction as generalizing bs with
  | nil =>
    obtain rfl : [] = bs := by simpa using h
    simp
  | cons a as ih =>
    rw [List.mapM_cons] at h
    obtain ⟨b, hb, h⟩ := bind_eq_ok.1 h
    obtain ⟨bs', hbs', h⟩ := bind_eq_ok.1 h
    obtain rfl := pure_eq_ok.1 h
    refine List.forall_mem_cons.2 ⟨⟨a, by simp, hb⟩, fun c hc => ?_⟩
    obtain ⟨a', ha', hc'⟩ := ih hbs' c hc
    exact ⟨a', by simp [ha'], hc'⟩

theorem mapError_eq_ok {ε ε' α : Type} {f : ε → ε'} {x : Except ε α} {a : α} :
    x.mapError f = .ok a ↔ x = .ok a := by
  cases x with
  | error e => exact ⟨nofun, nofun⟩
  | ok b =>
    have hmap : (Except.ok b : Except ε α).mapError f = .ok b := rfl
    rw [hmap, Except.ok.injEq, Except.ok.injEq]

theorem faultAt_ne_ok {α : Type} {n : Node} {cause : ShapeCause} {a : α} :
    (faultAt n cause : Except ShapeFault α) = .ok a ↔ False := by
  simp [faultAt]

/-! ### Expressions -/

theorem written_of_readInteger {n : Node} {v : Value} (h : readInteger n = .ok v) :
    v.Written := by
  obtain ⟨text, -, h⟩ := bind_eq_ok.1 h
  split at h
  · rename_i i hi
    obtain rfl := pure_eq_ok.1 h
    exact .integer (Text.fits_of_readInt? hi)
  · exact (faultAt_ne_ok.1 h).elim

theorem written_of_readTruth {n : Node} {v : Value} (h : readTruth n = .ok v) : v.Written := by
  rw [readTruth] at h
  split at h
  · obtain rfl := Except.ok.inj h
    exact .boolean _
  · exact (faultAt_ne_ok.1 h).elim

theorem Expr.written_lit {v : Value} (h : v.Written) : (Expr.lit v).Written := by
  intro w hw
  obtain rfl := List.mem_singleton.1 hw
  exact h

theorem Expr.written_of_forall {es : List Expr} (h : ∀ e ∈ es, e.Written) :
    ∀ v ∈ Expr.literalsOf es, v.Written := by
  induction es with
  | nil => simp [Expr.literalsOf]
  | cons e es ih =>
    intro v hv
    rw [Expr.literalsOf, List.mem_append] at hv
    rcases hv with hv | hv
    · exact h e (by simp) v hv
    · exact ih (fun e' he' => h e' (by simp [he'])) v hv

theorem Location.literals_toExpr (l : Location) : l.toExpr.literals = l.literals := by
  cases l <;> rfl

/-- A location is a name, or a field of an object that is given by an expression. -/
theorem Location.written_of_read {readExpr : Node → Except ShapeFault Expr}
    (hread : ∀ n e, readExpr n = .ok e → e.Written) {n : Node} {l : Location}
    (h : Location.read readExpr n = .ok l) : l.Written := by
  obtain ⟨⟨kind, body⟩, -, h⟩ := bind_eq_ok.1 h
  simp only at h
  split at h
  · obtain ⟨name, -, h⟩ := bind_eq_ok.1 h
    obtain rfl := pure_eq_ok.1 h
    exact fun v hv => absurd hv List.not_mem_nil
  · obtain ⟨name, -, h⟩ := bind_eq_ok.1 h
    obtain rfl := pure_eq_ok.1 h
    exact fun v hv => absurd hv List.not_mem_nil
  · obtain ⟨fields, -, h⟩ := bind_eq_ok.1 h
    obtain ⟨of, -, h⟩ := bind_eq_ok.1 h
    obtain ⟨base, hbase, h⟩ := bind_eq_ok.1 h
    obtain ⟨name, -, h⟩ := bind_eq_ok.1 h
    obtain ⟨text, -, h⟩ := bind_eq_ok.1 h
    obtain rfl := pure_eq_ok.1 h
    exact hread of base hbase
  · exact (faultAt_ne_ok.1 h).elim

/-- A location that is read as an expression. -/
theorem Expr.written_of_location {readExpr : Node → Except ShapeFault Expr}
    (hread : ∀ {n e}, readExpr n = .ok e → e.Written) {n : Node} {e : Expr}
    (h : (do let l ← Location.read readExpr n; return l.toExpr) = Except.ok e) : e.Written := by
  obtain ⟨l, hl, h⟩ := bind_eq_ok.1 h
  obtain rfl := pure_eq_ok.1 h
  intro v hv
  rw [Location.literals_toExpr] at hv
  exact Location.written_of_read (fun _ _ => hread) hl v hv

theorem Expr.written_of_read {depth : Nat} {n : Node} {e : Expr}
    (h : Expr.read depth n = .ok e) : e.Written := by
  induction depth generalizing n e with
  | zero => exact (faultAt_ne_ok.1 h).elim
  | succ depth ih =>
    rw [Expr.read] at h
    obtain ⟨⟨kind, body⟩, -, h⟩ := bind_eq_ok.1 h
    simp only at h
    split at h
    · obtain ⟨items, -, h⟩ := bind_eq_ok.1 h
      obtain ⟨operands, hoperands, h⟩ := bind_eq_ok.1 h
      obtain rfl := pure_eq_ok.1 h
      refine written_of_forall fun e he => ?_
      obtain ⟨item, -, hitem⟩ := mem_of_mapM_eq_ok hoperands e he
      exact ih hitem
    · split at h
      · obtain ⟨v, hv, h⟩ := bind_eq_ok.1 h
        obtain rfl := pure_eq_ok.1 h
        exact written_lit (written_of_readInteger hv)
      · obtain ⟨s, -, h⟩ := bind_eq_ok.1 h
        obtain rfl := pure_eq_ok.1 h
        exact written_lit (.string s)
      · obtain ⟨v, hv, h⟩ := bind_eq_ok.1 h
        obtain rfl := pure_eq_ok.1 h
        exact written_lit (written_of_readTruth hv)
      · obtain rfl := pure_eq_ok.1 h
        exact written_lit .null
      · exact written_of_location ih h
      · exact written_of_location ih h
      · exact written_of_location ih h
      · exact (faultAt_ne_ok.1 h).elim

/-- Every expression that a tree stands for is made of what a document can write. -/
theorem Expr.written_of_ofNode {n : Node} {e : Expr} (h : Expr.ofNode n = .ok e) : e.Written :=
  Expr.written_of_read h

theorem Location.written_of_ofNode {n : Node} {l : Location} (h : Location.ofNode n = .ok l) :
    l.Written :=
  Location.written_of_read (fun _ _ he => Expr.written_of_ofNode he) h

/-! ### Statements -/

namespace Program.Fields

variable {f : Fields} {key : String}

theorem written_expr {e : Expr} (h : f.expr key = .ok e) : e.Written := by
  obtain ⟨n, -, h⟩ := bind_eq_ok.1 h
  exact Expr.written_of_ofNode h

theorem written_location {l : Location} (h : f.location key = .ok l) : l.Written := by
  obtain ⟨n, -, h⟩ := bind_eq_ok.1 h
  exact Location.written_of_ofNode h

theorem written_location? {l : Option Location} (h : f.location? key = .ok l) :
    ∀ v ∈ Location.literalsOf l, v.Written := by
  rw [location?] at h
  split at h
  · obtain rfl := Except.ok.inj h
    exact fun v hv => absurd hv List.not_mem_nil
  · obtain ⟨l', hl', h⟩ := bind_eq_ok.1 h
    obtain rfl := pure_eq_ok.1 h
    exact Location.written_of_ofNode hl'

theorem written_exprs {es : List Expr} (h : f.exprs key = .ok es) :
    ∀ v ∈ Expr.literalsOf es, v.Written := by
  rw [exprs] at h
  split at h
  · obtain rfl := Except.ok.inj h
    exact fun v hv => absurd hv List.not_mem_nil
  · obtain ⟨items, -, h⟩ := bind_eq_ok.1 h
    refine Expr.written_of_forall fun e he => ?_
    obtain ⟨item, -, hitem⟩ := mem_of_mapM_eq_ok h e he
    exact Expr.written_of_ofNode hitem

theorem written_stmt {readStmt : Node → Except ShapeFault Stmt}
    (hread : ∀ n s, readStmt n = .ok s → s.Written) {s : Stmt}
    (h : f.stmt readStmt key = .ok s) : s.Written := by
  rw [stmt] at h
  split at h
  · obtain rfl := Except.ok.inj h
    exact fun v hv => absurd hv List.not_mem_nil
  · exact hread _ s h

end Program.Fields

theorem Stmt.written_skip : Stmt.skip.Written :=
  fun _ hv => absurd hv List.not_mem_nil

theorem Stmt.written_breakpoint : Stmt.breakpoint.Written :=
  fun _ hv => absurd hv List.not_mem_nil

theorem Stmt.written_block {ss : List Stmt} (h : ∀ s ∈ ss, s.Written) : (block ss).Written := by
  induction ss with
  | nil => exact written_skip
  | cons s ss ih =>
    have hrest := ih fun s' hs' => h s' (by simp [hs'])
    cases ss with
    | nil => exact h s (by simp)
    | cons t rest => exact List.forall_mem_append.2 ⟨h s (by simp), hrest⟩

/-- A mapping is a statement whose parts are under its keys. -/
theorem Stmt.written_of_readMapping {readStmt : Node → Except ShapeFault Stmt}
    (hread : ∀ n s, readStmt n = .ok s → s.Written) {n : Node} {s : Stmt}
    (h : Stmt.readMapping readStmt n = .ok s) : s.Written := by
  obtain ⟨⟨kind, body⟩, -, h⟩ := bind_eq_ok.1 h
  simp only at h
  split at h
  · obtain rfl := pure_eq_ok.1 h
    exact written_skip
  · obtain rfl := pure_eq_ok.1 h
    exact written_breakpoint
  · obtain ⟨e, he, h⟩ := bind_eq_ok.1 h
    obtain rfl := pure_eq_ok.1 h
    exact Expr.written_of_ofNode he
  · obtain ⟨e, he, h⟩ := bind_eq_ok.1 h
    obtain rfl := pure_eq_ok.1 h
    exact Expr.written_of_ofNode he
  · obtain ⟨f, -, h⟩ := bind_eq_ok.1 h
    obtain ⟨target, htarget, h⟩ := bind_eq_ok.1 h
    obtain ⟨value, hvalue, h⟩ := bind_eq_ok.1 h
    obtain rfl := pure_eq_ok.1 h
    exact List.forall_mem_append.2 ⟨Fields.written_location htarget, Fields.written_expr hvalue⟩
  · obtain ⟨f, -, h⟩ := bind_eq_ok.1 h
    obtain ⟨target, htarget, h⟩ := bind_eq_ok.1 h
    obtain ⟨callee, hcallee, h⟩ := bind_eq_ok.1 h
    obtain ⟨method, -, h⟩ := bind_eq_ok.1 h
    obtain ⟨args, hargs, h⟩ := bind_eq_ok.1 h
    obtain rfl := pure_eq_ok.1 h
    exact List.forall_mem_append.2 ⟨List.forall_mem_append.2
      ⟨Fields.written_location? htarget, Fields.written_expr hcallee⟩, Fields.written_exprs hargs⟩
  · obtain ⟨f, -, h⟩ := bind_eq_ok.1 h
    obtain ⟨target, htarget, h⟩ := bind_eq_ok.1 h
    obtain ⟨cls, -, h⟩ := bind_eq_ok.1 h
    obtain ⟨args, hargs, h⟩ := bind_eq_ok.1 h
    obtain rfl := pure_eq_ok.1 h
    exact List.forall_mem_append.2 ⟨Fields.written_location htarget, Fields.written_exprs hargs⟩
  · obtain ⟨f, -, h⟩ := bind_eq_ok.1 h
    obtain ⟨guard, hguard, h⟩ := bind_eq_ok.1 h
    obtain ⟨onTrue, htrue, h⟩ := bind_eq_ok.1 h
    obtain ⟨onFalse, hfalse, h⟩ := bind_eq_ok.1 h
    obtain rfl := pure_eq_ok.1 h
    exact List.forall_mem_append.2 ⟨List.forall_mem_append.2
      ⟨Fields.written_expr hguard, Fields.written_stmt hread htrue⟩,
      Fields.written_stmt hread hfalse⟩
  · obtain ⟨f, -, h⟩ := bind_eq_ok.1 h
    obtain ⟨guard, hguard, h⟩ := bind_eq_ok.1 h
    obtain ⟨loop, hloop, h⟩ := bind_eq_ok.1 h
    obtain rfl := pure_eq_ok.1 h
    exact List.forall_mem_append.2 ⟨Fields.written_expr hguard, Fields.written_stmt hread hloop⟩
  · obtain ⟨f, -, h⟩ := bind_eq_ok.1 h
    obtain ⟨target, htarget, h⟩ := bind_eq_ok.1 h
    obtain ⟨text, htext, h⟩ := bind_eq_ok.1 h
    obtain ⟨params, hparams, h⟩ := bind_eq_ok.1 h
    obtain rfl := pure_eq_ok.1 h
    exact List.forall_mem_append.2 ⟨List.forall_mem_append.2
      ⟨Fields.written_location htarget, Fields.written_expr htext⟩, Fields.written_exprs hparams⟩
  · obtain ⟨f, -, h⟩ := bind_eq_ok.1 h
    obtain ⟨target, htarget, h⟩ := bind_eq_ok.1 h
    obtain ⟨cls, hcls, h⟩ := bind_eq_ok.1 h
    obtain rfl := pure_eq_ok.1 h
    exact List.forall_mem_append.2 ⟨Fields.written_location htarget, Fields.written_expr hcls⟩
  · exact (faultAt_ne_ok.1 h).elim

theorem Stmt.written_of_read {depth : Nat} {n : Node} {s : Stmt}
    (h : Stmt.read depth n = .ok s) : s.Written := by
  induction depth generalizing n s with
  | zero => exact (faultAt_ne_ok.1 h).elim
  | succ depth ih =>
    unfold Stmt.read at h
    split at h
    · obtain rfl := Except.ok.inj h
      exact written_skip
    · split at h
      · obtain ⟨ss, hss, h⟩ := bind_eq_ok.1 h
        obtain rfl := pure_eq_ok.1 h
        refine written_block fun s hs => ?_
        obtain ⟨item, -, hitem⟩ := mem_of_mapM_eq_ok hss s hs
        exact ih hitem
      · obtain rfl := Except.ok.inj h
        exact written_skip
      · obtain rfl := Except.ok.inj h
        exact written_breakpoint
      · exact (faultAt_ne_ok.1 h).elim
      · exact written_of_readMapping (fun _ _ hs => ih hs) h

/-- Every statement that a tree stands for is made of what a document can write. -/
theorem Stmt.written_of_ofNode {n : Node} {s : Stmt} (h : Stmt.ofNode n = .ok s) : s.Written :=
  Stmt.written_of_read h

/-! ### Programs -/

/-- The methods of a table come from the declarations. -/
theorem ClassTable.all_of_methodsOf {P : Stmt → Prop} {cls : String}
    {decls : List (String × MethodDecl)} {methods : SortedMap String Method}
    (hdecls : ∀ d ∈ decls, ∀ s ∈ d.2.body, P s) (h : methodsOf cls decls = .ok methods) :
    methods.All fun m => P m.body := by
  induction decls generalizing methods with
  | nil =>
    obtain rfl := Except.ok.inj h
    exact .empty
  | cons d decls ih =>
    obtain ⟨name, decl⟩ := d
    rw [methodsOf] at h
    split at h
    · simp at h
    · rename_i body hbody
      obtain ⟨rest, hrest, h⟩ := bind_eq_ok.1 h
      obtain rfl := pure_eq_ok.1 h
      have hrest' := ih (fun d hd => hdecls d (by simp [hd])) hrest
      exact hrest'.insert name (hdecls (name, decl) (by simp) body hbody)

namespace Program

theorem written_of_bodyOf {n : Option Node} {s : Stmt} (h : bodyOf n = .ok s) : s.Written := by
  rw [bodyOf.eq_def] at h
  split at h
  · obtain rfl := Except.ok.inj h
    exact Stmt.written_skip
  · exact Stmt.written_of_ofNode h

theorem written_of_declareMethod {cls : String} {m : String × MethodOutline}
    {d : String × MethodDecl} (h : declareMethod cls m = .ok d) : ∀ s ∈ d.2.body, s.Written := by
  rw [declareMethod] at h
  split at h
  · rename_i body hbody
    obtain rfl := Except.ok.inj h
    intro s hs
    obtain rfl := Option.some.inj hs
    exact written_of_bodyOf hbody
  · simp at h

theorem written_of_declareClass {c : ClassOutline} {decl : ClassDecl}
    (h : declareClass c = .ok decl) : ∀ d ∈ decl.methods, ∀ s ∈ d.2.body, s.Written := by
  obtain ⟨methods, hmethods, h⟩ := bind_eq_ok.1 h
  obtain rfl := pure_eq_ok.1 h
  intro d hd
  obtain ⟨m, -, hm⟩ := mem_of_mapM_eq_ok hmethods d hd
  exact written_of_declareMethod hm

theorem written_of_ofOutline {o : Outline} {p : Program} (h : ofOutline o = .ok p) :
    p.Written := by
  obtain ⟨decls, hdecls, h⟩ := bind_eq_ok.1 h
  obtain ⟨classes, hclasses, h⟩ := bind_eq_ok.1 h
  obtain ⟨main, hmain, h⟩ := bind_eq_ok.1 h
  obtain rfl := pure_eq_ok.1 h
  refine ⟨?_, written_of_bodyOf (mapError_eq_ok.1 hmain)⟩
  refine ClassTable.all_of_ofDecls (fun c hc methods hmethods _ => ?_) (mapError_eq_ok.1 hclasses)
  obtain ⟨outline, -, houtline⟩ := mem_of_mapM_eq_ok hdecls c hc
  exact ClassTable.all_of_methodsOf (written_of_declareClass houtline) hmethods

/-- Every program that is loaded has only literals that a document can write. -/
theorem written_of_load {text : String} {p : Program} (h : load text = .ok p) : p.Written := by
  rw [load] at h
  split at h
  · simp at h
  · simp at h
  · split at h
    · simp at h
    · split at h
      · exact written_of_ofOutline h
      · simp at h

end Program

end ObjectMachine
