import ObjectMachine.Proofs.References

namespace ObjectMachine

/-!
# Renaming objects

A machine compares references, looks them up and hands them on; it never takes a name apart. So when
all objects are renamed, everything that is evaluated is renamed along and nothing else changes:

* `Renaming` — new names for all objects that agree with the names a heap hands out;
* `Renaming.value`, `Renaming.heap`, `Renaming.stmt` — values, heaps and statements renamed;
* `Renaming.heap_create`, `Renaming.heap_setField` — heaps are changed alike;
* `Renaming.eval_expr` — expressions are evaluated alike;
* `Renaming.attempt_stmt` — and so a statement does the same.
-/

/-- New names for objects, and the numbers a heap then counts with. -/
structure Renaming where
  name : String → String
  /-- The former name. -/
  back : String → String
  number : Int → Int
  back_name : ∀ s, back (name s) = s
  name_back : ∀ s, name (back s) = s
  /-- Whether a name is a numeral makes no difference between an object and the renamed one. -/
  readInt?_name : ∀ s, Text.readInt? (name s) = Text.readInt? s
  number_next : ∀ n, number (Text.wrap (n + 1)) = Text.wrap (number n + 1)
  name_number : ∀ n, name ("obj" ++ Text.showInt (Text.wrap n)) =
    "obj" ++ Text.showInt (number (Text.wrap n))

namespace Renaming

variable (ρ : Renaming)

/-! ### Values -/

/-- The reference to the renamed object. -/
def ref (r : Ref) : Ref :=
  { r with name := ρ.name r.name }

/-- The value with its object renamed, if it refers to one. -/
def value : Value → Value
  | .object r => .object (ρ.ref r)
  | v => v

theorem name_inj {s t : String} (h : ρ.name s = ρ.name t) : s = t := by
  rw [← ρ.back_name s, h, ρ.back_name]

theorem ref_inj (r r' : Ref) (h : ρ.ref r = ρ.ref r') : r = r' := by
  obtain ⟨name, cls⟩ := r
  obtain ⟨name', cls'⟩ := r'
  obtain ⟨hname, hcls⟩ := Ref.mk.inj h
  have hname' : name = name' := ρ.name_inj hname
  have hcls' : cls = cls' := hcls
  rw [hname', hcls']

theorem exists_ref (r : Ref) : ∃ r', ρ.ref r' = r := by
  refine ⟨⟨ρ.back r.name, r.cls⟩, ?_⟩
  show Ref.mk (ρ.name (ρ.back r.name)) r.cls = r
  rw [ρ.name_back]

/-- Values are equal exactly if the renamed ones are. -/
theorem value_inj (v w : Value) : ρ.value v = ρ.value w ↔ v = w := by
  refine ⟨fun h => ?_, fun h => by rw [h]⟩
  cases v <;> cases w <;> simp only [value, reduceCtorEq] at h ⊢
  case object.object r r' => exact congrArg Value.object (ρ.ref_inj r r' (Value.object.inj h))
  all_goals exact h

/-- Renaming does not change which integer a value denotes. -/
theorem toInt?_value (v : Value) : (ρ.value v).toInt? = v.toInt? := by
  cases v with
  | object r => exact ρ.readInt?_name r.name
  | _ => rfl

/-- A value that is no reference stays as it is. -/
theorem value_of_not_isObject {v : Value} (h : v.isObject = false) : ρ.value v = v := by
  cases v with
  | object r => exact absurd h (by simp [Value.isObject])
  | _ => rfl

/-- Variables or fields with their values renamed. -/
def memory (m : Memory) : Memory :=
  m.mapValues ρ.value

@[simp] theorem get?_memory (m : Memory) (name : String) :
    (ρ.memory m).get? name = (m.get? name).map ρ.value :=
  SortedMap.get?_mapValues ρ.value m name

@[simp] theorem memory_insert (m : Memory) (name : String) (v : Value) :
    ρ.memory (m.insert name v) = (ρ.memory m).insert name (ρ.value v) :=
  SortedMap.mapValues_insert ρ.value m name v

theorem memory_ofList_zip (names : List String) (vs : List Value) :
    ρ.memory (.ofList (names.zip vs)) = .ofList (names.zip (vs.map ρ.value)) := by
  rw [memory, SortedMap.mapValues_ofList, List.zip_map_right]
  rfl

/-! ### Heaps -/

/-- The heap with all its objects renamed. -/
def heap (h : Heap) : Heap where
  counter := ρ.number h.counter
  objects := h.objects.mapEntries ρ.ref ρ.memory

theorem get?_heap (h : Heap) (r : Ref) :
    (ρ.heap h).objects.get? (ρ.ref r) = (h.objects.get? r).map ρ.memory :=
  SortedMap.get?_mapEntries ρ.ref_inj h.objects r

@[simp] theorem lookup_heap (h : Heap) (v : Value) :
    (ρ.heap h).lookup (ρ.value v) = (h.lookup v).map ρ.memory := by
  cases v with
  | object r => exact ρ.get?_heap h r
  | _ => rfl

@[simp] theorem contains_heap (h : Heap) (v : Value) :
    (ρ.heap h).contains (ρ.value v) = h.contains v := by
  rw [Heap.contains, Heap.contains, lookup_heap, Option.isSome_map]

theorem heap_insert (h : Heap) (r : Ref) (fields : Memory) :
    (ρ.heap h).insert (ρ.ref r) (ρ.memory fields) = ρ.heap (h.insert r fields) := by
  show Heap.mk _ _ = Heap.mk _ _
  rw [Heap.insert, SortedMap.mapEntries_insert ρ.ref_inj ρ.exists_ref]
  rfl

/-- The next name that a renamed heap hands out is the renamed one. -/
theorem heap_alloc (h : Heap) (cls : String) :
    (ρ.heap h).alloc cls = (ρ.ref (h.alloc cls).1, ρ.heap (h.alloc cls).2) := by
  simp only [Heap.alloc, ref, heap, ρ.name_number, ρ.number_next]

theorem heap_create (h : Heap) (cls : String) (fields : Memory) :
    (ρ.heap h).create cls (ρ.memory fields) =
      (ρ.ref (h.create cls fields).1, ρ.heap (h.create cls fields).2) := by
  show (((ρ.heap h).alloc cls).1, ((ρ.heap h).alloc cls).2.insert ((ρ.heap h).alloc cls).1 _) = _
  rw [heap_alloc]
  exact Prod.ext rfl (ρ.heap_insert _ _ fields)

theorem heap_setField (h : Heap) (r : Ref) (name : String) (v : Value) :
    (ρ.heap h).setField (ρ.ref r) name (ρ.value v) = ρ.heap (h.setField r name v) := by
  rw [Heap.setField, Heap.setField, get?_heap]
  cases h.objects.get? r with
  | none => rfl
  | some fields =>
    show (ρ.heap h).insert (ρ.ref r) ((ρ.memory fields).insert name (ρ.value v)) = _
    rw [← memory_insert, heap_insert]

theorem heap_addList (h : Heap) (front : Value) (vs : List Value) :
    (ρ.heap h).addList (ρ.value front) (vs.map ρ.value) =
      (ρ.value (h.addList front vs).1, ρ.heap (h.addList front vs).2) := by
  induction vs generalizing h front with
  | nil => rfl
  | cons v vs ih =>
    -- the new node is the front of the list that is built next
    have hfields : ρ.memory (.ofList [("content", v), ("next", front)]) =
        .ofList [("content", ρ.value v), ("next", ρ.value front)] :=
      SortedMap.mapValues_ofList ρ.value _
    rw [List.map_cons, Heap.addList, ← hfields, heap_create]
    show Heap.addList (ρ.heap (h.create listClass _).2)
      (ρ.value (.object (h.create listClass _).1)) _ = _
    exact ih _ _

/-! ### Programs -/

mutual

/-- The expression with its literals renamed. -/
def expr : Expr → Expr
  | .lit v => .lit (ρ.value v)
  | .var name => .var name
  | .own name => .own name
  | .field base name => .field (expr base) name
  | .apply op operands => .apply op (exprs operands)

/-- The expressions with their literals renamed. -/
def exprs : List Expr → List Expr
  | [] => []
  | e :: es => expr e :: exprs es

end

theorem exprs_eq_map (es : List Expr) : ρ.exprs es = es.map ρ.expr := by
  induction es with
  | nil => rfl
  | cons e es ih => rw [exprs, ih, List.map_cons]

@[simp] theorem length_exprs (es : List Expr) : (ρ.exprs es).length = es.length := by
  rw [exprs_eq_map, List.length_map]

/-- The location with its literals renamed. -/
def location : Location → Location
  | .var name => .var name
  | .own name => .own name
  | .field base name => .field (ρ.expr base) name

/-- The statement with its literals renamed. -/
def stmt : Stmt → Stmt
  | .skip => .skip
  | .breakpoint => .breakpoint
  | .print e => .print (ρ.expr e)
  | .assign target value => .assign (ρ.location target) (ρ.expr value)
  | .call target callee method args =>
    .call (target.map ρ.location) (ρ.expr callee) method (ρ.exprs args)
  | .create target cls args => .create (ρ.location target) cls (ρ.exprs args)
  | .ret value => .ret (ρ.expr value)
  | .cond guard onTrue onFalse => .cond (ρ.expr guard) (stmt onTrue) (stmt onFalse)
  | .loop guard body => .loop (ρ.expr guard) (stmt body)
  | .seq first second => .seq (stmt first) (stmt second)
  | .query target text params => .query (ρ.location target) (ρ.expr text) (ρ.exprs params)
  | .derive target cls => .derive (ρ.location target) (ρ.expr cls)
  | .storeReturn target => .storeReturn (target.map ρ.location)

mutual

/-- An expression without references stays as it is. -/
theorem expr_of_refFree : ∀ (e : Expr), (∀ v ∈ e.literals, v.isObject = false) → ρ.expr e = e
  | .lit v, h => by rw [expr, ρ.value_of_not_isObject (h v (by simp [Expr.literals]))]
  | .var _, _ | .own _, _ => rfl
  | .field base _, h => by rw [expr, expr_of_refFree base h]
  | .apply _ operands, h => by rw [expr, exprs_of_refFree operands h]

theorem exprs_of_refFree :
    ∀ (es : List Expr), (∀ v ∈ Expr.literalsOf es, v.isObject = false) → ρ.exprs es = es
  | [], _ => rfl
  | e :: es, h => by
    rw [exprs, expr_of_refFree e fun v hv => h v (by simp [Expr.literalsOf, hv]),
      exprs_of_refFree es fun v hv => h v (by simp [Expr.literalsOf, hv])]

end

theorem location_of_refFree {l : Location} (h : ∀ v ∈ l.literals, v.isObject = false) :
    ρ.location l = l := by
  cases l with
  | field base name => rw [location, ρ.expr_of_refFree base h]
  | _ => rfl

theorem map_location_of_refFree {target : Option Location}
    (h : ∀ v ∈ Location.literalsOf target, v.isObject = false) :
    target.map ρ.location = target := by
  cases target with
  | none => rfl
  | some l => rw [Option.map_some, ρ.location_of_refFree h]

/-- A statement without references stays as it is. -/
theorem stmt_of_refFree {s : Stmt} (h : s.RefFree) : ρ.stmt s = s := by
  induction s with
  | skip => rfl
  | breakpoint => rfl
  | print e => rw [stmt, ρ.expr_of_refFree e h]
  | ret e => rw [stmt, ρ.expr_of_refFree e h]
  | assign target value =>
    obtain ⟨htarget, hvalue⟩ := List.forall_mem_append.1 h
    rw [stmt, ρ.location_of_refFree htarget, ρ.expr_of_refFree value hvalue]
  | call target callee name args =>
    obtain ⟨hcallee, hargs⟩ := List.forall_mem_append.1 h
    obtain ⟨htarget, hcallee⟩ := List.forall_mem_append.1 hcallee
    rw [stmt, ρ.map_location_of_refFree htarget, ρ.expr_of_refFree callee hcallee,
      ρ.exprs_of_refFree args hargs]
  | create target cls args =>
    obtain ⟨htarget, hargs⟩ := List.forall_mem_append.1 h
    rw [stmt, ρ.location_of_refFree htarget, ρ.exprs_of_refFree args hargs]
  | cond guard a b iha ihb =>
    obtain ⟨hguard, hb⟩ := List.forall_mem_append.1 h
    obtain ⟨hguard, ha⟩ := List.forall_mem_append.1 hguard
    rw [stmt, ρ.expr_of_refFree guard hguard, iha ha, ihb hb]
  | loop guard body ih =>
    obtain ⟨hguard, hbody⟩ := List.forall_mem_append.1 h
    rw [stmt, ρ.expr_of_refFree guard hguard, ih hbody]
  | seq first second ih₁ ih₂ =>
    obtain ⟨h₁, h₂⟩ := List.forall_mem_append.1 h
    rw [stmt, ih₁ h₁, ih₂ h₂]
  | query target text params =>
    obtain ⟨htext, hparams⟩ := List.forall_mem_append.1 h
    obtain ⟨htarget, htext⟩ := List.forall_mem_append.1 htext
    rw [stmt, ρ.location_of_refFree htarget, ρ.expr_of_refFree text htext,
      ρ.exprs_of_refFree params hparams]
  | derive target cls =>
    obtain ⟨htarget, hcls⟩ := List.forall_mem_append.1 h
    rw [stmt, ρ.location_of_refFree htarget, ρ.expr_of_refFree cls hcls]
  | storeReturn target => rw [stmt, ρ.map_location_of_refFree h]

theorem stmt_append (s next : Stmt) : ρ.stmt (s.append next) = (ρ.stmt s).append (ρ.stmt next) := by
  induction s with
  | seq first second _ ih => simp only [Stmt.append, stmt, ih]
  | _ => rfl

theorem stmt_andThen (s : Stmt) (rest : Option Stmt) :
    ρ.stmt (s.andThen rest) = (ρ.stmt s).andThen (rest.map ρ.stmt) := by
  cases rest with
  | none => rfl
  | some next => exact ρ.stmt_append s next

theorem stmt_before (rest : Option Stmt) (next : Stmt) :
    ρ.stmt (Stmt.before rest next) = Stmt.before (rest.map ρ.stmt) (ρ.stmt next) := by
  cases rest with
  | none => rfl
  | some s => exact ρ.stmt_append s next

theorem head_stmt (s : Stmt) : (ρ.stmt s).head = ρ.stmt s.head := by
  induction s with
  | seq first second ih _ => exact ih
  | _ => rfl

theorem tail?_stmt (s : Stmt) : (ρ.stmt s).tail? = s.tail?.map ρ.stmt := by
  induction s with
  | seq first second ih _ =>
    show some (Stmt.before (ρ.stmt first).tail? (ρ.stmt second)) = some _
    rw [ih, stmt_before]
  | _ => rfl

/-! ### Results -/

/-- The fault with all values it mentions renamed. -/
def fault : Fault → Fault
  | .unknownObject v => .unknownObject (ρ.value v)
  | .danglingBase v access => .danglingBase (ρ.value v) (ρ.expr access)
  | .notCallable method v => .notCallable method (ρ.value v)
  | .unknownField name v => .unknownField name (ρ.value v)
  | .operandType op v => .operandType op (ρ.value v)
  | .guardType guard v => .guardType (ρ.expr guard) (ρ.value v)
  | .requestType request v => .requestType request (ρ.value v)
  | .notReference v => .notReference (ρ.value v)
  | .notReturned marker => .notReturned (ρ.stmt marker)
  | .callerNotWaiting frame pending => .callerNotWaiting frame (ρ.stmt pending)
  | fault => fault

@[simp] theorem category?_fault (f : Fault) : (ρ.fault f).category? = f.category? := by
  cases f <;> rfl

variable {α β γ δ : Type}

/-- The result of a computation, its fault renamed and its value changed by `f`. -/
def result (f : α → β) : Except Fault α → Except Fault β
  | .error cause => .error (ρ.fault cause)
  | .ok a => .ok (f a)

/-- A computation in two parts is renamed part by part. -/
theorem bind_result {f : α → β} {g : γ → δ} {x : Except Fault α} {x' : Except Fault β}
    {k : α → Except Fault γ} {k' : β → Except Fault δ} (hx : x' = ρ.result f x)
    (hk : ∀ a, x = .ok a → k' (f a) = ρ.result g (k a)) :
    x' >>= k' = ρ.result g (x >>= k) := by
  subst hx
  cases x with
  | error cause => rfl
  | ok a => exact hk a rfl

theorem operand_value (op : Operator) (v : Value) :
    op.operand (ρ.value v) = ρ.result id (op.operand v) := by
  rw [Operator.operand, Operator.operand, toInt?_value]
  cases v.toInt? <;> rfl

theorem operands_value (op : Operator) (vs : List Value) :
    op.operands (vs.map ρ.value) = ρ.result id (op.operands vs) := by
  induction vs with
  | nil => rfl
  | cons v vs ih =>
    exact ρ.bind_result (ρ.operand_value op v) fun n _ => ρ.bind_result ih fun ns _ => rfl

theorem binary_value (op : Operator) {f : Value → Value → Except Fault Value}
    (hf : ∀ a b, f (ρ.value a) (ρ.value b) = ρ.result ρ.value (f a b)) (vs : List Value) :
    op.binary f (vs.map ρ.value) = ρ.result ρ.value (op.binary f vs) := by
  match vs with
  | [a, b] => exact hf a b
  | [] => rfl
  | [_] => rfl
  | _ :: _ :: _ :: rest =>
    show Except.error (Fault.operandCount op _) = Except.error (Fault.operandCount op _)
    simp

/-- What an operator makes of integers is no reference, and integers are not renamed. -/
theorem binaryInt_value (op : Operator) {f : Int → Int → Value}
    (hf : ∀ m n, ρ.value (f m n) = f m n) (vs : List Value) :
    op.binaryInt f (vs.map ρ.value) = ρ.result ρ.value (op.binaryInt f vs) := by
  refine ρ.binary_value op (fun a b => ?_) vs
  refine ρ.bind_result (ρ.operand_value op a) fun m _ => ?_
  refine ρ.bind_result (ρ.operand_value op b) fun n _ => ?_
  show Except.ok (f m n) = Except.ok (ρ.value (f m n))
  rw [hf]

/-- No operator can tell two names of an object apart. -/
theorem apply_value (op : Operator) (vs : List Value) :
    op.apply (vs.map ρ.value) = ρ.result ρ.value (op.apply vs) := by
  cases op with
  | eq =>
    refine ρ.binary_value .eq (fun a b => ?_) vs
    show Except.ok (Value.boolean (ρ.value a = ρ.value b)) = Except.ok (Value.boolean (a = b))
    simp only [value_inj]
  | neq =>
    refine ρ.binary_value .neq (fun a b => ?_) vs
    show Except.ok (Value.boolean (ρ.value a ≠ ρ.value b)) = Except.ok (Value.boolean (a ≠ b))
    simp only [ne_eq, value_inj]
  | geq => exact ρ.binaryInt_value .geq (fun _ _ => rfl) vs
  | leq => exact ρ.binaryInt_value .leq (fun _ _ => rfl) vs
  | minus => exact ρ.binaryInt_value .minus (fun _ _ => rfl) vs
  | plus => exact ρ.bind_result (ρ.operands_value .plus vs) fun ns _ => rfl
  | other symbol => rfl

/-! ### Evaluation -/

/-- What an expression can see, renamed. -/
def scope (sc : Scope) : Scope :=
  ⟨ρ.memory sc.locals, ρ.heap sc.heap, ρ.value sc.owner⟩

mutual

/-- A renamed expression has the renamed value. -/
theorem evalWith_expr (sc : Scope) (own : Memory) : ∀ e : Expr,
    (ρ.expr e).evalWith (ρ.scope sc) (ρ.memory own) = ρ.result ρ.value (e.evalWith sc own)
  | .lit v => rfl
  | .var name => by
    simp only [expr, Expr.evalWith, scope, get?_memory]
    cases sc.locals.get? name <;> rfl
  | .own name => by
    simp only [expr, Expr.evalWith, get?_memory]
    cases own.get? name <;> rfl
  | .field base name => by
    rw [expr, Expr.evalWith, Expr.evalWith]
    refine ρ.bind_result (evalWith_expr sc own base) fun v _ => ?_
    simp only [scope, lookup_heap]
    cases sc.heap.lookup v with
    | none => rfl -- the fault mentions the base, which is renamed in it
    | some fields =>
      simp only [Option.map_some, get?_memory]
      cases fields.get? name <;> rfl
  | .apply op operands => by
    rw [expr, Expr.evalWith, Expr.evalWith]
    exact ρ.bind_result (evalAllWith_exprs sc own operands) fun vs _ => ρ.apply_value op vs

theorem evalAllWith_exprs (sc : Scope) (own : Memory) : ∀ es : List Expr,
    Expr.evalAllWith (ρ.scope sc) (ρ.memory own) (ρ.exprs es) =
      ρ.result (List.map ρ.value) (Expr.evalAllWith sc own es)
  | [] => rfl
  | e :: es => by
    rw [exprs, Expr.evalAllWith, Expr.evalAllWith]
    exact ρ.bind_result (evalWith_expr sc own e) fun v _ =>
      ρ.bind_result (evalAllWith_exprs sc own es) fun vs _ => rfl

end

theorem eval_expr (sc : Scope) (e : Expr) :
    (ρ.expr e).eval (ρ.scope sc) = ρ.result ρ.value (e.eval sc) := by
  have howner : (ρ.scope sc).heap.lookup (ρ.scope sc).owner =
      (sc.heap.lookup sc.owner).map ρ.memory := ρ.lookup_heap sc.heap sc.owner
  rw [Expr.eval, Expr.eval, howner]
  cases sc.heap.lookup sc.owner with
  | none => rfl
  | some own => exact ρ.evalWith_expr sc own e

theorem evalAll_exprs (sc : Scope) (es : List Expr) :
    Expr.evalAll (ρ.scope sc) (ρ.exprs es) = ρ.result (List.map ρ.value) (Expr.evalAll sc es) := by
  induction es with
  | nil => rfl
  | cons e es ih =>
    rw [exprs, Expr.evalAll, Expr.evalAll]
    exact ρ.bind_result (ρ.eval_expr sc e) fun v _ => ρ.bind_result ih fun vs _ => rfl

/-! ### Statements -/

/-- The frame with its owner, its variables and what is left to run renamed. -/
def frame (f : Frame) : Frame :=
  { f with stmt := ρ.stmt f.stmt, locals := ρ.memory f.locals, owner := ρ.value f.owner }

/-- The caller with its frame renamed. -/
def caller : Caller → Caller
  | .none => .none
  | .missing id => .missing id
  | .waiting f => .waiting (ρ.frame f)

/-- The effect with all its values, statements and frames renamed. -/
def effect : Effect → Effect
  | .finish => .finish
  | .pause => .pause
  | .print v => .print (ρ.value v)
  | .setLocal name v => .setLocal name (ρ.value v)
  | .setField r name v => .setField (ρ.ref r) name (ρ.value v)
  | .become s => .become (ρ.stmt s)
  | .create target cls fields => .create (ρ.location target) cls (ρ.memory fields)
  | .enlist target contents => .enlist (ρ.location target) (contents.map ρ.value)
  | .invoke target callee body locals =>
    .invoke (target.map ρ.location) (ρ.ref callee) (ρ.stmt body) (ρ.memory locals)
  | .resume caller rest => .resume (ρ.frame caller) (rest.map ρ.stmt)

variable {classes : ClassTable} {sc : Scope}

theorem writeField_value (h : Heap) (v new : Value) (name : String) :
    writeField classes (ρ.heap h) (ρ.value v) name (ρ.value new) =
      ρ.result ρ.effect (writeField classes h v name new) := by
  cases v with
  | object r =>
    have hcontains : (ρ.heap h).contains (.object (ρ.ref r)) = h.contains (.object r) :=
      ρ.contains_heap h (.object r)
    simp only [value, writeField, hcontains]
    split
    · rfl
    · -- the class of an object is not renamed
      show (if !classes.hasField r.cls name then _ else _) = _
      split <;> rfl
  | _ => rfl

theorem write_location (target : Location) (v : Value) :
    (ρ.location target).write classes (ρ.scope sc) (ρ.value v) =
      ρ.result ρ.effect (target.write classes sc v) := by
  cases target with
  | var name => rfl
  | own name => exact ρ.writeField_value sc.heap sc.owner v name
  | field base name =>
    exact ρ.bind_result (ρ.eval_expr sc base) fun b _ => ρ.writeField_value sc.heap b v name

/-- Looking up a method has nothing to do with objects. -/
theorem method_eq_result (classes : ClassTable) (cls name : String) :
    classes.method cls name = ρ.result id (classes.method cls name) := by
  rw [ClassTable.method]
  split
  · rfl
  · split <;> rfl

theorem fields_eq_result (classes : ClassTable) (cls : String) :
    classes.fields cls = ρ.result id (classes.fields cls) := by
  rw [ClassTable.fields]
  split <;> rfl

theorem callIntent_expr (hclasses : classes.RefFree) (target : Option Location) (callee : Expr)
    (name : String) (args : List Expr) :
    callIntent classes (ρ.scope sc) (target.map ρ.location) (ρ.expr callee) name (ρ.exprs args) =
      ρ.result ρ.effect (callIntent classes sc target callee name args) := by
  rw [callIntent, callIntent]
  refine ρ.bind_result (ρ.eval_expr sc callee) fun v _ => ?_
  cases v with
  | object r =>
    have hcontains : (ρ.scope sc).heap.contains (.object (ρ.ref r)) =
        sc.heap.contains (.object r) := ρ.contains_heap sc.heap (.object r)
    simp only [value, hcontains]
    split
    · rfl
    · refine ρ.bind_result (ρ.method_eq_result classes r.cls name) fun m hm => ?_
      simp only [id, length_exprs]
      split
      · rfl
      · refine ρ.bind_result (ρ.evalAll_exprs sc args) fun vs _ => ?_
        -- the body is part of the program, so there is nothing to rename in it
        have hbody : ρ.stmt m.body = m.body := ρ.stmt_of_refFree (hclasses.method hm)
        have hlocals := ρ.memory_ofList_zip ("this" :: m.params) (.object r :: vs)
        show Except.ok (Effect.invoke _ _ _ _) = Except.ok (Effect.invoke _ _ _ _)
        rw [hbody]
        exact congrArg (fun locals => Except.ok (Effect.invoke _ _ _ locals)) hlocals.symm
  | _ => rfl

theorem createIntent_expr (target : Location) (cls : String) (args : List Expr) :
    createIntent classes (ρ.scope sc) (ρ.location target) cls (ρ.exprs args) =
      ρ.result ρ.effect (createIntent classes sc target cls args) := by
  rw [createIntent, createIntent]
  refine ρ.bind_result (ρ.fields_eq_result classes cls) fun fields _ => ?_
  simp only [id, length_exprs]
  split
  · rfl
  · refine ρ.bind_result (ρ.evalAll_exprs sc args) fun vs _ => ?_
    show Except.ok (Effect.create _ _ _) = Except.ok (Effect.create _ _ _)
    rw [memory_ofList_zip]

/-- What a suspended statement waits for, renamed. -/
theorem awaiting?_stmt (s : Stmt) :
    (ρ.stmt s).awaiting? =
      s.awaiting?.map fun p => (p.1.map ρ.location, p.2.map ρ.stmt) := by
  cases s with
  | seq first second => cases first <;> rfl
  | _ => rfl

theorem received_stmt (target : Option Location) (rest : Option Stmt) (v : Value) :
    Stmt.received (target.map ρ.location) (rest.map ρ.stmt) (ρ.value v) =
      (Stmt.received target rest v).map ρ.stmt := by
  cases target <;> cases rest <;> rfl

theorem returnIntent_expr (c : Caller) (e : Expr) :
    returnIntent (ρ.scope sc) (ρ.caller c) (ρ.expr e) =
      ρ.result ρ.effect (returnIntent sc c e) := by
  cases c with
  | none => rfl
  | missing id => rfl
  | waiting f =>
    have hawaiting : (ρ.frame f).stmt.awaiting? =
        f.stmt.awaiting?.map fun p => (p.1.map ρ.location, p.2.map ρ.stmt) :=
      ρ.awaiting?_stmt f.stmt
    simp only [caller, returnIntent, hawaiting]
    cases f.stmt.awaiting? with
    | none => rfl
    | some p =>
      refine ρ.bind_result (ρ.eval_expr sc e) fun v _ => ?_
      show Except.ok (Effect.resume _ (Stmt.received _ _ (ρ.value v))) =
        Except.ok (Effect.resume _ _)
      rw [received_stmt]

/-- The text of a request is no reference, so it is not renamed. -/
theorem requestText_expr (request : String) (e : Expr) :
    requestText (ρ.scope sc) request (ρ.expr e) = ρ.result id (requestText sc request e) := by
  refine ρ.bind_result (ρ.eval_expr sc e) fun v _ => ?_
  cases v <;> rfl

end Renaming

/-! ### Statements without a knowledge base -/

/-- What is done about an intent if there is no knowledge base. -/
def Intent.unaided : Intent → Except Fault Effect
  | .act e => .ok e
  | .ask _ _ => .error .noKnowledgeBase

/-- What a statement does if there is no knowledge base that it could ask. -/
def Stmt.attempt (classes : ClassTable) (sc : Scope) (caller : Caller) (s : Stmt) :
    Except Fault Effect :=
  s.intent classes sc caller >>= fun p => p.1.unaided

namespace Renaming

variable (ρ : Renaming) {classes : ClassTable} {sc : Scope}

/-- A query fails for want of a knowledge base, whatever names are filled in. -/
theorem query_attempt (c : Caller) (target : Location) (text : Expr) (params : List Expr) :
    (ρ.stmt (.query target text params)).attempt classes (ρ.scope sc) (ρ.caller c) =
      ρ.result ρ.effect ((Stmt.query target text params).attempt classes sc c) := by
  have hparams : (ρ.exprs params).reverse = ρ.exprs params.reverse := by
    rw [exprs_eq_map, exprs_eq_map, List.map_reverse]
  simp only [stmt, Stmt.attempt, Stmt.intent, queryIntent, bind_assoc, hparams]
  refine ρ.bind_result (ρ.requestText_expr "query" text) fun q _ => ?_
  exact ρ.bind_result (ρ.evalAll_exprs sc params.reverse) fun vs _ => rfl

/-- A renamed statement has the renamed effect. -/
theorem attempt_stmt (hclasses : classes.RefFree) (c : Caller) {s : Stmt} (hs : s.isSeq = false) :
    (ρ.stmt s).attempt classes (ρ.scope sc) (ρ.caller c) =
      ρ.result ρ.effect (s.attempt classes sc c) := by
  cases s with
  | seq first second => exact absurd hs (by simp [Stmt.isSeq])
  | skip => rfl
  | breakpoint => rfl
  | print e =>
    simp only [stmt, Stmt.attempt, Stmt.intent, bind_assoc]
    exact ρ.bind_result (ρ.eval_expr sc e) fun v _ => rfl
  | assign target value =>
    simp only [stmt, Stmt.attempt, Stmt.intent, bind_assoc]
    refine ρ.bind_result (ρ.eval_expr sc value) fun v _ => ?_
    exact ρ.bind_result (ρ.write_location target v) fun e _ => rfl
  | call target callee name args =>
    simp only [stmt, Stmt.attempt, Stmt.intent, bind_assoc]
    exact ρ.bind_result (ρ.callIntent_expr hclasses target callee name args) fun e _ => rfl
  | create target cls args =>
    simp only [stmt, Stmt.attempt, Stmt.intent, bind_assoc]
    exact ρ.bind_result (ρ.createIntent_expr target cls args) fun e _ => rfl
  | ret value =>
    simp only [stmt, Stmt.attempt, Stmt.intent, bind_assoc]
    exact ρ.bind_result (ρ.returnIntent_expr c value) fun e _ => rfl
  | cond guard a b =>
    simp only [stmt, Stmt.attempt, Stmt.intent, bind_assoc]
    refine ρ.bind_result (ρ.eval_expr sc guard) fun v _ => ?_
    cases v with
    | boolean b => cases b <;> rfl
    | _ => rfl
  | loop guard body =>
    -- a loop turns into a conditional without anything being evaluated
    show Except.ok (Effect.become (.cond _ ((ρ.stmt body).append (ρ.stmt (.loop guard body))) _)) =
      Except.ok (Effect.become (.cond _ (ρ.stmt (body.append (.loop guard body))) _))
    rw [stmt_append]
    rfl
  | query target text params => exact ρ.query_attempt c target text params
  | derive target cls =>
    simp only [stmt, Stmt.attempt, Stmt.intent, bind_assoc]
    exact ρ.bind_result (ρ.requestText_expr "derive" cls) fun text _ => rfl
  | storeReturn target => rfl

end Renaming

end ObjectMachine
