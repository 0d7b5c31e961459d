import ObjectMachine.Proofs.Intent

namespace ObjectMachine

/-!
# Why statements fail

The counterpart of `Stmt.Wants`: every way in which evaluating an expression or looking at a
statement can fail, with the fault it is reported by and what was found on the way.

* `EvalFault` — the faults of expressions; `Expr.evalFault_of_eval` — there are no others;
* `Stmt.exprs` — the expressions a statement evaluates;
* `Stmt.Refuses` — the faults of statements; `Stmt.refuses_of_intent` — there are no others.
-/

/-! ### Expressions -/

/-- The first expression occurs in the second one. -/
inductive Expr.Within : Expr → Expr → Prop where
  | refl (e : Expr) : Within e e
  | base {e b : Expr} {name : String} (h : Within e b) : Within e (.field b name)
  | operand {e a : Expr} {op : Operator} {es : List Expr} (ha : a ∈ es) (h : Within e a) :
      Within e (.apply op es)

/-- The faults that evaluating the expression `e` in the scope `sc` can end with. -/
inductive EvalFault (sc : Scope) (e : Expr) : Fault → Prop where
  | owner (h : sc.heap.contains sc.owner = false) : EvalFault sc e (.unknownObject sc.owner)
  /-- The base of a field access is no object of the heap. -/
  | base {base : Expr} {name : String} {v : Value} (hin : Expr.Within (.field base name) e)
      (hb : base.eval sc = .ok v) (hv : sc.heap.contains v = false) :
      EvalFault sc e (.danglingBase v (.field base name))
  | var (name : String) : EvalFault sc e (.unknownVariable name)
  /-- An object of the heap has no such field. -/
  | field {name : String} {v : Value} {own : Memory} (hv : sc.heap.lookup v = some own)
      (h : own.get? name = none) : EvalFault sc e (.unknownField name v)
  | operandCount (op : Operator) (got : Nat) : EvalFault sc e (.operandCount op got)
  | operandType (op : Operator) (v : Value) : EvalFault sc e (.operandType op v)
  | operator (symbol : String) : EvalFault sc e (.unsupportedOperator symbol)

variable {sc : Scope}

/-- An expression can fail as every part of it can, the parts of a part being parts of the
    whole. -/
theorem EvalFault.imp {e e' : Expr} {fault : Fault} (h : EvalFault sc e fault)
    (hin : ∀ x, Expr.Within x e → Expr.Within x e') : EvalFault sc e' fault := by
  cases h with
  | owner h => exact .owner h
  | base hb he hv => exact .base (hin _ hb) he hv
  | var name => exact .var name
  | field hv h => exact .field hv h
  | operandCount op got => exact .operandCount op got
  | operandType op v => exact .operandType op v
  | operator symbol => exact .operator symbol

theorem Operator.operand_eq_error {op : Operator} {v : Value} {e : Expr} {fault : Fault}
    (h : op.operand v = .error fault) : EvalFault sc e fault := by
  rw [operand] at h
  split at h
  · simp at h
  · obtain rfl := Except.error.inj h
    exact .operandType op v

theorem Operator.operands_eq_error {op : Operator} {vs : List Value} {e : Expr} {fault : Fault}
    (h : op.operands vs = .error fault) : EvalFault sc e fault := by
  induction vs with
  | nil => simp [operands] at h
  | cons v vs ih =>
    rw [operands] at h
    rcases bind_eq_error.1 h with h | ⟨n, -, h⟩
    · exact operand_eq_error h
    · rcases bind_eq_error.1 h with h | ⟨ns, -, h⟩
      · exact ih h
      · simp at h

theorem Operator.binary_eq_error {op : Operator} {f : Value → Value → Except Fault Value}
    {vs : List Value} {e : Expr} {fault : Fault} (h : op.binary f vs = .error fault)
    (hf : ∀ a b, f a b = .error fault → EvalFault sc e fault) : EvalFault sc e fault := by
  rw [binary.eq_def] at h
  split at h
  · exact hf _ _ h
  · obtain rfl := Except.error.inj h
    exact .operandCount op _

theorem Operator.binaryInt_eq_error {op : Operator} {f : Int → Int → Value} {vs : List Value}
    {e : Expr} {fault : Fault} (h : op.binaryInt f vs = .error fault) :
    EvalFault sc e fault := by
  refine binary_eq_error h fun a b h => ?_
  rcases bind_eq_error.1 h with h | ⟨m, -, h⟩
  · exact operand_eq_error h
  · rcases bind_eq_error.1 h with h | ⟨n, -, h⟩
    · exact operand_eq_error h
    · simp at h

/-- An operator fails for the number, the kind or the symbol of its operands only. -/
theorem Operator.apply_eq_error {op : Operator} {vs : List Value} {e : Expr} {fault : Fault}
    (h : op.apply vs = .error fault) : EvalFault sc e fault := by
  cases op with
  | eq => exact binary_eq_error h (by simp)
  | neq => exact binary_eq_error h (by simp)
  | geq => exact binaryInt_eq_error h
  | leq => exact binaryInt_eq_error h
  | minus => exact binaryInt_eq_error h
  | plus =>
    rcases bind_eq_error.1 h with h | ⟨ns, -, h⟩
    · exact operands_eq_error h
    · simp at h
  | other symbol =>
    obtain rfl := Except.error.inj h
    exact .operator symbol

/-- On a heap with the owner, evaluation is evaluation with the owner's fields. -/
theorem Expr.eval_eq_evalWith {own : Memory} (h : sc.heap.lookup sc.owner = some own)
    (e : Expr) : e.eval sc = e.evalWith sc own := by
  rw [Expr.eval, h]

/-- Expressions can be evaluated only on behalf of an object of the heap. -/
theorem Expr.contains_of_eval {e : Expr} {v : Value} (h : e.eval sc = .ok v) :
    sc.heap.contains sc.owner = true := by
  rw [Expr.eval] at h
  split at h
  · simp at h
  · rename_i own hown
    simp [Heap.contains, hown]

/-- On behalf of an object of the heap, literals have their values. -/
theorem Expr.eval_lit (h : sc.heap.contains sc.owner = true) (v : Value) :
    (Expr.lit v).eval sc = .ok v := by
  obtain ⟨own, hown⟩ := Option.isSome_iff_exists.1 h
  exact Expr.eval_eq_evalWith hown (.lit v)

theorem Expr.eq_of_eval_lit {v w : Value} (h : (Expr.lit v).eval sc = .ok w) : v = w :=
  Except.ok.inj ((Expr.eval_lit (Expr.contains_of_eval h) v).symm.trans h)

mutual

theorem Expr.evalWith_eq_error {own : Memory} (hown : sc.heap.lookup sc.owner = some own)
    {fault : Fault} : ∀ (e : Expr), e.evalWith sc own = .error fault → EvalFault sc e fault
  | .lit v, h => by simp [Expr.evalWith] at h
  | .var name, h => by
    rw [Expr.evalWith] at h
    split at h
    · simp at h
    · obtain rfl := Except.error.inj h
      exact .var name
  | .own name, h => by
    rw [Expr.evalWith] at h
    split at h
    · simp at h
    · rename_i hnone
      obtain rfl := Except.error.inj h
      exact .field hown hnone
  | .field base name, h => by
    rw [Expr.evalWith] at h
    rcases bind_eq_error.1 h with h | ⟨v, hv, h⟩
    · exact (Expr.evalWith_eq_error hown base h).imp fun _ => .base
    · split at h
      · -- the base has a value, but that is no object of the heap
        rename_i hlookup
        obtain rfl := Except.error.inj h
        refine .base (.refl _) (hv ▸ Expr.eval_eq_evalWith hown base) ?_
        rw [Heap.contains, hlookup]
        rfl
      · rename_i own' hlookup
        split at h
        · simp at h
        · rename_i hnone
          obtain rfl := Except.error.inj h
          exact .field hlookup hnone
  | .apply op operands, h => by
    rw [Expr.evalWith] at h
    rcases bind_eq_error.1 h with h | ⟨vs, -, h⟩
    · obtain ⟨a, ha, hfault⟩ := Expr.evalAllWith_eq_error hown operands h
      exact hfault.imp fun _ => .operand ha
    · exact Operator.apply_eq_error h

theorem Expr.evalAllWith_eq_error {own : Memory} (hown : sc.heap.lookup sc.owner = some own)
    {fault : Fault} : ∀ (es : List Expr), Expr.evalAllWith sc own es = .error fault →
      ∃ e ∈ es, EvalFault sc e fault
  | [], h => by simp [Expr.evalAllWith] at h
  | e :: es, h => by
    rw [Expr.evalAllWith] at h
    rcases bind_eq_error.1 h with h | ⟨v, -, h⟩
    · exact ⟨e, by simp, Expr.evalWith_eq_error hown e h⟩
    · rcases bind_eq_error.1 h with h | ⟨vs, -, h⟩
      · obtain ⟨a, ha, hfault⟩ := Expr.evalAllWith_eq_error hown es h
        exact ⟨a, by simp [ha], hfault⟩
      · simp at h

end

/-- Every fault of an expression is one of those in `EvalFault`. -/
theorem Expr.evalFault_of_eval {e : Expr} {fault : Fault} (h : e.eval sc = .error fault) :
    EvalFault sc e fault := by
  rw [Expr.eval] at h
  split at h
  · rename_i hlookup
    obtain rfl := Except.error.inj h
    refine .owner ?_
    rw [Heap.contains, hlookup]
    rfl
  · rename_i own hown
    exact Expr.evalWith_eq_error hown e h

/-- A list of expressions fails where one of them does. -/
theorem Expr.evalAll_eq_error {es : List Expr} {fault : Fault}
    (h : Expr.evalAll sc es = .error fault) : ∃ e ∈ es, e.eval sc = .error fault := by
  induction es with
  | nil => simp [Expr.evalAll] at h
  | cons e es ih =>
    rw [Expr.evalAll] at h
    rcases bind_eq_error.1 h with h | ⟨v, -, h⟩
    · exact ⟨e, by simp, h⟩
    · rcases bind_eq_error.1 h with h | ⟨vs, -, h⟩
      · obtain ⟨e', he', h'⟩ := ih h
        exact ⟨e', by simp [he'], h'⟩
      · simp at h

/-- If a list of expressions has values, there is one for each of them. -/
theorem Expr.length_evalAll {es : List Expr} {vs : List Value}
    (h : Expr.evalAll sc es = .ok vs) : vs.length = es.length := by
  induction es generalizing vs with
  | nil =>
    obtain rfl : [] = vs := by simpa [Expr.evalAll] using h
    rfl
  | cons e es ih =>
    rw [Expr.evalAll] at h
    obtain ⟨w, -, h⟩ := bind_eq_ok.1 h
    obtain ⟨ws, hws, h⟩ := bind_eq_ok.1 h
    obtain rfl := pure_eq_ok.1 h
    rw [List.length_cons, List.length_cons, ih hws]

theorem Expr.eval_of_evalAll {es : List Expr} {vs : List Value}
    (h : Expr.evalAll sc es = .ok vs) {e : Expr} (he : e ∈ es) : ∃ v, e.eval sc = .ok v := by
  induction es generalizing vs with
  | nil => exact absurd he List.not_mem_nil
  | cons a es ih =>
    rw [Expr.evalAll] at h
    obtain ⟨w, hw, h⟩ := bind_eq_ok.1 h
    obtain ⟨ws, hws, -⟩ := bind_eq_ok.1 h
    rcases List.mem_cons.1 he with rfl | he
    · exact ⟨w, hw⟩
    · exact ih hws he

/-- What goes wrong with a knowledge base breaks its contract or has no category. -/
theorem KnowledgeFault.category?_ne {c : Category} (hc : c ≠ .knowledgeContract)
    (cause : KnowledgeFault) : cause.category? ≠ some c := by
  cases cause <;> simp [category?, hc.symm]

/-! ### Statements -/

/-- The expressions a location is found by. -/
def Location.exprs : Location → List Expr
  | .field base _ => [base]
  | _ => []

/-- The expressions a statement evaluates when it is run, its parts not included. -/
def Stmt.exprs : Stmt → List Expr
  | .print e | .ret e => [e]
  | .assign target value => value :: target.exprs
  | .call _ callee _ args => callee :: args
  | .create _ _ args => args
  | .cond guard _ _ => [guard]
  | .query _ text params => text :: params
  | .derive _ cls => [cls]
  | _ => []

/-- Why a statement other than a sequence does nothing, by the statement. -/
inductive Stmt.Refuses (classes : ClassTable) (sc : Scope) (caller : Caller) :
    Stmt → Fault → Prop where
  | eval {s : Stmt} {e : Expr} {fault : Fault} (hmem : e ∈ s.exprs)
      (he : e.eval sc = .error fault) : Refuses classes sc caller s fault
  | ownMissing {name : String} {value : Expr} (h : sc.heap.contains sc.owner = false) :
      Refuses classes sc caller (.assign (.own name) value) (.unknownObject sc.owner)
  | baseMissing {base value : Expr} {name : String} {b : Value} (hb : base.eval sc = .ok b)
      (h : sc.heap.contains b = false) :
      Refuses classes sc caller (.assign (.field base name) value) (.unknownObject b)
  | undeclared {target : Location} {value : Expr} {name : String} {r : Ref}
      (h : classes.hasField r.cls name = false) :
      Refuses classes sc caller (.assign target value) (.unknownField name (.object r))
  | notCallable {target : Option Location} {callee : Expr} {name : String} {args : List Expr}
      {v : Value} (hc : callee.eval sc = .ok v) (hv : v.isObject = false) :
      Refuses classes sc caller (.call target callee name args) (.notCallable name v)
  | calleeMissing {target : Option Location} {callee : Expr} {name : String} {args : List Expr}
      {v : Value} (hc : callee.eval sc = .ok v) (hv : sc.heap.contains v = false) :
      Refuses classes sc caller (.call target callee name args) (.unknownObject v)
  | unknownCalleeClass (target : Option Location) (callee : Expr) (name : String)
      (args : List Expr) (cls : String) :
      Refuses classes sc caller (.call target callee name args) (.unknownClass cls)
  | unknownMethod (target : Option Location) (callee : Expr) (name : String)
      (args : List Expr) (cls : String) :
      Refuses classes sc caller (.call target callee name args) (.unknownMethod cls name)
  | argumentCount (target : Option Location) (callee : Expr) (name : String)
      (args : List Expr) (cls : String) (takes : Nat) :
      Refuses classes sc caller (.call target callee name args)
        (.argumentCount cls name takes args.length)
  | unknownClass (target : Location) (cls : String) (args : List Expr) :
      Refuses classes sc caller (.create target cls args) (.unknownClass cls)
  | creationCount (target : Location) (cls : String) (args : List Expr) (fields : Nat) :
      Refuses classes sc caller (.create target cls args) (.creationCount cls fields args.length)
  | outsideCall {e : Expr} (h : caller = .none) :
      Refuses classes sc caller (.ret e) .returnOutsideCall
  | callerMissing {e : Expr} {id : Nat} (h : caller = .missing id) :
      Refuses classes sc caller (.ret e) (.callerNotScheduled id)
  | callerBusy {e : Expr} {g : Frame} (hg : caller = .waiting g) (h : g.stmt.awaiting? = none) :
      Refuses classes sc caller (.ret e) (.callerNotWaiting g.id g.stmt)
  | guardType {guard : Expr} {a b : Stmt} {v : Value} (hv : guard.eval sc = .ok v)
      (htrue : v ≠ .boolean true) (hfalse : v ≠ .boolean false) :
      Refuses classes sc caller (.cond guard a b) (.guardType guard v)
  | queryType {target : Location} {text : Expr} {params : List Expr} (v : Value) :
      Refuses classes sc caller (.query target text params) (.requestType "query" v)
  | deriveType {target : Location} {cls : Expr} (v : Value) :
      Refuses classes sc caller (.derive target cls) (.requestType "derive" v)
  | marker (target : Option Location) :
      Refuses classes sc caller (.storeReturn target) (.notReturned (.storeReturn target))

variable {classes : ClassTable} {caller : Caller}

/-- A field is not written if the object is not on the heap or its class has no such field. -/
theorem writeField_eq_error {heap : Heap} {v new : Value} {name : String} {fault : Fault}
    (h : writeField classes heap v name new = .error fault) :
    (fault = .unknownObject v ∧ heap.contains v = false) ∨
      ∃ r, v = .object r ∧ fault = .unknownField name v ∧
        classes.hasField r.cls name = false := by
  cases v
  case object r =>
    simp only [writeField] at h
    split at h
    · rename_i hon
      exact .inl ⟨(Except.error.inj h).symm, by simpa using hon⟩
    · split at h
      · rename_i hdecl
        exact .inr ⟨r, rfl, (Except.error.inj h).symm, by simpa using hdecl⟩
      · simp at h
  all_goals exact .inl ⟨(Except.error.inj h).symm, rfl⟩

theorem Stmt.refuses_of_write {target : Location} {value : Expr} {v : Value} {fault : Fault}
    (h : target.write classes sc v = .error fault) :
    Refuses classes sc caller (.assign target value) fault := by
  cases target with
  | var name => simp [Location.write] at h
  | own name =>
    rcases writeField_eq_error h with ⟨rfl, hmissing⟩ | ⟨r, hr, rfl, hdecl⟩
    · exact .ownMissing hmissing
    · rw [hr]
      exact .undeclared hdecl
  | field base name =>
    rcases bind_eq_error.1 h with h | ⟨b, hb, h⟩
    · exact .eval (by simp [exprs, Location.exprs]) h
    · rcases writeField_eq_error h with ⟨rfl, hmissing⟩ | ⟨r, rfl, rfl, hdecl⟩
      · exact .baseMissing hb hmissing
      · exact .undeclared hdecl

theorem Stmt.refuses_of_callIntent {target : Option Location} {callee : Expr} {name : String}
    {args : List Expr} {fault : Fault}
    (h : callIntent classes sc target callee name args = .error fault) :
    Refuses classes sc caller (.call target callee name args) fault := by
  rcases bind_eq_error.1 h with h | ⟨v, hv, h⟩
  · exact .eval (by simp [exprs]) h
  · cases v
    case object r =>
      simp only at h
      split at h
      · rename_i hr
        obtain rfl := Except.error.inj h
        exact .calleeMissing hv (by simpa using hr)
      · -- the method is looked up before the arguments are counted and evaluated
        rcases bind_eq_error.1 h with h | ⟨m, hm, h⟩
        · rw [ClassTable.method] at h
          split at h
          · obtain rfl := Except.error.inj h
            exact .unknownCalleeClass ..
          · split at h
            · obtain rfl := Except.error.inj h
              exact .unknownMethod ..
            · simp at h
        · split at h
          · obtain rfl := Except.error.inj h
            exact .argumentCount ..
          · rcases bind_eq_error.1 h with h | ⟨vs, -, h⟩
            · obtain ⟨e, he, h⟩ := Expr.evalAll_eq_error h
              exact .eval (by simp [exprs, he]) h
            · simp at h
    all_goals
      obtain rfl := Except.error.inj h
      exact .notCallable hv rfl

theorem Stmt.refuses_of_createIntent {target : Location} {cls : String} {args : List Expr}
    {fault : Fault} (h : createIntent classes sc target cls args = .error fault) :
    Refuses classes sc caller (.create target cls args) fault := by
  rcases bind_eq_error.1 h with h | ⟨fields, hf, h⟩
  · rw [ClassTable.fields] at h
    split at h
    · obtain rfl := Except.error.inj h
      exact .unknownClass ..
    · simp at h
  · split at h
    · obtain rfl := Except.error.inj h
      exact .creationCount ..
    · rcases bind_eq_error.1 h with h | ⟨vs, -, h⟩
      · obtain ⟨e, he, h⟩ := Expr.evalAll_eq_error h
        exact .eval (by simpa [exprs] using he) h
      · simp at h

theorem Stmt.refuses_of_returnIntent {value : Expr} {fault : Fault}
    (h : returnIntent sc caller value = .error fault) :
    Refuses classes sc caller (.ret value) fault := by
  cases caller with
  | none =>
    obtain rfl := Except.error.inj h
    exact .outsideCall rfl
  | missing id =>
    obtain rfl := Except.error.inj h
    exact .callerMissing rfl
  | waiting g =>
    rw [returnIntent] at h
    split at h
    · rename_i hw
      obtain rfl := Except.error.inj h
      exact .callerBusy rfl hw
    · rcases bind_eq_error.1 h with h | ⟨v, -, h⟩
      · exact .eval (by simp [exprs]) h
      · simp at h

/-- The text of a request fails to evaluate or is no text. -/
theorem requestText_eq_error {request : String} {e : Expr} {fault : Fault}
    (h : requestText sc request e = .error fault) :
    e.eval sc = .error fault ∨ ∃ v, fault = .requestType request v := by
  rcases bind_eq_error.1 h with h | ⟨v, -, h⟩
  · exact .inl h
  · split at h
    · simp at h
    · exact .inr ⟨_, (Except.error.inj h).symm⟩

/-- Every fault of a statement other than a sequence is one of those in `Stmt.Refuses`. -/
theorem Stmt.refuses_of_intent {s : Stmt} (hs : s.isSeq = false) {fault : Fault}
    (h : s.intent classes sc caller = .error fault) : s.Refuses classes sc caller fault := by
  cases s
  case seq => exact absurd hs (by simp [isSeq])
  case skip => simp [intent] at h
  case breakpoint => simp [intent] at h
  case print e =>
    rcases bind_eq_error.1 h with h | ⟨v, -, h⟩
    · exact .eval (by simp [exprs]) h
    · simp at h
  case assign target value =>
    rcases bind_eq_error.1 h with h | ⟨v, -, h⟩
    · exact .eval (by simp [exprs]) h
    · rcases bind_eq_error.1 h with h | ⟨e, -, h⟩
      · exact refuses_of_write h
      · simp at h
  case call target callee name args =>
    rcases bind_eq_error.1 h with h | ⟨e, -, h⟩
    · exact refuses_of_callIntent h
    · simp at h
  case create target cls args =>
    rcases bind_eq_error.1 h with h | ⟨e, -, h⟩
    · exact refuses_of_createIntent h
    · simp at h
  case ret value =>
    rcases bind_eq_error.1 h with h | ⟨e, -, h⟩
    · exact refuses_of_returnIntent h
    · simp at h
  case cond guard a b =>
    rcases bind_eq_error.1 h with h | ⟨v, hv, h⟩
    · exact .eval (by simp [exprs]) h
    · split at h
      · simp at h
      · simp at h
      · rename_i htrue hfalse
        obtain rfl := Except.error.inj h
        exact .guardType hv htrue hfalse
  case loop guard body => simp [intent] at h
  case query target text params =>
    rcases bind_eq_error.1 h with h | ⟨r, -, h⟩
    · rcases bind_eq_error.1 h with h | ⟨q, -, h⟩
      · rcases requestText_eq_error h with h | ⟨v, rfl⟩
        · exact .eval (by simp [exprs]) h
        · exact .queryType v
      · rcases bind_eq_error.1 h with h | ⟨vs, -, h⟩
        · -- parameters are evaluated from the last one to the first
          obtain ⟨e, he, h⟩ := Expr.evalAll_eq_error h
          exact .eval (by simpa [exprs] using .inr (List.mem_reverse.1 he)) h
        · simp at h
    · simp at h
  case derive target cls =>
    rcases bind_eq_error.1 h with h | ⟨r, -, h⟩
    · rcases requestText_eq_error h with h | ⟨v, rfl⟩
      · exact .eval (by simp [exprs]) h
      · exact .deriveType v
    · simp at h
  case storeReturn target =>
    obtain rfl := Except.error.inj h
    exact .marker target

end ObjectMachine
