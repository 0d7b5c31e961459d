import ObjectMachine.Proofs.Continuation

namespace ObjectMachine

/-!
# What each statement does

`Stmt.intent` evaluates what the head of a frame needs and says what is to be done. This file says
once, statement by statement, what that can be:

* `Stmt.Wants` — the intents, with everything that was evaluated and checked on the way;
* `Stmt.wants_of_intent`, `Stmt.Wants.intent_eq` — these are the intents, and there are no others.
-/

/-- A computation that may fail succeeds if both of its parts do. -/
theorem bind_eq_ok {ε α β : Type} {x : Except ε α} {f : α → Except ε β} {b : β} :
    x >>= f = .ok b ↔ ∃ a, x = .ok a ∧ f a = .ok b := by
  cases x <;> simp [bind, Except.bind]

/-- A computation that may fail does so in its first part or in its second. -/
theorem bind_eq_error {ε α β : Type} {x : Except ε α} {f : α → Except ε β} {e : ε} :
    x >>= f = .error e ↔ x = .error e ∨ ∃ a, x = .ok a ∧ f a = .error e := by
  cases x <;> simp [bind, Except.bind]

theorem map_eq_ok {ε α β : Type} {x : Except ε α} {f : α → β} {b : β} :
    x.map f = .ok b ↔ ∃ a, x = .ok a ∧ f a = b := by
  cases x <;> simp [Except.map]

theorem map_eq_error {ε α β : Type} {x : Except ε α} {f : α → β} {e : ε} :
    x.map f = .error e ↔ x = .error e := by
  cases x <;> simp [Except.map]

@[simp] theorem pure_eq_ok {ε α : Type} {a b : α} : (pure a : Except ε α) = .ok b ↔ a = b := by
  simp [pure, Except.pure]

@[simp] theorem pure_ne_error {ε α : Type} {a : α} {e : ε} :
    (pure a : Except ε α) = .error e ↔ False := by
  simp [pure, Except.pure]

/-! ### Intents -/

/-- The field of the object `v` refers to that is written, if it may be. -/
structure Writable (classes : ClassTable) (heap : Heap) (v : Value) (r : Ref) (name : String) :
    Prop where
  isRef : v = .object r
  onHeap : heap.contains v = true
  declared : classes.hasField r.cls name = true

/-- What a statement other than a sequence wants, by the statement. -/
inductive Stmt.Wants (classes : ClassTable) (sc : Scope) (caller : Caller) :
    Stmt → Intent → Prop where
  | skip : Wants classes sc caller .skip (.act .finish)
  | breakpoint : Wants classes sc caller .breakpoint (.act .pause)
  | print {e : Expr} {v : Value} (he : e.eval sc = .ok v) :
      Wants classes sc caller (.print e) (.act (.print v))
  | setVar {name : String} {e : Expr} {v : Value} (he : e.eval sc = .ok v) :
      Wants classes sc caller (.assign (.var name) e) (.act (.setLocal name v))
  | setOwn {name : String} {e : Expr} {v : Value} {r : Ref} (he : e.eval sc = .ok v)
      (hw : Writable classes sc.heap sc.owner r name) :
      Wants classes sc caller (.assign (.own name) e) (.act (.setField r name v))
  | setField {base e : Expr} {name : String} {b v : Value} {r : Ref} (he : e.eval sc = .ok v)
      (hb : base.eval sc = .ok b) (hw : Writable classes sc.heap b r name) :
      Wants classes sc caller (.assign (.field base name) e) (.act (.setField r name v))
  | call {target : Option Location} {callee : Expr} {name : String} {args : List Expr}
      {r : Ref} {m : Method} {vs : List Value} (hc : callee.eval sc = .ok (.object r))
      (hr : sc.heap.contains (.object r) = true) (hm : classes.method r.cls name = .ok m)
      (hlen : m.params.length = args.length) (hargs : Expr.evalAll sc args = .ok vs) :
      Wants classes sc caller (.call target callee name args)
        (.act (.invoke target r m.body (.ofList (("this", .object r) :: m.params.zip vs))))
  | create {target : Location} {cls : String} {args : List Expr} {fields : List String}
      {vs : List Value} (hf : classes.fields? cls = some fields)
      (hlen : fields.length = args.length) (hargs : Expr.evalAll sc args = .ok vs) :
      Wants classes sc caller (.create target cls args)
        (.act (.create target cls (.ofList (fields.zip vs))))
  | ret {e : Expr} {v : Value} {g : Frame} {target : Option Location} {rest : Option Stmt}
      (hg : caller = .waiting g) (hw : g.stmt.awaiting? = some (target, rest))
      (he : e.eval sc = .ok v) :
      Wants classes sc caller (.ret e) (.act (.resume g (Stmt.received target rest v)))
  | onTrue {guard : Expr} {a b : Stmt} (he : guard.eval sc = .ok (.boolean true)) :
      Wants classes sc caller (.cond guard a b) (.act (.become a))
  | onFalse {guard : Expr} {a b : Stmt} (he : guard.eval sc = .ok (.boolean false)) :
      Wants classes sc caller (.cond guard a b) (.act (.become b))
  | loop {guard : Expr} {body : Stmt} :
      Wants classes sc caller (.loop guard body)
        (.act (.become (.cond guard (body.append (.loop guard body)) .skip)))
  | query {target : Location} {text : Expr} {params : List Expr} {r : Request}
      (hr : queryIntent sc text params = .ok r) :
      Wants classes sc caller (.query target text params) (.ask r target)
  | derive {target : Location} {cls : Expr} {text : String}
      (hr : requestText sc "derive" cls = .ok text) :
      Wants classes sc caller (.derive target cls) (.ask (.derive text) target)

variable {classes : ClassTable} {sc : Scope} {caller : Caller}

/-- A field is written only if the object is on the heap and its class declares the field. -/
theorem writable_of_writeField {heap : Heap} {v new : Value} {name : String} {e : Effect}
    (h : writeField classes heap v name new = .ok e) :
    ∃ r, Writable classes heap v r name ∧ e = .setField r name new := by
  cases v
  case object r =>
    simp only [writeField] at h
    split at h
    · simp at h
    · split at h
      · simp at h
      · rename_i hon hdecl
        refine ⟨r, ⟨rfl, by simpa using hon, by simpa using hdecl⟩, ?_⟩
        exact (Except.ok.inj h).symm
  all_goals simp [writeField] at h

/-- A call starts a method of an object of the heap, with as many arguments as it takes. -/
theorem callIntent_eq_ok {target : Option Location} {callee : Expr} {name : String}
    {args : List Expr} {e : Effect} (h : callIntent classes sc target callee name args = .ok e) :
    ∃ r m vs, callee.eval sc = .ok (.object r) ∧ sc.heap.contains (.object r) = true ∧
      classes.method r.cls name = .ok m ∧ m.params.length = args.length ∧
      Expr.evalAll sc args = .ok vs ∧
      e = .invoke target r m.body (.ofList (("this", .object r) :: m.params.zip vs)) := by
  obtain ⟨v, hv, h⟩ := bind_eq_ok.1 h
  cases v
  case object r =>
    simp only at h
    split at h
    · simp at h
    · rename_i hr
      obtain ⟨m, hm, h⟩ := bind_eq_ok.1 h
      split at h
      · simp at h
      · rename_i hlen
        obtain ⟨vs, hvs, h⟩ := bind_eq_ok.1 h
        refine ⟨r, m, vs, hv, by simpa using hr, hm, by simpa using hlen, hvs, ?_⟩
        exact (pure_eq_ok.1 h).symm
  all_goals simp at h

/-- Creating an object takes one argument for each field of the class. -/
theorem createIntent_eq_ok {target : Location} {cls : String} {args : List Expr} {e : Effect}
    (h : createIntent classes sc target cls args = .ok e) :
    ∃ fields vs, classes.fields? cls = some fields ∧ fields.length = args.length ∧
      Expr.evalAll sc args = .ok vs ∧ e = .create target cls (.ofList (fields.zip vs)) := by
  obtain ⟨fields, hf, h⟩ := bind_eq_ok.1 h
  have hfields : classes.fields? cls = some fields := by
    rw [ClassTable.fields] at hf
    split at hf <;> simp_all
  split at h
  · simp at h
  · rename_i hlen
    obtain ⟨vs, hvs, h⟩ := bind_eq_ok.1 h
    exact ⟨fields, vs, hfields, by simpa using hlen, hvs, (pure_eq_ok.1 h).symm⟩

/-- A return succeeds only if a frame waits for it. -/
theorem returnIntent_eq_ok {value : Expr} {e : Effect}
    (h : returnIntent sc caller value = .ok e) :
    ∃ g target rest v, caller = .waiting g ∧ g.stmt.awaiting? = some (target, rest) ∧
      value.eval sc = .ok v ∧ e = .resume g (Stmt.received target rest v) := by
  cases caller with
  | none => simp [returnIntent] at h
  | missing id => simp [returnIntent] at h
  | waiting g =>
    rw [returnIntent] at h
    cases hw : g.stmt.awaiting? with
    | none => simp [hw] at h
    | some p =>
      obtain ⟨target, rest⟩ := p
      simp only [hw] at h
      obtain ⟨v, hv, h⟩ := bind_eq_ok.1 h
      exact ⟨g, target, rest, v, rfl, hw, hv, (pure_eq_ok.1 h).symm⟩

/-- Every intent of a statement other than a sequence is one of those in `Stmt.Wants`. -/
theorem Stmt.wants_of_intent {s : Stmt} (hs : s.isSeq = false) {i : Intent}
    {rest : Option Stmt} (h : s.intent classes sc caller = .ok (i, rest)) :
    s.Wants classes sc caller i := by
  -- an intent ends a chain of binds, and what was bound on the way is what `Wants` asks for
  cases s
  case seq => exact absurd hs (by simp [isSeq])
  case skip =>
    obtain ⟨rfl, -⟩ : _ ∧ _ := by simpa [intent] using h
    exact .skip
  case breakpoint =>
    obtain ⟨rfl, -⟩ : _ ∧ _ := by simpa [intent] using h
    exact .breakpoint
  case print e =>
    obtain ⟨v, hv, h⟩ := bind_eq_ok.1 h
    obtain ⟨rfl, -⟩ : _ ∧ _ := by simpa using h
    exact .print hv
  case assign target e =>
    obtain ⟨v, hv, h⟩ := bind_eq_ok.1 h
    obtain ⟨eff, hw, h⟩ := bind_eq_ok.1 h
    obtain ⟨rfl, -⟩ : _ ∧ _ := by simpa using h
    cases target with
    | var name =>
      obtain rfl : _ = eff := by simpa [Location.write] using hw
      exact .setVar hv
    | own name =>
      obtain ⟨r, hr, rfl⟩ := writable_of_writeField hw
      exact .setOwn hv hr
    | field base name =>
      obtain ⟨b, hb, hw⟩ := bind_eq_ok.1 hw
      obtain ⟨r, hr, rfl⟩ := writable_of_writeField hw
      exact .setField hv hb hr
  case call target callee name args =>
    obtain ⟨eff, he, h⟩ := bind_eq_ok.1 h
    obtain ⟨rfl, -⟩ : _ ∧ _ := by simpa using h
    obtain ⟨r, m, vs, hc, hr, hm, hlen, hargs, rfl⟩ := callIntent_eq_ok he
    exact .call hc hr hm hlen hargs
  case create target cls args =>
    obtain ⟨eff, he, h⟩ := bind_eq_ok.1 h
    obtain ⟨rfl, -⟩ : _ ∧ _ := by simpa using h
    obtain ⟨fields, vs, hf, hlen, hargs, rfl⟩ := createIntent_eq_ok he
    exact .create hf hlen hargs
  case ret e =>
    obtain ⟨eff, he, h⟩ := bind_eq_ok.1 h
    obtain ⟨rfl, -⟩ : _ ∧ _ := by simpa using h
    obtain ⟨g, target, rest, v, hg, hw, hv, rfl⟩ := returnIntent_eq_ok he
    exact .ret hg hw hv
  case cond guard a b =>
    obtain ⟨v, hv, h⟩ := bind_eq_ok.1 h
    split at h
    · obtain ⟨rfl, -⟩ : _ ∧ _ := by simpa using h
      exact .onTrue hv
    · obtain ⟨rfl, -⟩ : _ ∧ _ := by simpa using h
      exact .onFalse hv
    · simp at h
  case loop guard body =>
    obtain ⟨rfl, -⟩ : _ ∧ _ := by simpa [intent] using h
    exact .loop
  case query target text params =>
    obtain ⟨r, hr, h⟩ := bind_eq_ok.1 h
    obtain ⟨rfl, -⟩ : _ ∧ _ := by simpa using h
    exact .query hr
  case derive target cls =>
    obtain ⟨text, ht, h⟩ := bind_eq_ok.1 h
    obtain ⟨rfl, -⟩ : _ ∧ _ := by simpa using h
    exact .derive ht
  case storeReturn target =>
    simp [intent] at h

/-- A field that may be written is. -/
theorem Writable.writeField_eq {heap : Heap} {v : Value} {r : Ref} {name : String}
    (h : Writable classes heap v r name) (new : Value) :
    writeField classes heap v name new = .ok (.setField r name new) := by
  obtain ⟨rfl, hon, hdecl⟩ := h
  simp [writeField, hon, hdecl]

/-- What a statement wants is its intent, with nothing to run after it. -/
theorem Stmt.Wants.intent_eq {s : Stmt} {i : Intent} (h : s.Wants classes sc caller i) :
    s.intent classes sc caller = .ok (i, none) := by
  cases h with
  | skip => rfl
  | breakpoint => rfl
  | print he => simp [intent, he, bind, Except.bind, pure, Except.pure]
  | setVar he => simp [intent, he, Location.write, bind, Except.bind, pure, Except.pure]
  | setOwn he hw =>
    simp [intent, he, Location.write, hw.writeField_eq, bind, Except.bind, pure, Except.pure]
  | setField he hb hw =>
    simp [intent, he, hb, Location.write, hw.writeField_eq, bind, Except.bind, pure, Except.pure]
  | call hc hr hm hlen hargs =>
    simp [intent, callIntent, hc, hr, hm, hlen, hargs, bind, Except.bind, pure, Except.pure]
  | create hf hlen hargs =>
    simp [intent, createIntent, ClassTable.fields, hf, hlen, hargs, bind, Except.bind, pure,
      Except.pure]
  | ret hg hw he =>
    subst hg
    simp [intent, returnIntent, hw, he, bind, Except.bind, pure, Except.pure]
  | onTrue he => simp [intent, he, bind, Except.bind, pure, Except.pure]
  | onFalse he => simp [intent, he, bind, Except.bind, pure, Except.pure]
  | loop => rfl
  | query hr => simp [intent, hr, bind, Except.bind, pure, Except.pure]
  | derive hr => simp [intent, hr, bind, Except.bind, pure, Except.pure]

end ObjectMachine
