import ObjectMachine.Proofs.Shapes

namespace ObjectMachine

/-!
# Objects with all their fields

An object that is created has all fields of its class. Entry objects and the nodes of lists do not
look at what their classes declare: an entry object has no fields, and a node has `content` and
`next`. This file says for which class tables that makes no difference:

* `Ref.Initialised` — an object has a value for every field that its class declares;
* `ClassTable.Initialises` — the class tables for which all new objects are initialised;
* `shape_initialised` — for these, it is a property of all objects;
* `Fault.IsUndeclared` — a fault about a field that is not declared;
* `Machine.isUndeclared_of_step` — then a step fails for no other unknown field;
* `objects_are_initialised` — this is so for these class tables and for no others;
* `objects_are_not_initialised` — a class table of each other kind.
-/

/-- An object has a value for every field that its class declares. -/
def Ref.Initialised (classes : ClassTable) (r : Ref) (own : Memory) : Prop :=
  ∀ name, classes.hasField r.cls name = true → (own.get? name).isSome = true

/-- The class of entry objects declares no field, and the class of lists, if it can hold answers,
    declares `content` and `next` only. -/
structure ClassTable.Initialises (classes : ClassTable) : Prop where
  entry (name : String) : classes.hasField entryClass name = false
  list (hlist : Machine.hasListClass classes = true) (name : String)
    (hname : classes.hasField listClass name = true) : name = "content" ∨ name = "next"

/-- If the class table initialises all new objects, every object is initialised: writing a field
    removes none. -/
theorem shape_initialised {classes : ClassTable} (h : classes.Initialises) :
    Shape classes (Ref.Initialised classes) where
  entry _ field hfield := by
    have hno : classes.hasField entryClass field = false := h.entry field
    exact absurd hfield (by simp [hno])
  create {r fields vs} hf hlen name hname := by
    obtain ⟨fields', hf', hmem⟩ := ClassTable.hasField_iff.1 hname
    obtain rfl : fields = fields' := Option.some.inj (hf.symm.trans hf')
    refine SortedMap.isSome_get?_ofList ?_
    rw [List.map_fst_zip (Nat.le_of_eq hlen)]
    exact hmem
  node _ v front hlist field hfield := by
    refine SortedMap.isSome_get?_ofList ?_
    rcases h.list hlist field hfield with rfl | rfl
    · exact List.mem_cons_self
    · exact List.mem_cons_of_mem _ List.mem_cons_self
  write v h _ name hname := SortedMap.isSome_get?_insert (h name hname)

/-! ### Unknown fields -/

/-- An unknown field is reported by the fault of that name only. -/
theorem Fault.eq_of_unknownField {fault : Fault} (h : fault.category? = some .unknownField) :
    ∃ name v, fault = .unknownField name v := by
  have hcause : ∀ cause : KnowledgeFault, cause.category? ≠ some .unknownField :=
    KnowledgeFault.category?_ne (by simp)
  cases fault with
  | unknownField name v => exact ⟨name, v, rfl⟩
  | dump cause => exact absurd h (hcause cause)
  | knowledge cause => exact absurd h (hcause cause)
  | _ => exact absurd h (by simp [Fault.category?])

/-- A fault is about a field that the class of an object does not declare. -/
def Fault.IsUndeclared (classes : ClassTable) (fault : Fault) : Prop :=
  ∃ name r, fault = .unknownField name (.object r) ∧ classes.hasField r.cls name = false

/-- If all objects are initialised, reading a field fails only if it is not declared. -/
theorem Expr.isUndeclared_of_eval {classes : ClassTable} {sc : Scope}
    (h : sc.heap.AllObjects (Ref.Initialised classes)) {e : Expr} {fault : Fault}
    (he : e.eval sc = .error fault) (hcat : fault.category? = some .unknownField) :
    fault.IsUndeclared classes := by
  obtain ⟨name, v, rfl⟩ := Fault.eq_of_unknownField hcat
  cases Expr.evalFault_of_eval he with
  | @field _ _ own hv hnone =>
    cases v with
    | object r =>
      refine ⟨name, r, rfl, ?_⟩
      by_cases hname : classes.hasField r.cls name = true
      · have hsome : (own.get? name).isSome = true := h r own hv name hname
        rw [hnone] at hsome
        exact absurd hsome (by simp)
      · simpa using hname
    | _ => exact absurd hv (by simp [Heap.lookup])

/-- If all objects are initialised, a step fails for an unknown field only if it is not declared. -/
theorem Machine.isUndeclared_of_step {σ : Type} {kb : Option (KnowledgeBase σ)} {m : Machine}
    (h : m.heap.AllObjects (Ref.Initialised m.classes)) {s : σ} {fault : StepFault}
    (hstep : (m.step kb s).outcome = .failed fault)
    (hcat : fault.category? = some .unknownField) :
    ∃ id cause, fault = .frame id cause ∧ cause.IsUndeclared m.classes := by
  cases fault with
  | limit => exact absurd hcat (by simp [StepFault.category?])
  | frame id cause =>
    refine ⟨id, cause, rfl, ?_⟩
    obtain ⟨name, v, rfl⟩ := Fault.eq_of_unknownField hcat
    obtain ⟨f, below, s', hm, -, heffect⟩ := effectOf_of_failed hstep
    have hscope : (m.scopeOf f).heap.AllObjects (Ref.Initialised m.classes) := h
    rcases effectOf_eq_error heffect with ⟨-, hfault⟩ | hrefuses | hask
    · exact absurd hfault (by simp)
    · -- a field is read by an expression, or it is written
      generalize f.stmt.head = x at hrefuses
      cases hrefuses with
      | eval _ he => exact Expr.isUndeclared_of_eval hscope he hcat
      | undeclared hdecl => exact ⟨name, _, rfl, hdecl⟩
    · exact absurd hask (by intro hask; cases hask)

/-! ### The class tables that initialise all objects -/

/-- The entry object of a program has no fields. -/
theorem Machine.lookup_start (m : Machine) (main : Stmt) {σ : Type}
    (kb : Option (KnowledgeBase σ)) :
    (m.operate kb (.start main)).heap.objects.get? (m.heap.create entryClass ∅).1 = some ∅ := by
  rw [Machine.operate, m.start_eq main]
  exact SortedMap.get?_insert_self _ _ _

/-- A knowledge base with the one answer `1` to everything. -/
def oneAnswer : KnowledgeBase Unit where
  dump _ _ := (.ok (), ())
  query _ _ := (.ok ["1"], ())
  derive _ _ := (.ok ["1"], ())

/-- A program that asks this knowledge base puts a node on the heap. Whatever else the class of
    lists declares, the node has the fields `content` and `next`. -/
theorem Machine.lookup_oneAnswer {classes : ClassTable} (hlist : hasListClass classes = true) :
    let asking : Stmt := .derive (.var "x") (.lit (.string ""))
    let m := (Machine.new classes ∅ 0).operateAll (some oneAnswer) [.start asking, .step ()]
    ∃ r : Ref, r.cls = listClass ∧
      m.heap.objects.get? r = some (.ofList [("content", .ofInt 1), ("next", .null)]) := by
  intro asking m
  let heap : Heap := (Heap.create ∅ entryClass ∅).2
  let entry : Value := .object (Heap.create ∅ entryClass ∅).1
  let f : Frame := ⟨1, 1, asking, SortedMap.insert ∅ "this" entry, entry, none⟩
  let started : Machine :=
    { Machine.new classes ∅ 0 with heap := heap, stack := [f], lastFrame := 1, lastKey := 1 }
  have hstarted : (Machine.new classes ∅ 0).operate (some oneAnswer) (.start asking) = started := by
    rw [operate, (Machine.new classes ∅ 0).start_eq asking]
    rfl
  have howner : started.heap.contains f.owner = true := Heap.contains_create_self ∅ entryClass ∅
  have hwants : f.stmt.head.Wants started.classes (started.scopeOf f) (f.callerIn [])
      (.ask (.derive "") (.var "x")) := .derive rfl
  have heffect : started.effectOf (some oneAnswer) f [] () =
      (.ok (.enlist (.var "x") [.ofInt 1]), ()) := by
    rw [effectOf_of_wants howner hwants]
    exact resolve_of_answers hlist rfl rfl
  have hheap : m.heap = (heap.addList .null [.ofInt 1]).2 := by
    show (((Machine.new classes ∅ 0).operate (some oneAnswer) (.start asking)).step
      (some oneAnswer) ()).machine.heap = _
    rw [hstarted, step_eq rfl rfl, heffect, perform_heap]
    rfl
  refine ⟨(heap.alloc listClass).1, rfl, ?_⟩
  rw [hheap]
  exact SortedMap.get?_insert_self _ _ _

/-- If all objects are initialised after every run, the class table initialises all new objects. -/
theorem ClassTable.initialises_of_reachable {classes : ClassTable}
    (h : ∀ (kb : Option (KnowledgeBase Unit)) (ops : List (Operation Unit)),
      ((Machine.new classes ∅ 0).operateAll kb ops).heap.AllObjects (Ref.Initialised classes)) :
    classes.Initialises where
  entry name := by
    by_cases hname : classes.hasField entryClass name = true
    · let kb : Option (KnowledgeBase Unit) := none
      have hentry := h kb [.start .skip] _ _ ((Machine.new classes ∅ 0).lookup_start .skip kb)
      have hsome : ((∅ : Memory).get? name).isSome = true := hentry name hname
      exact Bool.noConfusion hsome
    · simpa using hname
  list hlist name hname := by
    obtain ⟨r, hr, hnode⟩ := Machine.lookup_oneAnswer hlist
    have hsome := h (some oneAnswer) _ r _ hnode name (hr ▸ hname)
    rcases List.mem_cons.1 (SortedMap.mem_of_isSome_get?_ofList hsome) with rfl | hnext
    · exact .inl rfl
    · exact .inr (List.mem_singleton.1 hnext)

/-- Exactly if the class of entry objects declares no field and the class of lists, if it can hold
    answers, declares `content` and `next` only, all objects have all fields that their classes
    declare, after every run from an empty heap. Then an expression or a step fails for an unknown
    field only if the class of the object does not declare it. -/
theorem objects_are_initialised (classes : ClassTable) :
    (classes.Initialises ↔ ∀ (σ : Type) (kb : Option (KnowledgeBase σ)) (maxSteps : Nat)
      (ops : List (Operation σ)),
        ((Machine.new classes ∅ maxSteps).operateAll kb ops).heap.AllObjects
          (Ref.Initialised classes)) ∧
    (classes.Initialises → ∀ (σ : Type) (kb : Option (KnowledgeBase σ)) (maxSteps : Nat)
      (ops : List (Operation σ)), let m := (Machine.new classes ∅ maxSteps).operateAll kb ops
      (∀ (sc : Scope) (e : Expr) (fault : Fault), sc.heap = m.heap → e.eval sc = .error fault →
        fault.category? = some .unknownField → fault.IsUndeclared classes) ∧
      ∀ (s : σ) (fault : StepFault), (m.step kb s).outcome = .failed fault →
        fault.category? = some .unknownField →
          ∃ id cause, fault = .frame id cause ∧ cause.IsUndeclared classes) := by
  refine ⟨⟨fun h σ kb maxSteps ops => (shape_initialised h).operateAll maxSteps ops,
    fun h => ClassTable.initialises_of_reachable fun kb ops => h Unit kb 0 ops⟩, ?_⟩
  intro h σ kb maxSteps ops m
  have hall : m.heap.AllObjects (Ref.Initialised classes) :=
    (shape_initialised h).operateAll maxSteps ops
  have hclasses : m.classes = classes := Machine.operateAll_classes _ ops
  constructor
  · intro sc e fault hheap he hcat
    exact Expr.isUndeclared_of_eval (hheap ▸ hall) he hcat
  · intro s fault hstep hcat
    rw [← hclasses] at hall ⊢
    exact Machine.isUndeclared_of_step hall hstep hcat

/-- A program puts a list node with an answer on the heap, and then fails to read a field of it. The
    node has both fields of its class, and the field that is not found is not declared. -/
theorem objects_are_initialised_of_answered_query :
    let classes : ClassTable :=
      .ofList [("C", ⟨["n"], ∅⟩), (listClass, ⟨["next", "content"], ∅⟩)]
    let asking : Stmt := .derive (.var "x") (.lit (.string ""))
    let m := (Machine.new classes ∅ 0).operateAll (some oneAnswer)
      [.start (.seq asking (.print (.field (.var "x") "n"))), .step (), .step ()]
    let node : Ref := ⟨"obj2", listClass⟩
    classes.Initialises ∧
      (∃ own, m.heap.objects.get? node = some own ∧ node.Initialised classes own) ∧
      ∃ id cause, (m.step (some oneAnswer) ()).outcome = .failed (.frame id cause) ∧
        cause.IsUndeclared classes := by
  intro classes asking m node
  have hlist : classes.fields? listClass = some ["next", "content"] := by decide
  have hclasses : classes.Initialises := by
    refine ⟨fun name => rfl, fun _ name hname => ?_⟩
    obtain ⟨fields, hfields, hmem⟩ := ClassTable.hasField_iff.1 hname
    obtain rfl : _ = fields := Option.some.inj (hlist.symm.trans hfields)
    rcases List.mem_cons.1 hmem with rfl | hmem
    · exact .inr rfl
    · exact .inl (List.mem_singleton.1 hmem)
  obtain ⟨hreached, hreads⟩ := objects_are_initialised classes
  have hnode : (m.heap.objects.get? node).isSome = true := by decide
  obtain ⟨own, hown⟩ := Option.isSome_iff_exists.1 hnode
  have hfails : (m.step (some oneAnswer) ()).outcome.fault?.bind StepFault.category? =
      some .unknownField := by decide
  obtain ⟨fault, hfault, hcat⟩ := Option.bind_eq_some_iff.1 hfails
  have houtcome : (m.step (some oneAnswer) ()).outcome = .failed fault := by
    revert hfault
    cases (m.step (some oneAnswer) ()).outcome <;> simp [Outcome.fault?]
  obtain ⟨id, cause, rfl, hcause⟩ :=
    (hreads hclasses Unit (some oneAnswer) 0 _).2 () fault houtcome hcat
  exact ⟨hclasses, ⟨own, hown, hreached.1 hclasses Unit (some oneAnswer) 0 _ node own hown⟩,
    id, cause, houtcome, hcause⟩

/-- Two class tables that are accepted. In the first one entry objects have a field, in the second
    one lists have a third field. In both cases a program fails to read this field, which is
    declared, of an object of the heap. -/
theorem objects_are_not_initialised :
    let entries : ClassTable := .ofList [(entryClass, ⟨["x"], ∅⟩)]
    let lists : ClassTable := .ofList [(listClass, ⟨["content", "next", "mark"], ∅⟩)]
    let entry : Ref := ⟨"obj1", entryClass⟩
    let node : Ref := ⟨"obj2", listClass⟩
    let asking : Stmt := .query (.var "r") (.lit (.string "q")) []
    let m₁ := (Machine.new entries ∅ 0).operateAll (some oneAnswer) [.start (.print (.own "x"))]
    let m₂ := (Machine.new lists ∅ 0).operateAll (some oneAnswer)
      [.start (.seq asking (.print (.field (.var "r") "mark"))), .step (), .step ()]
    (ClassTable.ofDecls [⟨entryClass, ["x"], []⟩] = .ok entries ∧
      ¬ m₁.heap.AllObjects (Ref.Initialised entries) ∧
      entries.hasField entry.cls "x" = true ∧ m₁.heap.contains (.object entry) = true ∧
      (m₁.step (some oneAnswer) ()).outcome.fault?.bind StepFault.category? = some .unknownField) ∧
    (ClassTable.ofDecls [⟨listClass, ["content", "next", "mark"], []⟩] = .ok lists ∧
      ¬ m₂.heap.AllObjects (Ref.Initialised lists) ∧
      lists.hasField node.cls "mark" = true ∧ m₂.heap.contains (.object node) = true ∧
      (m₂.step (some oneAnswer) ()).outcome.fault?.bind StepFault.category? =
        some .unknownField) := by
  intro entries lists entry node asking m₁ m₂
  have hentry : m₁.heap.objects.get? entry = some ∅ := by decide
  have hnode : m₂.heap.objects.get? node =
      some (.ofList [("content", .integer "1"), ("next", .null)]) := by decide
  refine ⟨⟨rfl, fun h => ?_, by decide, by decide, by decide⟩,
    rfl, fun h => ?_, by decide, by decide, by decide⟩
  · exact absurd (h entry _ hentry "x" (by decide)) (by decide)
  · exact absurd (h node _ hnode "mark" (by decide)) (by decide)

end ObjectMachine
