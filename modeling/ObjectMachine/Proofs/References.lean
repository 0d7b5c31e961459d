import ObjectMachine.Proofs.Values

namespace ObjectMachine

/-!
# References

A program without references in its text gets hold of objects only by creating them or by asking
a knowledge base, and no object ever leaves the heap. So no reference is ever left dangling:

* `Heap.Holds` — a value is no reference, or refers to an object of the heap;
* `Stmt.RefFree`, `ClassTable.RefFree` — programs without references in their text;
* `Machine.NoDangling` — every reference in a machine leads to an object;
* `Stmt.Blames` — the value an unknown object is reported for;
* `no_dangling_references` — the invariant, and what it leaves of the fault `unknownObject`.
-/

/-- The value is no reference, or refers to an object of the heap. -/
def Heap.Holds (h : Heap) (v : Value) : Prop :=
  v.isObject = true → h.contains v = true

/-- What is not on the heap although the heap holds it is no reference. -/
theorem Heap.Holds.isObject_eq_false {h : Heap} {v : Value} (hv : h.Holds v)
    (hmissing : h.contains v = false) : v.isObject = false := by
  cases hobj : v.isObject with
  | false => rfl
  | true =>
    have hon := hv hobj
    rw [hmissing] at hon
    exact absurd hon (by simp)

theorem Heap.holds_of_not_isObject {h : Heap} {v : Value} (hv : v.isObject = false) :
    h.Holds v := by
  intro hobj
  rw [hv] at hobj
  exact absurd hobj (by simp)

/-- New values refer to no object, or to one of the heap. -/
theorem admissible_holds : Admissible Heap.Holds where
  null _ := Heap.holds_of_not_isObject rfl
  boolean _ _ := Heap.holds_of_not_isObject rfl
  string _ _ := Heap.holds_of_not_isObject rfl
  integer _ _ _ := Heap.holds_of_not_isObject rfl
  object hv := fun _ => hv
  mono hg _ hv := fun hobj => hg _ (hv hobj)

/-! ### Programs without references -/

/-- No literal of the statement is a reference. -/
def Stmt.RefFree (s : Stmt) : Prop :=
  ∀ v ∈ s.literals, v.isObject = false

instance (s : Stmt) : Decidable s.RefFree :=
  inferInstanceAs (Decidable (∀ v ∈ s.literals, v.isObject = false))

/-- No literal in the methods of the classes is a reference. -/
def ClassTable.RefFree (classes : ClassTable) : Prop :=
  classes.AllLiterals fun v => v.isObject = false

instance (classes : ClassTable) : Decidable classes.RefFree :=
  inferInstanceAs (Decidable (classes.All fun info =>
    info.methods.All fun m => ∀ v ∈ m.body.literals, v.isObject = false))

/-- What can be done to a machine by running programs without references: starting one, stepping
    and forking. -/
def Operation.RefFree {σ : Type} : Operation σ → Prop
  | .start main => main.RefFree
  | .push _ _ _ => False
  | .step _ | .fork => True

instance {σ : Type} (op : Operation σ) : Decidable op.RefFree :=
  match op with
  | .start main => inferInstanceAs (Decidable main.RefFree)
  | .push _ _ _ => isFalse id
  | .step _ | .fork => isTrue trivial

/-! ### The invariant -/

namespace Machine

variable {σ : Type} {kb : Option (KnowledgeBase σ)}

/-- Every reference in a machine leads to an object of its heap: owners, variables, the literals
    of what is left to run, and fields. -/
structure NoDangling (m : Machine) : Prop where
  owners : ∀ f ∈ m.stack, m.heap.contains f.owner = true
  locals : ∀ f ∈ m.stack, f.locals.All m.heap.Holds
  literals : ∀ f ∈ m.stack, ∀ v ∈ f.stmt.literals, m.heap.Holds v
  fields : m.heap.objects.All (SortedMap.All m.heap.Holds)

/-- The invariant as it is carried along: with the literals of the methods that may be called. -/
def Grounded (m : Machine) : Prop :=
  m.Owned ∧ m.AllValues Heap.Holds

theorem Grounded.noDangling {m : Machine} (h : m.Grounded) : m.NoDangling where
  owners := h.1
  locals f hf := (h.2.frames f hf).locals
  literals f hf := (h.2.frames f hf).literals
  fields := h.2.fields

theorem grounded_new {classes : ClassTable} (hclasses : classes.RefFree) (maxSteps : Nat) :
    (new classes ∅ maxSteps).Grounded := by
  refine ⟨fun f hf => absurd hf List.not_mem_nil, fun f hf => absurd hf List.not_mem_nil,
    .empty, ?_⟩
  exact hclasses.imp fun v hv => Heap.holds_of_not_isObject hv

theorem Grounded.operate {m : Machine} (h : m.Grounded) {op : Operation σ} (hop : op.RefFree) :
    (m.operate kb op).Grounded := by
  refine ⟨h.1.operate op, ?_⟩
  cases op with
  | start main =>
    rw [Machine.operate]
    split
    · rename_i f m' hstart
      exact h.2.start admissible_holds (fun v hv => Heap.holds_of_not_isObject (hop v hv)) hstart
    · exact h.2
  | push stmt owner locals => exact absurd hop id
  | step s => exact h.2.step admissible_holds s
  | fork => exact h.2.fork

end Machine

/-! ### Unknown objects -/

/-- The value that an unknown object is reported for when the statement `s` fails: the base of a
    field that is read or written, or the callee of a call. -/
inductive Stmt.Blames (sc : Scope) (s : Stmt) : Fault → Value → Prop where
  | read {e base : Expr} {name : String} {v : Value} (he : e ∈ s.exprs)
      (hin : Expr.Within (.field base name) e) (hv : base.eval sc = .ok v) :
      Blames sc s (.danglingBase v (.field base name)) v
  | write {base value : Expr} {name : String} {v : Value}
      (hs : s = .assign (.field base name) value) (hv : base.eval sc = .ok v) :
      Blames sc s (.unknownObject v) v
  | callee {target : Option Location} {callee : Expr} {name : String} {args : List Expr}
      {v : Value} (hs : s = .call target callee name args) (hv : callee.eval sc = .ok v) :
      Blames sc s (.notCallable name v) v
  | missingCallee {target : Option Location} {callee : Expr} {name : String} {args : List Expr}
      {v : Value} (hs : s = .call target callee name args) (hv : callee.eval sc = .ok v) :
      Blames sc s (.unknownObject v) v

theorem Machine.AskFault.category {fault : Fault} (h : AskFault fault) :
    fault.category? ≠ some .unknownObject := by
  have hcause : ∀ cause : KnowledgeFault, cause.category? ≠ some .unknownObject :=
    KnowledgeFault.category?_ne (by simp)
  cases h with
  | noKnowledgeBase => simp [Fault.category?]
  | noListClass => simp [Fault.category?]
  | dump cause => exact hcause cause
  | knowledge cause => exact hcause cause

/-- An unknown object is reported for a value that is not on the heap. -/
theorem Stmt.Refuses.blames {classes : ClassTable} {sc : Scope} {caller : Caller} {s : Stmt}
    {fault : Fault} (h : s.Refuses classes sc caller fault)
    (howner : sc.heap.contains sc.owner = true) (hcat : fault.category? = some .unknownObject) :
    ∃ v, s.Blames sc fault v ∧ sc.heap.contains v = false := by
  have hno : sc.heap.contains sc.owner ≠ false := by simp [howner]
  cases h
  case eval e hmem he =>
    cases Expr.evalFault_of_eval he
    case owner hmissing => exact absurd hmissing hno
    case base base name v hin hb hv => exact ⟨v, .read hmem hin hb, hv⟩
    all_goals simp [Fault.category?] at hcat
  case ownMissing hmissing => exact absurd hmissing hno
  case baseMissing b hb hmissing => exact ⟨b, .write rfl hb, hmissing⟩
  case notCallable v hc hv =>
    -- the keys of a heap are references
    refine ⟨v, .callee rfl hc, ?_⟩
    cases v <;> simp_all [Value.isObject, Heap.contains, Heap.lookup]
  case calleeMissing v hc hv => exact ⟨v, .missingCallee rfl hc, hv⟩
  all_goals simp [Fault.category?] at hcat

/-- The value that is blamed is the value of an expression of the statement, so the heap holds
    it if it holds everything the statement can see. -/
theorem Stmt.Blames.holds {sc : Scope} {s : Stmt} {fault : Fault} {v : Value}
    (h : s.Blames sc fault v) (hlocals : sc.locals.All sc.heap.Holds)
    (hfields : sc.heap.AllFields Heap.Holds) (hlit : ∀ w ∈ s.literals, sc.heap.Holds w) :
    sc.heap.Holds v := by
  have heval : ∀ {e : Expr}, e.eval sc = .ok v → (∀ w ∈ e.literals, w ∈ s.literals) →
      sc.heap.Holds v := fun he hsub =>
    Expr.admits_of_eval admissible_holds hlocals hfields (fun w hw => hlit w (hsub w hw)) he
  cases h with
  | @read e base name _ hmem hin hv =>
    refine heval hv fun w hw => mem_literals_of_exprs hmem (hin.literals ?_)
    simpa [Expr.literals] using hw
  | write hs hv =>
    subst hs
    exact heval hv fun w hw => mem_literals_of_exprs (by simp [exprs, Location.exprs]) hw
  | callee hs hv =>
    subst hs
    exact heval hv fun w hw => mem_literals_of_exprs (by simp [exprs]) hw
  | missingCallee hs hv =>
    subst hs
    exact heval hv fun w hw => mem_literals_of_exprs (by simp [exprs]) hw

/-- However the next step fails, an unknown object is reported only for a callee or for the base
    of a field access that is no reference. -/
def Machine.BlamesNoReference {σ : Type} (kb : Option (KnowledgeBase σ)) (m : Machine) : Prop :=
  ∀ s fault, (m.step kb s).outcome = .failed fault → fault.category? = some .unknownObject →
    ∃ f below cause v, m.stack = f :: below ∧ fault = .frame f.id cause ∧
      f.stmt.head.Blames (m.scopeOf f) cause v ∧ v.isObject = false

/-- In a machine without dangling references only what is no reference can be an unknown
    object. -/
theorem Machine.NoDangling.blamesNoReference {σ : Type} {m : Machine} (h : m.NoDangling)
    (kb : Option (KnowledgeBase σ)) : m.BlamesNoReference kb := by
  intro s fault hstep hcat
  cases fault with
  | limit => exact absurd hcat (by simp [StepFault.category?])
  | frame id cause =>
    obtain ⟨f, below, s', hm, rfl, he⟩ := effectOf_of_failed hstep
    have hf : f ∈ m.stack := hm ▸ List.mem_cons_self
    have howner : m.heap.contains f.owner = true := h.owners f hf
    rcases effectOf_eq_error he with ⟨hmissing, -⟩ | hrefuses | hask
    · rw [howner] at hmissing
      exact absurd hmissing (by simp)
    · obtain ⟨v, hblames, hmissing⟩ := hrefuses.blames howner hcat
      have hlit : ∀ w ∈ f.stmt.head.literals, m.heap.Holds w :=
        fun w hw => h.literals f hf w (Stmt.mem_literals_head_tail.2 (.inl hw))
      have hholds : m.heap.Holds v := hblames.holds (h.locals f hf) h.fields hlit
      exact ⟨f, below, cause, v, hm, rfl, hblames, hholds.isObject_eq_false hmissing⟩
    · exact absurd hcat hask.category

/-- However programs without references in their text are started, stepped and forked on the
    empty heap, every reference leads to an object of the heap, and an unknown object is reported
    only for a callee or the base of a field access that is no reference. -/
theorem no_dangling_references {σ : Type} (kb : Option (KnowledgeBase σ)) {classes : ClassTable}
    (hclasses : classes.RefFree) (maxSteps : Nat) {ops : List (Operation σ)}
    (hops : ∀ op ∈ ops, op.RefFree) :
    let m := (Machine.new classes ∅ maxSteps).operateAll kb ops
    m.NoDangling ∧ m.BlamesNoReference kb := by
  intro m
  have hm : m.Grounded :=
    Machine.operateAll_preserves Operation.RefFree (fun m op hm hop => hm.operate hop)
      (Machine.grounded_new hclasses maxSteps) hops
  exact ⟨hm.noDangling, hm.noDangling.blamesNoReference kb⟩

/-- A node is linked to itself by the result of a call, and then a method of null is called. -/
theorem no_dangling_references_of_linked_node :
    let classes : ClassTable :=
      ⟨[("Node", ⟨["next"], ⟨[("self", ⟨[], .ret (.var "this")⟩)], List.pairwise_singleton ..⟩⟩)],
        List.pairwise_singleton ..⟩
    let main : Stmt := .block
      [.create (.var "x") "Node" [.lit .null],
        .call (some (.field (.var "x") "next")) (.var "x") "self" [],
        .call none (.lit .null) "self" []]
    let kb : Option (KnowledgeBase Unit) := none
    let ops : List (Operation Unit) := .start main :: List.replicate 5 (.step ())
    let m := (Machine.new classes ∅ 0).operateAll kb ops
    classes.RefFree ∧ (∀ op ∈ ops, op.RefFree) ∧ m.NoDangling ∧ m.BlamesNoReference kb := by
  intro classes main kb ops m
  have hclasses : classes.RefFree := by decide
  have hops : ∀ op ∈ ops, op.RefFree := by decide
  exact ⟨hclasses, hops, no_dangling_references kb hclasses 0 hops⟩

end ObjectMachine
