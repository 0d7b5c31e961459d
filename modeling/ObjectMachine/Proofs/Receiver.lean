import ObjectMachine.Proofs.Values

namespace ObjectMachine

/-!
# The variable `this`

A frame runs on behalf of its owner, and its variable `this` starts out as the owner. But `this` is
a variable like every other one: a program can assign to it, and a method can have a parameter of
that name. This file says when `this` goes on naming the owner:

* `Frame.BindsThis`, `Machine.BindsThis` — the variable `this` names the owner;
* `Frame.BindsThis.eval_field` — then fields of `this` are fields of the owner;
* `Machine.RebindsThis` — the steps after which it names something else;
* `Machine.bindsThis_step_iff` — no other step has this consequence;
* `Stmt.assigned`, `Machine.ReservesThis` — programs that never give `this` a value of their own;
* `this_names_the_owner` — `this` names the owner as long as no step rebinds it, which those
  programs never do;
* `this_names_another_object` — other programs do.
-/

/-! ### Frames whose variable `this` names the owner -/

/-- The variable `this` of a frame names its owner. -/
def Frame.BindsThis (f : Frame) : Prop :=
  f.locals.get? "this" = some f.owner

/-- The variable `this` of every scheduled frame names its owner. -/
def Machine.BindsThis (m : Machine) : Prop :=
  ∀ f ∈ m.stack, f.BindsThis

instance (m : Machine) : Decidable m.BindsThis :=
  inferInstanceAs (Decidable (∀ f ∈ m.stack, f.locals.get? "this" = some f.owner))

/-- If `this` names the owner, reading a field of `this` is reading a field of the owner, also where
    it fails. -/
theorem Frame.BindsThis.eval_field {f : Frame} (h : f.BindsThis) (m : Machine) (name : String) :
    (Expr.field (.var "this") name).eval (m.scopeOf f) = (Expr.own name).eval (m.scopeOf f) := by
  have hthis : (m.scopeOf f).locals.get? "this" = some (m.scopeOf f).owner := h
  unfold Expr.eval
  split
  · rfl
  · rename_i own hown
    simp [Expr.evalWith, hthis, hown, bind, Except.bind]

/-! ### Steps that rebind `this` -/

/-- An effect of the frame `f` after which the variable `this` of a scheduled frame names something
    else than its owner: the frame goes on with another value, or the variables of a method start
    with one. -/
def Effect.RebindsThis (f : Frame) : Effect → Prop
  | .setLocal name v => name = "this" ∧ v ≠ f.owner ∧ f.stmt.tail?.isSome = true
  | .invoke _ callee _ locals => locals.get? "this" ≠ some (.object callee)
  | _ => False

namespace Machine

variable {σ : Type} {kb : Option (KnowledgeBase σ)}

/-- The next step rebinds `this`. Whether it does has nothing to do with a knowledge base. -/
structure RebindsThis (m : Machine) (f : Frame) (below : List Frame) (e : Effect) : Prop where
  stack : m.stack = f :: below
  limit : m.limitReached = false
  owner : m.heap.contains f.owner = true
  wants : f.stmt.head.Wants m.classes (m.scopeOf f) (f.callerIn below) (.act e)
  rebinds : e.RebindsThis f

/-- Carrying out an effect that does not rebind `this` leaves it as the name of the owner. -/
theorem BindsThis.perform {m : Machine} (h : m.BindsThis) {f : Frame} {below : List Frame}
    (hm : m.stack = f :: below) {s s' : σ} {e : Effect} (he : Enacts kb m f below s e s')
    (hno : ¬ e.RebindsThis f) : ((m.running below).perform f f.stmt.tail? e).BindsThis := by
  have hf : f.BindsThis := h f (hm ▸ List.mem_cons_self)
  have hbelow : ∀ g ∈ below, g.BindsThis := fun g hg => h g (hm ▸ List.mem_cons_of_mem f hg)
  intro k hk
  cases mem_perform hk with
  | kept hk => exact hbelow k hk
  | running hr hl hs =>
    show k.locals.get? "this" = some k.owner
    rw [hr.owner, hl]
    cases e with
    | setLocal name v =>
      show (f.locals.insert name v).get? "this" = some f.owner
      by_cases hname : "this" = name
      · -- the frame goes on, so it goes on with the owner
        have hs' : f.stmt.tail? = some k.stmt := hs
        have hv : v = f.owner := by
          refine Classical.not_not.1 fun hv => hno ⟨hname.symm, hv, ?_⟩
          rw [hs']
          rfl
        rw [← hname, SortedMap.get?_insert_self, hv]
      · rw [SortedMap.get?_insert_of_ne _ hname]
        exact hf
    | _ => exact hf
  | spawned ho hl hs =>
    show k.locals.get? "this" = some k.owner
    rw [ho, hl]
    exact Classical.not_not.1 hno
  | @resumed g _ _ hr hl hs =>
    have hg : g ∈ below := Frame.mem_of_callerIn he.callerIn_of_resume
    show k.locals.get? "this" = some k.owner
    rw [hr.owner, hl]
    exact hbelow g hg

/-- Carrying out an effect that rebinds `this` leaves a frame on top whose `this` is not its
    owner. -/
theorem not_bindsThis_perform {m : Machine} {f : Frame} {e : Effect} (he : e.RebindsThis f) :
    ¬ (m.perform f f.stmt.tail? e).BindsThis := by
  intro h
  cases e with
  | setLocal name v =>
    obtain ⟨rfl, hv, htail⟩ := he
    obtain ⟨rest, hrest⟩ := Option.isSome_iff_exists.1 htail
    rw [hrest] at h
    have htop : (f.locals.insert "this" v).get? "this" = some f.owner :=
      h { f with key := m.lastKey + 1, stmt := rest, locals := f.locals.insert "this" v }
        List.mem_cons_self
    rw [SortedMap.get?_insert_self] at htop
    exact hv (Option.some.inj htop)
  | invoke target callee body locals =>
    have htop : locals.get? "this" = some (.object callee) := h _ List.mem_cons_self
    exact he htop
  | _ => exact he

/-- As long as `this` names the owner, a step leaves it so exactly if it does not rebind it. -/
theorem bindsThis_step_iff {m : Machine} (h : m.BindsThis) (s : σ) :
    (m.step kb s).machine.BindsThis ↔ ∀ f below e, ¬ m.RebindsThis f below e := by
  constructor
  · intro hstep f below e hr
    have heffect : m.effectOf kb f below s = (.ok e, s) := effectOf_of_wants hr.owner hr.wants s
    rw [step_eq hr.stack hr.limit, heffect] at hstep
    exact not_bindsThis_perform hr.rebinds hstep
  · intro hno
    cases hm : m.stack with
    | nil =>
      rw [step_nil hm]
      exact h
    | cons f below =>
      by_cases hl : m.limitReached = true
      · rw [step_of_limitReached hm hl]
        exact h
      · have hl' : m.limitReached = false := by simpa using hl
        rw [step_eq hm hl']
        cases heffect : m.effectOf kb f below s with
        | mk result s' =>
          cases result with
          | error fault => exact fun k hk => h k (hm ▸ List.mem_cons_of_mem f hk)
          | ok e =>
            obtain ⟨howner, henacts⟩ := enacts_of_effectOf heffect
            refine h.perform hm henacts fun hr => ?_
            cases henacts with
            | act hw => exact hno f below e ⟨hm, hl', howner, hw, hr⟩
            | ask => exact hr

/-- What is scheduled has its variable `this` bound last, so no variable that is given replaces
    it. -/
theorem BindsThis.cons {m : Machine} (h : m.BindsThis) {f : Frame} {locals : Memory}
    (hf : f.locals = locals.insert "this" f.owner) : ∀ k ∈ f :: m.stack, k.BindsThis := by
  intro k hk
  rcases List.mem_cons.1 hk with rfl | hk
  · show k.locals.get? "this" = some k.owner
    rw [hf, SortedMap.get?_insert_self]
  · exact h k hk

/-- Operations other than a step never rebind `this`. -/
theorem BindsThis.operate {m : Machine} (h : m.BindsThis) {op : Operation σ}
    (hop : ∀ s, op = .step s → ∀ f below e, ¬ m.RebindsThis f below e) :
    (m.operate kb op).BindsThis := by
  cases op with
  | start main =>
    rw [Machine.operate, m.start_eq main]
    exact h.cons rfl
  | push stmt owner locals =>
    rcases m.operate_push_cases stmt owner locals with hpush | ⟨-, hpush⟩
    · rw [hpush]
      exact h
    · rw [hpush]
      exact h.cons rfl
  | step s => exact (bindsThis_step_iff h s).2 (hop s rfl)
  | fork => exact fun k hk => absurd hk List.not_mem_nil

/-- If no step rebinds `this`, it names the owner in the end. -/
theorem BindsThis.operateAll {m : Machine} (h : m.BindsThis) {ops : List (Operation σ)}
    (hops : ∀ before s after, ops = before ++ .step s :: after →
      ∀ f below e, ¬ (m.operateAll kb before).RebindsThis f below e) :
    (m.operateAll kb ops).BindsThis := by
  induction ops generalizing m with
  | nil => exact h
  | cons op ops ih =>
    have hfirst : (m.operate kb op).BindsThis := by
      refine h.operate fun s hs => ?_
      exact hops [] s ops (by rw [hs]; rfl)
    refine ih hfirst fun before s after hsplit => ?_
    exact hops (op :: before) s after (by rw [hsplit]; rfl)

end Machine

/-! ### Programs that leave `this` alone -/

/-- The variable that a location is, if it is one. -/
def Location.assigned : Location → List String
  | .var name => [name]
  | .own _ | .field _ _ => []

/-- The variable that a location is, if there is one. -/
def Location.assignedOf : Option Location → List String
  | none => []
  | some l => l.assigned

/-- The variables that a statement assigns to, those of its parts included. -/
def Stmt.assigned : Stmt → List String
  | .skip | .breakpoint | .print _ | .ret _ => []
  | .assign target _ | .create target _ _ | .query target _ _ | .derive target _ => target.assigned
  | .call target _ _ _ | .storeReturn target => Location.assignedOf target
  | .cond _ onTrue onFalse => onTrue.assigned ++ onFalse.assigned
  | .loop _ body => body.assigned
  | .seq first second => first.assigned ++ second.assigned

/-- The variables that what may be left to run assigns to. -/
def Stmt.assignedOf : Option Stmt → List String
  | none => []
  | some s => s.assigned

namespace Stmt

theorem mem_assigned_append {s next : Stmt} {x : String} :
    x ∈ (s.append next).assigned ↔ x ∈ s.assigned ∨ x ∈ next.assigned := by
  induction s with
  | seq first second _ ih => simp [append, assigned, ih, or_assoc]
  | _ => simp [append, assigned, or_assoc]

theorem mem_assigned_andThen {s : Stmt} {rest : Option Stmt} {x : String} :
    x ∈ (s.andThen rest).assigned ↔ x ∈ s.assigned ∨ x ∈ assignedOf rest := by
  cases rest <;> simp [andThen, assignedOf, mem_assigned_append]

theorem mem_assigned_before {rest : Option Stmt} {next : Stmt} {x : String} :
    x ∈ (before rest next).assigned ↔ x ∈ assignedOf rest ∨ x ∈ next.assigned := by
  cases rest <;> simp [before, assignedOf, mem_assigned_append]

theorem mem_assigned_head_tail {s : Stmt} {x : String} :
    x ∈ s.assigned ↔ x ∈ s.head.assigned ∨ x ∈ assignedOf s.tail? := by
  induction s with
  | seq first second ih _ =>
    simp only [assigned, head, tail?, assignedOf, List.mem_append, mem_assigned_before, ih,
      or_assoc]
  | _ => simp [head, tail?, assignedOf]

/-- A suspended statement goes on with an assignment to where it wanted the result. -/
theorem mem_assigned_received {s : Stmt} {target : Option Location} {rest : Option Stmt}
    (h : s.awaiting? = some (target, rest)) {v : Value} {x : String}
    (hx : x ∈ assignedOf (received target rest v)) : x ∈ s.assigned := by
  rcases eq_of_awaiting? h with ⟨rfl, rfl⟩ | ⟨next, rfl, rfl⟩
  · cases target <;> simp_all [received, assignedOf, assigned, Location.assignedOf]
  · cases target <;> simp_all [received, assignedOf, assigned, Location.assignedOf]

end Stmt

/-- No method of a class table has a parameter called `this` or assigns to `this`. -/
def ClassTable.ReservesThis (classes : ClassTable) : Prop :=
  classes.All fun info => info.methods.All fun m => "this" ∉ m.params ∧ "this" ∉ m.body.assigned

instance (classes : ClassTable) : Decidable classes.ReservesThis :=
  inferInstanceAs (Decidable (SortedMap.All (fun info => SortedMap.All (fun m : Method =>
    "this" ∉ m.params ∧ "this" ∉ m.body.assigned) info.methods) classes))

/-- Programs that are started or scheduled do not assign to `this`. -/
def Operation.LeavesThis {σ : Type} : Operation σ → Prop
  | .start main => "this" ∉ main.assigned
  | .push stmt _ _ => "this" ∉ stmt.assigned
  | .step _ | .fork => True

namespace Machine

variable {σ : Type} {kb : Option (KnowledgeBase σ)}

/-- Nothing that a machine has left to run, or can call, gives `this` a value of its own. -/
structure ReservesThis (m : Machine) : Prop where
  frames : ∀ f ∈ m.stack, "this" ∉ f.stmt.assigned
  methods : m.classes.ReservesThis

/-- What the running frame goes on with assigns to the variables that its head and what comes after
    it assign to. -/
theorem Enacts.mem_assigned_next {m : Machine} {f : Frame} {below : List Frame} {s s' : σ}
    {e : Effect} (he : Enacts kb m f below s e s') {x : String}
    (hx : x ∈ Stmt.assignedOf (e.next m.heap f.stmt.tail?)) : x ∈ f.stmt.assigned := by
  rw [Stmt.mem_assigned_head_tail]
  cases he with
  | ask hw =>
    have hx' := Stmt.mem_assigned_andThen.1 hx
    generalize f.stmt.head = a at hw
    cases hw <;> exact hx'
  | act hw =>
    generalize f.stmt.head = a at hw
    cases hw with
    | loop =>
      -- a loop that is unrolled has its body once more
      rcases Stmt.mem_assigned_andThen.1 hx with hx | hx
      · left
        simpa [Stmt.assigned, Stmt.mem_assigned_append] using hx
      · exact .inr hx
    | onTrue =>
      rcases Stmt.mem_assigned_andThen.1 hx with hx | hx
      · exact .inl (List.mem_append_left _ hx)
      · exact .inr hx
    | onFalse =>
      rcases Stmt.mem_assigned_andThen.1 hx with hx | hx
      · exact .inl (List.mem_append_right _ hx)
      · exact .inr hx
    | call =>
      have hx' := Stmt.mem_assigned_andThen.1 hx
      exact hx'
    | create =>
      have hx' := Stmt.mem_assigned_andThen.1 hx
      exact hx'
    | ret => exact absurd hx List.not_mem_nil
    | _ => exact .inr hx

/-- A step leaves `this` alone if all programs do. -/
theorem ReservesThis.step {m : Machine} (h : m.ReservesThis) (s : σ) :
    (m.step kb s).machine.ReservesThis := by
  refine ⟨fun k hk => ?_, by rw [step_classes]; exact h.methods⟩
  rcases step_cases kb m s with hstep | ⟨f, below, hm, hstep | ⟨e, s', -, henacts, hstep⟩⟩
  · rw [hstep] at hk
    exact h.frames k hk
  · rw [hstep] at hk
    exact h.frames k (hm ▸ List.mem_cons_of_mem f hk)
  · rw [hstep] at hk
    have hf : "this" ∉ f.stmt.assigned := h.frames f (hm ▸ List.mem_cons_self)
    cases mem_perform hk with
    | kept hk => exact h.frames k (hm ▸ List.mem_cons_of_mem f hk)
    | running hr hl hs =>
      intro hx
      refine hf (henacts.mem_assigned_next ?_)
      rw [show e.next m.heap f.stmt.tail? = some k.stmt from hs]
      exact hx
    | spawned ho hl hs =>
      rw [hs]
      cases henacts with
      | act hw =>
        generalize f.stmt.head = a at hw
        cases hw with
        | call _ _ hmethod => exact (ClassTable.all_of_method h.methods hmethod).2
    | @resumed g _ s hr hl hs =>
      rw [hs]
      have hg : g ∈ below := Frame.mem_of_callerIn henacts.callerIn_of_resume
      have hwaiting : "this" ∉ g.stmt.assigned := h.frames g (hm ▸ List.mem_cons_of_mem f hg)
      -- the caller goes on with an assignment to where it wanted the result, and what came after
      intro hx
      have hx' : "this" ∈ Stmt.assignedOf (some s) := hx
      cases henacts with
      | act hw =>
        generalize f.stmt.head = a, some s = rest at hw hx'
        cases hw with
        | ret _ hawaiting => exact hwaiting (Stmt.mem_assigned_received hawaiting hx')

theorem ReservesThis.operate {m : Machine} (h : m.ReservesThis) {op : Operation σ}
    (hop : op.LeavesThis) : (m.operate kb op).ReservesThis := by
  cases op with
  | start main =>
    rw [Machine.operate, m.start_eq main]
    refine ⟨fun k hk => ?_, h.methods⟩
    rcases List.mem_cons.1 hk with rfl | hk
    · exact hop
    · exact h.frames k hk
  | push stmt owner locals =>
    rcases m.operate_push_cases stmt owner locals with hpush | ⟨-, hpush⟩
    · rw [hpush]
      exact h
    · rw [hpush]
      refine ⟨fun k hk => ?_, h.methods⟩
      rcases List.mem_cons.1 hk with rfl | hk
      · exact hop
      · exact h.frames k hk
  | step s => exact h.step s
  | fork => exact ⟨fun k hk => absurd hk List.not_mem_nil, h.methods⟩

/-- What leaves `this` alone does not rebind it. -/
theorem ReservesThis.not_rebindsThis {m : Machine} (h : m.ReservesThis) {f : Frame}
    {below : List Frame} {e : Effect} : ¬ m.RebindsThis f below e := by
  intro hr
  obtain ⟨hm, -, -, hw, hrebinds⟩ := hr
  have hhead : "this" ∉ f.stmt.head.assigned := fun hx =>
    h.frames f (hm ▸ List.mem_cons_self) (Stmt.mem_assigned_head_tail.2 (.inl hx))
  generalize f.stmt.head = a at hw hhead
  cases hw with
  | setVar =>
    obtain ⟨rfl, -⟩ := hrebinds
    exact hhead List.mem_cons_self
  | @call _ _ _ _ r method vs _ _ hmethod =>
    -- `this` is bound first, so only a parameter of that name could replace it
    have hparams : "this" ∉ (method.params.zip vs).map Prod.fst := by
      intro hx
      obtain ⟨p, hp, hthis⟩ := List.mem_map.1 hx
      exact (ClassTable.all_of_method h.methods hmethod).1 (hthis ▸ (List.of_mem_zip hp).1)
    exact hrebinds (SortedMap.get?_ofList_cons hparams)
  | _ => exact hrebinds

end Machine

/-- Operations are performed in any order on a machine that starts with an empty heap.

    * The variable `this` names the owner in every frame of every state exactly if no step rebinds
      it: by assigning something else to `this` in a frame that goes on, or by calling a method with
      a parameter `this` for which something else is given.
    * No step does so if no program assigns to `this` and no method has such a parameter.
    * Where `this` names the owner, fields of `this` are fields of the owner. -/
theorem this_names_the_owner {σ : Type} (kb : Option (KnowledgeBase σ)) (classes : ClassTable)
    (maxSteps : Nat) (ops : List (Operation σ)) :
    let after (before : List (Operation σ)) : Machine :=
      (Machine.new classes ∅ maxSteps).operateAll kb before
    ((∀ before later, ops = before ++ later → (after before).BindsThis) ↔
      ∀ before s later, ops = before ++ .step s :: later →
        ∀ f below e, ¬ (after before).RebindsThis f below e) ∧
    (classes.ReservesThis → (∀ op ∈ ops, op.LeavesThis) →
      ∀ before later, ops = before ++ later → (after before).BindsThis) ∧
    ∀ (m : Machine) (f : Frame), f.BindsThis → ∀ name,
      (Expr.field (.var "this") name).eval (m.scopeOf f) =
        (Expr.own name).eval (m.scopeOf f) := by
  intro after
  have hnew : (Machine.new classes ∅ maxSteps).BindsThis := fun f hf => absurd hf List.not_mem_nil
  have hiff : (∀ before later, ops = before ++ later → (after before).BindsThis) ↔
      ∀ before s later, ops = before ++ .step s :: later →
        ∀ f below e, ¬ (after before).RebindsThis f below e := by
    constructor
    · intro hall before s later hsplit
      have hbefore : (after before).BindsThis := hall before (.step s :: later) hsplit
      have hafter : ((after before).step kb s).machine.BindsThis := by
        have hnext := hall (before ++ [.step s]) later (by rw [hsplit]; simp)
        simpa [after, Machine.operateAll, Machine.operate] using hnext
      exact (Machine.bindsThis_step_iff hbefore s).1 hafter
    · intro hno before later hsplit
      refine hnew.operateAll fun start s rest hstart => ?_
      exact hno start s (rest ++ later) (by rw [hsplit, hstart]; simp)
  refine ⟨hiff, fun hclasses hops => hiff.2 fun before s later hsplit f below e => ?_,
    fun m f hf name => hf.eval_field m name⟩
  have hreserves : (after before).ReservesThis :=
    Machine.operateAll_preserves Operation.LeavesThis (fun _ _ h hop => h.operate hop)
      ⟨fun f hf => absurd hf List.not_mem_nil, hclasses⟩
      fun op hop => hops op (hsplit ▸ List.mem_append_left _ hop)
  exact hreserves.not_rebindsThis

/-- A method of an object with the field 1 copies its argument, an object with the field 2, to
    another variable and reads the field of `this`. Nothing here assigns to `this`, so it names the
    owner in every state, and the field is 1. -/
theorem this_names_the_owner_of_reserved :
    let field : Expr := .field (.var "this") "n"
    let classes : ClassTable := .ofList [("C", ⟨["n"], .ofList
      [("read", ⟨["p"], .seq (.assign (.var "q") (.var "p")) (.ret field)⟩)]⟩)]
    let main : Stmt := .block
      [.create (.var "x") "C" [.lit (.integer "1")], .create (.var "y") "C" [.lit (.integer "2")],
        .call (some (.var "z")) (.var "x") "read" [.var "y"]]
    let kb : Option (KnowledgeBase Unit) := none
    let ops : List (Operation Unit) := .start main :: List.replicate 6 (.step ())
    let after (before : List (Operation Unit)) : Machine :=
      (Machine.new classes ∅ 0).operateAll kb before
    classes.ReservesThis ∧ (∀ op ∈ ops, op.LeavesThis) ∧
      (∀ before later, ops = before ++ later → (after before).BindsThis) ∧
      (after ops).stack.length = 2 ∧
      (∀ f ∈ (after ops).stack,
        field.eval ((after ops).scopeOf f) = (Expr.own "n").eval ((after ops).scopeOf f)) ∧
      ((after ops).evalTop field).map Except.toOption = some (some (.integer "1")) := by
  intro field classes main kb ops after
  obtain ⟨-, hreserved, hfields⟩ := this_names_the_owner kb classes 0 ops
  have hclasses : classes.ReservesThis := by decide
  have hops : ∀ op ∈ ops, op.LeavesThis := by
    intro op hop
    rcases List.mem_cons.1 hop with rfl | hop
    · show "this" ∉ main.assigned
      decide
    · rw [List.eq_of_mem_replicate hop]
      trivial
  have hbinds := hreserved hclasses hops
  refine ⟨hclasses, hops, hbinds, by decide, fun f hf => ?_, by decide⟩
  exact hfields _ f (hbinds ops [] (List.append_nil ops).symm f hf) "n"
/-- An object `x` with the field 1 has a method that assigns its argument to `this`, and one whose
    parameter is called `this`. Both are called with an object `y` with the field 2. In both frames
    `this` names `y`, so the field of `this` is 2, and the field of the owner is 1. -/
theorem this_names_another_object :
    let field : Expr := .field (.var "this") "n"
    let classes : ClassTable := .ofList [("C", ⟨["n"], .ofList
      [("assigning", ⟨["p"], .seq (.assign (.var "this") (.var "p")) (.ret field)⟩),
        ("taking", ⟨["this"], .ret field⟩)]⟩)]
    let main (method : String) : Stmt := .block
      [.create (.var "x") "C" [.lit (.integer "1")], .create (.var "y") "C" [.lit (.integer "2")],
        .call (some (.var "z")) (.var "x") method [.var "y"]]
    let after (method : String) (steps : Nat) : Machine :=
      (Machine.new classes ∅ 0).operateAll (none : Option (KnowledgeBase Unit))
        (.start (main method) :: List.replicate steps (.step ()))
    (after "assigning" 5).BindsThis ∧
    ∀ m ∈ [after "assigning" 6, after "taking" 5], ¬ m.BindsThis ∧
      (m.evalTop field).map Except.toOption = some (some (.integer "2")) ∧
      (m.evalTop (.own "n")).map Except.toOption = some (some (.integer "1")) := by
  intro field classes main after
  refine ⟨by decide, fun m hm => ?_⟩
  rcases List.mem_cons.1 hm with rfl | hm
  · exact ⟨by decide, by decide, by decide⟩
  · obtain rfl := List.mem_singleton.1 hm
    exact ⟨by decide, by decide, by decide⟩

end ObjectMachine
