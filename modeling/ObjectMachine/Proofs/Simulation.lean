import ObjectMachine.Proofs.Activations

namespace ObjectMachine

/-!
# The machine runs what statements mean

`Stmt.run` says what a statement does by recursion on it; the machine gets there one step at a
time, by rewriting what its frames have left to run. This file follows the recursion with the
machine: wherever an activation has the leaves of a statement in front of others, the machine
comes to where the meaning says it does, or goes on for as long as the meaning is cut short.

* `Machine.Plays`, `Machine.Mirrors` — the machine does what the meaning says;
* `Machine.Follows` — it does so for every statement;
* `Machine.Follows.runWith`, `Machine.follows_run` — the meaning of statements is followed;
* `machine_implements_meaning` — so a run halts exactly if the meaning of the main program is
  defined, with the same heap, variables, printed text, knowledge and fault.
-/

/-! ### Effects of the meaning -/

namespace Activation

variable {σ : Type} {classes : ClassTable} {a : Activation} {st : State σ}

theorem writeField_eq (v : Value) (name : String) (new : Value) :
    a.writeField classes st v name new =
      match ObjectMachine.writeField classes st.heap v name new with
      | .error fault => (st, a.fail fault)
      | .ok e => (st.after e, .completed) := by
  cases v
  case object r =>
    rw [writeField, ObjectMachine.writeField]
    cases st.heap.contains (.object r) with
    | false => rfl
    | true =>
      cases classes.hasField r.cls name with
      | false => rfl
      | true =>
        have hafter : st.after (.setField r name new) =
            { st with heap := st.heap.setField r name new } := st.after_of_silent rfl
        exact congrArg (·, Exit.completed) hafter.symm
  all_goals rfl

/-- Assigning a value is carrying out the effect of writing to the location. -/
theorem assign_eq (target : Location) (v : Value) :
    a.assign classes target v st =
      match target.write classes (a.scope st) v with
      | .error fault => (st, a.fail fault)
      | .ok e => (st.after e, .completed) := by
  cases target with
  | var name =>
    have hafter : st.after (.setLocal name v) =
        { st with locals := st.locals.insert name v } := st.after_of_silent rfl
    exact congrArg (·, Exit.completed) hafter.symm
  | own name => exact writeField_eq a.owner name v
  | field base name =>
    rw [assign, Location.write]
    cases base.eval (a.scope st) with
    | error fault => rfl
    | ok b => exact writeField_eq b name v

theorem callIntent_eq (target : Option Location) (callee : Expr) (name : String)
    (args : List Expr) :
    callIntent classes (a.scope st) target callee name args =
      a.invocation classes st callee name args >>= fun inv =>
        .ok (.invoke target inv.callee inv.body inv.locals) := by
  rw [callIntent, invocation]
  cases callee.eval (a.scope st) with
  | error fault => rfl
  | ok v =>
    cases v
    case object r =>
      show (if !st.heap.contains (.object r) then _ else _) =
        (if st.heap.contains (.object r) then _ else _) >>= _
      cases st.heap.contains (.object r) with
      | false => rfl
      | true =>
        cases classes.method r.cls name with
        | error fault => rfl
        | ok m =>
          by_cases hlen : m.params.length = args.length
          · cases Expr.evalAll (a.scope st) args <;>
              simp [hlen, bind, Except.bind, pure, Except.pure]
          · simp [hlen, bind, Except.bind]
    all_goals rfl

theorem createIntent_eq (target : Location) (cls : String) (args : List Expr) :
    createIntent classes (a.scope st) target cls args =
      a.newFields classes st cls args >>= fun fields => .ok (.create target cls fields) := by
  rw [createIntent, ClassTable.fields, newFields]
  cases classes.fields? cls with
  | none => rfl
  | some fields =>
    by_cases hlen : fields.length = args.length
    · cases Expr.evalAll (a.scope st) args <;>
        simp [hlen, bind, Except.bind, pure, Except.pure]
    · simp [hlen, bind, Except.bind]

end Activation

/-- Writing to a location stays in the frame and leaves what is to run after it. -/
theorem Location.stays_of_write {classes : ClassTable} {sc : Scope} {target : Location}
    {v : Value} {e : Effect} (h : target.write classes sc v = .ok e) :
    e.stays = true ∧ ∀ heap xs, e.leavesAfter heap xs = xs := by
  cases target with
  | var name =>
    obtain rfl := Except.ok.inj h
    exact ⟨rfl, fun _ _ => rfl⟩
  | own name =>
    obtain ⟨r, -, rfl⟩ := writable_of_writeField h
    exact ⟨rfl, fun _ _ => rfl⟩
  | field base name =>
    obtain ⟨b, -, h⟩ := bind_eq_ok.1 h
    obtain ⟨r, -, rfl⟩ := writable_of_writeField h
    exact ⟨rfl, fun _ _ => rfl⟩

namespace Machine

variable {σ : Type} {kb : Option (KnowledgeBase σ)} {classes : ClassTable} {m m₁ : Machine}
  {below : List Frame} {a : Activation} {st st₁ : State σ} {x : Stmt} {xs ks : List Stmt}
  {n d : Nat}

/-! ### Doing what the meaning says -/

/-- From `m` in the state `st` the machine does what the meaning of a statement says: it comes to
    have `ks` left to run, or gives a value to the caller on top of `below`, or stops with a fault
    and leaves the frames `below` where they are. -/
def Plays (classes : ClassTable) (kb : Option (KnowledgeBase σ)) (m : Machine)
    (below : List Frame) (a : Activation) (ks : List Stmt) (st : State σ) :
    State σ × Exit → Prop
  | (st', .completed) => ∃ n m', Leads kb n m st m' st' ∧ At classes m' below a st' ks
  | (st', .returned v) =>
    ∃ n m' g rest target next, Leads kb n m st m' st' ∧ below = g :: rest ∧
      g.stmt.awaiting? = some (target, next) ∧
      At classes m' rest g.activation { st' with locals := g.locals }
        (Stmt.leavesOf (Stmt.received target next v))
  | (st', .failed fault) =>
    ∃ n m', (∀ k, runFrom kb (n + k) m st.knowledge st.printed =
        ⟨m', st'.knowledge, st'.printed, some fault⟩) ∧
      m'.Agrees classes st' ∧ (∃ above, m'.stack = above ++ below) ∧
      m'.locals? a.id = some st'.locals

/-- The machine does what the meaning says, or goes on for `d` steps at least if that is cut
    short. -/
def Mirrors (classes : ClassTable) (kb : Option (KnowledgeBase σ)) (d : Nat) (m : Machine)
    (below : List Frame) (a : Activation) (ks : List Stmt) (st : State σ) : Ran σ → Prop
  | none => Goes kb d m st
  | some r => Plays classes kb m below a ks st r

/-- The meaning of every statement is followed, for `d` steps at least where it is cut short. -/
def Follows (classes : ClassTable) (kb : Option (KnowledgeBase σ)) (d : Nat)
    (meaning : Stmt → Activation → State σ → Ran σ) : Prop :=
  ∀ s a st m below ks, At classes m below a st (s.leaves ++ ks) →
    Mirrors classes kb d m below a ks st (meaning s a st)

/-- What comes after a part of a run is also what comes after the whole. -/
theorem Leads.plays (h : Leads kb n m st m₁ st₁) {r : State σ × Exit}
    (hr : Plays classes kb m₁ below a ks st₁ r) : Plays classes kb m below a ks st r := by
  obtain ⟨st', exit⟩ := r
  cases exit with
  | completed =>
    obtain ⟨n', m', hleads, hat⟩ := hr
    exact ⟨n + n', m', h.trans hleads, hat⟩
  | returned v =>
    obtain ⟨n', m', g, rest, target, next, hleads, hrest⟩ := hr
    exact ⟨n + n', m', g, rest, target, next, h.trans hleads, hrest⟩
  | failed fault =>
    -- the failing run is that of `m₁`, `n` steps later
    obtain ⟨n', m', hends, hrest⟩ := hr
    refine ⟨n + n', m', fun k => ?_, hrest⟩
    rw [Nat.add_assoc, h]
    exact hends k

theorem Leads.mirrors (h : Leads kb n m st m₁ st₁) {r : Ran σ}
    (hr : Mirrors classes kb d m₁ below a ks st₁ r) :
    Mirrors classes kb (n + d) m below a ks st r := by
  cases r with
  | none => exact h.goes hr
  | some r => exact h.plays hr

theorem Mirrors.mono {r : Ran σ} {d' : Nat} (h : Mirrors classes kb d m below a ks st r)
    (hd : d' ≤ d) : Mirrors classes kb d' m below a ks st r := by
  cases r with
  | none => exact unfinished_of_le h hd
  | some r => exact h

/-- Running on after a first part that completes normally; any other exit is the exit of the
    whole. -/
theorem Mirrors.andThen {r : Ran σ} {next : State σ → Ran σ} {ks' : List Stmt}
    (h : Mirrors classes kb d m below a ks' st r)
    (hnext : ∀ m' st', At classes m' below a st' ks' →
      Mirrors classes kb d m' below a ks st' (next st')) :
    Mirrors classes kb d m below a ks st (r.andThen next) := by
  cases r with
  | none => exact h
  | some r =>
    obtain ⟨st', exit⟩ := r
    cases exit with
    | completed =>
      obtain ⟨n, m', hleads, hat⟩ := h
      exact (hleads.mirrors (hnext m' st' hat)).mono (Nat.le_add_left d n)
    | returned v => exact h
    | failed fault => exact h

/-! ### One statement at a time -/

/-- If the top frame has no effect, the machine fails as the frame does. -/
theorem At.fail (ks : List Stmt) (h : At classes m below a st (x :: xs)) {fault : Fault} {s' : σ}
    (he : ∀ f, m.stack = f :: below → f.activation = a → f.stmt.head = x →
      m.scopeOf f = a.scope st → m.heap.contains f.owner = true →
      m.effectOf kb f below st.knowledge = (.error fault, s')) :
    Plays classes kb m below a ks st ({ st with knowledge := s' }, a.fail fault) := by
  obtain ⟨m', hends, hagrees, hm', hlocals⟩ := h.stop he
  exact ⟨1, m', hends, hagrees, ⟨[], hm'⟩, hlocals⟩

/-- The same for a head that fails whoever waits for its frame. -/
theorem At.refuse (ks : List Stmt) (h : At classes m below a st (x :: xs)) {fault : Fault}
    (hi : ∀ caller, x.intent classes (a.scope st) caller = .error fault) :
    Plays classes kb m below a ks st (st, a.fail fault) := by
  refine h.fail ks fun f _ _ hhead hscope howner => ?_
  rw [effectOf_eq_head howner, hhead, h.agrees.classes, hscope, hi]

/-- An effect that leaves what is to run after the head as it is. -/
theorem At.pass (kb : Option (KnowledgeBase σ)) (h : At classes m below a st (x :: ks))
    {e : Effect} (hw : ∀ caller, x.Wants classes (a.scope st) caller (.act e))
    (he : e.stays = true) (hleaves : e.leavesAfter st.heap ks = ks) :
    Plays classes kb m below a ks st (st.after e, .completed) := by
  obtain ⟨m', hleads, hat⟩ := h.act kb hw rfl he
  rw [hleaves] at hat
  exact ⟨1, m', hleads, hat⟩

theorem At.skip (h : At classes m below a st (.skip :: ks)) :
    Plays classes kb m below a ks st (st, .completed) := by
  have hstate : st.after .finish = st := st.after_of_silent rfl
  have hpass := h.pass kb (fun _ => .skip) rfl rfl
  rw [hstate] at hpass
  exact hpass

/-- A statement that goes on as another one. -/
theorem At.become (kb : Option (KnowledgeBase σ)) (h : At classes m below a st (x :: xs))
    {s : Stmt} (hw : ∀ caller, x.Wants classes (a.scope st) caller (.act (.become s))) :
    ∃ m', Leads kb 1 m st m' st ∧ At classes m' below a st (s.leaves ++ xs) := by
  have hstate : st.after (.become s) = st := st.after_of_silent rfl
  have hact := h.act kb hw rfl rfl
  rw [hstate] at hact
  exact hact

/-- What is evaluated first decides whether the machine goes on. -/
theorem At.given (h : At classes m below a st (x :: xs)) {α : Type} {ev : Except Fault α}
    (hi : ∀ caller, ∃ k, x.intent classes (a.scope st) caller = ev >>= k) {next : α → Ran σ}
    (hok : ∀ v, ev = .ok v → Mirrors classes kb d m below a ks st (next v)) :
    Mirrors classes kb d m below a ks st (a.given st ev next) := by
  cases ev with
  | error fault =>
    refine h.refuse ks fun caller => ?_
    obtain ⟨k, hk⟩ := hi caller
    exact hk
  | ok v => exact hok v rfl

/-- An assignment whose value is known. -/
theorem At.assign {target : Location} {e : Expr}
    (h : At classes m below a st (.assign target e :: ks)) {v : Value}
    (he : e.eval (a.scope st) = .ok v) :
    Plays classes kb m below a ks st (a.assign classes target v st) := by
  have hi : ∀ caller, (Stmt.assign target e).intent classes (a.scope st) caller =
      target.write classes (a.scope st) v >>= fun eff => .ok (.act eff, none) := by
    intro caller
    rw [Stmt.intent, he]
    rfl
  rw [Activation.assign_eq]
  cases hw : target.write classes (a.scope st) v with
  | error fault =>
    rw [hw] at hi
    exact h.refuse ks hi
  | ok eff =>
    rw [hw] at hi
    obtain ⟨hstays, hleaves⟩ := Location.stays_of_write hw
    exact h.pass kb (fun caller => Stmt.wants_of_intent rfl (hi caller)) hstays (hleaves _ _)

/-- Assigning what a step left as a literal. -/
theorem At.assign_lit {target : Location} {v : Value}
    (h : At classes m below a st (.assign target (.lit v) :: ks)) :
    Plays classes kb m below a ks st (a.assign classes target v st) :=
  h.assign (h.eval_lit v)

/-- A conditional takes the branch of its guard. -/
theorem At.test {guard : Expr} {p q : Stmt}
    (h : At classes m below a st (.cond guard p q :: xs)) {onTrue onFalse : Ran σ}
    (htrue : ∀ m', At classes m' below a st (p.leaves ++ xs) →
      Mirrors classes kb d m' below a ks st onTrue)
    (hfalse : ∀ m', At classes m' below a st (q.leaves ++ xs) →
      Mirrors classes kb d m' below a ks st onFalse) :
    Mirrors classes kb d m below a ks st (a.test st guard onTrue onFalse) := by
  have hbranch : ∀ {s : Stmt} {r : Ran σ},
      (∀ caller, (Stmt.cond guard p q).Wants classes (a.scope st) caller (.act (.become s))) →
      (∀ m', At classes m' below a st (s.leaves ++ xs) →
        Mirrors classes kb d m' below a ks st r) →
      Mirrors classes kb d m below a ks st r := by
    intro s r hw hnext
    obtain ⟨m', hleads, hat⟩ := h.become kb hw
    exact (hleads.mirrors (hnext m' hat)).mono (Nat.le_add_left d 1)
  refine h.given (fun _ => ⟨_, rfl⟩) fun v hv => ?_
  cases v
  case boolean b =>
    cases b with
    | true => exact hbranch (fun _ => .onTrue hv) htrue
    | false => exact hbranch (fun _ => .onFalse hv) hfalse
  all_goals
    refine h.refuse ks fun caller => ?_
    rw [Stmt.intent, hv]
    rfl

/-- A statement that asks a knowledge base. -/
theorem At.ask (h : At classes m below a st (x :: ks)) {r : Request} {target : Location}
    (hw : ∀ caller, x.Wants classes (a.scope st) caller (.ask r target)) :
    Plays classes kb m below a ks st (a.ask classes kb target r st) := by
  have hagrees := h.agrees
  -- a request that fails may still have changed the knowledge
  have hfail : ∀ {fault : Fault} {s' : σ},
      m.resolve kb st.knowledge (.ask r target) = (.error fault, s') →
      Plays classes kb m below a ks st ({ st with knowledge := s' }, a.fail fault) := by
    intro fault s' hr
    refine h.fail ks fun f _ _ hhead hscope howner => ?_
    have hwants : f.stmt.head.Wants m.classes (m.scopeOf f) (f.callerIn below)
        (.ask r target) := by
      rw [hhead, hagrees.classes, hscope]
      exact hw (f.callerIn below)
    rw [effectOf_of_wants howner hwants]
    exact hr
  cases kb with
  | none => exact hfail rfl
  | some base =>
    have hclasses : hasListClass m.classes =
        (classes.hasField listClass "content" && classes.hasField listClass "next") := by
      rw [hagrees.classes]
      rfl
    have hheap := hagrees.heap
    rw [Activation.ask, ← hclasses]
    cases hlist : hasListClass m.classes with
    | false => exact hfail (resolve_of_noList hlist)
    | true =>
      rw [if_pos rfl]
      cases hask : base.ask st.heap r st.knowledge with
      | mk answer s' =>
        have hask' : base.ask m.heap r st.knowledge = (answer, s') := by rw [hheap, hask]
        cases answer with
        | error fault => exact hfail (resolve_of_ask_error hlist hask')
        | ok ids =>
          cases hids : st.heap.classifyAll ids with
          | error cause =>
            have hids' : m.heap.classifyAll ids = .error cause := by rw [hheap, hids]
            simp only [hids]
            exact hfail (resolve_of_classify_error hlist hask' hids')
          | ok contents =>
            have hids' : m.heap.classifyAll ids = .ok contents := by rw [hheap, hids]
            have hstate : st.after (.enlist target contents) =
                { st with heap := (st.heap.addList .null contents).2 } := st.after_of_silent rfl
            obtain ⟨m', hleads, hat⟩ :=
              h.act (some base) hw (resolve_of_answers hlist hask' hids') rfl
            rw [hstate] at hleads hat
            simp only [hids]
            exact hleads.plays hat.assign_lit

/-- Creating an object, and then assigning the reference to it. -/
theorem At.create {target : Location} {cls : String} {args : List Expr}
    (h : At classes m below a st (.create target cls args :: ks)) {fields : Memory}
    (hfields : a.newFields classes st cls args = .ok fields) :
    Plays classes kb m below a ks st
      (a.assign classes target (.object (st.heap.create cls fields).1)
        { st with heap := (st.heap.create cls fields).2 }) := by
  have hw : ∀ caller, (Stmt.create target cls args).Wants classes (a.scope st) caller
      (.act (.create target cls fields)) := by
    intro caller
    have hi : (Stmt.create target cls args).intent classes (a.scope st) caller =
        .ok (.act (.create target cls fields), none) := by
      rw [Stmt.intent, Activation.createIntent_eq, hfields]
      rfl
    exact Stmt.wants_of_intent rfl hi
  have hstate : st.after (.create target cls fields) =
      { st with heap := (st.heap.create cls fields).2 } := st.after_of_silent rfl
  obtain ⟨m', hleads, hat⟩ := h.act kb hw rfl rfl
  rw [hstate] at hleads hat
  exact hleads.plays hat.assign_lit

/-! ### Calls and returns -/

/-- Whether a return has an effect depends on the caller. -/
theorem effectOf_ret {f : Frame} {e : Expr} (howner : m.heap.contains f.owner = true)
    (hhead : f.stmt.head = .ret e) (s : σ) :
    m.effectOf kb f below s = (returnIntent (m.scopeOf f) (f.callerIn below) e, s) := by
  rw [effectOf_eq_head howner, hhead, Stmt.intent]
  cases returnIntent (m.scopeOf f) (f.callerIn below) e <;> rfl

/-- A return gives its value to the waiting frame right beneath. -/
theorem At.resume (kb : Option (KnowledgeBase σ)) {e : Expr} {g : Frame} {rest : List Frame}
    (h : At classes m (g :: rest) a st (.ret e :: xs)) {target : Option Location}
    {next : Option Stmt} {v : Value}
    (hcaller : ∀ f, m.stack = f :: g :: rest → f.callerIn (g :: rest) = .waiting g)
    (hawait : g.stmt.awaiting? = some (target, next)) (hv : e.eval (a.scope st) = .ok v) :
    ∃ m', Leads kb 1 m st m' { st with locals := g.locals } ∧
      At classes m' rest g.activation { st with locals := g.locals }
        (Stmt.leavesOf (Stmt.received target next v)) := by
  have hagrees := h.agrees
  obtain ⟨f, hm, -, -, hhead, -, hscope, howner⟩ := h.frame
  have hintent : returnIntent (a.scope st) (.waiting g) e =
      .ok (.resume g (Stmt.received target next v)) := by
    simp [returnIntent, hawait, hv, bind, Except.bind, pure, Except.pure]
  have hstep : m.step kb st.knowledge =
      ⟨Machine.proceed { (m.running (g :: rest)).retire f with stack := rest } g
        (Stmt.received target next v), st.knowledge, "", .ran⟩ := by
    rw [step_eq hm hagrees.limitReached, effectOf_ret howner hhead, hscope, hcaller f hm, hintent]
    show StepResult.mk (Machine.proceed { (m.running (g :: rest)).retire f with
      stack := (g :: rest).eraseP fun k => k.key = g.key } g _) _ _ _ = _
    rw [eraseP_key_cons]
    rfl
  obtain ⟨hleads, hafter⟩ : _ ∧ Agrees classes _ { st with locals := g.locals } := by
    refine hagrees.leads hm hstep rfl ?_ ?_ ?_ rfl String.append_empty
    · rw [proceed_heap]
      exact hagrees.heap
    · rw [proceed_lastFrame]
      exact hagrees.lastFrame
    · rw [proceed_maxSteps]
      rfl
  exact ⟨_, hleads, At.of_proceed hafter rfl rfl rfl⟩

/-- A frame without a caller cannot return; any other one gives its value to its caller. -/
theorem At.ret {e : Expr} (h : At classes m below a st (.ret e :: xs)) :
    Mirrors classes kb d m below a ks st
      (if a.called then a.given st (e.eval (a.scope st)) fun v => some (st, .returned v)
        else some (st, a.fail .returnOutsideCall)) := by
  obtain ⟨f, hm, rfl, -⟩ := h.frame
  have hdisc := h.agrees.disciplined
  rw [Machine.Disciplined, hm] at hdisc
  have hfail : ∀ {fault : Fault},
      returnIntent (f.activation.scope st) (f.callerIn below) e = .error fault →
      Plays classes kb m below f.activation ks st (st, f.activation.fail fault) := by
    intro fault hfault
    refine h.fail ks fun f' hm' _ hhead hscope howner => ?_
    obtain ⟨rfl, -⟩ := List.cons.inj (hm.symm.trans hm')
    rw [effectOf_ret howner hhead, hscope, hfault]
  rcases (linked_cons.1 hdisc.linked).1 with hnone | ⟨g, rest, rfl, hc, hw⟩
  · -- nobody waits for the frame
    have hcalled : f.activation.called = false := by simp [Frame.activation, hnone]
    rw [hcalled]
    refine hfail ?_
    rw [Frame.callerIn, hnone]
    rfl
  · -- the caller waits right beneath
    have hcalled : f.activation.called = true := by simp [Frame.activation, hc]
    have hcaller : f.callerIn (g :: rest) = .waiting g := by
      rw [Frame.callerIn, hc]
      simp [Frame.ref]
    obtain ⟨target, next, hawait⟩ := hw.awaiting
    rw [hcalled, if_pos rfl]
    cases hv : e.eval (f.activation.scope st) with
    | error fault =>
      refine hfail ?_
      rw [hcaller]
      simp [returnIntent, hawait, hv, bind, Except.bind]
    | ok v =>
      have htop : ∀ f', m.stack = f' :: g :: rest → f'.callerIn (g :: rest) = .waiting g := by
        intro f' hm'
        obtain ⟨rfl, -⟩ := List.cons.inj (hm.symm.trans hm')
        exact hcaller
      obtain ⟨m', hleads, hat⟩ := h.resume kb htop hawait hv
      exact ⟨1, m', g, rest, target, next, hleads, rfl, hawait, hat⟩

/-- A call puts the frame of the method on top of the frame that made it, which waits. -/
theorem At.invoke (kb : Option (KnowledgeBase σ)) {target : Option Location} {callee : Expr}
    {name : String} {args : List Expr}
    (h : At classes m below a st (.call target callee name args :: ks)) {inv : Invocation}
    (hinv : a.invocation classes st callee name args = .ok inv) :
    ∃ m' g rest, Leads kb 1 m st m' (st.enter inv) ∧
      At classes m' (g :: below) (.ofInvocation inv st) (st.enter inv) inv.body.leaves ∧
      g.activation = a ∧ g.locals = st.locals ∧ Stmt.leavesOf rest = ks ∧
      g.stmt = (Stmt.storeReturn target).andThen rest := by
  have hagrees := h.agrees
  obtain ⟨f, hm, ha, hl, hhead, htail, hscope, howner⟩ := h.frame
  have heffect : m.effectOf kb f below st.knowledge =
      (.ok (.invoke target inv.callee inv.body inv.locals), st.knowledge) := by
    rw [effectOf_eq_head howner, hhead, hagrees.classes, hscope, Stmt.intent,
      Activation.callIntent_eq, hinv]
    rfl
  have hstep : m.step kb st.knowledge =
      ⟨(m.running below).perform f f.stmt.tail? (.invoke target inv.callee inv.body inv.locals),
        st.knowledge, "", .ran⟩ := by
    rw [step_eq hm hagrees.limitReached, heffect]
    rfl
  obtain ⟨hleads, hafter⟩ : _ ∧ Agrees classes _ (st.enter inv) := by
    refine hagrees.leads hm hstep rfl hagrees.heap ?_ rfl rfl String.append_empty
    exact congrArg (· + 1) hagrees.lastFrame
  refine ⟨_, { f with
    key := m.lastKey + 1
    stmt := (Stmt.storeReturn target).andThen f.stmt.tail? }, f.stmt.tail?, hleads, ?_, ha, hl,
    htail, rfl⟩
  -- the frame of the method has the body left to run, and nothing after it
  refine At.of_frame (f := ⟨m.lastFrame + 1, m.lastKey + 1 + 1, inv.body, inv.locals,
    .object inv.callee, some ⟨f.id, m.lastKey + 1⟩⟩) hafter rfl ?_ rfl
  rw [Frame.activation, Activation.ofInvocation, hagrees.lastFrame]
  rfl

/-- A call is followed if the body of the method is, and one step further. -/
theorem At.call {target : Option Location} {callee : Expr} {name : String} {args : List Expr}
    (h : At classes m below a st (.call target callee name args :: ks)) {inv : Invocation}
    (hinv : a.invocation classes st callee name args = .ok inv)
    {again : Stmt → Activation → State σ → Ran σ} (hagain : Follows classes kb d again) :
    Mirrors classes kb (1 + d) m below a ks st
      (a.receive classes st target (again inv.body (.ofInvocation inv st) (.enter inv st))) := by
  obtain ⟨m₁, g, rest, hcall, hat, hga, hgl, hrest, hstmt⟩ := h.invoke kb hinv
  have hgleaves : g.stmt.leaves = .storeReturn target :: ks := by
    rw [hstmt, Stmt.leaves_andThen, hrest]
    rfl
  -- the body runs on top of the waiting caller, and its exit is what the caller receives
  have hbody := hagain inv.body (.ofInvocation inv st) (st.enter inv) m₁ (g :: below) []
    (by rw [List.append_nil]; exact hat)
  cases hr : again inv.body (.ofInvocation inv st) (st.enter inv) with
  | none =>
    rw [hr] at hbody
    exact hcall.goes hbody
  | some r =>
    rw [hr] at hbody
    obtain ⟨st', exit⟩ := r
    cases exit with
    | completed =>
      -- the caller is left with the marker of the call
      obtain ⟨n, m', hleads, hagrees', hm', -⟩ := hbody
      have hback : At classes m' below a { st' with locals := st.locals }
          (.storeReturn target :: ks) := by
        rw [← hgleaves]
        exact At.of_frame (hagrees'.locals st.locals) hm' hga hgl
      have hleads' : Leads kb n m₁ (st.enter inv) m' { st' with locals := st.locals } := hleads
      exact (hcall.trans hleads').plays (hback.refuse ks fun _ => rfl)
    | returned v =>
      obtain ⟨n, m', g', below', target', next, hleads, hcons, hawait, hback⟩ := hbody
      obtain ⟨rfl, rfl⟩ := List.cons.inj hcons
      have hawait' : g.stmt.awaiting? = some (target, rest) := by
        rw [hstmt]
        cases rest <;> rfl
      obtain ⟨rfl, rfl⟩ : target = target' ∧ rest = next := by simpa [hawait'] using hawait
      rw [hga, hgl] at hback
      have hleads' : Leads kb n m₁ (st.enter inv) m' { st' with locals := st.locals } := hleads
      refine (hcall.trans hleads').plays ?_
      cases target with
      | none =>
        -- the result is discarded, so the caller is where it has to be already
        have hleaves : Stmt.leavesOf (Stmt.received none rest v) = ks := hrest
        exact ⟨0, m', .refl _ _, hleaves ▸ hback⟩
      | some l =>
        have hleaves : Stmt.leavesOf (Stmt.received (some l) rest v) =
            .assign l (.lit v) :: ks := by
          rw [← hrest]
          cases rest <;> rfl
        rw [hleaves] at hback
        exact hback.assign_lit
    | failed fault =>
      -- the caller is still on the stack, with the variables it had
      obtain ⟨n, m', hends, hagrees', ⟨above, hm'⟩, -⟩ := hbody
      refine ⟨1 + n, m', fun k => ?_, hagrees'.locals st.locals, ⟨above ++ [g], ?_⟩, ?_⟩
      · rw [Nat.add_assoc, hcall]
        exact hends k
      · rw [hm']
        simp
      · have hid : g.id = a.id := congrArg Activation.id hga
        rw [locals?, ← hid, hagrees'.disciplined.frame?_eq hm']
        exact congrArg some hgl

/-! ### Every statement -/

/-- If repetitions and method bodies are followed for `d` steps at least, then statements are for
    one more. -/
theorem Follows.runWith {again : Stmt → Activation → State σ → Ran σ}
    (hagain : Follows classes kb d again) :
    Follows classes kb (1 + d) (Stmt.runWith classes kb again) := by
  intro s
  induction s with
  | skip =>
    intro a st m below ks h
    exact At.skip h
  | breakpoint =>
    intro a st m below ks h
    have hstate : st.after .pause = st := st.after_of_silent rfl
    have hpass := h.pass kb (fun _ => .breakpoint) rfl rfl
    rw [hstate] at hpass
    exact hpass
  | print e =>
    intro a st m below ks h
    refine At.given h (fun _ => ⟨_, rfl⟩) fun v hv => ?_
    exact At.pass kb h (fun _ => .print hv) rfl rfl
  | assign target e =>
    intro a st m below ks h
    exact At.given h (fun _ => ⟨_, rfl⟩) fun v hv => At.assign h hv
  | call target callee name args =>
    intro a st m below ks h
    refine At.given h (fun caller => ?_) fun inv hinv => At.call h hinv hagain
    rw [Stmt.intent, Activation.callIntent_eq, bind_assoc]
    exact ⟨_, rfl⟩
  | create target cls args =>
    intro a st m below ks h
    refine At.given h (fun caller => ?_) fun fields hfields => At.create h hfields
    rw [Stmt.intent, Activation.createIntent_eq, bind_assoc]
    exact ⟨_, rfl⟩
  | ret e =>
    intro a st m below ks h
    exact At.ret h
  | cond guard p q ihp ihq =>
    intro a st m below ks h
    exact At.test h (fun m' hat => ihp a st m' below ks hat) fun m' hat => ihq a st m' below ks hat
  | loop guard body ih =>
    intro a st m below ks h
    -- one step unrolls the loop, the next one tests its guard
    obtain ⟨m₁, hleads, hat⟩ := At.become kb h (fun _ => .loop)
    refine hleads.mirrors (At.test hat (fun m' hat' => ?_) fun m' hat' => ?_)
    · have hbody : At classes m' below a st (body.leaves ++ (.loop guard body :: ks)) := by
        simpa [Stmt.leaves] using hat'
      exact ((ih a st m' below _ hbody).mono (Nat.le_add_left d 1)).andThen
        fun m'' st'' hat'' => hagain (.loop guard body) a st'' m'' below ks hat''
    · exact At.skip hat'
  | seq first second ih₁ ih₂ =>
    intro a st m below ks h
    -- to the machine the second statement is just what is to run after the first
    have hfirst : At classes m below a st (first.leaves ++ (second.leaves ++ ks)) := by
      simpa [Stmt.leaves] using h
    exact (ih₁ a st m below _ hfirst).andThen fun m' st' hat => ih₂ a st' m' below ks hat
  | query target text params =>
    intro a st m below ks h
    exact At.given h (fun _ => ⟨_, rfl⟩) fun r hr => At.ask h fun _ => .query hr
  | derive target cls =>
    intro a st m below ks h
    exact At.given h (fun _ => ⟨_, rfl⟩) fun text htext => At.ask h fun _ => .derive htext
  | storeReturn target =>
    intro a st m below ks h
    exact At.refuse ks h fun _ => rfl

/-- The meaning of every statement is followed, for as many steps as there was fuel where it is cut
    short. -/
theorem follows_run (classes : ClassTable) (kb : Option (KnowledgeBase σ)) (fuel : Nat) :
    Follows classes kb (1 + fuel) (Stmt.run classes kb fuel) := by
  induction fuel with
  | zero =>
    refine Follows.runWith fun s a st m below ks h => ?_
    -- a frame that has something left to run is on the stack
    have hne : s.leaves ++ ks ≠ [] := by simp [s.leaves_ne_nil]
    obtain ⟨x, xs, hcons⟩ := List.exists_cons_of_ne_nil hne
    rw [hcons] at h
    obtain ⟨f, hm, -⟩ := h.frame
    exact ⟨rfl, by simp [runFrom, hm]⟩
  | succ fuel ih =>
    have hd : Follows classes kb (fuel + 1) (Stmt.run classes kb fuel) := Nat.add_comm 1 fuel ▸ ih
    exact hd.runWith

/-! ### Main programs -/

/-- What a finished run shows of the frame `id`, and how the run ended; nothing if the run is not
    finished. -/
def RunResult.report (r : RunResult σ) (id : Nat) : Ran σ :=
  match r.machine.locals? id with
  | none => none
  | some locals =>
    let st : State σ := ⟨r.machine.heap, r.knowledge, r.printed, r.machine.lastFrame, locals⟩
    match r.fault with
    | some fault => some (st, .failed fault)
    | none => if r.machine.done then some (st, .completed) else none

theorem RunResult.not_unfinished_of_report {r : RunResult σ} {id : Nat} {result : State σ × Exit}
    (h : r.report id = some result) : ¬r.Unfinished := by
  rintro ⟨hfault, hstack⟩
  have hdone : r.machine.done = false := by simpa [done] using hstack
  rw [RunResult.report, hfault] at h
  split at h
  · simp at h
  · simp [hdone] at h

/-- A machine that does what a main program means halts with what the program means. -/
theorem Plays.report {r : State σ × Exit} (h : Plays classes kb m [] a [] st r) :
    ∃ n, ∀ k, (runFrom kb (n + k) m st.knowledge st.printed).report a.id = some r := by
  obtain ⟨st', exit⟩ := r
  cases exit with
  | completed =>
    obtain ⟨n, m', hleads, hagrees, hstack, hretired⟩ := h
    have hlocals : m'.locals? a.id = some st'.locals := by
      obtain ⟨rest, hrest⟩ := List.head?_eq_some_iff.1 hretired
      rw [locals?, frame?, hstack, hrest]
      simp
    refine ⟨n, fun k => ?_⟩
    rw [hleads, runFrom_nil hstack]
    simp only [RunResult.report, hlocals, done, hstack, hagrees.heap, hagrees.lastFrame]
    rfl
  | returned v =>
    obtain ⟨n, m', g, rest, target, next, -, hnil, -⟩ := h
    exact absurd hnil (by simp)
  | failed fault =>
    obtain ⟨n, m', hends, hagrees, -, hlocals⟩ := h
    refine ⟨n, fun k => ?_⟩
    rw [hends]
    simp only [RunResult.report, hlocals, hagrees.heap, hagrees.lastFrame]

/-- A main program that was started has all of its leaves left to run, in the state its meaning
    starts with. -/
theorem exists_start_at (classes : ClassTable) (heap : Heap) (main : Stmt) (s : σ) :
    ∃ f m, (new classes heap 0).start main = .ok (f, m) ∧
      At classes m [] f.activation
        ⟨(heap.create entryClass ∅).2, s, "", 1, f.locals⟩ (main.leaves ++ []) ∧
      ∀ kb fuel, main.meaning classes kb fuel heap s =
        main.run classes kb fuel f.activation
          ⟨(heap.create entryClass ∅).2, s, "", 1, f.locals⟩ := by
  have hstart := (new classes heap 0).start_eq main
  have hdisc := (disciplined_new classes heap 0).start hstart
  have howned : (new classes heap 0).Owned := fun k hk => absurd hk List.not_mem_nil
  refine ⟨_, _, hstart, ?_, fun kb fuel => rfl⟩
  rw [List.append_nil]
  exact At.of_frame ⟨rfl, rfl, rfl, rfl, hdisc, howned.start hstart⟩ rfl rfl rfl

end Machine

/-- The machine implements the meaning of statements. For every class table, heap, main program and
    knowledge base, a run halts exactly if the meaning of the main program is defined for enough
    fuel, and the meaning is exactly what the halted run shows: heap, knowledge, printed text, ids
    handed out, variables of the main program, and completion or the fault of the run. -/
theorem machine_implements_meaning {σ : Type} (kb : Option (KnowledgeBase σ))
    (classes : ClassTable) (heap : Heap) (main : Stmt) (s : σ) :
    ∃ f m, (Machine.new classes heap 0).start main = .ok (f, m) ∧
      ((∃ n, ¬(m.runFor kb n s).Unfinished) ↔
        ∃ fuel result, main.meaning classes kb fuel heap s = some result) ∧
      ∀ result, (∃ fuel, main.meaning classes kb fuel heap s = some result) ↔
        ∃ n, (m.runFor kb n s).report f.id = some result := by
  obtain ⟨f, m, hstart, hat, hmeaning⟩ := Machine.exists_start_at classes heap main s
  have hfollows := fun fuel => Machine.follows_run classes kb fuel main _ _ m [] [] hat
  have hsome : ∀ fuel result, main.meaning classes kb fuel heap s = some result →
      ∃ n, ∀ k, (m.runFor kb (n + k) s).report f.id = some result := by
    intro fuel result hresult
    have hplays := hfollows fuel
    rw [← hmeaning kb fuel, hresult] at hplays
    exact hplays.report
  have hnone : ∀ n, main.meaning classes kb n heap s = none → (m.runFor kb n s).Unfinished := by
    intro n hcut
    have hgoes := hfollows n
    rw [← hmeaning kb n, hcut] at hgoes
    exact Machine.unfinished_of_le hgoes (Nat.le_add_left n 1)
  -- a run that is finished after `n` steps leaves enough fuel for the meaning to be defined
  have hdefined : ∀ n, ¬(m.runFor kb n s).Unfinished →
      ∃ result, main.meaning classes kb n heap s = some result := by
    intro n hn
    cases hm : main.meaning classes kb n heap s with
    | none => exact absurd (hnone n hm) hn
    | some result => exact ⟨result, rfl⟩
  refine ⟨f, m, hstart, ⟨?_, ?_⟩, fun result => ⟨?_, ?_⟩⟩
  · rintro ⟨n, hn⟩
    obtain ⟨result, hresult⟩ := hdefined n hn
    exact ⟨n, result, hresult⟩
  · rintro ⟨fuel, result, hresult⟩
    obtain ⟨n, hreport⟩ := hsome fuel result hresult
    exact ⟨n, Machine.RunResult.not_unfinished_of_report (hreport 0)⟩
  · rintro ⟨fuel, hresult⟩
    obtain ⟨n, hreport⟩ := hsome fuel result hresult
    exact ⟨n, hreport 0⟩
  · rintro ⟨n, hreport⟩
    have hn := Machine.RunResult.not_unfinished_of_report hreport
    obtain ⟨result', hresult'⟩ := hdefined n hn
    obtain ⟨n', hreport'⟩ := hsome n result' hresult'
    have hsame : m.runFor kb (n' + n) s = m.runFor kb n s := by
      rw [Nat.add_comm]
      exact Machine.runFrom_add_of_finished hn n'
    have heq := hreport' n
    rw [hsame, hreport] at heq
    exact ⟨n, by rw [hresult', ← heq]⟩

end ObjectMachine
