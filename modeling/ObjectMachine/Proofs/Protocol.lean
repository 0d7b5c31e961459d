import ObjectMachine.Proofs.Forks

namespace ObjectMachine

/-!
# What a knowledge base is told

Machines that share a knowledge base call it in an order of their own making. This file writes the
calls down and reads the log:

* `Call`, `KnowledgeBase.logged` — a call with its result, and a knowledge base that logs its calls;
* `Stmt.Asks`, `Machine.Asks` — the request that a step puts, and all that has to be in order for
  it;
* `Machine.calls` — the calls of one step; `Machine.Tells` — what they can be;
* `Machine.step_eq_withLog` — a step appends its calls to the log, and the log changes nothing else;
* `Family.stepped` — the steps of a family of machines, in their order;
* `knowledge_base_protocol` — the log of a family is made of the calls of its steps: the heap of the
  machine that asks is shown, and its request is put right after it.
-/

variable {σ : Type}

/-! ### Logs -/

/-- A call of a knowledge base and its result: a heap is shown, or a request is put. -/
inductive Call where
  | dump (h : Heap) (result : Except KnowledgeFault Unit)
  | put (r : Request) (result : Except KnowledgeFault (List String))

namespace KnowledgeBase

variable (base : KnowledgeBase σ)

/-- The same knowledge base, but every call is written down with its result. -/
def logged : KnowledgeBase (σ × List Call) where
  dump h s :=
    let (result, s') := base.dump h s.1
    (result, s', s.2 ++ [.dump h result])
  query text s :=
    let (result, s') := base.query text s.1
    (result, s', s.2 ++ [.put (.query text) result])
  derive classExpr s :=
    let (result, s') := base.derive classExpr s.1
    (result, s', s.2 ++ [.put (.derive classExpr) result])

/-- The calls that are made to put one request: the heap is shown, and if that succeeds the request
    is put. -/
def block (h : Heap) (r : Request) (s : σ) : List Call :=
  match base.dump h s with
  | (.error cause, _) => [.dump h (.error cause)]
  | (.ok (), s') => [.dump h (.ok ()), .put r (base.put r s').1]

theorem logged_put (r : Request) (s : σ) (log : List Call) :
    base.logged.put r (s, log) =
      ((base.put r s).1, (base.put r s).2, log ++ [.put r (base.put r s).1]) := by
  cases r <;> rfl

/-- Asking a knowledge base logs one block of calls. -/
theorem logged_ask (h : Heap) (r : Request) (s : σ) (log : List Call) :
    base.logged.ask h r (s, log) =
      ((base.ask h r s).1, (base.ask h r s).2, log ++ base.block h r s) := by
  have hdump : base.logged.dump h (s, log) =
      ((base.dump h s).1, (base.dump h s).2, log ++ [.dump h (base.dump h s).1]) := rfl
  unfold ask block
  rw [hdump]
  cases hd : base.dump h s with
  | mk result s' =>
    cases result with
    | error cause => rfl
    | ok _ =>
      -- the request is put in the state that showing the heap has left
      simp only [logged_put]
      cases base.put r s' with
      | mk answer s'' => cases answer <;> simp

end KnowledgeBase

/-- The result of a step in which a log was kept. -/
def StepResult.withLog (r : StepResult σ) (log : List Call) : StepResult (σ × List Call) :=
  ⟨r.machine, (r.knowledge, log), r.printed, r.outcome⟩

/-! ### Requests -/

/-- The request that a statement puts in a scope. Its text has to be a text, and its parameters are
    evaluated from the last to the first. -/
inductive Stmt.Asks (sc : Scope) : Stmt → Request → Prop where
  | query {target : Location} {text : Expr} {params : List Expr} {q : String} {vs : List Value}
      (htext : text.eval sc = .ok (.string q)) (hparams : Expr.evalAll sc params.reverse = .ok vs) :
      Asks sc (.query target text params)
        (.query (Request.fill q ((List.range' 1 vs.length).reverse.zip vs)))
  | derive {target : Location} {cls : Expr} {text : String}
      (htext : cls.eval sc = .ok (.string text)) : Asks sc (.derive target cls) (.derive text)

/-- Whether a statement is one that puts a request. -/
def Stmt.isRequest : Stmt → Bool
  | .query _ _ _ | .derive _ _ => true
  | _ => false

/-- The next step of a machine puts a request: there is a frame to run, the step limit is not
    reached, its owner is on the heap, its head asks, and answers can be returned in lists. -/
structure Machine.Asks (m : Machine) (f : Frame) (below : List Frame) (r : Request) : Prop where
  stack : m.stack = f :: below
  limit : m.limitReached = false
  owner : m.heap.contains f.owner = true
  head : f.stmt.head.Asks (m.scopeOf f) r
  list : Machine.hasListClass m.classes = true

/-- Why a frame puts no request: its head is no request, or one of the expressions of its head has
    no value, or what it asks is no text, or there is no class for lists. -/
inductive Machine.Silences (m : Machine) (f : Frame) : Prop where
  | other (h : f.stmt.head.isRequest = false)
  | eval {e : Expr} {fault : Fault} (he : e ∈ f.stmt.head.exprs)
      (h : e.eval (m.scopeOf f) = .error fault)
  | type {e : Expr} {v : Value} (he : f.stmt.head.exprs.head? = some e)
      (h : e.eval (m.scopeOf f) = .ok v) (hv : ∀ q, v ≠ .string q)
  | list (h : Machine.hasListClass m.classes = false)

/-- The text of a request is the text that its expression evaluates to. -/
theorem requestText_eq_ok {sc : Scope} {request q : String} {e : Expr} :
    requestText sc request e = .ok q ↔ e.eval sc = .ok (.string q) := by
  constructor
  · intro h
    obtain ⟨v, hv, h⟩ := bind_eq_ok.1 h
    cases v
    case string s =>
      obtain rfl : s = q := by simpa using h
      exact hv
    all_goals simp at h
  · intro h
    simp [requestText, h, bind, Except.bind]

namespace Stmt

variable {classes : ClassTable} {sc : Scope} {caller : Caller} {s : Stmt} {r : Request}

theorem Wants.asks {target : Location} (h : s.Wants classes sc caller (.ask r target)) :
    s.Asks sc r := by
  cases h with
  | query hr =>
    obtain ⟨q, hq, hr⟩ := bind_eq_ok.1 hr
    obtain ⟨vs, hvs, hr⟩ := bind_eq_ok.1 hr
    obtain rfl := pure_eq_ok.1 hr
    exact .query (requestText_eq_ok.1 hq) hvs
  | derive hr => exact .derive (requestText_eq_ok.1 hr)

theorem Asks.wants (h : s.Asks sc r) (classes : ClassTable) (caller : Caller) :
    ∃ target, s.Wants classes sc caller (.ask r target) := by
  cases h with
  | @query target text params q vs htext hparams =>
    refine ⟨target, .query ?_⟩
    simp [queryIntent, requestText_eq_ok.2 htext, hparams, bind, Except.bind, pure, Except.pure]
  | derive htext => exact ⟨_, .derive (requestText_eq_ok.2 htext)⟩

theorem Asks.isRequest (h : s.Asks sc r) : s.isRequest = true := by
  cases h <;> rfl

/-- Whatever a statement evaluates before it asks has a value. -/
theorem Asks.eval_ne_error (h : s.Asks sc r) {e : Expr} (he : e ∈ s.exprs) (fault : Fault) :
    e.eval sc ≠ .error fault := by
  cases h with
  | @query target text params q vs htext hparams =>
    rcases List.mem_cons.1 he with rfl | he
    · simp [htext]
    · obtain ⟨v, hv⟩ := Expr.eval_of_evalAll hparams (List.mem_reverse.2 he)
      simp [hv]
  | derive htext =>
    obtain rfl := List.mem_singleton.1 he
    simp [htext]

/-- What a statement asks is a text. -/
theorem Asks.eval_head (h : s.Asks sc r) {e : Expr} (he : s.exprs.head? = some e) :
    ∃ q, e.eval sc = .ok (.string q) := by
  cases h with
  | query htext =>
    obtain rfl : _ = e := by simpa [exprs] using he
    exact ⟨_, htext⟩
  | derive htext =>
    obtain rfl : _ = e := by simpa [exprs] using he
    exact ⟨_, htext⟩

end Stmt

namespace Machine

variable {m : Machine} {f : Frame} {below : List Frame} {r : Request}

/-- A machine that asks has the intent to. -/
theorem Asks.intentOf (h : m.Asks f below r) :
    ∃ target, m.intentOf f below = .ok (.ask r target, f.stmt.tail?) := by
  obtain ⟨target, hw⟩ := h.head.wants m.classes (f.callerIn below)
  have hintent : f.stmt.intent m.classes (m.scopeOf f) (f.callerIn below) =
      .ok (.ask r target, f.stmt.tail?) := by
    rw [Stmt.intent_eq_head, hw.intent_eq]
    rfl
  exact ⟨target, (if_pos h.owner).trans hintent⟩

/-- A frame that is silenced puts no request. -/
theorem Silences.not_asks (h : m.Silences f) : ¬ m.Asks f below r := by
  intro hasks
  cases h with
  | other h => exact absurd hasks.head.isRequest (by simp [h])
  | eval he h => exact hasks.head.eval_ne_error he _ h
  | type he h hv =>
    obtain ⟨q, hq⟩ := hasks.head.eval_head he
    rw [h] at hq
    exact hv q (Except.ok.inj hq)
  | list h => exact absurd hasks.list (by simp [h])

/-! ### The calls of a step -/

/-- What the next step of a machine may tell a knowledge base: nothing, if it puts no request; else
    its heap, and right after it the request. If the heap is not accepted nothing follows, and the
    step fails. -/
inductive Tells (base : KnowledgeBase σ) (m : Machine) (s : σ) : List Call → Prop where
  | nothing (h : ∀ f below r, ¬ m.Asks f below r) : Tells base m s []
  | request {f : Frame} {below : List Frame} {r : Request} (h : m.Asks f below r)
      (answer : Except KnowledgeFault (List String)) :
      Tells base m s [.dump m.heap (.ok ()), .put r answer]
  | refused {f : Frame} {below : List Frame} {r : Request} (h : m.Asks f below r)
      {cause : KnowledgeFault}
      (hfailed : (m.step (some base) s).outcome = .failed (.frame f.id (.dump cause))) :
      Tells base m s [.dump m.heap (.error cause)]

/-- The calls of the next step of a machine. -/
def calls (base : KnowledgeBase σ) (m : Machine) (s : σ) : List Call :=
  (m.step (some base.logged) (s, [])).knowledge.2

/-- The calls that are made to put the request of a machine are those it may make. -/
theorem Asks.tells_block (h : m.Asks f below r) (base : KnowledgeBase σ) (s : σ) :
    m.Tells base s (base.block m.heap r s) := by
  rw [KnowledgeBase.block]
  cases hdump : base.dump m.heap s with
  | mk result s' =>
    cases result with
    | ok _ => exact .request h _
    | error cause =>
      -- the heap is not accepted, so the frame has no effect
      obtain ⟨target, hi⟩ := h.intentOf
      have hask : base.ask m.heap r s = (.error (.dump cause), s') := by
        rw [KnowledgeBase.ask, hdump]
      have heffect : m.effectOf (some base) f below s = (.error (.dump cause), s') := by
        rw [effectOf, hi]
        exact resolve_of_ask_error h.list hask
      refine .refused h ?_
      rw [step_eq h.stack h.limit, heffect]

/-- A request adds one block of calls to the log, and the log changes nothing else. -/
theorem resolve_logged (base : KnowledgeBase σ) (hlist : hasListClass m.classes = true)
    (target : Location) (s : σ) (log : List Call) :
    m.resolve (some base.logged) (s, log) (.ask r target) =
      ((m.resolve (some base) s (.ask r target)).1, (m.resolve (some base) s (.ask r target)).2,
        log ++ base.block m.heap r s) := by
  have hlogged := base.logged_ask m.heap r s log
  cases hask : base.ask m.heap r s with
  | mk result s' =>
    rw [hask] at hlogged
    cases result with
    | error fault => rw [resolve_of_ask_error hlist hask, resolve_of_ask_error hlist hlogged]
    | ok ids =>
      cases hids : m.heap.classifyAll ids with
      | error cause =>
        rw [resolve_of_classify_error hlist hask hids, resolve_of_classify_error hlist hlogged hids]
      | ok contents =>
        rw [resolve_of_answers hlist hask hids, resolve_of_answers hlist hlogged hids]

/-- A step adds to the log what finding its effect adds. -/
theorem step_logged {base : KnowledgeBase σ} (hm : m.stack = f :: below)
    (hl : m.limitReached = false) {s : σ} {log log' : List Call}
    (h : m.effectOf (some base.logged) f below (s, log) =
      ((m.effectOf (some base) f below s).1, (m.effectOf (some base) f below s).2, log')) :
    m.step (some base.logged) (s, log) = (m.step (some base) s).withLog log' := by
  rw [step_eq hm hl, step_eq hm hl, h]
  cases m.effectOf (some base) f below s with
  | mk result s' => cases result <;> rfl

/-- A step that puts no request leaves the log as it is. -/
theorem step_logged_of_not_asks (base : KnowledgeBase σ)
    (h : ∀ f below r, ¬ m.Asks f below r) (s : σ) (log : List Call) :
    m.step (some base.logged) (s, log) = (m.step (some base) s).withLog log := by
  cases hm : m.stack with
  | nil =>
    rw [step_nil hm, step_nil hm]
    rfl
  | cons f below =>
    cases hl : m.limitReached with
    | true =>
      rw [step_of_limitReached hm hl, step_of_limitReached hm hl]
      rfl
    | false =>
      apply step_logged hm hl
      cases hi : m.intentOf f below with
      | error fault => simp [effectOf, hi]
      | ok p =>
        obtain ⟨i, rest⟩ := p
        obtain ⟨howner, -, hw⟩ := intentOf_eq_ok hi
        cases i with
        | act e => simp [effectOf, hi, resolve]
        | ask r target =>
          -- only the class for lists can be missing
          have hlist : hasListClass m.classes = false := by
            rw [Bool.eq_false_iff]
            intro hlist
            exact h f below r ⟨hm, hl, howner, hw.asks, hlist⟩
          simp [effectOf, hi, resolve_of_noList hlist]

/-- A step that puts a request adds one block of calls to the log. -/
theorem Asks.step_logged (h : m.Asks f below r) (base : KnowledgeBase σ) (s : σ)
    (log : List Call) :
    m.step (some base.logged) (s, log) =
      (m.step (some base) s).withLog (log ++ base.block m.heap r s) := by
  obtain ⟨target, hi⟩ := h.intentOf
  apply Machine.step_logged h.stack h.limit
  simp [effectOf, hi, resolve_logged base h.list]

/-- The calls of a step that puts a request are those that are made to put it. -/
theorem Asks.calls_eq (h : m.Asks f below r) (base : KnowledgeBase σ) (s : σ) :
    m.calls base s = base.block m.heap r s := by
  rw [calls, h.step_logged]
  rfl

/-- A step adds its calls to the log, and does all else as it does without a log. -/
theorem step_eq_withLog (base : KnowledgeBase σ) (m : Machine) (s : σ) (log : List Call) :
    m.step (some base.logged) (s, log) =
      (m.step (some base) s).withLog (log ++ m.calls base s) := by
  by_cases h : ∃ f below r, m.Asks f below r
  · obtain ⟨f, below, r, hasks⟩ := h
    rw [calls, hasks.step_logged, hasks.step_logged]
    rfl
  · have hno : ∀ f below r, ¬ m.Asks f below r := fun f below r hr => h ⟨f, below, r, hr⟩
    rw [calls, step_logged_of_not_asks base hno, step_logged_of_not_asks base hno]
    simp [StepResult.withLog]

/-- The calls of a step are those that `Tells` allows. -/
theorem tells_calls (base : KnowledgeBase σ) (m : Machine) (s : σ) :
    m.Tells base s (m.calls base s) := by
  by_cases h : ∃ f below r, m.Asks f below r
  · obtain ⟨f, below, r, hasks⟩ := h
    rw [hasks.calls_eq base s]
    exact hasks.tells_block base s
  · have hno : ∀ f below r, ¬ m.Asks f below r := fun f below r hr => h ⟨f, below, r, hr⟩
    have hcalls : m.calls base s = [] := by
      rw [calls, step_logged_of_not_asks base hno]
      rfl
    rw [hcalls]
    exact .nothing hno

end Machine

/-! ### Families -/

namespace Family

/-- A family whose knowledge base keeps a log. -/
def withLog (F : Family σ) (log : List Call) : Family (σ × List Call) :=
  ⟨F.machines, F.knowledge, log⟩

/-- The machine that an operation steps, if it steps one, and the state of the knowledge base. -/
def steppedBy (F : Family σ) (i : Nat) : Operation Unit → List (Machine × σ)
  | .step () => (F.machines[i]?).toList.map fun m => (m, F.knowledge)
  | _ => []

/-- The steps that operations on a family take, in their order: each machine as it is when its step
    begins, and the state of the knowledge base at that moment. -/
def stepped (kb : Option (KnowledgeBase σ)) :
    List (Nat × Operation Unit) → Family σ → List (Machine × σ)
  | [], _ => []
  | (i, op) :: ops, F => F.steppedBy i op ++ stepped kb ops (F.act kb i op).1

/-- The calls of a list of steps, one step after the other. -/
def callsOf (base : KnowledgeBase σ) (steps : List (Machine × σ)) : List Call :=
  (steps.map fun e => e.1.calls base e.2).flatten

theorem callsOf_append (base : KnowledgeBase σ) (xs ys : List (Machine × σ)) :
    callsOf base (xs ++ ys) = callsOf base xs ++ callsOf base ys := by
  simp [callsOf]

/-- An operation adds the calls of its step to the log. -/
theorem act_withLog (base : KnowledgeBase σ) (F : Family σ) (i : Nat) (op : Operation Unit)
    (log : List Call) :
    (F.withLog log).act (some base.logged) i op =
      ((F.act (some base) i op).1.withLog (log ++ callsOf base (F.steppedBy i op)),
        (F.act (some base) i op).2) := by
  cases hm : F.machines[i]? with
  | none =>
    have hm' : (F.withLog log).machines[i]? = none := hm
    rw [act_of_none hm, act_of_none hm']
    cases op <;> simp [steppedBy, callsOf, hm]
  | some m =>
    have hm' : (F.withLog log).machines[i]? = some m := hm
    rw [act_of_some hm, act_of_some hm']
    cases op with
    | step _ =>
      have hstep := m.step_eq_withLog base F.knowledge log
      have hcalls : callsOf base (F.steppedBy i (.step ())) = m.calls base F.knowledge := by
        simp [steppedBy, callsOf, hm]
      simp only [Machine.act, withLog, hcalls, hstep, StepResult.withLog]
    | start main =>
      simp only [Machine.act, withLog, steppedBy, callsOf]
      split <;> simp
    | push stmt owner locals =>
      simp only [Machine.act, withLog, steppedBy, callsOf]
      split <;> simp
    | fork => simp [Machine.act, withLog, steppedBy, callsOf]

/-- Operations add the calls of all their steps to the log, and do all else as they do without a
    log. -/
theorem run_withLog (base : KnowledgeBase σ) (ops : List (Nat × Operation Unit)) (F : Family σ)
    (log : List Call) :
    (F.withLog log).run (some base.logged) ops =
      ((F.run (some base) ops).1.withLog (log ++ callsOf base (F.stepped (some base) ops)),
        (F.run (some base) ops).2) := by
  induction ops generalizing F log with
  | nil => simp [run, stepped, callsOf]
  | cons o ops ih =>
    obtain ⟨i, op⟩ := o
    have hfirst := F.act_withLog base i op log
    have hrest := ih (F.act (some base) i op).1 (log ++ callsOf base (F.steppedBy i op))
    simp only [run, stepped, hfirst, hrest, callsOf_append, List.append_assoc]

end Family

/-- Operations are performed in any order on machines that share a knowledge base, whose calls are
    logged. All is as it is without the log. The log consists of the calls of the steps, one step
    after the other; and a step of a machine calls the knowledge base only if it puts a request, to
    show it the heap of that machine as it is when the step begins and to put the request right
    after that. If the heap is not accepted, the request is not put and the step fails. No request
    is put by a statement other than a query or a derivation, if an expression of the statement has
    no value or what is asked is no text, or without a class for lists. -/
theorem knowledge_base_protocol (base : KnowledgeBase σ) (F : Family σ)
    (ops : List (Nat × Operation Unit)) :
    (F.withLog []).run (some base.logged) ops =
      ((F.run (some base) ops).1.withLog
        ((F.stepped (some base) ops).map fun e => e.1.calls base e.2).flatten,
        (F.run (some base) ops).2) ∧
    (∀ (m : Machine) (s : σ), m.Tells base s (m.calls base s)) ∧
    ∀ (m : Machine) (s : σ) (f : Frame) (below : List Frame), m.stack = f :: below →
      m.Silences f → m.calls base s = [] := by
  refine ⟨F.run_withLog base ops [], fun m s => m.tells_calls base s, ?_⟩
  intro m s f below hm hsilent
  have hno : ∀ f' below' r, ¬ m.Asks f' below' r := by
    intro f' below' r hasks
    obtain ⟨rfl, rfl⟩ := List.cons.inj (hasks.stack.symm.trans hm)
    exact hsilent.not_asks hasks
  rw [Machine.calls, Machine.step_logged_of_not_asks base hno]
  rfl

end ObjectMachine
