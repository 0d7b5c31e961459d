import ObjectMachine.Machine.Step
import ObjectMachine.Proofs.Lookup
import ObjectMachine.Proofs.Refusal

namespace ObjectMachine

/-!
# Steps and operations

A step pops the top frame, finds the effect of its head and carries it out. This file puts the
definition of a step into that form, and says what can be done to a machine from outside:

* `Machine.effectOf` — the effect of the top frame, or why it has none;
* `Machine.step_eq` — a step in terms of that effect;
* `Machine.Enacts` — every effect a step can have, with what led to it;
* `Machine.advance`, `Machine.transcript` — a number of steps, and what they report;
* `Operation`, `Machine.operateAll` — operations on a machine, one after the other;
* `Machine.operateAll_preserves` — what every operation preserves holds after any number of them;
* `Machine.start_eq` — starting a program always succeeds.
-/

/-- Only a step that ran goes on without a pause. -/
theorem Outcome.goesOn_iff {o : Outcome} : o.goesOn = true ↔ o = .ran := by
  cases o <;> simp [goesOn]

namespace Machine

variable {σ : Type} {kb : Option (KnowledgeBase σ)}

/-! ### The effect of the top frame -/

/-- What the expressions of a frame can see. -/
def scopeOf (m : Machine) (f : Frame) : Scope :=
  ⟨f.locals, m.heap, f.owner⟩

/-- An expression is evaluated in what the top frame sees. -/
theorem evalTop_of_stack {m : Machine} {f : Frame} {below : List Frame} (h : m.stack = f :: below)
    (e : Expr) : m.evalTop e = some (e.eval (m.scopeOf f)) := by
  rw [evalTop, h]
  rfl

/-- The machine while its top frame runs: the frame is popped and the step is counted. -/
def running (m : Machine) (below : List Frame) : Machine :=
  { m with stack := below, steps := m.steps + 1 }

/-- What the frame `f` on top of `below` does, or why it fails, and the state of the knowledge
    base after that. -/
def effectOf (kb : Option (KnowledgeBase σ)) (m : Machine) (f : Frame) (below : List Frame)
    (s : σ) : Except Fault Effect × σ :=
  match m.intentOf f below with
  | .error fault => (.error fault, s)
  | .ok (intent, _) => m.resolve kb s intent

section Asking

variable {m : Machine} {base : KnowledgeBase σ} {r : Request} {target : Location} {s s' : σ}

/-- Without a class for lists no request is put. -/
theorem resolve_of_noList (h : hasListClass m.classes = false) :
    m.resolve (some base) s (.ask r target) = (.error .noListClass, s) := by
  simp [resolve, h]

theorem resolve_of_ask_error (h : hasListClass m.classes = true) {fault : Fault}
    (hask : base.ask m.heap r s = (.error fault, s')) :
    m.resolve (some base) s (.ask r target) = (.error fault, s') := by
  simp [resolve, h, hask]

variable {ids : List String}

theorem resolve_of_classify_error (h : hasListClass m.classes = true)
    (hask : base.ask m.heap r s = (.ok ids, s')) {cause : KnowledgeFault}
    (hids : m.heap.classifyAll ids = .error cause) :
    m.resolve (some base) s (.ask r target) = (.error (.knowledge cause), s') := by
  simp [resolve, h, hask, hids]

/-- Answers that stand for values are to become a list. -/
theorem resolve_of_answers (h : hasListClass m.classes = true)
    (hask : base.ask m.heap r s = (.ok ids, s')) {contents : List Value}
    (hids : m.heap.classifyAll ids = .ok contents) :
    m.resolve (some base) s (.ask r target) = (.ok (.enlist target contents), s') := by
  simp [resolve, h, hask, hids]

end Asking

/-- A frame has an intent if its owner is on the heap and its head has one. -/
theorem intentOf_eq_ok {m : Machine} {f : Frame} {below : List Frame} {i : Intent}
    {rest : Option Stmt} (h : m.intentOf f below = .ok (i, rest)) :
    m.heap.contains f.owner = true ∧ rest = f.stmt.tail? ∧
      f.stmt.head.Wants m.classes (m.scopeOf f) (f.callerIn below) i := by
  rw [intentOf] at h
  split at h
  · rename_i howner
    rw [Stmt.intent_eq_head] at h
    obtain ⟨⟨j, r⟩, hj, hp⟩ := map_eq_ok.1 h
    obtain ⟨rfl, rfl⟩ := Prod.mk.inj hp
    exact ⟨howner, rfl, Stmt.wants_of_intent f.stmt.isSeq_head hj⟩
  · simp at h

/-- A frame has no intent if its owner is missing or its head fails. -/
theorem intentOf_eq_error {m : Machine} {f : Frame} {below : List Frame} {fault : Fault}
    (h : m.intentOf f below = .error fault) :
    (m.heap.contains f.owner = false ∧ fault = .unknownObject f.owner) ∨
      f.stmt.head.Refuses m.classes (m.scopeOf f) (f.callerIn below) fault := by
  rw [intentOf] at h
  split at h
  · rw [Stmt.intent_eq_head] at h
    exact .inr (Stmt.refuses_of_intent f.stmt.isSeq_head (map_eq_error.1 h))
  · rename_i howner
    exact .inl ⟨by simpa using howner, (Except.error.inj h).symm⟩

/-- The effect of a frame whose owner is on the heap is found by looking at its head. -/
theorem effectOf_eq_head {m : Machine} {f : Frame} {below : List Frame}
    (howner : m.heap.contains f.owner = true) (s : σ) :
    m.effectOf kb f below s =
      match f.stmt.head.intent m.classes (m.scopeOf f) (f.callerIn below) with
      | .error fault => (.error fault, s)
      | .ok (i, _) => m.resolve kb s i := by
  have hi : m.intentOf f below =
      f.stmt.intent m.classes (m.scopeOf f) (f.callerIn below) := if_pos howner
  rw [effectOf, hi, Stmt.intent_eq_head]
  cases f.stmt.head.intent m.classes (m.scopeOf f) (f.callerIn below) <;> rfl

/-- A frame does what its head wants. -/
theorem effectOf_of_wants {m : Machine} {f : Frame} {below : List Frame} {i : Intent}
    (howner : m.heap.contains f.owner = true)
    (hw : f.stmt.head.Wants m.classes (m.scopeOf f) (f.callerIn below) i) (s : σ) :
    m.effectOf kb f below s = m.resolve kb s i := by
  rw [effectOf_eq_head howner, hw.intent_eq]

theorem step_nil {m : Machine} (h : m.stack = []) (s : σ) : m.step kb s = ⟨m, s, "", .idle⟩ := by
  rw [step, h]

theorem step_of_limitReached {m : Machine} {f : Frame} {below : List Frame}
    (h : m.stack = f :: below) (hl : m.limitReached = true) (s : σ) :
    m.step kb s = ⟨m, s, "", .failed .limit⟩ := by
  rw [step, h]
  simp only [hl, if_true]

/-- A step carries out the effect of the top frame, after which the tail of the frame is left;
    a frame without an effect leaves the stack. -/
theorem step_eq {m : Machine} {f : Frame} {below : List Frame} (h : m.stack = f :: below)
    (hl : m.limitReached = false) (s : σ) :
    m.step kb s =
      match m.effectOf kb f below s with
      | (.error fault, s) => ⟨(m.running below).retire f, s, "", .failed (.frame f.id fault)⟩
      | (.ok e, s) =>
        ⟨(m.running below).perform f f.stmt.tail? e, s, printedBy e, outcomeOf f e⟩ := by
  -- popping the frame and counting the step changes nothing that the effect depends on
  have hintent : (m.running below).intentOf f below = m.intentOf f below := rfl
  have hresolve : ∀ i, (m.running below).resolve kb s i = m.resolve kb s i := by
    intro i
    cases i <;> rfl
  rw [step, h]
  simp only [hl]
  show (match (m.running below).intentOf f below with
    | .error fault => _
    | .ok (intent, rest) => _) = _
  rw [hintent, effectOf]
  cases hi : m.intentOf f below with
  | error fault => rfl
  | ok p =>
    obtain ⟨i, rest⟩ := p
    obtain ⟨-, rfl, -⟩ := intentOf_eq_ok hi
    show (match (m.running below).resolve kb s i with
      | (.error fault, s) => _
      | (.ok e, s) => _) = _
    rw [hresolve]
    rfl

/-- What a step can do for the frame `f` on top of `below`: what its head wants, or the list of
    answers to what its head asks. -/
inductive Enacts (kb : Option (KnowledgeBase σ)) (m : Machine) (f : Frame) (below : List Frame)
    (s : σ) : Effect → σ → Prop where
  | act {e : Effect}
      (hw : f.stmt.head.Wants m.classes (m.scopeOf f) (f.callerIn below) (.act e)) :
      Enacts kb m f below s e s
  | ask {base : KnowledgeBase σ} {r : Request} {target : Location} {ids : List String}
      {contents : List Value} {s' : σ}
      (hw : f.stmt.head.Wants m.classes (m.scopeOf f) (f.callerIn below) (.ask r target))
      (hkb : kb = some base) (hlist : hasListClass m.classes = true)
      (hask : base.ask m.heap r s = (.ok ids, s'))
      (hids : m.heap.classifyAll ids = .ok contents) :
      Enacts kb m f below s (.enlist target contents) s'

/-- Every effect of a frame is one of those in `Enacts`, and its owner is on the heap. -/
theorem enacts_of_effectOf {m : Machine} {f : Frame} {below : List Frame} {s s' : σ} {e : Effect}
    (h : m.effectOf kb f below s = (.ok e, s')) :
    m.heap.contains f.owner = true ∧ Enacts kb m f below s e s' := by
  rw [effectOf] at h
  split at h
  · simp at h
  · rename_i i rest hi
    obtain ⟨howner, -, hw⟩ := intentOf_eq_ok hi
    refine ⟨howner, ?_⟩
    cases i with
    | act e' =>
      obtain ⟨rfl, rfl⟩ : e' = e ∧ s = s' := by simpa [resolve] using h
      exact .act hw
    | ask r target =>
      -- every case but the last one of `resolve` is a fault
      cases kb with
      | none => simp [resolve] at h
      | some base =>
        simp only [resolve] at h
        split at h
        · simp at h
        · rename_i hlist
          split at h
          · simp at h
          · rename_i ids s₁ hask
            split at h
            · simp at h
            · rename_i contents hids
              obtain ⟨rfl, rfl⟩ : Effect.enlist target contents = e ∧ s₁ = s' := by simpa using h
              exact .ask hw rfl (by simpa using hlist) hask hids

/-- A step that neither fails nor pauses was within the limit and has carried out an effect of the
    top frame. -/
theorem enacts_of_ran {m : Machine} {f : Frame} {below : List Frame} {s : σ}
    (hm : m.stack = f :: below) (h : (m.step kb s).outcome = .ran) :
    m.limitReached = false ∧ ∃ e s', Enacts kb m f below s e s' ∧
      (m.step kb s).machine = (m.running below).perform f f.stmt.tail? e := by
  by_cases hl : m.limitReached = true
  · rw [step_of_limitReached hm hl] at h
    exact absurd h (by simp)
  · have hlimit : m.limitReached = false := by simpa using hl
    rw [step_eq hm hlimit] at h ⊢
    cases he : m.effectOf kb f below s with
    | mk r s' =>
      rw [he] at h
      cases r with
      | error fault => exact absurd h (by simp)
      | ok e => exact ⟨hlimit, e, s', (enacts_of_effectOf he).2, rfl⟩

/-- If the head is no request, such a step has carried out what the head wants. -/
theorem wants_of_ran {m : Machine} {f : Frame} {below : List Frame} {s : σ} {x : Stmt}
    (hm : m.stack = f :: below) (hhead : f.stmt.head = x)
    (hask : ∀ r target,
      ¬ x.Wants m.classes (m.scopeOf f) (f.callerIn below) (.ask r target))
    (h : (m.step kb s).outcome = .ran) :
    ∃ e, x.Wants m.classes (m.scopeOf f) (f.callerIn below) (.act e) ∧
      (m.step kb s).machine = (m.running below).perform f f.stmt.tail? e := by
  subst hhead
  obtain ⟨-, e, s', henacts, hstep⟩ := enacts_of_ran hm h
  cases henacts with
  | act hw => exact ⟨e, hw, hstep⟩
  | ask hw => exact absurd hw (hask _ _)

/-- A step that fails, the limit apart, has found no effect of the top frame. -/
theorem effectOf_of_failed {m : Machine} {s : σ} {id : Nat} {fault : Fault}
    (h : (m.step kb s).outcome = .failed (.frame id fault)) :
    ∃ f below s', m.stack = f :: below ∧ f.id = id ∧
      m.effectOf kb f below s = (.error fault, s') := by
  cases hm : m.stack with
  | nil =>
    rw [step_nil hm] at h
    exact absurd h (by simp)
  | cons f below =>
    by_cases hl : m.limitReached = true
    · rw [step_of_limitReached hm hl] at h
      exact absurd h (by simp)
    · rw [step_eq hm (by simpa using hl)] at h
      cases he : m.effectOf kb f below s with
      | mk r s' =>
        rw [he] at h
        cases r with
        | error fault' =>
          obtain ⟨hid, rfl⟩ : f.id = id ∧ fault' = fault := by simpa using h
          exact ⟨f, below, s', rfl, hid, he⟩
        | ok e => cases e <;> exact absurd h (by simp [outcomeOf])

/-- The faults a request to a knowledge base can end with. -/
inductive AskFault : Fault → Prop where
  | noKnowledgeBase : AskFault .noKnowledgeBase
  | noListClass : AskFault .noListClass
  | dump (cause : KnowledgeFault) : AskFault (.dump cause)
  | knowledge (cause : KnowledgeFault) : AskFault (.knowledge cause)

theorem askFault_of_ask {base : KnowledgeBase σ} {heap : Heap} {r : Request} {s s' : σ}
    {fault : Fault} (h : base.ask heap r s = (.error fault, s')) : AskFault fault := by
  rw [KnowledgeBase.ask] at h
  split at h
  · obtain rfl := Except.error.inj (Prod.mk.inj h).1
    exact .dump _
  · split at h
    · obtain rfl := Except.error.inj (Prod.mk.inj h).1
      exact .knowledge _
    · simp at h

/-- A frame fails because its owner is missing, because of its head, or because of the
    knowledge base. -/
theorem effectOf_eq_error {m : Machine} {f : Frame} {below : List Frame} {s s' : σ}
    {fault : Fault} (h : m.effectOf kb f below s = (.error fault, s')) :
    (m.heap.contains f.owner = false ∧ fault = .unknownObject f.owner) ∨
      f.stmt.head.Refuses m.classes (m.scopeOf f) (f.callerIn below) fault ∨
      AskFault fault := by
  rw [effectOf] at h
  split at h
  · rename_i fault' hi
    obtain ⟨rfl, -⟩ : fault' = fault ∧ s = s' := by simpa using h
    exact (intentOf_eq_error hi).imp_right .inl
  · -- the head has an intent, so only a request can fail
    rename_i i rest hi
    refine .inr (.inr ?_)
    cases i with
    | act e' => simp [resolve] at h
    | ask r target =>
      cases kb with
      | none =>
        obtain ⟨rfl, -⟩ : Fault.noKnowledgeBase = fault ∧ s = s' := by simpa [resolve] using h
        exact .noKnowledgeBase
      | some base =>
        simp only [resolve] at h
        split at h
        · obtain ⟨rfl, -⟩ : Fault.noListClass = fault ∧ s = s' := by simpa using h
          exact .noListClass
        · split at h
          · rename_i fault' s₁ hask
            obtain ⟨rfl, -⟩ : fault' = fault ∧ s₁ = s' := by simpa using h
            exact askFault_of_ask hask
          · split at h
            · rename_i cause _
              obtain ⟨rfl, -⟩ : Fault.knowledge cause = fault ∧ _ = s' := by simpa using h
              exact .knowledge cause
            · simp at h

end Machine

/-! ### Any number of steps -/

namespace Machine

variable {σ : Type} {kb : Option (KnowledgeBase σ)}

/-- The machine and the state of the knowledge base after `n` steps, which are taken one after
    the other whether they succeed or fail. -/
def advance (kb : Option (KnowledgeBase σ)) : Nat → Machine → σ → Machine × σ
  | 0, m, s => (m, s)
  | n + 1, m, s => advance kb n (m.step kb s).machine (m.step kb s).knowledge

/-- How each of the first `n` steps ends, and what it prints. -/
def transcript (kb : Option (KnowledgeBase σ)) : Nat → Machine → σ → List (Outcome × String)
  | 0, _, _ => []
  | n + 1, m, s =>
    ((m.step kb s).outcome, (m.step kb s).printed) ::
      transcript kb n (m.step kb s).machine (m.step kb s).knowledge

end Machine

/-! ### Operations -/

/-- What can be done to a machine from outside. A step is given the state of the knowledge base
    at that moment, which other machines may have changed. -/
inductive Operation (σ : Type) where
  | start (main : Stmt)
  | push (stmt : Stmt) (owner : Value) (locals : Memory)
  | step (s : σ)
  /-- Goes on with an independent machine on a copy of the heap. -/
  | fork

namespace Machine

variable {σ : Type} {kb : Option (KnowledgeBase σ)}

/-- The machine after an operation. Scheduling a frame may fail, which changes nothing; a failing
    step leaves a machine of its own behind. -/
def operate (kb : Option (KnowledgeBase σ)) (m : Machine) : Operation σ → Machine
  | .start main =>
    match m.start main with
    | .ok (_, m') => m'
    | .error _ => m
  | .push stmt owner locals =>
    match m.push stmt owner locals with
    | .ok (_, m') => m'
    | .error _ => m
  | .step s => (m.step kb s).machine
  | .fork => m.fork

/-- The machine after a list of operations. -/
def operateAll (kb : Option (KnowledgeBase σ)) (m : Machine) (ops : List (Operation σ)) :
    Machine :=
  ops.foldl (operate kb) m

/-- What every allowed operation preserves holds after any number of them, in any order. -/
theorem operateAll_preserves {P : Machine → Prop} (allowed : Operation σ → Prop)
    (hop : ∀ m op, P m → allowed op → P (m.operate kb op)) {m : Machine} (hm : P m)
    {ops : List (Operation σ)} (hops : ∀ op ∈ ops, allowed op) : P (m.operateAll kb ops) := by
  induction ops generalizing m with
  | nil => exact hm
  | cons op ops ih =>
    have hm' : P (m.operate kb op) := hop m op hm (hops op (by simp))
    exact ih hm' fun op' h => hops op' (by simp [h])

/-- A program can always be started: its frame is on top, on behalf of a new object. -/
theorem start_eq (m : Machine) (main : Stmt) :
    let entry : Value := .object (m.heap.create entryClass ∅).1
    let f : Frame := ⟨m.lastFrame + 1, m.lastKey + 1, main,
      SortedMap.insert ∅ "this" entry, entry, none⟩
    m.start main = .ok (f, { m with
      heap := (m.heap.create entryClass ∅).2
      stack := f :: m.stack
      lastFrame := m.lastFrame + 1
      lastKey := m.lastKey + 1 }) :=
  if_pos (m.heap.contains_create_self entryClass ∅)

/-- Scheduling a statement does nothing, or puts a frame on top on behalf of an object of the
    heap. -/
theorem operate_push_cases (m : Machine) (stmt : Stmt) (owner : Value) (locals : Memory) :
    m.operate kb (.push stmt owner locals) = m ∨
      m.heap.contains owner = true ∧ m.operate kb (.push stmt owner locals) = { m with
        stack := ⟨m.lastFrame + 1, m.lastKey + 1, stmt, locals.insert "this" owner, owner, none⟩ ::
          m.stack
        lastFrame := m.lastFrame + 1
        lastKey := m.lastKey + 1 } := by
  by_cases howner : m.heap.contains owner = true
  · exact .inr ⟨howner, by simp [operate, push, howner]⟩
  · exact .inl (by simp [operate, push, howner])

theorem exists_start (m : Machine) (main : Stmt) : ∃ f m', m.start main = .ok (f, m') :=
  ⟨_, _, m.start_eq main⟩

end Machine

end ObjectMachine
