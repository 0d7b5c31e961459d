import ObjectMachine.Proofs.Aftermath
import ObjectMachine.Proofs.Meaning
import ObjectMachine.Proofs.Runs

namespace ObjectMachine

/-!
# Activations on the stack

The meaning of statements speaks of activations and states, the machine of frames and what they
have left to run. This file ties the two together and follows single steps:

* `Machine.At` — an activation has a list of statements left to run on top of some frames;
* `Machine.Leads`, `Machine.Goes` — parts of a run, with the state they start and end in;
* `Machine.At.act` — a step whose effect stays in the frame on top;
* `Machine.At.stop` — a step that fails.
-/

/-- The activation a frame belongs to. -/
def Frame.activation (f : Frame) : Activation :=
  ⟨f.id, f.owner, f.caller.isSome⟩

namespace Machine

variable {σ : Type} {kb : Option (KnowledgeBase σ)}

/-- The machine has the heap and the counter of a state, the classes `classes` and no step limit;
    its calls are disciplined and its owners are on the heap. -/
structure Agrees (classes : ClassTable) (m : Machine) (st : State σ) : Prop where
  classes : m.classes = classes
  heap : m.heap = st.heap
  lastFrame : m.lastFrame = st.lastFrame
  unlimited : m.maxSteps = 0
  disciplined : m.Disciplined
  owned : m.Owned

/-- The activation `a` has the statements of a list left to run on top of the frames `below`. If
    none are left, its frame was taken out of service last. -/
def At (classes : ClassTable) (m : Machine) (below : List Frame) (a : Activation) (st : State σ) :
    List Stmt → Prop
  | [] => m.Agrees classes st ∧ m.stack = below ∧ m.retired.head? = some (a.id, st.locals)
  | x :: xs => m.Agrees classes st ∧
      ∃ f, m.stack = f :: below ∧ f.activation = a ∧ f.locals = st.locals ∧
        f.stmt.leaves = x :: xs

variable {classes : ClassTable} {m : Machine} {below : List Frame} {a : Activation}
  {st : State σ} {x : Stmt} {xs : List Stmt}

/-- The variables of a state are those of a frame and not of the machine. -/
theorem Agrees.locals (h : m.Agrees classes st) (locals : Memory) :
    m.Agrees classes { st with locals := locals } :=
  ⟨h.classes, h.heap, h.lastFrame, h.unlimited, h.disciplined, h.owned⟩

theorem Agrees.limitReached (h : m.Agrees classes st) : m.limitReached = false := by
  rw [Machine.limitReached, h.unlimited]
  rfl

/-- The machine after a step agrees with a state that has the heap and the counter it has. -/
theorem Agrees.step (h : m.Agrees classes st) (s : σ) {st' : State σ}
    (hheap : (m.step kb s).machine.heap = st'.heap)
    (hlast : (m.step kb s).machine.lastFrame = st'.lastFrame)
    (hmax : (m.step kb s).machine.maxSteps = m.maxSteps) :
    (m.step kb s).machine.Agrees classes st' where
  classes := by rw [step_classes, h.classes]
  heap := hheap
  lastFrame := hlast
  unlimited := by rw [hmax, h.unlimited]
  disciplined := h.disciplined.of_moves (moves_step m s)
  owned := h.owned.step s

theorem At.agrees (h : At classes m below a st xs) : m.Agrees classes st := by
  cases xs <;> exact h.1

/-- A frame that has something left to run is the top one, and its owner is on the heap. -/
theorem At.frame (h : At classes m below a st (x :: xs)) :
    ∃ f, m.stack = f :: below ∧ f.activation = a ∧ f.locals = st.locals ∧ f.stmt.head = x ∧
      Stmt.leavesOf f.stmt.tail? = xs ∧ m.scopeOf f = a.scope st ∧
      m.heap.contains f.owner = true := by
  obtain ⟨hagrees, f, hm, ha, hl, hleaves⟩ := h
  obtain ⟨hhead, htail⟩ := Stmt.head_eq_of_leaves hleaves
  refine ⟨f, hm, ha, hl, hhead, htail, ?_, hagrees.owned f (hm ▸ List.mem_cons_self)⟩
  subst ha
  rw [scopeOf, Activation.scope, hl, hagrees.heap]
  rfl

/-- A frame on top has its leaves left to run. -/
theorem At.of_frame {f : Frame} (h : m.Agrees classes st) (hm : m.stack = f :: below)
    (ha : f.activation = a) (hl : f.locals = st.locals) :
    At classes m below a st f.stmt.leaves := by
  cases hleaves : f.stmt.leaves with
  | nil => exact absurd hleaves f.stmt.leaves_ne_nil
  | cons x xs => exact ⟨h, f, hm, ha, hl, hleaves⟩

/-- Scheduling a popped frame with what is left of it, or taking it out of service. -/
theorem At.of_proceed {f : Frame} {next : Option Stmt}
    (h : (m.proceed f next).Agrees classes st) (hm : m.stack = below) (ha : f.activation = a)
    (hl : f.locals = st.locals) :
    At classes (m.proceed f next) below a st (Stmt.leavesOf next) := by
  cases next with
  | none =>
    refine ⟨h, hm, ?_⟩
    subst ha
    exact congrArg (fun l => some (f.id, l)) hl
  | some s =>
    refine At.of_frame (f := { f with key := m.lastKey + 1, stmt := s }) h ?_ ha hl
    rw [← hm]
    rfl

/-- The value of a literal on behalf of an object of the heap. -/
theorem At.eval_lit (h : At classes m below a st (x :: xs)) (v : Value) :
    (Expr.lit v).eval (a.scope st) = .ok v := by
  obtain ⟨f, -, ha, -, -, -, -, hon⟩ := h.frame
  rw [h.agrees.heap] at hon
  subst ha
  exact Expr.eval_lit hon v

/-! ### Parts of a run -/

/-- A run of `m` goes on as one of `m'` after `n` steps. The states give the knowledge and what
    was printed so far. -/
def Leads (kb : Option (KnowledgeBase σ)) (n : Nat) (m : Machine) (st : State σ) (m' : Machine)
    (st' : State σ) : Prop :=
  ∀ k, runFrom kb (n + k) m st.knowledge st.printed =
    runFrom kb k m' st'.knowledge st'.printed

/-- A run of `m` is not finished after `n` steps. -/
def Goes (kb : Option (KnowledgeBase σ)) (n : Nat) (m : Machine) (st : State σ) : Prop :=
  (runFrom kb n m st.knowledge st.printed).Unfinished

theorem Leads.refl (m : Machine) (st : State σ) : Leads kb 0 m st m st := by
  intro k
  rw [Nat.zero_add]

theorem Leads.trans {n₁ n₂ : Nat} {m₁ m₂ m₃ : Machine} {st₁ st₂ st₃ : State σ}
    (h : Leads kb n₁ m₁ st₁ m₂ st₂) (h' : Leads kb n₂ m₂ st₂ m₃ st₃) :
    Leads kb (n₁ + n₂) m₁ st₁ m₃ st₃ := by
  intro k
  rw [Nat.add_assoc, h, h']

theorem Leads.goes {n d : Nat} {m m' : Machine} {st st' : State σ} (h : Leads kb n m st m' st')
    (hgoes : Goes kb d m' st') : Goes kb (n + d) m st := by
  rw [Goes, h]
  exact hgoes

/-- A step that is not a failure is part of a run, after which the machine agrees with every state
    that has what the step leaves. -/
theorem Agrees.leads (h : m.Agrees classes st) {f : Frame} (hm : m.stack = f :: below)
    {m' : Machine} {s' : σ} {text : String} {o : Outcome}
    (hstep : m.step kb st.knowledge = ⟨m', s', text, o⟩) (ho : o.fault? = none) {st' : State σ}
    (hheap : m'.heap = st'.heap) (hlast : m'.lastFrame = st'.lastFrame)
    (hmax : m'.maxSteps = m.maxSteps) (hknowledge : s' = st'.knowledge)
    (hprinted : st.printed ++ text = st'.printed) :
    Leads kb 1 m st m' st' ∧ m'.Agrees classes st' := by
  have hne : m.stack ≠ [] := by simp [hm]
  have hran : (m.step kb st.knowledge).outcome.fault? = none := by rw [hstep, ho]
  have hafter : (m.step kb st.knowledge).machine.Agrees classes st' := by
    refine h.step _ ?_ ?_ ?_
    · rw [hstep, hheap]
    · rw [hstep, hlast]
    · rw [hstep, hmax]
  rw [hstep] at hafter
  refine ⟨fun k => ?_, hafter⟩
  rw [Nat.add_comm, runFrom_succ hne hran, hstep, hknowledge, hprinted]

end Machine

/-! ### Effects that stay in their frame -/

namespace Effect

/-- What the running frame has left to run after an effect, if `xs` was to run after its head. -/
def leavesAfter (h : Heap) (xs : List Stmt) : Effect → List Stmt
  | become s => s.leaves ++ xs
  | create target cls fields =>
    .assign target (.lit (.object (h.create cls fields).1)) :: xs
  | enlist target contents => .assign target (.lit (h.addList .null contents).1) :: xs
  | _ => xs

theorem leavesOf_next {e : Effect} (he : e.stays = true) (h : Heap) (rest : Option Stmt) :
    Stmt.leavesOf (e.next h rest) = e.leavesAfter h (Stmt.leavesOf rest) := by
  cases e with
  | become s => simp [next, leavesAfter]
  | create target cls fields => simp [next, leavesAfter, Stmt.leaves]
  | enlist target contents => simp [next, leavesAfter, Stmt.leaves]
  | invoke target callee body locals => exact absurd he (by simp [stays])
  | resume g r => exact absurd he (by simp [stays])
  | _ => rfl

end Effect

namespace State

variable {σ : Type}

/-- The state after an effect of the running frame. -/
def after (st : State σ) (e : Effect) : State σ :=
  { st with
    heap := e.heapAfter st.heap
    locals := e.localsAfter st.locals
    printed := st.printed ++ Machine.printedBy e }

/-- An effect that prints nothing changes the heap and the variables only. -/
theorem after_of_silent (st : State σ) {e : Effect} (he : Machine.printedBy e = "") :
    st.after e = { st with
      heap := e.heapAfter st.heap
      locals := e.localsAfter st.locals } := by
  rw [after, he, String.append_empty]

end State

namespace Machine

variable {σ : Type} {kb : Option (KnowledgeBase σ)} {classes : ClassTable} {m : Machine}
  {below : List Frame} {a : Activation} {st : State σ} {x : Stmt} {xs : List Stmt}

theorem proceed_lastFrame (m : Machine) (f : Frame) (next : Option Stmt) :
    (m.proceed f next).lastFrame = m.lastFrame := by
  cases next <;> rfl

theorem fault?_outcomeOf (f : Frame) (e : Effect) : (outcomeOf f e).fault? = none := by
  cases e <;> rfl

/-- If what the head of the top frame wants is an effect that stays in the frame, one step brings
    the machine to where the effect leaves the frame. -/
theorem At.act (kb : Option (KnowledgeBase σ)) (h : At classes m below a st (x :: xs))
    {i : Intent} (hw : ∀ caller, x.Wants classes (a.scope st) caller i) {e : Effect} {s' : σ}
    (hr : m.resolve kb st.knowledge i = (.ok e, s')) (he : e.stays = true) :
    ∃ m', Leads kb 1 m st m' { st.after e with knowledge := s' } ∧
      At classes m' below a { st.after e with knowledge := s' } (e.leavesAfter st.heap xs) := by
  have hagrees := h.agrees
  obtain ⟨f, hm, ha, hl, rfl, htail, hscope, howner⟩ := h.frame
  have hwants : f.stmt.head.Wants m.classes (m.scopeOf f) (f.callerIn below) i := by
    rw [hagrees.classes, hscope]
    exact hw (f.callerIn below)
  have hstep : m.step kb st.knowledge =
      ⟨(m.running below).perform f f.stmt.tail? e, s', printedBy e, outcomeOf f e⟩ := by
    rw [step_eq hm hagrees.limitReached, effectOf_of_wants howner hwants, hr]
  rw [perform_of_stays he] at hstep
  obtain ⟨hleads, hafter⟩ : _ ∧ Agrees classes _ { st.after e with knowledge := s' } := by
    refine hagrees.leads hm hstep (fault?_outcomeOf f e) ?_ ?_ ?_ rfl rfl
    · rw [proceed_heap]
      exact congrArg e.heapAfter hagrees.heap
    · rw [proceed_lastFrame]
      exact hagrees.lastFrame
    · rw [proceed_maxSteps]
      rfl
  refine ⟨_, hleads, ?_⟩
  -- the frame is scheduled again with what the effect leaves, or retired if that is nothing
  rw [← htail, ← hagrees.heap, ← Effect.leavesOf_next he]
  exact At.of_proceed hafter rfl ha (congrArg e.localsAfter hl)

/-- The variables of a frame that was just taken off a disciplined stack are still known. -/
theorem locals?_retire {f : Frame} (h : m.Disciplined) (hm : m.stack = f :: below) :
    ((m.running below).retire f).locals? f.id = some f.locals := by
  rw [Machine.Disciplined, hm] at h
  have hframe : ((m.running below).retire f).frame? f.id = none := by
    -- ids are distinct, so the frame is not found among those that are left
    refine List.find?_eq_none.2 fun g hg heq => h.id_notMem ?_
    have hid : g.id = f.id := by simpa using heq
    exact hid ▸ List.mem_map_of_mem hg
  rw [locals?, hframe]
  show (List.find? _ ((f.id, f.locals) :: m.retired)).map Prod.snd = _
  simp

/-- If the top frame has no effect, one step ends the run: the frame is gone, its variables are
    still known, and the frames beneath it are where they were. -/
theorem At.stop (h : At classes m below a st (x :: xs)) {fault : Fault} {s' : σ}
    (he : ∀ f, m.stack = f :: below → f.activation = a → f.stmt.head = x →
      m.scopeOf f = a.scope st → m.heap.contains f.owner = true →
      m.effectOf kb f below st.knowledge = (.error fault, s')) :
    ∃ m', (∀ k, runFrom kb (1 + k) m st.knowledge st.printed =
        ⟨m', s', st.printed, some (.frame a.id fault)⟩) ∧
      m'.Agrees classes { st with knowledge := s' } ∧ m'.stack = below ∧
      m'.locals? a.id = some st.locals := by
  have hagrees := h.agrees
  obtain ⟨f, hm, ha, hl, hhead, -, hscope, howner⟩ := h.frame
  have hstep : m.step kb st.knowledge =
      ⟨(m.running below).retire f, s', "", .failed (.frame f.id fault)⟩ := by
    rw [step_eq hm hagrees.limitReached, he f hm ha hhead hscope howner]
  have hid : f.id = a.id := congrArg Activation.id ha
  have hne : m.stack ≠ [] := by simp [hm]
  have hfault : (m.step kb st.knowledge).outcome.fault? = some (.frame f.id fault) := by
    rw [hstep]
    rfl
  have hafter : (m.step kb st.knowledge).machine.Agrees classes { st with knowledge := s' } := by
    refine hagrees.step _ ?_ ?_ ?_
    · rw [hstep]
      exact hagrees.heap
    · rw [hstep]
      exact hagrees.lastFrame
    · rw [hstep]
      rfl
  refine ⟨(m.step kb st.knowledge).machine, fun k => ?_, hafter, ?_, ?_⟩
  · rw [Nat.add_comm, runFrom_failed hne hfault, hstep, hid, String.append_empty]
  · rw [hstep]
    rfl
  · rw [hstep, ← hid, ← hl]
    exact locals?_retire hagrees.disciplined hm

/-- A frame of a disciplined machine is found by its id. -/
theorem Disciplined.frame?_eq (h : m.Disciplined) {above : List Frame} {g : Frame}
    (hm : m.stack = above ++ g :: below) : m.frame? g.id = some g := by
  rw [Machine.Disciplined, hm] at h
  have hnone : above.find? (fun f => decide (f.id = g.id)) = none := by
    refine List.find?_eq_none.2 fun f hf heq => ?_
    have hid : f.id = g.id := by simpa using heq
    have hnodup := h.ids_distinct
    rw [List.map_append, List.nodup_append] at hnodup
    exact hnodup.2.2 f.id (List.mem_map_of_mem hf) g.id (by simp) hid
  rw [frame?, hm, List.find?_append, hnone]
  simp

end Machine

end ObjectMachine
