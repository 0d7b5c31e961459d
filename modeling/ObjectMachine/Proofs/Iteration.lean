import ObjectMachine.Proofs.Bracketing
import ObjectMachine.Proofs.Growth
import ObjectMachine.Proofs.Operands
import ObjectMachine.Proofs.Runs

namespace ObjectMachine

/-!
# One iteration after the other

A loop is unrolled to its body with the loop behind it. The body runs as it would run on its own,
and when it is done the frame is left with exactly the loop again, and with what was to come after
it:

* `Place` — where a frame stands in a stack, and what it goes on with;
* `Machine.Within` — a machine runs on its own, and another one runs it in such a place;
* `Machine.Within.step` — both take the same steps;
* `Machine.Within.run` — so if the one ends without a fault, the other goes on from there;
* `continuations_do_not_grow` — the bound for what is left to run, and what follows for loops.
-/

/-! ### A frame in its place -/

/-- Where a frame stands in a stack: its id, its owner and its caller, what is to come after what
    it runs, and the frames beneath it. -/
structure Place where
  id : Nat
  owner : Value
  caller : Option FrameRef
  next : Stmt
  below : List Frame

/-- A frame that ran on its own, in its place. -/
def Place.frame (p : Place) (f : Frame) : Frame :=
  { f with stmt := f.stmt.append p.next, caller := p.caller }

/-- What wants no return does not depend on the caller. -/
theorem Stmt.Wants.of_caller {classes : ClassTable} {sc : Scope} {caller caller' : Caller}
    {s : Stmt} {i : Intent} (h : s.Wants classes sc caller i)
    (hi : ∀ g r, i ≠ .act (.resume g r)) : s.Wants classes sc caller' i := by
  cases h with
  | ret hg hw he => exact absurd rfl (hi _ _)
  | skip => exact .skip
  | breakpoint => exact .breakpoint
  | print he => exact .print he
  | setVar he => exact .setVar he
  | setOwn he hw => exact .setOwn he hw
  | setField he hb hw => exact .setField he hb hw
  | call hc hr hm hlen hargs => exact .call hc hr hm hlen hargs
  | create hf hlen hargs => exact .create hf hlen hargs
  | onTrue he => exact .onTrue he
  | onFalse he => exact .onFalse he
  | loop => exact .loop
  | query hr => exact .query hr
  | derive hr => exact .derive hr

theorem Stmt.received_before (target : Option Location) (rest : Option Stmt) (v : Value)
    (next : Stmt) :
    received target (some (before rest next)) v = some (before (received target rest v) next) := by
  cases target <;> cases rest <;> rfl

/-- What an effect leaves of the running frame, if more was put behind it. -/
theorem Effect.next_before (h : Heap) (rest : Option Stmt) (next : Stmt) {e : Effect}
    (he : ∀ g r, e ≠ .resume g r) :
    e.next h (some (Stmt.before rest next)) = some (Stmt.before (e.next h rest) next) := by
  -- putting more behind a statement and what comes after it is associative
  have hjoin : ∀ s : Stmt,
      s.andThen (some (Stmt.before rest next)) = (s.andThen rest).append next := by
    intro s
    cases rest with
    | none => rfl
    | some r => exact (Stmt.append_assoc s r next).symm
  cases e with
  | resume g r => exact absurd rfl (he g r)
  | become s => exact congrArg some (hjoin s)
  | create target cls fields => exact congrArg some (hjoin _)
  | enlist target contents => exact congrArg some (hjoin _)
  | invoke target callee body locals => exact congrArg some (hjoin _)
  | _ => rfl

namespace Machine

variable {σ : Type} {kb : Option (KnowledgeBase σ)} {p : Place} {m m' : Machine}

theorem resolve_congr (hclasses : m'.classes = m.classes) (hheap : m'.heap = m.heap) (s : σ)
    (i : Intent) : m'.resolve kb s i = m.resolve kb s i := by
  cases i with
  | act e => rfl
  | ask r target =>
    cases kb with
    | none => rfl
    | some base => simp only [resolve, hclasses, hheap]

/-- An effect is what the head wants, or the answer to what it asks. -/
theorem exists_wants_of_effectOf {f : Frame} {below : List Frame} {s s' : σ} {e : Effect}
    (h : m.effectOf kb f below s = (.ok e, s')) :
    m.heap.contains f.owner = true ∧
      ∃ i, f.stmt.head.Wants m.classes (m.scopeOf f) (f.callerIn below) i ∧
        m.resolve kb s i = (.ok e, s') := by
  rw [effectOf] at h
  split at h
  · simp at h
  · rename_i i rest hi
    obtain ⟨howner, -, hw⟩ := intentOf_eq_ok hi
    exact ⟨howner, i, hw, h⟩

variable {s s' : σ} {below below' : List Frame}

/-- Frames with the same head, variables and owner have the same effect, unless they return. -/
theorem effectOf_of_alike (hclasses : m'.classes = m.classes) (hheap : m'.heap = m.heap)
    {f f' : Frame} (hhead : f'.stmt.head = f.stmt.head) (hlocals : f'.locals = f.locals)
    (howner : f'.owner = f.owner) {e : Effect} (he : m.effectOf kb f below s = (.ok e, s'))
    (hreturn : ∀ g r, e ≠ .resume g r) :
    m'.effectOf kb f' below' s = (.ok e, s') := by
  obtain ⟨hcontains, i, hwants, hresolve⟩ := exists_wants_of_effectOf he
  have hi : ∀ g r, i ≠ .act (.resume g r) := by
    rintro g r rfl
    exact hreturn g r (Except.ok.inj (Prod.mk.inj hresolve).1).symm
  have hscope : m'.scopeOf f' = m.scopeOf f := by
    simp only [scopeOf, hheap, hlocals, howner]
  have hcontains' : m'.heap.contains f'.owner = true := by
    rw [hheap, howner]
    exact hcontains
  have hwants' : f'.stmt.head.Wants m'.classes (m'.scopeOf f') (f'.callerIn below') i := by
    rw [hhead, hclasses, hscope]
    exact hwants.of_caller hi
  rw [effectOf_of_wants hcontains' hwants', resolve_congr hclasses hheap]
  exact hresolve

/-- A frame returns the same value to whichever frame waits for it. -/
theorem effectOf_return (m' : Machine) (below' : List Frame) (hheap : m'.heap = m.heap)
    {t g : Frame} {next : Option Stmt}
    (he : m.effectOf kb t below s = (.ok (.resume g next), s')) :
    ∃ target rest v, g.stmt.awaiting? = some (target, rest) ∧
      next = Stmt.received target rest v ∧
      ∀ g' target' rest', t.callerIn below' = .waiting g' →
        g'.stmt.awaiting? = some (target', rest') →
        m'.effectOf kb t below' s =
          (.ok (.resume g' (Stmt.received target' rest' v)), s') := by
  obtain ⟨hcontains, henacts⟩ := enacts_of_effectOf he
  cases henacts with
  | act hw =>
    generalize hx : t.stmt.head = x at hw
    cases hw with
    | @ret x v _ target rest hg hawait hv =>
      refine ⟨target, rest, v, hawait, rfl, ?_⟩
      intro g' target' rest' hg' hawait'
      have hcontains' : m'.heap.contains t.owner = true := by
        rw [hheap]
        exact hcontains
      have hv' : x.eval (m'.scopeOf t) = .ok v := by
        rw [scopeOf, hheap]
        exact hv
      have hwants' : t.stmt.head.Wants m'.classes (m'.scopeOf t) (t.callerIn below')
          (.act (.resume g' (Stmt.received target' rest' v))) := by
        rw [hx]
        exact .ret hg' hawait' hv'
      exact effectOf_of_wants hcontains' hwants' s

/-- A step carries out the effect of the top frame. -/
theorem step_of_effectOf {f : Frame} (hm : m.stack = f :: below) (hl : m.limitReached = false)
    {e : Effect} (he : m.effectOf kb f below s = (.ok e, s')) :
    m.step kb s =
      ⟨(m.running below).perform f f.stmt.tail? e, s', printedBy e, outcomeOf f e⟩ := by
  rw [step_eq hm hl, he]

/-- A step that does not fail is within the limit, and the top frame has an effect. -/
theorem effectOf_of_ok {f : Frame} (hm : m.stack = f :: below)
    (hok : (m.step kb s).outcome.fault? = none) :
    m.limitReached = false ∧ ∃ e s', m.effectOf kb f below s = (.ok e, s') := by
  cases hl : m.limitReached with
  | true =>
    rw [step_of_limitReached hm hl] at hok
    exact absurd hok (by simp [Outcome.fault?])
  | false =>
    refine ⟨rfl, ?_⟩
    rw [step_eq hm hl] at hok
    cases he : m.effectOf kb f below s with
    | mk r s' =>
      cases r with
      | ok e => exact ⟨e, s', rfl⟩
      | error fault =>
        rw [he] at hok
        exact absurd hok (by simp [Outcome.fault?])

/-- A run that ends without a fault leaves nothing to run, and it does not start at the limit. -/
theorem Ends.of_ok {r : RunResult σ} (h : m.Ends kb s r) (hr : r.fault = none) :
    r.machine.stack = [] ∧ (m.stack ≠ [] → m.limitReached = false) := by
  obtain ⟨hfinished, fuel, rfl⟩ := h
  have hdone : (m.runFor kb fuel s).machine.stack = [] := by
    by_cases hstack : (m.runFor kb fuel s).machine.stack = []
    · exact hstack
    · exact absurd ⟨hr, hstack⟩ hfinished
  refine ⟨hdone, fun hne => ?_⟩
  cases fuel with
  | zero => exact absurd hdone hne
  | succ fuel =>
    obtain ⟨f, below, hstack⟩ := List.exists_cons_of_ne_nil hne
    cases hstep : (m.step kb s).outcome.fault? with
    | none => exact (effectOf_of_ok hstack hstep).1
    | some fault =>
      rw [runFor, runFrom_failed hne hstep] at hr
      exact absurd hr (by simp)

/-- `m'` runs what `m` runs on its own in the place `p`: the lowest frame of `m` has more to do
    there, and once `m` is done, that is all that is left of it. -/
inductive Within (p : Place) (m m' : Machine) : Prop where
  | running (above : List Frame) (f : Frame) (hm : m.stack = above ++ [f]) (hid : f.id = p.id)
      (howner : f.owner = p.owner)
      (hm' : m' = { m with stack := above ++ p.frame f :: p.below })
  | finished (key : Nat) (locals : Memory) (hm : m.stack = [])
      (hretired : m.retired.head? = some (p.id, locals))
      (hm' : m'.stack = ⟨p.id, key, p.next, locals, p.owner, p.caller⟩ :: p.below)
      (hheap : m'.heap = m.heap) (hsteps : m'.steps = m.steps)

namespace Within

variable {f t : Frame} {above : List Frame} {rest : Option Stmt} {e : Effect}

/-- A frame above the lowest one does the same in both machines. -/
theorem perform_upper (hid : f.id = p.id) (howner : f.owner = p.owner)
    (he : ∀ g r, e ≠ .resume g r) :
    Within p ((m.running (above ++ [f])).perform t rest e)
      ((m.running (above ++ p.frame f :: p.below)).perform t rest e) := by
  cases hstays : e.stays with
  | true =>
    rw [perform_of_stays hstays, perform_of_stays hstays]
    show Within p (proceed _ _ (e.next m.heap rest)) (proceed _ _ (e.next m.heap rest))
    cases e.next m.heap rest with
    | none => exact .running above f rfl hid howner rfl
    | some s => exact .running (_ :: above) f rfl hid howner rfl
  | false =>
    cases e with
    | invoke target callee body locals =>
      exact .running (_ :: _ :: above) f rfl hid howner rfl
    | resume g r => exact absurd rfl (he g r)
    | _ => exact absurd hstays (by simp [Effect.stays])

/-- The lowest frame goes on with what is next in its place. -/
theorem proceed_lowest (hid : f.id = p.id) (howner : f.owner = p.owner) (hm : m.stack = [])
    (next : Option Stmt) :
    Within p (m.proceed f next)
      (proceed { m with stack := p.below } (p.frame f) (some (Stmt.before next p.next))) := by
  cases next with
  | none =>
    refine .finished (m.lastKey + 1) f.locals hm ?_ ?_ rfl rfl
    · rw [← hid]
      rfl
    · rw [← hid, ← howner]
      rfl
  | some s =>
    refine .running [] { f with key := m.lastKey + 1, stmt := s } ?_ hid howner rfl
    show _ :: m.stack = _
    rw [hm]
    rfl

theorem perform_lowest (hid : f.id = p.id) (howner : f.owner = p.owner)
    (he : ∀ g r, e ≠ .resume g r) :
    Within p ((m.running []).perform f rest e)
      ((m.running p.below).perform (p.frame f) (some (Stmt.before rest p.next)) e) := by
  cases hstays : e.stays with
  | true =>
    rw [perform_of_stays hstays, perform_of_stays hstays, Effect.next_before _ _ _ he]
    exact proceed_lowest (f := { f with locals := e.localsAfter f.locals }) hid howner rfl _
  | false =>
    cases e with
    | invoke target callee body locals =>
      have hnext := Option.some.inj (Effect.next_before m.heap rest p.next he)
      refine .running [_]
        { f with key := m.lastKey + 1, stmt := (Stmt.storeReturn target).andThen rest }
        rfl hid howner ?_
      rw [perform, hnext]
      rfl
    | resume g r => exact absurd rfl (he g r)
    | _ => exact absurd hstays (by simp [Effect.stays])

/-- A return takes the caller off the stack together with the frame that returns. -/
theorem unschedule_retire (g : Frame) (gs : List Frame) :
    ((m.running (g :: gs)).retire t).unschedule g.key = (m.running gs).retire t := by
  unfold unschedule
  exact congrArg (fun stack => { (m.running []).retire t with stack := stack })
    (eraseP_key_cons g gs)

/-- A return to the lowest frame. -/
theorem resume_lowest (hid : f.id = p.id) (howner : f.owner = p.owner) (next : Option Stmt) :
    Within p ((m.running [f]).perform t rest (.resume f next))
      ((m.running (p.frame f :: p.below)).perform t rest
        (.resume (p.frame f) (some (Stmt.before next p.next)))) := by
  rw [perform, perform, unschedule_retire, unschedule_retire]
  exact proceed_lowest hid howner rfl next

/-- A return to a frame above the lowest one. -/
theorem resume_upper {g : Frame} (hid : f.id = p.id) (howner : f.owner = p.owner)
    (next : Option Stmt) :
    Within p ((m.running (g :: (above ++ [f]))).perform t rest (.resume g next))
      ((m.running (g :: (above ++ p.frame f :: p.below))).perform t rest (.resume g next)) := by
  rw [perform, perform, unschedule_retire, unschedule_retire]
  cases next with
  | none => exact .running above f rfl hid howner rfl
  | some s => exact .running (_ :: above) f rfl hid howner rfl

/-! ### Steps -/

/-- The lowest frame has no caller to return to on its own, so it does the same in its place. -/
theorem enact_lowest (hid : f.id = p.id) (howner : f.owner = p.owner)
    (he : m.effectOf kb f [] s = (.ok e, s')) :
    effectOf kb { m with stack := p.frame f :: p.below } (p.frame f) p.below s = (.ok e, s') ∧
      Within p ((m.running []).perform f f.stmt.tail? e)
        ((m.running p.below).perform (p.frame f) (p.frame f).stmt.tail? e) := by
  have hreturn : ∀ g r, e ≠ .resume g r := by
    rintro g r rfl
    have hg : f.callerIn [] = .waiting g := (enacts_of_effectOf he).2.callerIn_of_resume
    exact absurd (Frame.mem_of_callerIn hg) List.not_mem_nil
  have htail : (p.frame f).stmt.tail? = some (Stmt.before f.stmt.tail? p.next) :=
    Stmt.tail?_append _ _
  have hhead : (p.frame f).stmt.head = f.stmt.head := Stmt.head_append _ _
  refine ⟨effectOf_of_alike (m := m) (f := f) rfl rfl hhead rfl rfl he hreturn, ?_⟩
  rw [htail]
  exact perform_lowest hid howner hreturn

/-- A frame above the lowest one returns to the frame right beneath it, in both machines. -/
theorem enact_upper (hm : m.Disciplined) (hstack : m.stack = t :: (above ++ [f]))
    (hid : f.id = p.id) (howner : f.owner = p.owner)
    (he : m.effectOf kb t (above ++ [f]) s = (.ok e, s')) :
    ∃ e', effectOf kb { m with stack := t :: (above ++ p.frame f :: p.below) } t
        (above ++ p.frame f :: p.below) s = (.ok e', s') ∧
      Within p ((m.running (above ++ [f])).perform t t.stmt.tail? e)
        ((m.running (above ++ p.frame f :: p.below)).perform t t.stmt.tail? e') := by
  by_cases hreturn : ∃ g next, e = .resume g next
  · obtain ⟨g, next, rfl⟩ := hreturn
    obtain ⟨target, rest, v, hawait, rfl, htransfer⟩ :=
      effectOf_return { m with stack := t :: (above ++ p.frame f :: p.below) }
        (above ++ p.frame f :: p.below) rfl he
    rw [Machine.Disciplined, hstack] at hm
    have hg : t.callerIn (above ++ [f]) = .waiting g :=
      (enacts_of_effectOf he).2.callerIn_of_resume
    obtain ⟨gs, hbelow, hcaller, -⟩ := hm.below_of_callerIn hg
    cases above with
    | nil =>
      obtain ⟨rfl, rfl⟩ := List.cons.inj hbelow
      have hg' : t.callerIn (p.frame f :: p.below) = .waiting (p.frame f) := by
        rw [Frame.callerIn, hcaller]
        simp [Frame.ref, Place.frame]
      have hawait' : (p.frame f).stmt.awaiting? =
          some (target, some (Stmt.before rest p.next)) := by
        rw [Place.frame, Stmt.awaiting?_append, hawait]
        rfl
      refine ⟨_, htransfer (p.frame f) target _ hg' hawait', ?_⟩
      rw [Stmt.received_before]
      exact resume_lowest hid howner _
    | cons g' above =>
      obtain ⟨rfl, rfl⟩ := List.cons.inj hbelow
      have hg' : t.callerIn (g' :: (above ++ p.frame f :: p.below)) = .waiting g' := by
        rw [Frame.callerIn, hcaller]
        simp [Frame.ref]
      exact ⟨_, htransfer g' target rest hg' hawait, resume_upper hid howner _⟩
  · have hreturn' : ∀ g r, e ≠ .resume g r := fun g r heq => hreturn ⟨g, r, heq⟩
    exact ⟨e, effectOf_of_alike (m := m) (f := t) rfl rfl rfl rfl rfl he hreturn',
      perform_upper hid howner hreturn'⟩

/-- As long as no step fails, both machines take the same steps. -/
theorem step (hm : m.Disciplined) (h : Within p m m') (hne : m.stack ≠ [])
    (hok : (m.step kb s).outcome.fault? = none) :
    Within p (m.step kb s).machine (m'.step kb s).machine ∧
      (m'.step kb s).knowledge = (m.step kb s).knowledge := by
  cases h with
  | finished _ _ hstack _ _ _ _ => exact absurd hstack hne
  | running above f hstack hid howner hm' =>
    cases above with
    | nil =>
      have hstack' : m'.stack = p.frame f :: p.below := congrArg Machine.stack hm'
      obtain ⟨hlimit, e, s', he⟩ := effectOf_of_ok hstack hok
      obtain ⟨he', hwithin⟩ := enact_lowest hid howner he
      subst hm'
      rw [step_of_effectOf hstack hlimit he, step_of_effectOf hstack' hlimit he']
      exact ⟨hwithin, rfl⟩
    | cons t above =>
      have hstack' : m'.stack = t :: (above ++ p.frame f :: p.below) :=
        congrArg Machine.stack hm'
      obtain ⟨hlimit, e, s', he⟩ := effectOf_of_ok hstack hok
      obtain ⟨e', he', hwithin⟩ := enact_upper hm hstack hid howner he
      subst hm'
      rw [step_of_effectOf hstack hlimit he, step_of_effectOf hstack' hlimit he']
      exact ⟨hwithin, rfl⟩

/-- If what runs on its own ends without a fault, then in its place it is followed by what comes
    next there, with the heap and the variables it has left. -/
theorem run (hm : m.Disciplined) (h : Within p m m') {fuel : Nat} {printed : String}
    (hfault : (m.runFrom kb fuel s printed).fault = none)
    (hdone : (m.runFrom kb fuel s printed).machine.stack = []) :
    ∃ n, Within p (m.runFrom kb fuel s printed).machine (m'.advance kb n s).1 ∧
      (m'.advance kb n s).2 = (m.runFrom kb fuel s printed).knowledge := by
  induction fuel generalizing m m' s printed with
  | zero => exact ⟨0, h, rfl⟩
  | succ fuel ih =>
    by_cases hnil : m.stack = []
    · rw [runFrom_nil hnil]
      exact ⟨0, h, rfl⟩
    · cases hstep : (m.step kb s).outcome.fault? with
      | some fault =>
        rw [runFrom_failed hnil hstep] at hfault
        exact absurd hfault (by simp)
      | none =>
        rw [runFrom_succ hnil hstep] at hfault hdone ⊢
        obtain ⟨hwithin, hknowledge⟩ := h.step hm hnil hstep
        obtain ⟨n, hn, hs⟩ := ih (hm.of_moves (moves_step m s)) hwithin hfault hdone
        refine ⟨n + 1, ?_⟩
        rw [advance, hknowledge]
        exact ⟨hn, hs⟩

theorem ends (hm : m.Disciplined) (h : Within p m m') {r : RunResult σ} (hends : m.Ends kb s r)
    (hfault : r.fault = none) :
    ∃ n, Within p r.machine (m'.advance kb n s).1 ∧ (m'.advance kb n s).2 = r.knowledge := by
  obtain ⟨hdone, -⟩ := hends.of_ok hfault
  obtain ⟨-, fuel, rfl⟩ := hends
  exact h.run hm hfault hdone

end Within

/-! ### Loops -/

/-- The machine with the top frame alone, which has nothing to run but `s` and no caller. -/
def only (m : Machine) (s : Stmt) : Machine :=
  { m with stack := (m.stack.take 1).map fun f => { f with stmt := s, caller := none } }

theorem Disciplined.only (hm : m.Disciplined) (x : Stmt) : (m.only x).Disciplined := by
  unfold Machine.Disciplined at hm ⊢
  cases hstack : m.stack with
  | nil =>
    rw [Machine.only, hstack]
    exact .nil _ _
  | cons f below =>
    rw [hstack] at hm
    rw [Machine.only, hstack]
    refine ⟨linked_cons.2 ⟨.inl rfl, .nil⟩, ?_, ?_, ?_, ?_⟩
    · simp
    · simpa using hm.ids_le f List.mem_cons_self
    · simp
    · simpa using hm.keys_le f List.mem_cons_self

/-- The next iteration of the loop that the top frame is about to run: the guard is true, and when
    it is the turn of the body, two steps later, the body on its own ends without a fault and leaves
    `r` behind. -/
structure Iterates (kb : Option (KnowledgeBase σ)) (m : Machine) (s : σ) (guard : Expr)
    (body : Stmt) (r : RunResult σ) : Prop where
  guard : m.evalTop guard = some (.ok (.boolean true))
  body : ((m.advance kb 2 s).1.only body).Ends kb (m.advance kb 2 s).2 r
  fault : r.fault = none

end Machine

/-- A statement other than a sequence is run before what comes next. -/
theorem Stmt.head_andThen {x : Stmt} (hx : x.isSeq = false) (rest : Option Stmt) :
    (x.andThen rest).head = x ∧ (x.andThen rest).tail? = rest := by
  cases rest with
  | none => exact ⟨head_of_not_isSeq hx, tail?_of_not_isSeq hx⟩
  | some next =>
    rw [andThen, append_of_not_isSeq hx, head, tail?, tail?_of_not_isSeq hx]
    exact ⟨head_of_not_isSeq hx, rfl⟩

namespace Machine

variable {σ : Type} {kb : Option (KnowledgeBase σ)} {m : Machine} {s : σ} {f : Frame}
  {below : List Frame}

/-- A statement that goes on as another one. -/
theorem step_of_become {x y : Stmt} {rest : Option Stmt} (hm : m.stack = f :: below)
    (hl : m.limitReached = false) (howner : m.heap.contains f.owner = true)
    (hx : x.isSeq = false) (hf : f.stmt = x.andThen rest)
    (hw : x.Wants m.classes (m.scopeOf f) (f.callerIn below) (.act (.become y))) :
    m.step kb s = ⟨(m.running below).rewrite f (y.andThen rest), s, "", .ran⟩ := by
  obtain ⟨hhead, htail⟩ := Stmt.head_andThen hx rest
  rw [← hf] at hhead htail
  have he : m.effectOf kb f below s = (.ok (.become y), s) :=
    effectOf_of_wants howner (hhead.symm ▸ hw) s
  rw [step_of_effectOf hm hl he, htail]
  rfl

/-- At the limit nothing moves. -/
theorem advance_of_limitReached (hm : m.stack = f :: below) (hl : m.limitReached = true) (n : Nat) :
    m.advance kb n s = (m, s) := by
  induction n with
  | zero => rfl
  | succ n ih =>
    rw [advance, step_of_limitReached hm hl]
    exact ih

/-- If a statement that is run on its own ends, no matter how much later, then the limit is not
    reached yet. -/
theorem limitReached_of_ends (hm : m.stack = f :: below) {n : Nat} {x : Stmt} {r : RunResult σ}
    (hends : ((m.advance kb n s).1.only x).Ends kb (m.advance kb n s).2 r)
    (hr : r.fault = none) : m.limitReached = false := by
  cases hl : m.limitReached with
  | false => rfl
  | true =>
    rw [advance_of_limitReached hm hl] at hends
    have hbusy : (m.only x).stack ≠ [] := by simp [only, hm]
    have hl' : (m.only x).limitReached = false := (hends.of_ok hr).2 hbusy
    exact hl.symm.trans hl'

section Iterating

variable {guard : Expr} {body : Stmt} {rest : Option Stmt} {r : RunResult σ}

/-- A loop whose guard is true is its body, and then the same again. -/
theorem Iterates.unrolls (h : m.Iterates kb s guard body r) (hm : m.stack = f :: below)
    (hf : f.stmt = (Stmt.loop guard body).andThen rest) :
    ∃ f', m.advance kb 2 s = ({ m with
        stack := f' :: below, lastKey := m.lastKey + 2, steps := m.steps + 2 }, s) ∧
      f'.Replaces f ∧ f'.stmt = body.append f.stmt := by
  have hguard : guard.eval (m.scopeOf f) = .ok (.boolean true) :=
    Option.some.inj ((evalTop_of_stack hm guard).symm.trans h.guard)
  have howner : m.heap.contains f.owner = true := Expr.contains_of_eval hguard
  let unrolled := Stmt.cond guard (body.append (.loop guard body)) .skip
  let m₁ := (m.running below).rewrite f (unrolled.andThen rest)
  let f₁ : Frame := { f with key := m.lastKey + 1, stmt := unrolled.andThen rest }
  have hl : m.limitReached = false := limitReached_of_ends hm h.body h.fault
  have hfirst : m.step kb s = ⟨m₁, s, "", .ran⟩ := step_of_become hm hl howner rfl hf .loop
  have hadvance : m.advance kb 2 s = m₁.advance kb 1 s := by rw [advance, hfirst]
  have hm₁ : m₁.stack = f₁ :: below := rfl
  have hl₁ : m₁.limitReached = false :=
    limitReached_of_ends hm₁ (hadvance ▸ h.body) h.fault
  have hjoin : (body.append (.loop guard body)).andThen rest = body.append f.stmt := by
    rw [hf]
    cases rest with
    | none => rfl
    | some next => exact Stmt.append_assoc body (.loop guard body) next
  have hsecond : m₁.step kb s =
      ⟨(m₁.running below).rewrite f₁ (body.append f.stmt), s, "", .ran⟩ := by
    rw [← hjoin]
    exact step_of_become rfl hl₁ howner rfl rfl (.onTrue hguard)
  refine ⟨{ f with key := m.lastKey + 2, stmt := body.append f.stmt }, ?_, ⟨rfl, rfl, rfl⟩, rfl⟩
  rw [hadvance, advance, hsecond]
  rfl

/-- Some time after the next two steps the frame `f` is back on top of exactly the frames beneath
    it, and has left to run exactly what it had. Heap, number of steps, variables of the frame and
    knowledge base are as the run of the body has left them. -/
def Resumes (kb : Option (KnowledgeBase σ)) (m : Machine) (s : σ) (f : Frame) (below : List Frame)
    (r : RunResult σ) : Prop :=
  ∃ n f', (m.advance kb (n + 2) s).1.stack = f' :: below ∧ f'.Replaces f ∧ f'.stmt = f.stmt ∧
    (m.advance kb (n + 2) s).1.heap = r.machine.heap ∧
    (m.advance kb (n + 2) s).1.steps = r.machine.steps ∧
    r.machine.retired.head? = some (f.id, f'.locals) ∧
    (m.advance kb (n + 2) s).2 = r.knowledge

/-- After an iteration the frame goes on as before it. -/
theorem Iterates.resumes (h : m.Iterates kb s guard body r) (hdisciplined : m.Disciplined)
    (hm : m.stack = f :: below) (hf : f.stmt = (Stmt.loop guard body).andThen rest) :
    m.Resumes kb s f below r := by
  obtain ⟨f', hadvance, hrep, hstmt⟩ := h.unrolls hm hf
  have hdisciplined' : (m.advance kb 2 s).1.Disciplined :=
    (hdisciplined.of_moves (moves_step m s)).of_moves (moves_step _ _)
  -- the frame that is about to run the body, on its own, and back in its place
  let p : Place := ⟨f.id, f.owner, f.caller, f.stmt, below⟩
  have hplace : p.frame { f' with stmt := body, caller := none } = f' := by
    show { f' with stmt := body.append f.stmt, caller := f.caller } = f'
    rw [← hstmt, ← hrep.caller]
  have hwithin : Within p ((m.advance kb 2 s).1.only body) (m.advance kb 2 s).1 := by
    rw [hadvance]
    refine .running [] { f' with stmt := body, caller := none } rfl hrep.id hrep.owner ?_
    rw [hplace]
    rfl
  obtain ⟨n, hresult, hknowledge⟩ := hwithin.ends (hdisciplined'.only body) h.body h.fault
  cases hresult with
  | running _ _ hstack _ _ _ =>
    rw [(h.body.of_ok h.fault).1] at hstack
    exact absurd hstack (by simp)
  | finished _ _ _ hretired hstack hheap hsteps =>
    exact ⟨n, _, hstack, ⟨rfl, rfl, rfl⟩, rfl, hheap, hsteps, hretired, hknowledge⟩

end Iterating

end Machine

/-- What is left to run of a frame never has more nodes than a bound that depends on the program
    only, whatever the knowledge base, the heap and the step limit are. In particular a frame that
    runs a loop is left with exactly this loop again, and with what was to come after it, when the
    body has run to its end. -/
theorem continuations_do_not_grow (classes : ClassTable) (main : Stmt) :
    ∃ k, ∀ (σ : Type) (kb : Option (KnowledgeBase σ)) (heap : Heap) (maxSteps : Nat)
      (states : List σ),
      let m := (Machine.new classes heap maxSteps).operateAll kb
        (.start main :: states.map .step)
      (∀ f ∈ m.stack, f.stmt.size ≤ k) ∧
        ∀ f below guard body s r, m.stack = f :: below →
          (f.stmt = .loop guard body ∨ ∃ rest, f.stmt = .seq (.loop guard body) rest) →
          m.Iterates kb s guard body r → m.Resumes kb s f below r := by
  refine ⟨max main.peak classes.peak, ?_⟩
  intro σ kb heap maxSteps states m
  have hbounded : m.Bounded (max main.peak classes.peak) :=
    Machine.bounded_run kb classes heap maxSteps main states
  have hdisciplined : m.Disciplined :=
    (Machine.disciplined_new classes heap maxSteps).operateAll _
  refine ⟨fun f hf => hbounded.size_le hf, ?_⟩
  intro f below guard body s r hm hf hiterates
  obtain ⟨rest, hf⟩ : ∃ rest, f.stmt = (Stmt.loop guard body).andThen rest := by
    rcases hf with hf | ⟨rest, hf⟩
    · exact ⟨none, hf⟩
    · exact ⟨some rest, hf⟩
  exact hiterates.resumes hdisciplined hm hf

/-- A loop whose body ends it, with a statement to come after it. -/
theorem continuations_do_not_grow_of_one_iteration :
    let guard : Expr := .var "go"
    let body : Stmt := .assign (.var "go") (.lit (.boolean false))
    let main : Stmt := .block
      [.assign (.var "go") (.lit (.boolean true)), .loop guard body, .print (.lit .null)]
    let kb : Option (KnowledgeBase Unit) := none
    let m := (Machine.new ∅ ∅ 0).operateAll kb [.start main, .step ()]
    ∃ f r, m.stack = [f] ∧ f.stmt = .seq (.loop guard body) (.print (.lit .null)) ∧
      m.Iterates kb () guard body r ∧ m.Resumes kb () f [] r := by
  intro guard body main kb m
  obtain ⟨k, hk⟩ := continuations_do_not_grow ∅ main
  obtain ⟨-, hloop⟩ := hk Unit kb ∅ 0 [()]
  have hiterates : m.Iterates kb () guard body
      (((m.advance kb 2 ()).1.only body).runFor kb 1 (m.advance kb 2 ()).2) := by
    refine ⟨by rfl, ⟨?_, 1, rfl⟩, by rfl⟩
    rintro ⟨-, hstack⟩
    exact hstack (List.isEmpty_iff.1 (by decide +kernel))
  exact ⟨_, _, rfl, rfl, hiterates, hloop _ _ _ _ _ _ rfl (.inr ⟨_, rfl⟩) hiterates⟩

end ObjectMachine
