import ObjectMachine.Proofs.CallDiscipline
import ObjectMachine.Proofs.Lookup

namespace ObjectMachine

/-!
# What an effect leaves behind

An effect changes the heap, the variables of the running frame and what that frame has left to
run; it may also schedule a method or resume a caller. This file says what the heap and the frames
are after an effect, and draws the first conclusion: no object is ever lost.

* `Effect.heapAfter`, `Effect.localsAfter`, `Effect.next` — heap, variables and continuation;
* `Machine.mem_perform` — every frame that is scheduled after an effect, and where it comes from;
* `Machine.step_cases` — a step leaves all as it is, drops a failing frame or has an effect;
* `Machine.Owned` — the owner of every frame is on the heap, an invariant of all operations.
-/

namespace Effect

/-- The heap after an effect. -/
def heapAfter (h : Heap) : Effect → Heap
  | setField r name v => h.setField r name v
  | create _ cls fields => (h.create cls fields).2
  | enlist _ contents => (h.addList .null contents).2
  | _ => h

/-- The variables of the running frame after an effect. -/
def localsAfter (locals : Memory) : Effect → Memory
  | setLocal name v => locals.insert name v
  | _ => locals

/-- What the running frame goes on with after an effect, if `rest` was to run after its head. -/
def next (h : Heap) (rest : Option Stmt) : Effect → Option Stmt
  | become s => some (s.andThen rest)
  | create target cls fields =>
    some ((Stmt.assign target (.lit (.object (h.create cls fields).1))).andThen rest)
  | enlist target contents =>
    some ((Stmt.assign target (.lit (h.addList .null contents).1)).andThen rest)
  | invoke target _ _ _ => some ((Stmt.storeReturn target).andThen rest)
  | resume _ _ => none
  | _ => rest

/-- Whether an effect leaves the running frame on top. -/
def stays : Effect → Bool
  | invoke _ _ _ _ | resume _ _ => false
  | _ => true

/-- An effect removes no object. -/
theorem grows_heapAfter (h : Heap) (e : Effect) : h.Grows (e.heapAfter h) := by
  cases e with
  | setField r name v => exact h.grows_setField r name v
  | create target cls fields => exact h.grows_create cls fields
  | enlist target contents => exact h.grows_addList .null contents
  | _ => exact .refl h

end Effect

/-- The caller that is found is one of the frames beneath. -/
theorem Frame.mem_of_callerIn {f g : Frame} {below : List Frame}
    (h : f.callerIn below = .waiting g) : g ∈ below := by
  rw [callerIn] at h
  split at h
  · simp at h
  · split at h
    · simp at h
    · rename_i g' hfind
      obtain rfl := Caller.waiting.inj h
      exact List.mem_of_find?_eq_some hfind

namespace Machine

variable {σ : Type} {kb : Option (KnowledgeBase σ)}

@[simp] theorem proceed_heap (m : Machine) (f : Frame) (next : Option Stmt) :
    (m.proceed f next).heap = m.heap := by
  cases next <;> rfl

@[simp] theorem proceed_classes (m : Machine) (f : Frame) (next : Option Stmt) :
    (m.proceed f next).classes = m.classes := by
  cases next <;> rfl

@[simp] theorem proceed_steps (m : Machine) (f : Frame) (next : Option Stmt) :
    (m.proceed f next).steps = m.steps := by
  cases next <;> rfl

@[simp] theorem proceed_maxSteps (m : Machine) (f : Frame) (next : Option Stmt) :
    (m.proceed f next).maxSteps = m.maxSteps := by
  cases next <;> rfl

@[simp] theorem perform_heap (m : Machine) (f : Frame) (rest : Option Stmt) (e : Effect) :
    (m.perform f rest e).heap = e.heapAfter m.heap := by
  cases e <;> simp [perform, Effect.heapAfter, spawn, rewrite, unschedule, retire]

@[simp] theorem perform_classes (m : Machine) (f : Frame) (rest : Option Stmt) (e : Effect) :
    (m.perform f rest e).classes = m.classes := by
  cases e <;> simp [perform, spawn, rewrite, unschedule, retire]

@[simp] theorem perform_steps (m : Machine) (f : Frame) (rest : Option Stmt) (e : Effect) :
    (m.perform f rest e).steps = m.steps := by
  cases e <;> simp [perform, spawn, rewrite, unschedule, retire]

@[simp] theorem perform_maxSteps (m : Machine) (f : Frame) (rest : Option Stmt) (e : Effect) :
    (m.perform f rest e).maxSteps = m.maxSteps := by
  cases e <;> simp [perform, spawn, rewrite, unschedule, retire]

/-- An effect that stays in the running frame changes the heap and the variables, and goes on. -/
theorem perform_of_stays {e : Effect} (he : e.stays = true) (m : Machine) (f : Frame)
    (rest : Option Stmt) :
    m.perform f rest e = Machine.proceed { m with heap := e.heapAfter m.heap }
      { f with locals := e.localsAfter f.locals } (e.next m.heap rest) := by
  cases e with
  | invoke target callee body locals => exact absurd he (by simp [Effect.stays])
  | resume g r => exact absurd he (by simp [Effect.stays])
  | _ => rfl

/-! ### The frames after an effect -/

/-- Where a frame that is scheduled after an effect of `f` comes from. -/
inductive Origin (m : Machine) (f : Frame) (rest : Option Stmt) : Effect → Frame → Prop where
  | kept {e : Effect} {k : Frame} (hk : k ∈ m.stack) : Origin m f rest e k
  | running {e : Effect} {k : Frame} (hr : k.Replaces f)
      (hl : k.locals = e.localsAfter f.locals) (hs : e.next m.heap rest = some k.stmt) :
      Origin m f rest e k
  | spawned {target : Option Location} {callee : Ref} {body : Stmt} {locals : Memory} {k : Frame}
      (ho : k.owner = .object callee) (hl : k.locals = locals) (hs : k.stmt = body) :
      Origin m f rest (.invoke target callee body locals) k
  | resumed {g k : Frame} {s : Stmt} (hr : k.Replaces g) (hl : k.locals = g.locals)
      (hs : k.stmt = s) : Origin m f rest (.resume g (some s)) k

theorem mem_proceed {m : Machine} {f k : Frame} {next : Option Stmt}
    (h : k ∈ (m.proceed f next).stack) :
    k ∈ m.stack ∨ (k.Replaces f ∧ k.locals = f.locals ∧ next = some k.stmt) := by
  cases next with
  | none => exact .inl h
  | some s =>
    rcases List.mem_cons.1 h with rfl | h
    · exact .inr ⟨⟨rfl, rfl, rfl⟩, rfl, rfl⟩
    · exact .inl h

/-- Every frame after an effect was there before, or replaces the running frame, or is the frame
    of a method, or replaces a resumed caller. -/
theorem mem_perform {m : Machine} {f k : Frame} {rest : Option Stmt} {e : Effect}
    (h : k ∈ (m.perform f rest e).stack) : Origin m f rest e k := by
  cases e
  case invoke target callee body locals =>
    rcases List.mem_cons.1 h with rfl | h
    · exact .spawned rfl rfl rfl
    · rcases List.mem_cons.1 h with rfl | h
      · exact .running ⟨rfl, rfl, rfl⟩ rfl rfl
      · exact .kept h
  case resume g r =>
    rcases mem_proceed h with h | ⟨hr, hl, rfl⟩
    · exact .kept (List.mem_of_mem_eraseP h)
    · exact .resumed hr hl rfl
  all_goals
    rcases mem_proceed h with h | ⟨hr, hl, hs⟩
    · exact .kept h
    · exact .running ⟨hr.id, hr.owner, hr.caller⟩ hl hs

/-- A step leaves all as it is, or drops a failing frame, or has an effect. -/
theorem step_cases (kb : Option (KnowledgeBase σ)) (m : Machine) (s : σ) :
    (m.step kb s).machine = m ∨
      ∃ f below, m.stack = f :: below ∧
        ((m.step kb s).machine = (m.running below).retire f ∨
          ∃ e s', m.heap.contains f.owner = true ∧ Enacts kb m f below s e s' ∧
            (m.step kb s).machine = (m.running below).perform f f.stmt.tail? e) := by
  cases hm : m.stack with
  | nil =>
    left
    rw [step_nil hm]
  | cons f below =>
    by_cases hl : m.limitReached = true
    · left
      rw [step_of_limitReached hm hl]
    · right
      refine ⟨f, below, rfl, ?_⟩
      rw [step_eq hm (by simpa using hl)]
      cases he : m.effectOf kb f below s with
      | mk r s' =>
        cases r with
        | error fault => exact .inl rfl
        | ok e =>
          obtain ⟨howner, henacts⟩ := enacts_of_effectOf he
          exact .inr ⟨e, s', howner, henacts, rfl⟩

/-! ### Objects stay, and so do owners -/

/-- No step removes an object. -/
theorem grows_step (m : Machine) (s : σ) : m.heap.Grows (m.step kb s).machine.heap := by
  rcases step_cases kb m s with h | ⟨f, below, -, h | ⟨e, s', -, -, h⟩⟩
  · rw [h]
    exact .refl _
  · rw [h]
    exact .refl _
  · rw [h, perform_heap]
    exact e.grows_heapAfter m.heap

/-- No step changes the classes. -/
@[simp] theorem step_classes (m : Machine) (s : σ) :
    (m.step kb s).machine.classes = m.classes := by
  rcases step_cases kb m s with h | ⟨f, below, -, h | ⟨e, s', -, -, h⟩⟩
  · rw [h]
  · rw [h]
    rfl
  · rw [h, perform_classes]
    rfl

/-- No step changes the step limit. -/
@[simp] theorem step_maxSteps (m : Machine) (s : σ) :
    (m.step kb s).machine.maxSteps = m.maxSteps := by
  rcases step_cases kb m s with h | ⟨f, below, -, h | ⟨e, s', -, -, h⟩⟩
  · rw [h]
  · rw [h]
    rfl
  · rw [h, perform_maxSteps]
    rfl

/-- Every scheduled frame runs on behalf of an object of the heap. -/
def Owned (m : Machine) : Prop :=
  ∀ f ∈ m.stack, m.heap.contains f.owner = true

/-- A method is started on behalf of an object of the heap only. -/
theorem Enacts.contains_of_invoke {m : Machine} {f : Frame} {below : List Frame} {s s' : σ}
    {target : Option Location} {callee : Ref} {body : Stmt} {locals : Memory}
    (h : Enacts kb m f below s (.invoke target callee body locals) s') :
    m.heap.contains (.object callee) = true := by
  cases h with
  | act hw =>
    generalize f.stmt.head = x at hw
    cases hw with
    | call _ hr _ _ _ => exact hr

theorem Owned.step {m : Machine} (h : m.Owned) (s : σ) : (m.step kb s).machine.Owned := by
  have hgrows : m.heap.Grows (m.step kb s).machine.heap := grows_step m s
  intro k hk
  rcases step_cases kb m s with hstep | ⟨f, below, hm, hstep | ⟨e, s', -, henacts, hstep⟩⟩
  · rw [hstep] at hk
    exact hgrows _ (h k hk)
  · rw [hstep] at hk
    exact hgrows _ (h k (hm ▸ List.mem_cons_of_mem f hk))
  · rw [hstep] at hk
    -- objects stay, so it is enough that the owner was on the heap before
    refine hgrows _ ?_
    cases mem_perform hk with
    | kept hk => exact h k (hm ▸ List.mem_cons_of_mem f hk)
    | running hr _ _ =>
      rw [hr.owner]
      exact h f (hm ▸ List.mem_cons_self)
    | spawned ho _ _ =>
      rw [ho]
      exact henacts.contains_of_invoke
    | @resumed g _ _ hr _ _ =>
      have hg : g ∈ below := Frame.mem_of_callerIn henacts.callerIn_of_resume
      rw [hr.owner]
      exact h g (hm ▸ List.mem_cons_of_mem f hg)

theorem Owned.push {m m' : Machine} (h : m.Owned) {stmt : Stmt} {owner : Value} {locals : Memory}
    {f : Frame} (hpush : m.push stmt owner locals = .ok (f, m')) : m'.Owned := by
  rw [Machine.push] at hpush
  split at hpush
  · rename_i howner
    obtain ⟨rfl, rfl⟩ : _ = f ∧ _ = m' := by simpa using hpush
    intro k hk
    rcases List.mem_cons.1 hk with rfl | hk
    · exact howner
    · exact h k hk
  · simp at hpush

theorem Owned.start {m m' : Machine} (h : m.Owned) {main : Stmt} {f : Frame}
    (hstart : m.start main = .ok (f, m')) : m'.Owned := by
  have hentry : Owned { m with heap := (m.heap.create entryClass ∅).2 } :=
    fun k hk => m.heap.grows_create entryClass ∅ _ (h k hk)
  exact hentry.push hstart

/-- Every operation keeps the owners of the frames on the heap. -/
theorem Owned.operate {m : Machine} (h : m.Owned) (op : Operation σ) :
    (m.operate kb op).Owned := by
  cases op with
  | start main =>
    rw [Machine.operate]
    split
    · rename_i f m' hstart
      exact h.start hstart
    · exact h
  | push stmt owner locals =>
    rw [Machine.operate]
    split
    · rename_i f m' hpush
      exact h.push hpush
    · exact h
  | step s => exact h.step s
  | fork => exact fun k hk => absurd hk List.not_mem_nil

/-- Starting a program keeps the discipline of calls. -/
theorem Disciplined.start {m m' : Machine} (h : m.Disciplined) {main : Stmt} {f : Frame}
    (hstart : m.start main = .ok (f, m')) : m'.Disciplined :=
  h.of_moves (moves_push (m.heap.create entryClass ∅).2 hstart)

end Machine

end ObjectMachine
