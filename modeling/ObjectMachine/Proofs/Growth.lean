import ObjectMachine.Proofs.Values

namespace ObjectMachine

/-!
# Continuations do not grow

A loop that is unrolled puts a copy of itself behind its body, and whatever was to come after the
loop behind that. Still, what a frame has left to run stays within a bound that can be read off the
program:

* `Stmt.size` — the number of nodes of a statement;
* `Stmt.peak` — a bound for what it can grow to while it runs;
* `Stmt.peak_append`, `Stmt.peak_eq_head_tail` — the peak of what a step looks at and leaves;
* `Machine.Enacts.peak_next` — no effect takes a frame beyond the peak of what it had to run;
* `Machine.Bounded` — all frames and methods stay within a bound, an invariant of steps;
* `ClassTable.peak` — the bound of the methods of a class table.
-/

/-! ### Sizes -/

mutual

/-- The number of nodes of an expression. -/
def Expr.size : Expr → Nat
  | .lit _ | .var _ | .own _ => 1
  | .field base _ => base.size + 1
  | .apply _ operands => Expr.sizes operands + 1

/-- The number of nodes of a list of expressions. -/
def Expr.sizes : List Expr → Nat
  | [] => 0
  | e :: es => e.size + Expr.sizes es

end

/-- The number of nodes of a location. -/
def Location.size : Location → Nat
  | .var _ | .own _ => 1
  | .field base _ => base.size + 1

/-- The number of nodes of a location that may be missing. -/
def Location.sizeOf : Option Location → Nat
  | none => 0
  | some l => l.size

namespace Stmt

/-- The number of nodes of a statement, those of its expressions included. -/
def size : Stmt → Nat
  | skip | breakpoint => 1
  | print e | ret e => e.size + 1
  | assign target value => target.size + value.size + 1
  | call target callee _ args => Location.sizeOf target + callee.size + Expr.sizes args + 1
  | create target _ args => target.size + Expr.sizes args + 1
  | cond guard onTrue onFalse => guard.size + onTrue.size + onFalse.size + 1
  | loop guard body => guard.size + body.size + 1
  | seq first second => first.size + second.size + 1
  | query target text params => target.size + text.size + Expr.sizes params + 1
  | derive target cls => target.size + cls.size + 1
  | storeReturn target => Location.sizeOf target + 1

/-- How much what comes next adds to the size of a statement in front of it. -/
def room : Option Stmt → Nat
  | none => 0
  | some next => next.size + 1

/-- A bound for the size of what is left to run of a frame that starts with the statement and runs
    in any way. A statement that waits for a result goes on with an assignment of it, which may be
    larger by one node; a loop goes on with its unrolling. -/
def peak : Stmt → Nat
  | assign target value => (assign target value).size
  | cond guard onTrue onFalse =>
    max (cond guard onTrue onFalse).size (max onTrue.peak onFalse.peak)
  | loop guard body =>
    max (cond guard (body.append (loop guard body)) skip).size
      (body.peak + room (some (loop guard body)))
  | seq first second => max (first.peak + room (some second)) second.peak
  | s => s.size + 1

/-- The peak of what may be left to run. -/
def peakOf : Option Stmt → Nat
  | none => 0
  | some s => s.peak

theorem size_append (s next : Stmt) : (s.append next).size = s.size + room (some next) := by
  induction s with
  | seq first second _ ih =>
    rw [append, size, ih, size]
    omega
  | _ => simp only [append, size, room, Nat.add_assoc]

theorem size_le_peak (s : Stmt) : s.size ≤ s.peak := by
  induction s with
  | cond guard onTrue onFalse _ _ =>
    rw [peak]
    exact Nat.le_max_left _ _
  | loop guard body ih =>
    rw [peak]
    simp only [size, size_append, room]
    omega
  | seq first second ih _ =>
    rw [peak, size, room]
    omega
  | assign target value => exact Nat.le_refl _
  | _ => exact Nat.le_succ _

/-- What is run first can grow in front of what is run next. -/
theorem peak_append (s next : Stmt) :
    (s.append next).peak = max (s.peak + room (some next)) next.peak := by
  induction s with
  | seq first second _ ih =>
    rw [append, peak, ih, peak]
    simp only [room, size_append]
    omega
  | _ => rfl

theorem peak_andThen (s : Stmt) (rest : Option Stmt) :
    (s.andThen rest).peak = max (s.peak + room rest) (peakOf rest) := by
  cases rest with
  | none => simp [andThen, room, peakOf]
  | some next => exact peak_append s next

/-- A statement reaches its peak in front of its tail, or within the tail. -/
theorem peak_eq_head_tail (s : Stmt) :
    s.peak = max (s.head.peak + room s.tail?) (peakOf s.tail?) := by
  induction s with
  | seq first second ih _ =>
    rw [peak, ih, head, tail?]
    cases first.tail? with
    | none => simp [before, room, peakOf]
    | some rest =>
      simp only [before, room, peakOf, peak_append, size_append]
      omega
  | _ => simp [head, tail?, room, peakOf]

/-- A suspended statement goes on within its peak. -/
theorem peak_received {s : Stmt} {target : Option Location} {rest : Option Stmt}
    (h : s.awaiting? = some (target, rest)) (v : Value) :
    peakOf (received target rest v) ≤ s.peak := by
  rcases eq_of_awaiting? h with ⟨rfl, rfl⟩ | ⟨next, rfl, rfl⟩
  · cases target with
    | none => exact Nat.zero_le _
    | some l => exact Nat.le_refl _
  · cases target with
    | none => exact Nat.le_max_right _ _
    | some l => exact Nat.le_refl _

/-- An unrolled loop stays within the peak of the loop. -/
theorem peak_unrolled (guard : Expr) (body : Stmt) :
    (cond guard (body.append (loop guard body)) skip).peak ≤ (loop guard body).peak := by
  have hloop : (loop guard body).size ≤ (loop guard body).peak := size_le_peak _
  have hskip : skip.peak ≤ (loop guard body).peak := by
    have hpeak : skip.peak = 2 := rfl
    rw [peak]
    simp only [hpeak, size, size_append, room]
    omega
  have hbody : body.peak + room (some (loop guard body)) ≤ (loop guard body).peak := by
    rw [peak]
    exact Nat.le_max_right _ _
  have hsize : (cond guard (body.append (loop guard body)) skip).size ≤ (loop guard body).peak := by
    rw [peak]
    exact Nat.le_max_left _ _
  rw [peak, peak_append]
  omega

end Stmt

/-! ### Effects -/

namespace Machine

variable {σ : Type} {kb : Option (KnowledgeBase σ)} {m : Machine} {f : Frame}
  {below : List Frame} {s s' : σ} {e : Effect}

/-- What the running frame goes on with stays within the peak of what it had to run. -/
theorem Enacts.peak_next (he : Enacts kb m f below s e s') :
    Stmt.peakOf (e.next m.heap f.stmt.tail?) ≤ f.stmt.peak := by
  rw [f.stmt.peak_eq_head_tail]
  -- it is enough that what comes in front of the tail is no larger than the head can grow
  have hfront : ∀ {x : Stmt}, x.peak ≤ f.stmt.head.peak →
      Stmt.peakOf (some (x.andThen f.stmt.tail?)) ≤
        max (f.stmt.head.peak + Stmt.room f.stmt.tail?) (Stmt.peakOf f.stmt.tail?) := by
    intro x hx
    rw [Stmt.peakOf, Stmt.peak_andThen]
    omega
  have htail : Stmt.peakOf f.stmt.tail? ≤
      max (f.stmt.head.peak + Stmt.room f.stmt.tail?) (Stmt.peakOf f.stmt.tail?) :=
    Nat.le_max_right _ _
  cases he with
  | ask hw _ _ _ _ =>
    refine hfront ?_
    generalize f.stmt.head = x at hw
    cases hw with
    | query _ =>
      simp only [Stmt.peak, Stmt.size, Expr.size]
      omega
    | derive _ =>
      simp only [Stmt.peak, Stmt.size, Expr.size]
      omega
  | act hw =>
    generalize f.stmt.head = x at hw hfront htail ⊢
    cases hw with
    | call hc hr hmeth hlen hargs =>
      refine hfront ?_
      simp only [Stmt.peak, Stmt.size]
      omega
    | create hfields hlen hargs =>
      refine hfront ?_
      simp only [Stmt.peak, Stmt.size, Expr.size]
      omega
    | ret hg hawait he => exact Nat.zero_le _
    | onTrue he =>
      refine hfront ?_
      rw [Stmt.peak]
      omega
    | onFalse he =>
      refine hfront ?_
      rw [Stmt.peak]
      omega
    | loop => exact hfront (Stmt.peak_unrolled _ _)
    | _ => exact htail

/-- A caller that is resumed stays within the peak of what it had to run. -/
theorem Enacts.peak_resumed {g : Frame} {rest : Option Stmt}
    (he : Enacts kb m f below s (.resume g rest) s') : Stmt.peakOf rest ≤ g.stmt.peak := by
  cases he with
  | act hw =>
    generalize f.stmt.head = x at hw
    cases hw with
    | ret hg hawait he => exact Stmt.peak_received hawait _

/-- What is started by a call is the body of a method. -/
theorem Enacts.all_of_invoke {Q : Method → Prop}
    (hQ : m.classes.All fun info => info.methods.All Q) {target : Option Location} {callee : Ref}
    {body : Stmt} {locals : Memory}
    (he : Enacts kb m f below s (.invoke target callee body locals) s') :
    ∃ method, Q method ∧ method.body = body := by
  cases he with
  | act hw =>
    generalize f.stmt.head = x at hw
    cases hw with
    | call hc hr hmeth hlen hargs => exact ⟨_, ClassTable.all_of_method hQ hmeth, rfl⟩

/-! ### The invariant -/

/-- What is left to run of every frame, and every method that can be called, stays within `k`
    nodes however it runs. -/
structure Bounded (k : Nat) (m : Machine) : Prop where
  frames : ∀ f ∈ m.stack, f.stmt.peak ≤ k
  methods : m.classes.All fun info => info.methods.All fun method => method.body.peak ≤ k

theorem Bounded.size_le {k : Nat} (h : m.Bounded k) (hf : f ∈ m.stack) : f.stmt.size ≤ k :=
  Nat.le_trans f.stmt.size_le_peak (h.frames f hf)

theorem Bounded.step {k : Nat} (h : m.Bounded k) (s : σ) : (m.step kb s).machine.Bounded k := by
  refine ⟨?_, by rw [step_classes]; exact h.methods⟩
  rcases step_cases kb m s with hstep | ⟨f, below, hm, hstep | ⟨e, s', -, henacts, hstep⟩⟩
  · rw [hstep]
    exact h.frames
  · rw [hstep]
    exact fun g hg => h.frames g (hm ▸ List.mem_cons_of_mem f hg)
  · rw [hstep]
    intro g hg
    cases mem_perform hg with
    | kept hg => exact h.frames g (hm ▸ List.mem_cons_of_mem f hg)
    | running _ _ hs =>
      have hnext := henacts.peak_next
      rw [show e.next m.heap f.stmt.tail? = some g.stmt from hs] at hnext
      exact Nat.le_trans hnext (h.frames f (hm ▸ List.mem_cons_self))
    | spawned _ _ hs =>
      obtain ⟨method, hbody, rfl⟩ := henacts.all_of_invoke h.methods
      rw [hs]
      exact hbody
    | @resumed caller _ next _ _ hs =>
      have hmem : caller ∈ below := Frame.mem_of_callerIn henacts.callerIn_of_resume
      have hcaller : caller ∈ m.stack := hm ▸ List.mem_cons_of_mem f hmem
      rw [hs]
      exact Nat.le_trans henacts.peak_resumed (h.frames caller hcaller)

theorem Bounded.start {k : Nat} (h : m.Bounded k) {main : Stmt} (hmain : main.peak ≤ k) :
    (m.operate kb (.start main)).Bounded k := by
  rw [operate, m.start_eq main]
  exact ⟨List.forall_mem_cons.2 ⟨hmain, h.frames⟩, h.methods⟩

end Machine

/-! ### The bound of a program -/

/-- The peak of the methods of a class. -/
def ClassInfo.peak (info : ClassInfo) : Nat :=
  (info.methods.entries.map fun e => e.2.body.peak).max?.getD 0

/-- The peak of the methods of all classes. -/
def ClassTable.peak (classes : ClassTable) : Nat :=
  (classes.entries.map fun e => e.2.peak).max?.getD 0

theorem ClassTable.all_peak_le (classes : ClassTable) :
    classes.All fun info => info.methods.All fun method => method.body.peak ≤ classes.peak := by
  intro c hc method hmethod
  have hmem : method.2.body.peak ≤ c.2.peak :=
    List.le_max?_getD_of_mem (List.mem_map.2 ⟨method, hmethod, rfl⟩)
  have hinfo : c.2.peak ≤ classes.peak := List.le_max?_getD_of_mem (List.mem_map.2 ⟨c, hc, rfl⟩)
  exact Nat.le_trans hmem hinfo

/-- However a program is run, no frame has more left to run than the peak of the program. -/
theorem Machine.bounded_run {σ : Type} (kb : Option (KnowledgeBase σ)) (classes : ClassTable)
    (heap : Heap) (maxSteps : Nat) (main : Stmt) (states : List σ) :
    ((Machine.new classes heap maxSteps).operateAll kb
      (.start main :: states.map .step)).Bounded (max main.peak classes.peak) := by
  have hnew : (Machine.new classes heap maxSteps).Bounded (max main.peak classes.peak) := by
    refine ⟨fun f hf => absurd hf List.not_mem_nil, ?_⟩
    exact classes.all_peak_le.imp fun info hinfo => hinfo.imp fun method hmethod =>
      Nat.le_trans hmethod (Nat.le_max_right _ _)
  refine operateAll_preserves (fun op => ∃ s, op = .step s) ?_
    (hnew.start (Nat.le_max_left _ _)) ?_
  · rintro m op hm ⟨s, rfl⟩
    exact hm.step s
  · intro op hop
    obtain ⟨s, -, rfl⟩ := List.mem_map.1 hop
    exact ⟨s, rfl⟩

end ObjectMachine
