import ObjectMachine.Proofs.Growth
import ObjectMachine.Proofs.StepLimit

namespace ObjectMachine

/-!
# Programs without loops and recursion terminate

Where no statement is a loop and every method calls only methods of a smaller rank, a program comes
to an end whatever it is run on. A step can make the stack grow, puts statements in the place of
others and splices continuations, so what decreases is the price of all that is left to run, in
which a call is worth the most expensive method of its name:

* `Stmt.cost` — the price of a statement, given the price of each method name;
* `ClassTable.Ranked` — every method calls only methods of a smaller rank;
* `ClassTable.price`, `ClassTable.Ranked.priced` — a price that covers every method of the name;
* `Machine.work` — the price of all that is left to run;
* `Machine.Priced.step_lt` — every step that succeeds lowers it;
* `run_ends_of_ranked` — so the unlimited run ends, within the price of the main program.
-/

/-! ### Prices -/

namespace Stmt

/-- Whether there is no loop in a statement. -/
def loopFree : Stmt → Bool
  | cond _ onTrue onFalse => onTrue.loopFree && onFalse.loopFree
  | loop _ _ => false
  | seq first second => first.loopFree && second.loopFree
  | _ => true

/-- The names of the methods that are called in a statement. -/
def calls : Stmt → List String
  | call _ _ name _ => [name]
  | cond _ onTrue onFalse => onTrue.calls ++ onFalse.calls
  | loop _ body => body.calls
  | seq first second => first.calls ++ second.calls
  | _ => []

/-- A bound for the steps a statement without loops takes, if a method takes no more steps than the
    price of its name. A creation and a request end with an assignment of their own; a call takes
    a step to start the method and one for the result. -/
def cost (price : String → Nat) : Stmt → Nat
  | call _ _ name _ => price name + 2
  | create _ _ _ | query _ _ _ | derive _ _ => 2
  | cond _ onTrue onFalse => max (onTrue.cost price) (onFalse.cost price) + 1
  | loop _ body => body.cost price + 1
  | seq first second => first.cost price + second.cost price
  | _ => 1

/-- Whether there is no loop in what may be left to run. -/
def loopFreeOf : Option Stmt → Bool
  | none => true
  | some s => s.loopFree

/-- The price of what may be left to run. -/
def costOf (price : String → Nat) : Option Stmt → Nat
  | none => 0
  | some s => s.cost price

variable (price : String → Nat)

theorem loopFree_append (s next : Stmt) :
    (s.append next).loopFree = (s.loopFree && next.loopFree) := by
  induction s with
  | seq first second _ ih => rw [append, loopFree, ih, loopFree, Bool.and_assoc]
  | _ => rfl

theorem loopFree_andThen (s : Stmt) (rest : Option Stmt) :
    (s.andThen rest).loopFree = (s.loopFree && loopFreeOf rest) := by
  cases rest with
  | none => rw [andThen, loopFreeOf, Bool.and_true]
  | some next => exact loopFree_append s next

theorem loopFree_eq_head_tail (s : Stmt) :
    s.loopFree = (s.head.loopFree && loopFreeOf s.tail?) := by
  induction s with
  | seq first second ih _ =>
    rw [loopFree, ih, head, tail?]
    cases first.tail? with
    | none => simp only [before, loopFreeOf, Bool.and_true]
    | some rest => simp only [before, loopFreeOf, loopFree_append, Bool.and_assoc]
  | _ => simp [head, tail?, loopFreeOf]

theorem cost_append (s next : Stmt) :
    (s.append next).cost price = s.cost price + next.cost price := by
  induction s with
  | seq first second _ ih => rw [append, cost, ih, cost, Nat.add_assoc]
  | _ => rfl

theorem cost_andThen (s : Stmt) (rest : Option Stmt) :
    (s.andThen rest).cost price = s.cost price + costOf price rest := by
  cases rest with
  | none => rfl
  | some next => exact cost_append price s next

/-- However a statement is bracketed, its price is that of its head and of what comes after. -/
theorem cost_eq_head_tail (s : Stmt) :
    s.cost price = s.head.cost price + costOf price s.tail? := by
  induction s with
  | seq first second ih _ =>
    rw [cost, ih, head, tail?]
    cases first.tail? with
    | none => rfl
    | some rest => simp only [before, costOf, cost_append, Nat.add_assoc]
  | _ => rfl

/-- Nothing is free. -/
theorem one_le_cost (s : Stmt) : 1 ≤ s.cost price := by
  induction s with
  | seq first second ih _ =>
    rw [cost]
    omega
  | _ =>
    simp only [cost]
    omega

/-- Only the prices of the names that are called matter. -/
theorem cost_mono {price price' : String → Nat} {s : Stmt}
    (h : ∀ name ∈ s.calls, price name ≤ price' name) : s.cost price ≤ s.cost price' := by
  induction s with
  | call target callee name args =>
    have hname : price name ≤ price' name := h name List.mem_cons_self
    exact Nat.add_le_add_right hname 2
  | cond guard onTrue onFalse ihTrue ihFalse =>
    have hTrue := ihTrue fun name hname => h name (List.mem_append_left _ hname)
    have hFalse := ihFalse fun name hname => h name (List.mem_append_right _ hname)
    simp only [cost]
    omega
  | loop guard body ih => exact Nat.add_le_add_right (ih h) 1
  | seq first second ihFirst ihSecond =>
    have hFirst := ihFirst fun name hname => h name (List.mem_append_left _ hname)
    have hSecond := ihSecond fun name hname => h name (List.mem_append_right _ hname)
    exact Nat.add_le_add hFirst hSecond
  | _ => exact Nat.le_refl _

/-- The result of a call costs no more than the marker that waited for it. -/
theorem cost_received {s : Stmt} {target : Option Location} {rest : Option Stmt}
    (h : s.awaiting? = some (target, rest)) (hfree : s.loopFree = true) (v : Value) :
    loopFreeOf (received target rest v) = true ∧
      costOf price (received target rest v) ≤ s.cost price := by
  rcases eq_of_awaiting? h with ⟨rfl, rfl⟩ | ⟨next, rfl, rfl⟩
  · cases target with
    | none => exact ⟨rfl, Nat.zero_le _⟩
    | some l => exact ⟨rfl, Nat.le_refl _⟩
  · have hnext : next.loopFree = true := by simpa [loopFree] using hfree
    cases target with
    | none => exact ⟨hnext, Nat.le_add_left _ _⟩
    | some l => exact ⟨hfree, Nat.le_refl _⟩

end Stmt

/-! ### Ranks -/

namespace ClassTable

/-- No method has a loop. -/
def LoopFree (classes : ClassTable) : Prop :=
  classes.All fun info => info.methods.All fun method => method.body.loopFree = true

instance (classes : ClassTable) : Decidable classes.LoopFree :=
  inferInstanceAs (Decidable (∀ c ∈ classes.entries, ∀ m ∈ c.2.methods.entries,
    m.2.body.loopFree = true))

/-- Every call in a method names a method of a smaller rank. All methods of a name, in whatever
    class, have one rank, since a call can reach any of them. -/
def Ranked (rank : String → Nat) (classes : ClassTable) : Prop :=
  ∀ c ∈ classes.entries, ∀ m ∈ c.2.methods.entries, ∀ callee ∈ m.2.body.calls,
    rank callee < rank m.1

instance (rank : String → Nat) (classes : ClassTable) : Decidable (classes.Ranked rank) :=
  inferInstanceAs (Decidable (∀ c ∈ classes.entries, ∀ m ∈ c.2.methods.entries,
    ∀ callee ∈ m.2.body.calls, rank callee < rank m.1))

/-- The bodies of all methods with a name. -/
def bodies (classes : ClassTable) (name : String) : List Stmt :=
  classes.entries.flatMap fun c => (c.2.methods.get? name).toList.map Method.body

/-- A price for the methods that call no deeper than `depth`. -/
def callCost (classes : ClassTable) : (depth : Nat) → (name : String) → Nat
  | 0, _ => 0
  | depth + 1, name => ((classes.bodies name).map (Stmt.cost (classes.callCost depth))).max?.getD 0

/-- The price of the methods with a name: a method calls no deeper than its rank. -/
def price (classes : ClassTable) (rank : String → Nat) (name : String) : Nat :=
  classes.callCost (rank name + 1) name

/-- Every method costs no more than its name. -/
def Priced (price : String → Nat) (classes : ClassTable) : Prop :=
  ∀ name, ∀ body ∈ classes.bodies name, body.cost price ≤ price name

variable {classes : ClassTable}

theorem mem_bodies_of_method {cls name : String} {m : Method}
    (h : classes.method cls name = .ok m) : m.body ∈ classes.bodies name := by
  rw [method] at h
  split at h
  · simp at h
  · rename_i info hinfo
    split at h
    · simp at h
    · rename_i m' hm'
      obtain rfl := Except.ok.inj h
      refine List.mem_flatMap.2 ⟨_, SortedMap.mem_of_get? hinfo, ?_⟩
      simp [hm']

theorem Ranked.of_bodies {rank : String → Nat} (h : classes.Ranked rank) {name : String}
    {body : Stmt} (hbody : body ∈ classes.bodies name) :
    ∀ callee ∈ body.calls, rank callee < rank name := by
  obtain ⟨c, hc, hbody⟩ := List.mem_flatMap.1 hbody
  obtain ⟨m, hm, rfl⟩ := List.mem_map.1 hbody
  exact h c hc (name, m) (SortedMap.mem_of_get? (Option.mem_toList.1 hm))

/-- Each body costs no more than the price one level up. -/
theorem cost_le_callCost {name : String} {body : Stmt} (hbody : body ∈ classes.bodies name)
    (depth : Nat) : body.cost (classes.callCost depth) ≤ classes.callCost (depth + 1) name :=
  List.le_max?_getD_of_mem (List.mem_map.2 ⟨body, hbody, rfl⟩)

/-- Looking deeper into the calls never lowers a price. -/
theorem callCost_le_succ (depth : Nat) (name : String) :
    classes.callCost depth name ≤ classes.callCost (depth + 1) name := by
  induction depth generalizing name with
  | zero => exact Nat.zero_le _
  | succ depth ih =>
    -- the maximum is attained by some body, which costs no less one level deeper
    rw [callCost]
    cases hmax : ((classes.bodies name).map (Stmt.cost (classes.callCost depth))).max? with
    | none => exact Nat.zero_le _
    | some k =>
      obtain ⟨body, hbody, rfl⟩ := List.mem_map.1 (List.max?_mem hmax)
      have hdeeper : body.cost (classes.callCost depth) ≤
          body.cost (classes.callCost (depth + 1)) :=
        Stmt.cost_mono fun callee _ => ih callee
      exact Nat.le_trans hdeeper (cost_le_callCost hbody (depth + 1))

theorem callCost_mono {depth depth' : Nat} (h : depth ≤ depth') (name : String) :
    classes.callCost depth name ≤ classes.callCost depth' name := by
  induction h with
  | refl => exact Nat.le_refl _
  | step _ ih => exact Nat.le_trans ih (callCost_le_succ _ name)

/-- Ranks give prices: what a method calls has a smaller rank, so its price is already settled at
    the depth of the method. -/
theorem Ranked.priced {rank : String → Nat} (h : classes.Ranked rank) :
    classes.Priced (classes.price rank) := by
  intro name body hbody
  have hcalls : body.cost (classes.price rank) ≤ body.cost (classes.callCost (rank name)) :=
    Stmt.cost_mono fun callee hcallee => callCost_mono (h.of_bodies hbody callee hcallee) callee
  exact Nat.le_trans hcalls (cost_le_callCost hbody (rank name))

end ClassTable

/-! ### Steps -/

namespace Machine

variable {σ : Type} {kb : Option (KnowledgeBase σ)} {price : String → Nat} {m : Machine}
  {f : Frame} {below : List Frame} {s s' : σ} {e : Effect}

/-- The price of all that frames have left to run. -/
def workOf (price : String → Nat) : List Frame → Nat
  | [] => 0
  | f :: below => f.stmt.cost price + workOf price below

/-- The price of all that is left to run. -/
def work (price : String → Nat) (m : Machine) : Nat :=
  workOf price m.stack

theorem work_cons (hm : m.stack = f :: below) :
    m.work price = f.stmt.cost price + workOf price below := by
  rw [work, hm, workOf]

theorem work_proceed (m : Machine) (f : Frame) (next : Option Stmt) :
    (m.proceed f next).work price = Stmt.costOf price next + m.work price := by
  cases next with
  | none => exact (Nat.zero_add _).symm
  | some s => rfl

/-- What the running frame goes on with has no loop either and, as long as it stays on top, costs
    less than what it had to run. -/
theorem Enacts.next_of_loopFree (price : String → Nat) (he : Enacts kb m f below s e s')
    (hfree : f.stmt.loopFree = true) :
    Stmt.loopFreeOf (e.next m.heap f.stmt.tail?) = true ∧
      (e.stays = true → Stmt.costOf price (e.next m.heap f.stmt.tail?) < f.stmt.cost price) := by
  rw [f.stmt.cost_eq_head_tail]
  rw [f.stmt.loopFree_eq_head_tail, Bool.and_eq_true] at hfree
  obtain ⟨hhead, htail⟩ := hfree
  have hpositive : 1 ≤ f.stmt.head.cost price := f.stmt.head.one_le_cost price
  -- it is enough that what comes in front of the tail is cheaper than the head
  have hfront : ∀ {x : Stmt}, x.loopFree = true → x.cost price < f.stmt.head.cost price →
      Stmt.loopFreeOf (some (x.andThen f.stmt.tail?)) = true ∧
        (e.stays = true → Stmt.costOf price (some (x.andThen f.stmt.tail?)) <
          f.stmt.head.cost price + Stmt.costOf price f.stmt.tail?) := by
    intro x hx hlt
    refine ⟨?_, fun _ => ?_⟩
    · rw [Stmt.loopFreeOf, Stmt.loopFree_andThen, hx, htail, Bool.and_true]
    · rw [Stmt.costOf, Stmt.cost_andThen]
      omega
  cases he with
  | ask hw _ _ _ _ =>
    refine hfront rfl ?_
    generalize f.stmt.head = x at hw
    cases hw with
    | query _ => exact Nat.lt_succ_self 1
    | derive _ => exact Nat.lt_succ_self 1
  | act hw =>
    generalize f.stmt.head = x at hw hhead hpositive hfront ⊢
    cases hw with
    | call hc hr hmeth hlen hargs => exact hfront rfl (by simp only [Stmt.cost]; omega)
    | create hfields hlen hargs => exact hfront rfl (Nat.lt_succ_self 1)
    | ret hg hawait he => exact ⟨rfl, fun hstays => absurd hstays (by simp [Effect.stays])⟩
    | onTrue he =>
      obtain ⟨hTrue, -⟩ := Bool.and_eq_true_iff.1 hhead
      exact hfront hTrue (by simp only [Stmt.cost]; omega)
    | onFalse he =>
      obtain ⟨-, hFalse⟩ := Bool.and_eq_true_iff.1 hhead
      exact hfront hFalse (by simp only [Stmt.cost]; omega)
    | loop => exact absurd hhead (by simp [Stmt.loopFree])
    | _ =>
      refine ⟨htail, fun _ => ?_⟩
      show Stmt.costOf price f.stmt.tail? < _
      omega

/-- A call has paid for the method and for the marker it leaves. -/
theorem Enacts.cost_of_invoke {target : Option Location} {callee : Ref} {body : Stmt}
    {locals : Memory} (he : Enacts kb m f below s (.invoke target callee body locals) s')
    (hpriced : m.classes.Priced price) :
    body.cost price + (Stmt.storeReturn target).cost price < f.stmt.head.cost price := by
  cases he with
  | act hw =>
    generalize f.stmt.head = x at hw
    cases hw with
    | call hc hr hmeth hlen hargs =>
      have hbody := hpriced _ _ (ClassTable.mem_bodies_of_method hmeth)
      simp only [Stmt.cost]
      omega

/-- A caller that is resumed has no loop and costs no more than when it was waiting. -/
theorem Enacts.cost_of_resume (price : String → Nat) {g : Frame} {rest : Option Stmt}
    (he : Enacts kb m f below s (.resume g rest) s') (hfree : g.stmt.loopFree = true) :
    Stmt.loopFreeOf rest = true ∧ Stmt.costOf price rest ≤ g.stmt.cost price := by
  cases he with
  | act hw =>
    generalize f.stmt.head = x at hw
    cases hw with
    | ret hg hawait he => exact Stmt.cost_received price hawait hfree _

/-- Nothing that is scheduled or can be called has a loop, and every method costs no more than its
    name. -/
structure Priced (price : String → Nat) (m : Machine) : Prop where
  disciplined : m.Disciplined
  frames : ∀ f ∈ m.stack, f.stmt.loopFree = true
  methods : m.classes.LoopFree
  prices : m.classes.Priced price

theorem Priced.perform (h : m.Priced price) (hm : m.stack = f :: below)
    (he : Enacts kb m f below s e s') :
    ∀ g ∈ ((m.running below).perform f f.stmt.tail? e).stack, g.stmt.loopFree = true := by
  have hbelow : ∀ g ∈ below, g.stmt.loopFree = true :=
    fun g hg => h.frames g (hm ▸ List.mem_cons_of_mem f hg)
  intro g hg
  cases mem_perform hg with
  | kept hg => exact hbelow g hg
  | running _ _ hs =>
    have hnext := (he.next_of_loopFree price (h.frames f (hm ▸ List.mem_cons_self))).1
    rw [show e.next m.heap f.stmt.tail? = some g.stmt from hs] at hnext
    exact hnext
  | spawned _ _ hs =>
    obtain ⟨method, hbody, rfl⟩ := he.all_of_invoke h.methods
    rw [hs]
    exact hbody
  | @resumed caller _ next _ _ hs =>
    have hcaller : caller ∈ below := Frame.mem_of_callerIn he.callerIn_of_resume
    rw [hs]
    exact (he.cost_of_resume price (hbelow caller hcaller)).1

/-- Every effect lowers the price of what is left to run. -/
theorem Priced.work_perform_lt (h : m.Priced price) (hm : m.stack = f :: below)
    (he : Enacts kb m f below s e s') :
    ((m.running below).perform f f.stmt.tail? e).work price < m.work price := by
  have hfree : f.stmt.loopFree = true := h.frames f (hm ▸ List.mem_cons_self)
  have hbelow : (m.running below).work price = workOf price below := rfl
  rw [work_cons hm]
  cases hstays : e.stays with
  | true =>
    have hnext := (he.next_of_loopFree price hfree).2 hstays
    rw [perform_of_stays hstays, work_proceed]
    exact Nat.add_lt_add_right hnext _
  | false =>
    cases e with
    | invoke target callee body locals =>
      have hpaid := he.cost_of_invoke h.prices
      have hwork : ((m.running below).perform f f.stmt.tail?
          (.invoke target callee body locals)).work price =
            body.cost price + (((Stmt.storeReturn target).andThen f.stmt.tail?).cost price +
              (m.running below).work price) := rfl
      rw [hwork, hbelow, Stmt.cost_andThen, f.stmt.cost_eq_head_tail]
      omega
    | resume g rest =>
      -- the frame that returns is gone, and the caller right beneath it has not become dearer
      have hdisc : ObjectMachine.Disciplined (f :: below) m.lastFrame m.lastKey :=
        hm ▸ h.disciplined
      obtain ⟨lower, rfl, -, -⟩ := hdisc.below_of_callerIn he.callerIn_of_resume
      have hg : g.stmt.loopFree = true := h.frames g (hm ▸ by simp)
      have hrest := (he.cost_of_resume price hg).2
      have hreturns : 1 ≤ f.stmt.cost price := f.stmt.one_le_cost price
      have hwork : ((m.running (g :: lower)).perform f f.stmt.tail? (.resume g rest)).work price =
          Stmt.costOf price rest + workOf price lower := by
        rw [Machine.perform, work_proceed, work]
        show _ + workOf price ((g :: lower).eraseP fun k => k.key = g.key) = _
        rw [eraseP_key_cons]
      rw [hwork, workOf]
      omega
    | _ => exact absurd hstays (by simp [Effect.stays])

/-- A step that does not fail keeps the prices and lowers the price of what is left to run. -/
theorem Priced.step_lt (h : m.Priced price) (hne : m.stack ≠ []) (hmax : m.maxSteps = 0)
    (hstep : (m.step kb s).outcome.fault? = none) :
    (m.step kb s).machine.Priced price ∧ (m.step kb s).machine.work price < m.work price := by
  obtain ⟨f, below, hm⟩ := List.exists_cons_of_ne_nil hne
  have hdisc : (m.step kb s).machine.Disciplined := h.disciplined.of_moves (moves_step m s)
  have hclasses : (m.step kb s).machine.classes = m.classes := step_classes m s
  obtain ⟨e, s', he, hperform⟩ : ∃ e s', Enacts kb m f below s e s' ∧
      (m.step kb s).machine = (m.running below).perform f f.stmt.tail? e := by
    rw [step_eq hm (limitReached_of_unlimited hmax)] at hstep ⊢
    cases heffect : m.effectOf kb f below s with
    | mk r s' =>
      cases r with
      | error fault => exact absurd hstep (by simp [heffect, Outcome.fault?])
      | ok e => exact ⟨e, s', (enacts_of_effectOf heffect).2, rfl⟩
  refine ⟨⟨hdisc, ?_, hclasses ▸ h.methods, hclasses ▸ h.prices⟩, ?_⟩
  · rw [hperform]
    exact h.perform hm he
  · rw [hperform]
    exact h.work_perform_lt hm he

/-! ### Runs -/

/-- After the start of a program, only the main program is left to run. -/
theorem Priced.start {classes : ClassTable} {heap : Heap} {maxSteps : Nat} {main : Stmt}
    (hfree : classes.LoopFree) (hprices : classes.Priced price) (hmain : main.loopFree = true)
    (hstart : (Machine.new classes heap maxSteps).start main = .ok (f, m)) :
    m.Priced price ∧ m.work price = main.cost price := by
  have hdisc : m.Disciplined := (disciplined_new classes heap maxSteps).start hstart
  rw [start_eq] at hstart
  obtain ⟨rfl, rfl⟩ := Prod.mk.inj (Except.ok.inj hstart)
  refine ⟨⟨hdisc, fun g hg => ?_, hfree, hprices⟩, Nat.add_zero _⟩
  obtain rfl := List.mem_singleton.1 hg
  exact hmain

/-- With as much fuel as its price an unlimited run is finished. -/
theorem Priced.finished (h : m.Priced price) (hmax : m.maxSteps = 0) {fuel : Nat}
    (hfuel : m.work price ≤ fuel) (printed : String) :
    ¬(runFrom kb fuel m s printed).Unfinished := by
  -- each step uses one unit of fuel and lowers the price by at least one
  induction fuel generalizing m s printed with
  | zero =>
    intro hgoes
    have hne : m.stack ≠ [] := hgoes.2
    obtain ⟨f, below, hm⟩ := List.exists_cons_of_ne_nil hne
    have hpositive : 1 ≤ f.stmt.cost price := f.stmt.one_le_cost price
    rw [work_cons hm] at hfuel
    omega
  | succ fuel ih =>
    by_cases hnil : m.stack = []
    · rw [runFrom_nil hnil]
      exact fun hgoes => hgoes.2 hnil
    · cases hstep : (m.step kb s).outcome.fault? with
      | none =>
        obtain ⟨hpriced, hlt⟩ := h.step_lt hnil hmax hstep
        rw [runFrom_succ hnil hstep]
        exact ih hpriced (by rw [step_maxSteps, hmax]) (by omega) _
      | some fault =>
        rw [runFrom_failed hnil hstep]
        exact fun hgoes => absurd hgoes.1 (by simp)

end Machine

/-- In a program without loops every call in a method names a method of a smaller rank; the calls
    of the main program are arbitrary. Then the program can be started on any heap, and its
    unlimited run ends with nothing left to run or with a fault, whatever the knowledge base
    answers. It takes no more steps than the price of the main program. -/
theorem run_ends_of_ranked {σ : Type} (kb : Option (KnowledgeBase σ)) {classes : ClassTable}
    (hfree : classes.LoopFree) {rank : String → Nat} (hrank : classes.Ranked rank) (heap : Heap)
    {main : Stmt} (hmain : main.loopFree = true) (s : σ) :
    ∃ f m r, (Machine.new classes heap 0).start main = .ok (f, m) ∧ m.Ends kb s r ∧
      (r.machine.stack = [] ∨ ∃ fault, r.fault = some fault) ∧
      r.machine.steps ≤ main.cost (classes.price rank) := by
  obtain ⟨f, m, hstart⟩ := (Machine.new classes heap 0).exists_start main
  obtain ⟨hpriced, hwork⟩ := Machine.Priced.start hfree hrank.priced hmain hstart
  obtain ⟨-, hmax, hzero⟩ := Machine.start_withLimit hstart 0
  have hfinished : ¬(m.runFor kb (main.cost (classes.price rank)) s).Unfinished :=
    hpriced.finished hmax (Nat.le_of_eq hwork) ""
  refine ⟨f, m, m.runFor kb (main.cost (classes.price rank)) s, hstart, ⟨hfinished, _, rfl⟩, ?_, ?_⟩
  · cases hfault : (m.runFor kb (main.cost (classes.price rank)) s).fault with
    | some fault => exact .inr ⟨fault, rfl⟩
    | none => exact .inl (Classical.byContradiction fun hnil => hfinished ⟨hfault, hnil⟩)
  · obtain ⟨k, hk, hsteps, -⟩ := Machine.steps_of_finished hmax hfinished
    have hnew : m.steps = 0 := hzero
    rw [Machine.runFor, hsteps]
    omega

/-- A main program calls a method that calls another one. The price of the main program is the
    number of steps that it takes. -/
theorem run_ends_of_ranked_of_nested_calls :
    let classes : ClassTable := .ofList [("C", ⟨[], .ofList
      [("inner", ⟨[], .ret (.lit (.ofInt 1))⟩),
        ("outer", ⟨[], .block [.call (some (.var "x")) (.var "this") "inner" [],
          .ret (.var "x")]⟩)]⟩)]
    let main : Stmt := .block [.create (.var "c") "C" [],
      .call (some (.var "y")) (.var "c") "outer" [], .print (.var "y")]
    let rank (name : String) : Nat := if name = "outer" then 1 else 0
    let kb : Option (KnowledgeBase Unit) := none
    classes.LoopFree ∧ classes.Ranked rank ∧ main.loopFree = true ∧
      main.cost (classes.price rank) = 9 ∧
      ∃ f m r, (Machine.new classes ∅ 0).start main = .ok (f, m) ∧ m.Ends kb () r ∧
        r.machine.stack = [] ∧ r.printed = "1\n" ∧ r.machine.steps = 9 := by
  intro classes main rank kb
  have hfree : classes.LoopFree := by decide
  have hrank : classes.Ranked rank := by decide
  have hmain : main.loopFree = true := by decide
  have hcost : main.cost (classes.price rank) = 9 := by decide
  obtain ⟨f, m, r, hstart, hends, -, -⟩ := run_ends_of_ranked kb hfree hrank ∅ hmain ()
  refine ⟨hfree, hrank, hmain, hcost, f, m, r, hstart, hends, ?_⟩
  obtain ⟨hstack, hprinted, hsteps⟩ : (m.runFor kb 9 ()).machine.stack = [] ∧
      (m.runFor kb 9 ()).printed = "1\n" ∧ (m.runFor kb 9 ()).machine.steps = 9 := by
    rw [Machine.start_eq] at hstart
    obtain ⟨-, rfl⟩ := Prod.mk.inj (Except.ok.inj hstart)
    exact ⟨List.isEmpty_iff.1 (by decide +kernel), by decide +kernel, by decide +kernel⟩
  obtain rfl := hends.unique ⟨fun h => h.2 hstack, 9, rfl⟩
  exact ⟨hstack, hprinted, hsteps⟩

end ObjectMachine
