import Mathlib.Data.List.Forall2
import ObjectMachine.Machine.Trace
import ObjectMachine.Proofs.Aftermath
import ObjectMachine.Proofs.Bracketing

namespace ObjectMachine

/-!
# Variants run in lockstep

How sequences are bracketed makes no difference to a run. Instead of following two runs at once,
every machine is compared with the one in which all statements are in normal form: a step commutes
with taking normal forms, and two machines with the same normal form then stay so.

* `Machine.normal` — the machine with all its statements in normal form, its methods included;
* `Machine.step_normal` — a step of a disciplined machine commutes with it;
* `ClassTable.Variant` — classes that differ in how sequences are bracketed only;
* `Machine.Alike`, `Machine.InLockstep` — machines that do so, now and after any number of steps;
* `variants_run_in_lockstep` — variants run alike for any number of steps.
-/

/-! ### Normal forms of programs -/

/-- The method with its body in normal form. -/
def Method.normal (m : Method) : Method :=
  { m with body := m.body.normal }

/-- The class with the bodies of its methods in normal form. -/
def ClassInfo.normal (info : ClassInfo) : ClassInfo :=
  { info with methods := info.methods.mapValues Method.normal }

namespace ClassTable

/-- The classes with the bodies of their methods in normal form. -/
def normal (classes : ClassTable) : ClassTable :=
  classes.mapValues ClassInfo.normal

@[simp] theorem fields?_normal (classes : ClassTable) (cls : String) :
    classes.normal.fields? cls = classes.fields? cls := by
  rw [fields?, fields?, normal, SortedMap.get?_mapValues]
  cases classes.get? cls <;> rfl

@[simp] theorem hasField_normal (classes : ClassTable) (cls name : String) :
    classes.normal.hasField cls name = classes.hasField cls name := by
  rw [hasField, hasField, fields?_normal]

@[simp] theorem fields_normal (classes : ClassTable) (cls : String) :
    classes.normal.fields cls = classes.fields cls := by
  rw [fields, fields, fields?_normal]

@[simp] theorem method_normal (classes : ClassTable) (cls name : String) :
    classes.normal.method cls name = (classes.method cls name).map Method.normal := by
  rw [method, method, normal, SortedMap.get?_mapValues]
  cases classes.get? cls with
  | none => rfl
  | some info =>
    cases hm : info.methods.get? name with
    | none => simp [ClassInfo.normal, hm, Except.map]
    | some m => simp [ClassInfo.normal, hm, Except.map]

end ClassTable

/-! ### Normal forms of intents -/

/-- The frame with what it has left to run in normal form. -/
def Frame.normal (f : Frame) : Frame :=
  { f with stmt := f.stmt.normal }

/-- The caller with what it has left to run in normal form. -/
def Caller.normal : Caller → Caller
  | .none => .none
  | .missing id => .missing id
  | .waiting f => .waiting f.normal

/-- The effect with all its statements in normal form. -/
def Effect.normal : Effect → Effect
  | .become s => .become s.normal
  | .invoke target callee body locals => .invoke target callee body.normal locals
  | .resume caller rest => .resume caller.normal (rest.map Stmt.normal)
  | e => e

/-- The intent with all its statements in normal form. -/
def Intent.normal : Intent → Intent
  | .act e => .act e.normal
  | .ask r target => .ask r target

/-- A caller that is found waits for a result. -/
def Caller.Ready : Caller → Prop
  | .waiting f => f.Waits
  | _ => True

variable {classes : ClassTable} {sc : Scope} {caller : Caller}

@[simp] theorem writeField_normal (heap : Heap) (v new : Value) (name : String) :
    writeField classes.normal heap v name new =
      (writeField classes heap v name new).map Effect.normal := by
  cases v
  case object r =>
    simp only [writeField, ClassTable.hasField_normal]
    split
    · rfl
    · split
      · rfl
      · rfl
  all_goals rfl

theorem Location.write_normal (target : Location) (v : Value) :
    target.write classes.normal sc v = (target.write classes sc v).map Effect.normal := by
  cases target with
  | var name => rfl
  | own name => exact writeField_normal sc.heap sc.owner v name
  | field base name =>
    simp only [write, writeField_normal]
    cases base.eval sc <;> rfl

theorem callIntent_normal (target : Option Location) (callee : Expr) (name : String)
    (args : List Expr) :
    callIntent classes.normal sc target callee name args =
      (callIntent classes sc target callee name args).map Effect.normal := by
  rw [callIntent, callIntent]
  cases callee.eval sc with
  | error fault => rfl
  | ok v =>
    cases v
    case object r =>
      show (if _ then _ else classes.normal.method r.cls name >>= _) =
        Except.map _ (if _ then _ else classes.method r.cls name >>= _)
      rw [ClassTable.method_normal]
      split
      · rfl
      · cases classes.method r.cls name with
        | error fault => rfl
        | ok m =>
          show (if m.params.length ≠ args.length then _ else _) =
            Except.map _ (if m.params.length ≠ args.length then _ else _)
          split
          · rfl
          · cases Expr.evalAll sc args <;> rfl
    all_goals rfl

theorem createIntent_normal (target : Location) (cls : String) (args : List Expr) :
    createIntent classes.normal sc target cls args =
      (createIntent classes sc target cls args).map Effect.normal := by
  rw [createIntent, createIntent, ClassTable.fields_normal]
  cases classes.fields cls with
  | error fault => rfl
  | ok fields =>
    show (if _ then _ else _) = Except.map _ (if _ then _ else _)
    split
    · rfl
    · cases Expr.evalAll sc args <;> rfl

/-- A frame that waits says the same of itself in normal form. -/
theorem Frame.Waits.awaiting_normal {g : Frame} (h : g.Waits) :
    ∃ target rest, g.stmt.awaiting? = some (target, rest) ∧
      g.normal.stmt.awaiting? = some (target, rest.map Stmt.normal) := by
  obtain ⟨target, hs | ⟨rest, hs⟩⟩ := h
  · refine ⟨target, none, by rw [hs]; rfl, ?_⟩
    rw [Frame.normal, hs]
    rfl
  · refine ⟨target, some rest, by rw [hs]; rfl, ?_⟩
    rw [Frame.normal, hs, Stmt.normal_seq]
    rfl

theorem Stmt.received_normal (target : Option Location) (rest : Option Stmt) (v : Value) :
    Stmt.received target (rest.map Stmt.normal) v =
      (Stmt.received target rest v).map Stmt.normal := by
  cases target with
  | none => rfl
  | some l =>
    cases rest with
    | none => rfl
    | some next =>
      show some _ = some _
      rw [Stmt.normal_seq]
      rfl

theorem returnIntent_normal (hready : caller.Ready) (value : Expr) :
    returnIntent sc caller.normal value = (returnIntent sc caller value).map Effect.normal := by
  cases caller with
  | none => rfl
  | missing id => rfl
  | waiting g =>
    obtain ⟨target, rest, hg, hnormal⟩ := Frame.Waits.awaiting_normal hready
    show returnIntent sc (.waiting g.normal) value = _
    simp only [returnIntent, hg, hnormal]
    cases value.eval sc with
    | error fault => rfl
    | ok v =>
      show Except.ok (Effect.resume g.normal _) = Except.ok (Effect.resume g.normal _)
      rw [Stmt.received_normal]

/-- What a statement other than a sequence wants in normal form. -/
theorem Stmt.intent_normal_of_not_isSeq (hready : caller.Ready) {s : Stmt}
    (hs : s.isSeq = false) :
    s.normal.intent classes.normal sc caller.normal =
      (s.intent classes sc caller).map fun p => (p.1.normal, p.2.map Stmt.normal) := by
  cases s
  case seq => exact absurd hs (by simp [isSeq])
  case print e =>
    show (print e).intent _ _ _ = _
    rw [intent, intent]
    cases e.eval sc <;> rfl
  case assign target value =>
    show (assign target value).intent _ _ _ = _
    rw [intent, intent]
    cases value.eval sc with
    | error fault => rfl
    | ok v =>
      show (target.write classes.normal sc v >>= _) =
        Except.map _ (target.write classes sc v >>= _)
      rw [Location.write_normal]
      cases target.write classes sc v <;> rfl
  case call target callee name args =>
    show (call target callee name args).intent _ _ _ = _
    rw [intent, intent, callIntent_normal]
    cases callIntent classes sc target callee name args <;> rfl
  case create target cls args =>
    show (create target cls args).intent _ _ _ = _
    rw [intent, intent, createIntent_normal]
    cases createIntent classes sc target cls args <;> rfl
  case ret value =>
    show (ret value).intent _ _ _ = _
    rw [intent, intent, returnIntent_normal hready]
    cases returnIntent sc caller value <;> rfl
  case cond guard a b =>
    show (cond guard a.normal b.normal).intent _ _ _ = _
    rw [intent, intent]
    cases guard.eval sc with
    | error fault => rfl
    | ok v =>
      cases v
      case boolean b => cases b <;> rfl
      all_goals rfl
  case loop guard body =>
    -- unrolling a loop extends the continuation by the loop itself
    have hbody : (cond guard (body.append (loop guard body)) skip).normal =
        cond guard (body.normal.append (loop guard body.normal)) skip := by
      show cond guard (body.append (loop guard body)).normal skip = _
      rw [normal_append]
      rfl
    show Except.ok (Intent.act (.become _), none) = Except.ok (Intent.act (.become _), none)
    rw [hbody]
    rfl
  case query target text params =>
    show (query target text params).intent _ _ _ = _
    rw [intent, intent]
    cases queryIntent sc text params <;> rfl
  case derive target cls =>
    show (derive target cls).intent _ _ _ = _
    rw [intent, intent]
    cases requestText sc "derive" cls <;> rfl
  all_goals rfl

/-- Taking normal forms commutes with asking what a statement wants. -/
theorem Stmt.intent_normal (hready : caller.Ready) (s : Stmt) :
    s.normal.intent classes.normal sc caller.normal =
      (s.intent classes sc caller).map fun p => (p.1.normal, p.2.map Stmt.normal) := by
  rw [intent_eq_head, head_normal, tail?_normal,
    intent_normal_of_not_isSeq hready s.isSeq_head, intent_eq_head s]
  cases s.head.intent classes sc caller <;> rfl

/-! ### Normal forms of machines -/

theorem Frame.callerIn_normal (f : Frame) (below : List Frame) :
    f.normal.callerIn (below.map Frame.normal) = (f.callerIn below).normal := by
  have hcaller : f.normal.caller = f.caller := rfl
  rw [callerIn, callerIn, hcaller]
  cases f.caller with
  | none => rfl
  | some r =>
    -- callers are found by their keys, which have nothing to do with statements
    have hkey : ((fun g : Frame => decide (g.key = r.key)) ∘ Frame.normal) =
        fun g => decide (g.key = r.key) := rfl
    simp only [List.find?_map, hkey]
    cases below.find? fun g => decide (g.key = r.key) <;> rfl

namespace Machine

variable {σ : Type} {kb : Option (KnowledgeBase σ)}

/-- The machine with all statements in normal form, those of its methods included. -/
def normal (m : Machine) : Machine :=
  { m with classes := m.classes.normal, stack := m.stack.map Frame.normal }

theorem intentOf_normal (m : Machine) (f : Frame) (below : List Frame)
    (hready : (f.callerIn below).Ready) :
    m.normal.intentOf f.normal (below.map Frame.normal) =
      (m.intentOf f below).map fun p => (p.1.normal, p.2.map Stmt.normal) := by
  have howner : m.normal.heap.contains f.normal.owner = m.heap.contains f.owner := rfl
  rw [intentOf, intentOf, howner, Frame.callerIn_normal]
  split
  · exact Stmt.intent_normal hready f.stmt
  · rfl

theorem resolve_normal (m : Machine) (s : σ) (i : Intent) :
    m.normal.resolve kb s i.normal =
      ((m.resolve kb s i).1.map Effect.normal, (m.resolve kb s i).2) := by
  cases i with
  | act e => rfl
  | ask r target =>
    cases kb with
    | none => rfl
    | some base =>
      have hlist : hasListClass m.normal.classes = hasListClass m.classes := by
        simp [hasListClass, normal]
      have hheap : m.normal.heap = m.heap := rfl
      simp only [Intent.normal, resolve, hlist, hheap]
      split
      · rfl
      · split
        · rfl
        · split
          · rfl
          · rfl

theorem effectOf_normal (m : Machine) (f : Frame) (below : List Frame)
    (hready : (f.callerIn below).Ready) (s : σ) :
    m.normal.effectOf kb f.normal (below.map Frame.normal) s =
      ((m.effectOf kb f below s).1.map Effect.normal, (m.effectOf kb f below s).2) := by
  rw [effectOf, effectOf, intentOf_normal m f below hready]
  cases m.intentOf f below with
  | error fault => rfl
  | ok p => exact resolve_normal m s p.1

theorem proceed_normal (m : Machine) (f : Frame) (next : Option Stmt) :
    m.normal.proceed f.normal (next.map Stmt.normal) = (m.proceed f next).normal := by
  cases next <;> rfl

theorem unschedule_normal (m : Machine) (key : Nat) :
    m.normal.unschedule key = (m.unschedule key).normal := by
  have hkey : ((fun g : Frame => decide (g.key = key)) ∘ Frame.normal) =
      fun g => decide (g.key = key) := rfl
  simp only [unschedule, normal, List.eraseP_map, hkey]

/-- Taking normal forms commutes with carrying out an effect. -/
theorem perform_normal (m : Machine) (f : Frame) (rest : Option Stmt) (e : Effect) :
    m.normal.perform f.normal (rest.map Stmt.normal) e.normal = (m.perform f rest e).normal := by
  cases e with
  | become s =>
    show m.normal.proceed f.normal (some (s.normal.andThen _)) = _
    rw [← Stmt.normal_andThen]
    exact proceed_normal m f (some (s.andThen rest))
  | create target cls fields =>
    show Machine.proceed _ f.normal (some ((Stmt.assign target _).normal.andThen _)) = _
    rw [← Stmt.normal_andThen]
    exact proceed_normal { m with heap := (m.heap.create cls fields).2 } f (some _)
  | enlist target contents =>
    show Machine.proceed _ f.normal (some ((Stmt.assign target _).normal.andThen _)) = _
    rw [← Stmt.normal_andThen]
    exact proceed_normal { m with heap := (m.heap.addList .null contents).2 } f (some _)
  | invoke target callee body locals =>
    show Machine.spawn (Machine.rewrite _ f.normal ((Stmt.storeReturn target).normal.andThen _))
      _ _ _ = _
    rw [← Stmt.normal_andThen]
    rfl
  | resume g r =>
    show ((m.retire f).normal.unschedule g.key).proceed g.normal _ = _
    rw [unschedule_normal, proceed_normal]
    rfl
  | setLocal name v =>
    exact proceed_normal m { f with locals := f.locals.insert name v } rest
  | setField r name v =>
    exact proceed_normal { m with heap := m.heap.setField r name v } f rest
  | finish => exact proceed_normal m f rest
  | pause => exact proceed_normal m f rest
  | print v => exact proceed_normal m f rest

/-- The callers of a disciplined machine are ready for a result. -/
theorem Disciplined.ready {m : Machine} (h : m.Disciplined) {f : Frame} {below : List Frame}
    (hm : m.stack = f :: below) : (f.callerIn below).Ready := by
  rw [Machine.Disciplined, hm] at h
  rcases (linked_cons.1 h.linked).1.callerIn with hnone | ⟨g, rest, -, -, hw, hg⟩
  · rw [hnone]
    trivial
  · rw [hg]
    exact hw

/-- A step commutes with taking normal forms: it ends, prints and asks the same. -/
theorem step_normal (kb : Option (KnowledgeBase σ)) {m : Machine} (h : m.Disciplined) (s : σ) :
    m.normal.step kb s = { m.step kb s with machine := (m.step kb s).machine.normal } := by
  cases hm : m.stack with
  | nil =>
    have hnormal : m.normal.stack = [] := by rw [normal, hm]; rfl
    rw [step_nil hm, step_nil hnormal]
  | cons f below =>
    have hnormal : m.normal.stack = f.normal :: below.map Frame.normal := by
      rw [normal, hm]
      rfl
    by_cases hl : m.limitReached = true
    · rw [step_of_limitReached hm hl, step_of_limitReached hnormal hl]
    · have hl' : m.limitReached = false := by simpa using hl
      -- only a caller that waits right at its front does so in normal form too
      rw [step_eq hm hl', step_eq hnormal hl', effectOf_normal m f below (h.ready hm)]
      cases m.effectOf kb f below s with
      | mk r s' =>
        cases r with
        | error fault => rfl
        | ok e =>
          have hprinted : printedBy e.normal = printedBy e := by cases e <;> rfl
          have houtcome : outcomeOf f.normal e.normal = outcomeOf f e := by cases e <;> rfl
          have hrun : m.normal.running (below.map Frame.normal) = (m.running below).normal := rfl
          show StepResult.mk (Machine.perform _ f.normal f.stmt.normal.tail? e.normal) _ _ _ = _
          rw [Stmt.tail?_normal, hrun, perform_normal, hprinted, houtcome]

/-- Any number of steps commutes with taking normal forms. -/
theorem advance_normal (kb : Option (KnowledgeBase σ)) {m : Machine} (h : m.Disciplined)
    (n : Nat) (s : σ) :
    m.normal.transcript kb n s = m.transcript kb n s ∧
      m.normal.advance kb n s = ((m.advance kb n s).1.normal, (m.advance kb n s).2) := by
  induction n generalizing m s with
  | zero => exact ⟨rfl, rfl⟩
  | succ n ih =>
    have hstep := step_normal kb h s
    have hdisc : (m.step kb s).machine.Disciplined := h.of_moves (moves_step m s)
    obtain ⟨htranscript, hadvance⟩ := ih hdisc (m.step kb s).knowledge
    constructor
    · rw [transcript, transcript, hstep]
      exact congrArg (_ :: ·) htranscript
    · rw [advance, advance, hstep]
      exact hadvance

theorem push_normal (m : Machine) (stmt : Stmt) (owner : Value) (locals : Memory) :
    m.normal.push stmt.normal owner locals =
      (m.push stmt owner locals).map fun p => (p.1.normal, p.2.normal) := by
  have howner : m.normal.heap.contains owner = m.heap.contains owner := rfl
  rw [push, push, howner]
  split <;> rfl

theorem start_normal (m : Machine) (main : Stmt) :
    m.normal.start main.normal = (m.start main).map fun p => (p.1.normal, p.2.normal) :=
  push_normal { m with heap := (m.heap.create entryClass ∅).2 } main
    (.object (m.heap.create entryClass ∅).1) ∅

/-! ### Machines alike -/

theorem trace_normal (m : Machine) : m.normal.trace = m.trace := by
  have hframe : ∀ f : Frame, f.normal.trace = f.trace := by
    intro f
    show "Prc" ++ _ ++ _ ++ _ ++ _ ++ _ ++ _ ++ f.stmt.normal.text ++ _ = _
    rw [Stmt.text_normal]
    rfl
  have hstack : (m.stack.map Frame.normal).map Frame.trace = m.stack.map Frame.trace := by
    rw [List.map_map]
    exact List.map_congr_left fun f _ => hframe f
  show _ ++ _ ++ _ ++ String.join ((m.stack.map Frame.normal).map Frame.trace) = _
  rw [hstack]
  rfl

end Machine

/-- The frames differ only in how what they have left to run is bracketed. -/
structure Frame.Alike (f f' : Frame) : Prop where
  id : f.id = f'.id
  owner : f.owner = f'.owner
  locals : f.locals = f'.locals
  caller : f.caller = f'.caller
  stmt : f.stmt.Variant f'.stmt

/-- The machines differ only in how what their frames have left to run is bracketed. -/
structure Machine.Alike (m m' : Machine) : Prop where
  heap : m.heap = m'.heap
  frames : List.Forall₂ Frame.Alike m.stack m'.stack
  lastFrame : m.lastFrame = m'.lastFrame
  maxSteps : m.maxSteps = m'.maxSteps
  steps : m.steps = m'.steps
  retired : m.retired = m'.retired

theorem Frame.alike_of_normal_eq {f f' : Frame} (h : f.normal = f'.normal) : f.Alike f' := by
  obtain ⟨hid, -, hstmt, hlocals, howner, hcaller⟩ := Frame.mk.inj h
  exact ⟨hid, howner, hlocals, hcaller, Stmt.variant_iff.2 hstmt⟩

/-- Machines with the same normal form are alike. -/
theorem Machine.alike_of_normal_eq {m m' : Machine} (h : m.normal = m'.normal) :
    m.Alike m' := by
  obtain ⟨-, hheap, hstack, hlast, -, hmax, hsteps, hretired⟩ := Machine.mk.inj h
  have hframes : List.Forall₂ (fun f f' => Frame.normal f = Frame.normal f') m.stack m'.stack := by
    rw [← List.forall₂_map_right_iff (R := fun f g => Frame.normal f = g),
      ← List.forall₂_map_left_iff (R := Eq), List.forall₂_eq_eq_eq]
    exact hstack
  exact ⟨hheap, hframes.imp fun _ _ => Frame.alike_of_normal_eq, hlast, hmax, hsteps, hretired⟩

/-! ### Programs that are variants of each other -/

/-- The methods have the same parameters, and bodies that are variants of each other. -/
structure Method.Variant (m m' : Method) : Prop where
  params : m.params = m'.params
  body : m.body.Variant m'.body

/-- The classes have the same fields, and methods that are variants of each other. -/
structure ClassInfo.Variant (info info' : ClassInfo) : Prop where
  fields : info.fields = info'.fields
  methods : ∀ name, Option.Rel Method.Variant (info.methods.get? name) (info'.methods.get? name)

/-- The same classes are declared, and they are variants of each other. -/
def ClassTable.Variant (classes classes' : ClassTable) : Prop :=
  ∀ cls, Option.Rel ClassInfo.Variant (classes.get? cls) (classes'.get? cls)

/-- Maps whose values are related one by one agree after a function that does not tell related
    values apart. -/
theorem SortedMap.mapValues_eq {ν μ : Type} {R : ν → ν → Prop} {f : ν → μ}
    (hf : ∀ v v', R v v' → f v = f v') {m m' : SortedMap String ν}
    (h : ∀ k, Option.Rel R (m.get? k) (m'.get? k)) : m.mapValues f = m'.mapValues f := by
  refine SortedMap.ext_get? fun k => ?_
  have hk := h k
  rw [SortedMap.get?_mapValues, SortedMap.get?_mapValues]
  generalize m.get? k = x at hk
  generalize m'.get? k = y at hk
  cases hk with
  | none => rfl
  | some hR => exact congrArg some (hf _ _ hR)

theorem Method.Variant.normal_eq {m m' : Method} (h : m.Variant m') : m.normal = m'.normal := by
  rw [Method.normal, Method.normal, h.params, Stmt.variant_iff.1 h.body]

theorem ClassInfo.Variant.normal_eq {info info' : ClassInfo} (h : info.Variant info') :
    info.normal = info'.normal := by
  have hmethods : info.methods.mapValues Method.normal = info'.methods.mapValues Method.normal :=
    SortedMap.mapValues_eq (R := Method.Variant) (fun _ _ hm => hm.normal_eq) h.methods
  rw [ClassInfo.normal, ClassInfo.normal, h.fields, hmethods]

theorem ClassTable.Variant.normal_eq {classes classes' : ClassTable}
    (h : classes.Variant classes') : classes.normal = classes'.normal :=
  SortedMap.mapValues_eq (R := ClassInfo.Variant) (fun _ _ hinfo => hinfo.normal_eq) h

/-! ### Lockstep -/

/-- After any number of steps the machines have reported and printed the same, have left the
    knowledge base in the same state, are alike and are shown alike. -/
def Machine.InLockstep {σ : Type} (kb : Option (KnowledgeBase σ)) (s : σ) (m m' : Machine) :
    Prop :=
  ∀ n, m.transcript kb n s = m'.transcript kb n s ∧
    (m.advance kb n s).2 = (m'.advance kb n s).2 ∧
    (m.advance kb n s).1.Alike (m'.advance kb n s).1 ∧
    (m.advance kb n s).1.trace = (m'.advance kb n s).1.trace

/-- Disciplined machines with the same normal form run in lockstep. -/
theorem Machine.inLockstep_of_normal_eq {σ : Type} (kb : Option (KnowledgeBase σ)) (s : σ)
    {m m' : Machine} (hm : m.Disciplined) (hm' : m'.Disciplined) (h : m.normal = m'.normal) :
    m.InLockstep kb s m' := by
  intro n
  -- both machines are compared with the normal form they share
  obtain ⟨htranscript, hadvance⟩ := advance_normal kb hm n s
  obtain ⟨htranscript', hadvance'⟩ := advance_normal kb hm' n s
  rw [h] at htranscript hadvance
  obtain ⟨hlast, hknowledge⟩ := Prod.mk.inj (hadvance.symm.trans hadvance')
  refine ⟨htranscript.symm.trans htranscript', hknowledge, alike_of_normal_eq hlast, ?_⟩
  rw [← trace_normal, hlast, trace_normal]

/-- Two programs that are variants of each other, started on the same heap with the same
    knowledge base and step limit, run in lockstep. -/
theorem variants_run_in_lockstep {σ : Type} (kb : Option (KnowledgeBase σ))
    {classes classes' : ClassTable} (hclasses : classes.Variant classes') {main main' : Stmt}
    (hmain : main.Variant main') (heap : Heap) (maxSteps : Nat) (s : σ) :
    ∃ f m f' m', (Machine.new classes heap maxSteps).start main = .ok (f, m) ∧
      (Machine.new classes' heap maxSteps).start main' = .ok (f', m') ∧
      m.InLockstep kb s m' := by
  obtain ⟨f, m, hstart⟩ := (Machine.new classes heap maxSteps).exists_start main
  obtain ⟨f', m', hstart'⟩ := (Machine.new classes' heap maxSteps).exists_start main'
  have hm : m.Disciplined := (Machine.disciplined_new classes heap maxSteps).start hstart
  have hm' : m'.Disciplined := (Machine.disciplined_new classes' heap maxSteps).start hstart'
  have hnew : (Machine.new classes heap maxSteps).normal =
      (Machine.new classes' heap maxSteps).normal := by
    show Machine.new classes.normal heap maxSteps = Machine.new classes'.normal heap maxSteps
    rw [hclasses.normal_eq]
  have hnormal : m.normal = m'.normal := by
    have h := Machine.start_normal (Machine.new classes heap maxSteps) main
    have h' := Machine.start_normal (Machine.new classes' heap maxSteps) main'
    rw [hstart] at h
    rw [hstart', ← hnew, ← Stmt.variant_iff.1 hmain, h] at h'
    exact congrArg Prod.snd (Except.ok.inj h')
  exact ⟨f, m, f', m', hstart, hstart', Machine.inLockstep_of_normal_eq kb s hm hm' hnormal⟩

/-- A loop around a call, bracketed differently in the main program, in the body of the loop and
    in the method. -/
theorem variants_run_in_lockstep_of_nested_loop :
    let body : Stmt := .seq (.seq .skip .breakpoint) (.ret (.var "this"))
    let body' : Stmt := .seq .skip (.seq .breakpoint (.ret (.var "this")))
    let classes : ClassTable := ⟨[("C", ⟨[], ⟨[("m", ⟨[], body⟩)], List.pairwise_singleton ..⟩⟩)],
      List.pairwise_singleton ..⟩
    let classes' : ClassTable := ⟨[("C", ⟨[], ⟨[("m", ⟨[], body'⟩)], List.pairwise_singleton ..⟩⟩)],
      List.pairwise_singleton ..⟩
    let create : Stmt := .create (.var "x") "C" []
    let call : Stmt := .call (some (.var "x")) (.var "x") "m" []
    let again : Expr := .lit (.boolean true)
    let main : Stmt := .seq (.seq create call) (.loop again (.seq (.seq call .skip) call))
    let main' : Stmt := .seq create (.seq call (.loop again (.seq call (.seq .skip call))))
    let kb : Option (KnowledgeBase Unit) := none
    classes.Variant classes' ∧ main.Variant main' ∧
      ∃ f m f' m', (Machine.new classes ∅ 0).start main = .ok (f, m) ∧
        (Machine.new classes' ∅ 0).start main' = .ok (f', m') ∧ m.InLockstep kb () m' := by
  intro body body' classes classes' create call again main main' kb
  have hbody : body.Variant body' := .assoc _ _ _
  have hmethod : ∀ name, Option.Rel Method.Variant
      (findValue? name [("m", (⟨[], body⟩ : Method))])
      (findValue? name [("m", (⟨[], body'⟩ : Method))]) := by
    intro name
    by_cases hname : compare name "m" = .eq
    · simp only [findValue?, hname, if_true]
      exact .some ⟨rfl, hbody⟩
    · simp only [findValue?, hname, if_false]
      exact .none
  have hclasses : classes.Variant classes' := by
    intro cls
    by_cases hcls : compare cls "C" = .eq
    · simp only [SortedMap.get?, classes, classes', findValue?, hcls, if_true]
      exact .some ⟨rfl, hmethod⟩
    · simp only [SortedMap.get?, classes, classes', findValue?, hcls, if_false]
      exact .none
  have hmain : main.Variant main' :=
    (Stmt.Variant.assoc _ _ _).trans (.seq (.refl _) (.seq (.refl _) (.loop _ (.assoc _ _ _))))
  exact ⟨hclasses, hmain, variants_run_in_lockstep kb hclasses hmain ∅ 0 ()⟩

end ObjectMachine
