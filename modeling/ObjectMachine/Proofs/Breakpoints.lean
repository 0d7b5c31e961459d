import Mathlib.Data.List.Forall2
import ObjectMachine.Proofs.Aftermath

namespace ObjectMachine

/-!
# Breakpoints

A breakpoint pauses a run and does nothing else. So a program can be compared with the same program
after some of its breakpoints were muted, which is to say replaced by `skip`: step by step the two
machines do the same, and what they have left to run differs in muted breakpoints only.

* `Stmt.Mutes` — some breakpoints of a statement are muted, in branches and loop bodies too;
* `ClassTable.Mutes`, `Effect.Mutes`, `Machine.Mutes` — the same for everything that holds
  statements;
* `AlikeUpTo` — two attempts that fail with faults of one category or succeed with related results;
* `Stmt.Mutes.intent_head` — what the heads of two such statements want;
* `Machine.Mutes.step`, `Machine.Mutes.runsMuted` — one step and any number of steps;
* `Machine.pauses_iff` — a step pauses exactly at a breakpoint;
* `breakpoints_are_transparent` — both of them for programs that are started.
-/

/-! ### Statements -/

namespace Stmt

/-- The second statement is the first one after some of its breakpoints were muted. -/
inductive Mutes : Stmt → Stmt → Prop where
  | refl (s : Stmt) : Mutes s s
  | breakpoint : Mutes breakpoint skip
  | seq {a a' b b' : Stmt} (ha : Mutes a a') (hb : Mutes b b') : Mutes (seq a b) (seq a' b')
  | cond (guard : Expr) {a a' b b' : Stmt} (ha : Mutes a a') (hb : Mutes b b') :
      Mutes (cond guard a b) (cond guard a' b')
  | loop (guard : Expr) {body body' : Stmt} (h : Mutes body body') :
      Mutes (loop guard body) (loop guard body')

/-- The statement with all of its breakpoints muted. -/
def silent : Stmt → Stmt
  | breakpoint => skip
  | seq first second => seq first.silent second.silent
  | cond guard onTrue onFalse => cond guard onTrue.silent onFalse.silent
  | loop guard body => loop guard body.silent
  | s => s

theorem mutes_silent (s : Stmt) : s.Mutes s.silent := by
  induction s with
  | breakpoint => exact .breakpoint
  | seq first second ih₁ ih₂ => exact .seq ih₁ ih₂
  | cond guard a b iha ihb => exact .cond guard iha ihb
  | loop guard body ih => exact .loop guard ih
  | _ => exact .refl _

/-- What may be left to run is the same up to muted breakpoints. -/
abbrev MutesOpt : Option Stmt → Option Stmt → Prop :=
  Option.Rel Mutes

theorem MutesOpt.refl (rest : Option Stmt) : MutesOpt rest rest := by
  cases rest with
  | none => exact .none
  | some s => exact .some (.refl s)

namespace Mutes

variable {s s' t t' : Stmt} {rest rest' : Option Stmt}

theorem append (hs : s.Mutes s') (ht : t.Mutes t') : (s.append t).Mutes (s'.append t') := by
  induction hs with
  | refl s =>
    induction s with
    | seq first second _ ih => exact .seq (.refl first) ih
    | _ => exact .seq (.refl _) ht
  | breakpoint => exact .seq .breakpoint ht
  | seq ha _ _ ih => exact .seq ha ih
  | cond guard ha hb => exact .seq (.cond guard ha hb) ht
  | loop guard h => exact .seq (.loop guard h) ht

theorem andThen (hs : s.Mutes s') (hrest : MutesOpt rest rest') :
    (s.andThen rest).Mutes (s'.andThen rest') := by
  cases hrest with
  | none => exact hs
  | some ht => exact hs.append ht

theorem before (hrest : MutesOpt rest rest') (ht : t.Mutes t') :
    (before rest t).Mutes (before rest' t') := by
  cases hrest with
  | none => exact ht
  | some hs => exact hs.append ht

theorem head (h : s.Mutes s') : s.head.Mutes s'.head := by
  induction h with
  | refl s => exact .refl s.head
  | breakpoint => exact .breakpoint
  | seq _ _ ih _ => exact ih
  | cond guard ha hb => exact .cond guard ha hb
  | loop guard h => exact .loop guard h

theorem tail? (h : s.Mutes s') : MutesOpt s.tail? s'.tail? := by
  induction h with
  | refl s => exact .refl s.tail?
  | seq _ hb ih _ => exact .some (before ih hb)
  | _ => exact .none

/-- A pending call waits in the same way: its marker is no breakpoint. -/
theorem awaiting? (h : s.Mutes s') :
    (s.awaiting? = none ∧ s'.awaiting? = none) ∨
      ∃ target rest rest', s.awaiting? = some (target, rest) ∧
        s'.awaiting? = some (target, rest') ∧ MutesOpt rest rest' := by
  cases h with
  | refl s =>
    cases hs : s.awaiting? with
    | none => exact .inl ⟨rfl, rfl⟩
    | some p => exact .inr ⟨p.1, p.2, p.2, rfl, rfl, .refl p.2⟩
  | @seq a a' b b' ha hb =>
    cases ha with
    | refl a =>
      cases a
      case storeReturn target => exact .inr ⟨target, some b, some b', rfl, rfl, .some hb⟩
      all_goals exact .inl ⟨rfl, rfl⟩
    | _ => exact .inl ⟨rfl, rfl⟩
  | _ => exact .inl ⟨rfl, rfl⟩

theorem received (target : Option Location) (hrest : MutesOpt rest rest') (v : Value) :
    MutesOpt (received target rest v) (received target rest' v) := by
  cases target with
  | none => exact hrest
  | some l =>
    cases hrest with
    | none => exact .refl _
    | some h => exact .some (.seq (.refl _) h)

end Mutes

end Stmt

/-! ### Programs -/

/-- The methods have the same parameters, and breakpoints are muted in the body. -/
structure Method.Mutes (m m' : Method) : Prop where
  params : m.params = m'.params
  body : m.body.Mutes m'.body

/-- The classes have the same fields, and breakpoints are muted in the methods. -/
structure ClassInfo.Mutes (info info' : ClassInfo) : Prop where
  fields : info.fields = info'.fields
  methods : ∀ name, Option.Rel Method.Mutes (info.methods.get? name) (info'.methods.get? name)

/-- The same classes are declared, and breakpoints are muted in them. -/
def ClassTable.Mutes (classes classes' : ClassTable) : Prop :=
  ∀ cls, Option.Rel ClassInfo.Mutes (classes.get? cls) (classes'.get? cls)

/-- Two attempts fail with faults of the same category, or succeed with related results. -/
inductive AlikeUpTo {α β : Type} (R : α → β → Prop) : Except Fault α → Except Fault β → Prop where
  | error {fault fault' : Fault} (h : fault.category? = fault'.category?) :
      AlikeUpTo R (.error fault) (.error fault')
  | ok {a : α} {b : β} (h : R a b) : AlikeUpTo R (.ok a) (.ok b)

namespace AlikeUpTo

variable {α β γ δ : Type} {R : α → β → Prop} {Q : γ → δ → Prop}

/-- The same attempt, made twice. -/
theorem same {R : α → α → Prop} (hR : ∀ a, R a a) (x : Except Fault α) : AlikeUpTo R x x := by
  cases x with
  | error fault => exact .error rfl
  | ok a => exact .ok (hR a)

theorem bind {x : Except Fault α} {y : Except Fault β} (h : AlikeUpTo R x y)
    {f : α → Except Fault γ} {g : β → Except Fault δ}
    (hf : ∀ a b, R a b → AlikeUpTo Q (f a) (g b)) : AlikeUpTo Q (x >>= f) (y >>= g) := by
  cases h with
  | error h => exact .error h
  | ok h => exact hf _ _ h

/-- The same attempt goes on in two related ways. -/
theorem bindSame (x : Except Fault α) {f : α → Except Fault γ} {g : α → Except Fault δ}
    (hf : ∀ a, AlikeUpTo Q (f a) (g a)) : AlikeUpTo Q (x >>= f) (x >>= g) :=
  (same (fun _ => rfl) x).bind fun a _ h => h ▸ hf a

end AlikeUpTo

namespace ClassTable.Mutes

variable {classes classes' : ClassTable}

theorem fields?_eq (h : classes.Mutes classes') (cls : String) :
    classes'.fields? cls = classes.fields? cls := by
  have hcls := h cls
  rw [fields?, fields?]
  generalize classes.get? cls = info at hcls
  generalize classes'.get? cls = info' at hcls
  cases hcls with
  | none => rfl
  | some hinfo => exact congrArg some hinfo.fields.symm

theorem fields_eq (h : classes.Mutes classes') (cls : String) :
    classes'.fields cls = classes.fields cls := by
  rw [fields, fields, h.fields?_eq]

theorem hasField_eq (h : classes.Mutes classes') (cls name : String) :
    classes'.hasField cls name = classes.hasField cls name := by
  rw [hasField, hasField, h.fields?_eq]

theorem method (h : classes.Mutes classes') (cls name : String) :
    AlikeUpTo Method.Mutes (classes.method cls name) (classes'.method cls name) := by
  have hcls := h cls
  rw [ClassTable.method, ClassTable.method]
  generalize classes.get? cls = info at hcls
  generalize classes'.get? cls = info' at hcls
  cases hcls with
  | none => exact .error rfl
  | @some info info' hinfo =>
    have hname := hinfo.methods name
    dsimp only
    generalize info.methods.get? name = m at hname
    generalize info'.methods.get? name = m' at hname
    cases hname with
    | none => exact .error rfl
    | some hm => exact .ok hm

end ClassTable.Mutes

/-! ### What heads want -/

/-- The frames differ in muted breakpoints only. -/
structure Frame.Mutes (f f' : Frame) : Prop where
  id : f.id = f'.id
  key : f.key = f'.key
  owner : f.owner = f'.owner
  locals : f.locals = f'.locals
  caller : f.caller = f'.caller
  stmt : f.stmt.Mutes f'.stmt

/-- The same is known of the caller, up to muted breakpoints. -/
inductive Caller.Mutes : Caller → Caller → Prop where
  | none : Mutes .none .none
  | missing (id : Nat) : Mutes (.missing id) (.missing id)
  | waiting {f f' : Frame} (h : f.Mutes f') : Mutes (.waiting f) (.waiting f')

/-- The effects are the same up to muted breakpoints: a muted one does not pause. -/
inductive Effect.Mutes : Effect → Effect → Prop where
  | refl (e : Effect) : Mutes e e
  | pause : Mutes .pause .finish
  | become {s s' : Stmt} (h : s.Mutes s') : Mutes (.become s) (.become s')
  | invoke (target : Option Location) (callee : Ref) {body body' : Stmt} (h : body.Mutes body')
      (locals : Memory) :
      Mutes (.invoke target callee body locals) (.invoke target callee body' locals)
  | resume {f f' : Frame} (hf : f.Mutes f') {rest rest' : Option Stmt}
      (hrest : Stmt.MutesOpt rest rest') : Mutes (.resume f rest) (.resume f' rest')

/-- The intents are the same up to muted breakpoints. -/
inductive Intent.Mutes : Intent → Intent → Prop where
  | act {e e' : Effect} (h : e.Mutes e') : Mutes (.act e) (.act e')
  | ask (r : Request) (target : Location) : Mutes (.ask r target) (.ask r target)

section Intents

variable {classes classes' : ClassTable} {sc : Scope} {caller caller' : Caller}

theorem writeField_eq (h : classes.Mutes classes') (heap : Heap) (v new : Value) (name : String) :
    writeField classes' heap v name new = writeField classes heap v name new := by
  simp only [writeField, h.hasField_eq]

theorem Location.write_eq (h : classes.Mutes classes') (target : Location) (v : Value) :
    target.write classes' sc v = target.write classes sc v := by
  cases target <;> simp only [write, writeField_eq h]

theorem createIntent_eq (h : classes.Mutes classes') (target : Location) (cls : String)
    (args : List Expr) :
    createIntent classes' sc target cls args = createIntent classes sc target cls args := by
  simp only [createIntent, h.fields_eq]

theorem callIntent_mutes (h : classes.Mutes classes') (target : Option Location) (callee : Expr)
    (name : String) (args : List Expr) :
    AlikeUpTo Effect.Mutes (callIntent classes sc target callee name args)
      (callIntent classes' sc target callee name args) := by
  refine .bindSame _ fun v => ?_
  cases v
  case object r =>
    show AlikeUpTo Effect.Mutes (if _ then _ else _) (if _ then _ else _)
    split
    · exact .error rfl
    · refine (h.method r.cls name).bind fun m m' hm => ?_
      rw [hm.params]
      split
      · exact .error rfl
      · exact .bindSame _ fun vs => .ok (.invoke target r hm.body _)
  all_goals exact .error rfl

theorem returnIntent_mutes (h : caller.Mutes caller') (value : Expr) :
    AlikeUpTo Effect.Mutes (returnIntent sc caller value) (returnIntent sc caller' value) := by
  cases h with
  | none => exact .error rfl
  | missing id => exact .error rfl
  | @waiting f f' hf =>
    rcases hf.stmt.awaiting? with ⟨hs, hs'⟩ | ⟨target, rest, rest', hs, hs', hrest⟩
    · simp only [returnIntent, hs, hs']
      exact .error rfl
    · simp only [returnIntent, hs, hs']
      exact .bindSame _ fun v => .ok (.resume hf (Stmt.Mutes.received target hrest v))

/-- The heads of two statements want the same, up to muted breakpoints. -/
theorem Stmt.Mutes.intent_head (hclasses : classes.Mutes classes') (hcaller : caller.Mutes caller')
    {s s' : Stmt} (h : s.Mutes s') :
    AlikeUpTo (fun p p' => p.1.Mutes p'.1) (s.head.intent classes sc caller)
      (s'.head.intent classes' sc caller') := by
  have hhead : s.head.Mutes s'.head := h.head
  have hseq : s.head.isSeq = false := s.isSeq_head
  generalize s.head = x at hhead hseq
  generalize s'.head = x' at hhead
  cases hhead with
  | breakpoint => exact .ok (.act .pause)
  | seq ha hb => exact absurd hseq (by simp [isSeq])
  | cond guard ha hb =>
    refine .bindSame _ fun v => ?_
    cases v
    case boolean b =>
      cases b with
      | true => exact .ok (.act (.become ha))
      | false => exact .ok (.act (.become hb))
    all_goals exact .error rfl
  | loop guard hbody =>
    have hagain := hbody.append (.loop guard hbody)
    exact .ok (.act (.become (.cond guard hagain (.refl skip))))
  | refl x =>
    -- the statement is the same, but a call finds another body and a return another caller
    cases x with
    | seq first second => exact absurd hseq (by simp [isSeq])
    | assign target value =>
      refine .bindSame _ fun v => ?_
      rw [Location.write_eq hclasses]
      exact .bindSame _ fun e => .ok (.act (.refl e))
    | call target callee name args =>
      exact (callIntent_mutes hclasses target callee name args).bind fun _ _ he => .ok (.act he)
    | create target cls args =>
      simp only [intent, createIntent_eq hclasses]
      exact .bindSame _ fun e => .ok (.act (.refl e))
    | ret value =>
      exact (returnIntent_mutes hcaller value).bind fun _ _ he => .ok (.act he)
    | cond guard a b =>
      refine .bindSame _ fun v => ?_
      cases v
      case boolean b => cases b <;> exact .ok (.act (.refl _))
      all_goals exact .error rfl
    | print e => exact .bindSame _ fun v => .ok (.act (.refl _))
    | query target text params => exact .bindSame _ fun r => .ok (.ask r target)
    | derive target cls => exact .bindSame _ fun text => .ok (.ask (.derive text) target)
    | storeReturn target => exact .error rfl
    | skip => exact .ok (.act (.refl _))
    | breakpoint => exact .ok (.act (.refl _))
    | loop guard body => exact .ok (.act (.refl _))

end Intents

/-! ### Steps -/

/-- Related frames are found by their keys. -/
theorem Frame.Mutes.find? {fs fs' : List Frame} (h : List.Forall₂ Frame.Mutes fs fs') (key : Nat) :
    Option.Rel Frame.Mutes (fs.find? fun f => f.key = key) (fs'.find? fun f => f.key = key) := by
  induction h with
  | nil => exact .none
  | @cons f f' _ _ hf _ ih =>
    rw [List.find?_cons, List.find?_cons, ← hf.key]
    split
    · exact .some hf
    · exact ih

/-- Related frames are taken away by their keys. -/
theorem Frame.Mutes.eraseP {fs fs' : List Frame} (h : List.Forall₂ Frame.Mutes fs fs')
    (key : Nat) :
    List.Forall₂ Frame.Mutes (fs.eraseP fun f => f.key = key)
      (fs'.eraseP fun f => f.key = key) := by
  induction h with
  | nil => exact .nil
  | @cons f f' _ _ hf hfs ih =>
    rw [List.eraseP_cons, List.eraseP_cons, ← hf.key]
    cases decide (f.key = key) with
    | true => exact hfs
    | false => exact .cons hf ih

theorem Frame.Mutes.callerIn {f f' : Frame} (hf : f.Mutes f') {below below' : List Frame}
    (hbelow : List.Forall₂ Frame.Mutes below below') :
    (f.callerIn below).Mutes (f'.callerIn below') := by
  rw [Frame.callerIn, Frame.callerIn, ← hf.caller]
  cases f.caller with
  | none => exact .none
  | some r =>
    have hfind := Frame.Mutes.find? hbelow r.key
    dsimp only
    generalize (below.find? fun g => g.key = r.key) = g at hfind
    generalize (below'.find? fun g => g.key = r.key) = g' at hfind
    cases hfind with
    | none => exact .missing r.id
    | some hg => exact .waiting hg

/-- The steps end in the same way, except that a step may pause at a breakpoint that is muted on the
    other side. -/
inductive Outcome.Mutes : Outcome → Outcome → Prop where
  | refl (o : Outcome) : Mutes o o
  | muted (id : Nat) : Mutes (.paused id) .ran
  | failed (id : Nat) {fault fault' : Fault} (h : fault.category? = fault'.category?) :
      Mutes (.failed (.frame id fault)) (.failed (.frame id fault'))

/-- The machines differ in muted breakpoints only: in their classes, and in what their frames have
    left to run. -/
structure Machine.Mutes (m m' : Machine) : Prop where
  classes : m.classes.Mutes m'.classes
  heap : m.heap = m'.heap
  frames : List.Forall₂ Frame.Mutes m.stack m'.stack
  lastFrame : m.lastFrame = m'.lastFrame
  lastKey : m.lastKey = m'.lastKey
  maxSteps : m.maxSteps = m'.maxSteps
  steps : m.steps = m'.steps
  retired : m.retired = m'.retired

namespace Machine

variable {σ : Type} {kb : Option (KnowledgeBase σ)}

theorem resolve_mutes {m m' : Machine} (h : m.Mutes m') (s : σ) {i i' : Intent} (hi : i.Mutes i') :
    AlikeUpTo Effect.Mutes (m.resolve kb s i).1 (m'.resolve kb s i').1 ∧
      (m.resolve kb s i).2 = (m'.resolve kb s i').2 := by
  cases hi with
  | act he => exact ⟨.ok he, rfl⟩
  | ask r target =>
    have hlist : hasListClass m'.classes = hasListClass m.classes := by
      simp only [hasListClass, h.classes.hasField_eq]
    have hsame : m'.resolve kb s (.ask r target) = m.resolve kb s (.ask r target) := by
      cases kb with
      | none => rfl
      | some base => simp only [resolve, hlist, h.heap]
    rw [hsame]
    exact ⟨.same .refl _, rfl⟩

/-- The frames on top have the same effects, up to muted breakpoints. -/
theorem effectOf_mutes {m m' : Machine} (h : m.Mutes m') {f f' : Frame} (hf : f.Mutes f')
    {below below' : List Frame} (hbelow : List.Forall₂ Frame.Mutes below below') (s : σ) :
    AlikeUpTo Effect.Mutes (m.effectOf kb f below s).1 (m'.effectOf kb f' below' s).1 ∧
      (m.effectOf kb f below s).2 = (m'.effectOf kb f' below' s).2 := by
  have hscope : m'.scopeOf f' = m.scopeOf f := by
    rw [scopeOf, scopeOf, hf.locals, hf.owner, h.heap]
  by_cases howner : m.heap.contains f.owner = true
  · have howner' : m'.heap.contains f'.owner = true := by
      rw [← h.heap, ← hf.owner]
      exact howner
    rw [effectOf_eq_head howner, effectOf_eq_head howner', hscope]
    have hintent : AlikeUpTo (fun p p' => p.1.Mutes p'.1)
        (f.stmt.head.intent m.classes (m.scopeOf f) (f.callerIn below))
        (f'.stmt.head.intent m'.classes (m.scopeOf f) (f'.callerIn below')) :=
      hf.stmt.intent_head h.classes (hf.callerIn hbelow)
    generalize f.stmt.head.intent m.classes (m.scopeOf f) (f.callerIn below) = x at hintent
    generalize f'.stmt.head.intent m'.classes (m.scopeOf f) (f'.callerIn below') = x' at hintent
    cases hintent with
    | error hfault => exact ⟨.error hfault, rfl⟩
    | ok hi => exact resolve_mutes h s hi
  · have howner' : ¬m'.heap.contains f'.owner = true := by
      rw [← h.heap, ← hf.owner]
      exact howner
    rw [effectOf, effectOf, intentOf, intentOf, if_neg howner, if_neg howner', hf.owner]
    exact ⟨.error rfl, rfl⟩

end Machine

namespace Machine.Mutes

variable {m m' : Machine} {f f' : Frame} {rest rest' : Option Stmt}

theorem retire (h : m.Mutes m') (hf : f.Mutes f') : (m.retire f).Mutes (m'.retire f') :=
  { h with
    retired := by
      show (f.id, f.locals) :: m.retired = (f'.id, f'.locals) :: m'.retired
      rw [hf.id, hf.locals, h.retired] }

theorem rewrite (h : m.Mutes m') (hf : f.Mutes f') {s s' : Stmt} (hs : s.Mutes s') :
    (m.rewrite f s).Mutes (m'.rewrite f' s') :=
  { h with
    frames := .cons ⟨hf.id, congrArg (· + 1) h.lastKey, hf.owner, hf.locals, hf.caller, hs⟩ h.frames
    lastKey := congrArg (· + 1) h.lastKey }

theorem proceed (h : m.Mutes m') (hf : f.Mutes f') (hrest : Stmt.MutesOpt rest rest') :
    (m.proceed f rest).Mutes (m'.proceed f' rest') := by
  cases hrest with
  | none => exact h.retire hf
  | some hs => exact h.rewrite hf hs

theorem unschedule (h : m.Mutes m') (key : Nat) : (m.unschedule key).Mutes (m'.unschedule key) :=
  { h with frames := Frame.Mutes.eraseP h.frames key }

theorem withHeap (h : m.Mutes m') (heap : Heap) :
    { m with heap := heap }.Mutes { m' with heap := heap } :=
  { h with heap := rfl }

theorem spawn (h : m.Mutes m') (callee : Ref) {body body' : Stmt} (hbody : body.Mutes body')
    (locals : Memory) :
    (m.spawn callee body locals).Mutes (m'.spawn callee body' locals) := by
  have hcaller : m.stack.head?.map Frame.ref = m'.stack.head?.map Frame.ref := by
    have hframes := h.frames
    generalize m.stack = fs at hframes
    generalize m'.stack = fs' at hframes
    cases hframes with
    | nil => rfl
    | cons hf _ => exact congrArg some (FrameRef.mk.injEq .. ▸ ⟨hf.id, hf.key⟩)
  exact { h with
    frames := .cons ⟨congrArg (· + 1) h.lastFrame, congrArg (· + 1) h.lastKey, rfl, rfl, hcaller,
      hbody⟩ h.frames
    lastFrame := congrArg (· + 1) h.lastFrame
    lastKey := congrArg (· + 1) h.lastKey }

/-- Effects that are the same up to muted breakpoints are carried out in the same way. -/
theorem perform (h : m.Mutes m') (hf : f.Mutes f') (hrest : Stmt.MutesOpt rest rest')
    {e e' : Effect} (he : e.Mutes e') : (m.perform f rest e).Mutes (m'.perform f' rest' e') := by
  cases he with
  | pause => exact h.proceed hf hrest
  | become hs => exact h.proceed hf (.some (hs.andThen hrest))
  | invoke target callee hbody locals =>
    have hmarker := (Stmt.Mutes.refl (.storeReturn target)).andThen hrest
    exact (h.rewrite hf hmarker).spawn callee hbody locals
  | resume hg hnext =>
    rw [Machine.perform, Machine.perform, ← hg.key]
    exact ((h.retire hf).unschedule _).proceed hg hnext
  | refl e =>
    cases e with
    | setLocal name v =>
      have hlocals : f.locals.insert name v = f'.locals.insert name v := by rw [hf.locals]
      exact h.proceed (f := { f with locals := _ }) { hf with locals := hlocals } hrest
    | setField r name v =>
      rw [Machine.perform, Machine.perform, ← h.heap]
      exact (h.withHeap _).proceed hf hrest
    | create target cls fields =>
      rw [Machine.perform, Machine.perform, ← h.heap]
      exact (h.withHeap _).proceed hf (.some ((Stmt.Mutes.refl _).andThen hrest))
    | enlist target contents =>
      rw [Machine.perform, Machine.perform, ← h.heap]
      exact (h.withHeap _).proceed hf (.some ((Stmt.Mutes.refl _).andThen hrest))
    | become s => exact h.proceed hf (.some ((Stmt.Mutes.refl s).andThen hrest))
    | invoke target callee body locals =>
      have hmarker := (Stmt.Mutes.refl (.storeReturn target)).andThen hrest
      exact (h.rewrite hf hmarker).spawn callee (.refl body) locals
    | resume g next =>
      have hg : g.Mutes g := ⟨rfl, rfl, rfl, rfl, rfl, .refl g.stmt⟩
      exact ((h.retire hf).unschedule g.key).proceed hg (.refl next)
    | finish => exact h.proceed hf hrest
    | pause => exact h.proceed hf hrest
    | print v => exact h.proceed hf hrest

end Machine.Mutes

/-- What two steps leave behind is the same up to muted breakpoints. -/
structure StepResult.Mutes {σ : Type} (r r' : StepResult σ) : Prop where
  machine : r.machine.Mutes r'.machine
  knowledge : r.knowledge = r'.knowledge
  printed : r.printed = r'.printed
  outcome : r.outcome.Mutes r'.outcome

namespace Machine

theorem printedBy_eq {e e' : Effect} (he : e.Mutes e') : printedBy e = printedBy e' := by
  cases he <;> rfl

theorem outcomeOf_mutes {f f' : Frame} (hf : f.Mutes f') {e e' : Effect} (he : e.Mutes e') :
    (outcomeOf f e).Mutes (outcomeOf f' e') := by
  cases he with
  | refl e =>
    cases e with
    | pause =>
      rw [outcomeOf, outcomeOf, hf.id]
      exact .refl _
    | _ => exact .refl _
  | pause => exact .muted f.id
  | _ => exact .refl _

variable {σ : Type} (kb : Option (KnowledgeBase σ))

/-- Machines that differ in muted breakpoints only still do so after a step. -/
theorem Mutes.step {m m' : Machine} (h : m.Mutes m') (s : σ) :
    (m.step kb s).Mutes (m'.step kb s) := by
  have hframes := h.frames
  cases hm : m.stack with
  | nil =>
    rw [hm, List.forall₂_nil_left_iff] at hframes
    rw [step_nil hm, step_nil hframes]
    exact ⟨h, rfl, rfl, .refl .idle⟩
  | cons f below =>
    rw [hm, List.forall₂_cons_left_iff] at hframes
    obtain ⟨f', below', hf, hbelow, hm'⟩ := hframes
    have hlimit : m'.limitReached = m.limitReached := by
      rw [limitReached, limitReached, h.maxSteps, h.steps]
    by_cases hl : m.limitReached = true
    · rw [step_of_limitReached hm hl, step_of_limitReached hm' (hlimit.trans hl)]
      exact ⟨h, rfl, rfl, .refl (.failed .limit)⟩
    · have hl : m.limitReached = false := by simpa using hl
      have hrunning : (m.running below).Mutes (m'.running below') :=
        { h with frames := hbelow, steps := congrArg (· + 1) h.steps }
      have heffect : AlikeUpTo Effect.Mutes (m.effectOf kb f below s).1
            (m'.effectOf kb f' below' s).1 ∧
          (m.effectOf kb f below s).2 = (m'.effectOf kb f' below' s).2 :=
        effectOf_mutes h hf hbelow s
      rw [step_eq hm hl, step_eq hm' (hlimit.trans hl)]
      generalize m.effectOf kb f below s = x at heffect
      generalize m'.effectOf kb f' below' s = x' at heffect
      obtain ⟨x, t⟩ := x
      obtain ⟨x', t'⟩ := x'
      obtain ⟨hx, ht⟩ := heffect
      cases hx with
      | @error fault fault' hfault =>
        have hfailed : (Outcome.failed (.frame f.id fault)).Mutes
            (.failed (.frame f'.id fault')) := hf.id ▸ Outcome.Mutes.failed f.id hfault
        exact ⟨hrunning.retire hf, ht, rfl, hfailed⟩
      | ok he =>
        exact ⟨hrunning.perform hf hf.stmt.tail? he, ht, printedBy_eq he, outcomeOf_mutes hf he⟩

/-- Two machines run alike up to muted breakpoints: after any number of steps they have printed the
    same, have failed with faults of the same categories, have left the knowledge base in the same
    state and differ in muted breakpoints only. -/
def RunsMuted (s : σ) (m m' : Machine) : Prop :=
  ∀ n, (m.advance kb n s).1.Mutes (m'.advance kb n s).1 ∧
    (m.advance kb n s).2 = (m'.advance kb n s).2 ∧
    List.Forall₂ (fun r r' => r.1.Mutes r'.1 ∧ r.2 = r'.2) (m.transcript kb n s)
      (m'.transcript kb n s)

/-- Machines that differ in muted breakpoints only run alike. -/
theorem Mutes.runsMuted {m m' : Machine} (h : m.Mutes m') (s : σ) : m.RunsMuted kb s m' := by
  intro n
  induction n generalizing m m' s with
  | zero => exact ⟨h, rfl, .nil⟩
  | succ n ih =>
    have hstep := h.step kb s
    have hrest := ih hstep.machine (m.step kb s).knowledge
    rw [hstep.knowledge] at hrest
    obtain ⟨hmachine, hknowledge, htranscript⟩ := hrest
    rw [advance, advance, transcript, transcript, hstep.knowledge]
    exact ⟨hmachine, hknowledge, .cons ⟨hstep.outcome, hstep.printed⟩ htranscript⟩

/-- Starting two programs that differ in muted breakpoints only. -/
theorem mutes_start {classes classes' : ClassTable} (hclasses : classes.Mutes classes')
    {main main' : Stmt} (hmain : main.Mutes main') (heap : Heap) (maxSteps : Nat) :
    ∃ f m f' m', (new classes heap maxSteps).start main = .ok (f, m) ∧
      (new classes' heap maxSteps).start main' = .ok (f', m') ∧ m.Mutes m' := by
  refine ⟨_, _, _, _, start_eq _ _, start_eq _ _, ?_⟩
  exact ⟨hclasses, rfl, .cons ⟨rfl, rfl, rfl, rfl, rfl, hmain⟩ .nil, rfl, rfl, rfl, rfl, rfl⟩

/-! ### Pauses -/

/-- Only a breakpoint wants to pause. -/
theorem eq_breakpoint_of_wants {classes : ClassTable} {sc : Scope} {caller : Caller} {s : Stmt}
    (h : s.Wants classes sc caller (.act .pause)) : s = .breakpoint := by
  cases h
  rfl

/-- A step pauses, which is to say that it neither goes on nor fails, exactly if the head of the
    top frame is a breakpoint. -/
theorem pauses_iff {m : Machine} {f : Frame} {below : List Frame} (hm : m.stack = f :: below)
    (hl : m.limitReached = false) (howner : m.heap.contains f.owner = true) (s : σ) :
    ((m.step kb s).outcome.goesOn = false ∧ (m.step kb s).outcome.fault? = none) ↔
      f.stmt.head = .breakpoint := by
  rw [step_eq hm hl]
  constructor
  · intro ⟨hstops, hfault⟩
    cases he : m.effectOf kb f below s with
    | mk r t =>
      rw [he] at hstops hfault
      cases r with
      | error fault => exact absurd hfault (by simp [Outcome.fault?])
      | ok e =>
        obtain ⟨-, henacts⟩ := enacts_of_effectOf he
        cases e
        case pause =>
          cases henacts with
          | act hw => exact eq_breakpoint_of_wants hw
        all_goals exact absurd hstops (by simp [outcomeOf, Outcome.goesOn])
  · intro hhead
    have hw : f.stmt.head.Wants m.classes (m.scopeOf f) (f.callerIn below) (.act .pause) :=
      hhead ▸ .breakpoint
    rw [effectOf_of_wants howner hw s]
    exact ⟨rfl, rfl⟩

end Machine

/-! ### Programs with breakpoints -/

/-- Take two programs that differ in muted breakpoints only, started on the same heap with the same
    knowledge base and step limit: they run alike. And a step of any machine that has a frame to
    run, for an object of the heap and within the limit, pauses exactly at a breakpoint. -/
theorem breakpoints_are_transparent {σ : Type} (kb : Option (KnowledgeBase σ))
    {classes classes' : ClassTable} (hclasses : classes.Mutes classes') {main main' : Stmt}
    (hmain : main.Mutes main') (heap : Heap) (maxSteps : Nat) (s : σ) :
    (∃ f m f' m', (Machine.new classes heap maxSteps).start main = .ok (f, m) ∧
      (Machine.new classes' heap maxSteps).start main' = .ok (f', m') ∧ m.RunsMuted kb s m') ∧
    ∀ (m : Machine) (f : Frame) (below : List Frame) (s : σ), m.stack = f :: below →
      m.limitReached = false → m.heap.contains f.owner = true →
      (((m.step kb s).outcome.goesOn = false ∧ (m.step kb s).outcome.fault? = none) ↔
        f.stmt.head = .breakpoint) := by
  constructor
  · obtain ⟨f, m, f', m', hstart, hstart', h⟩ :=
      Machine.mutes_start hclasses hmain heap maxSteps
    exact ⟨f, m, f', m', hstart, hstart', h.runsMuted kb s⟩
  · intro m f below s hm hl howner
    exact Machine.pauses_iff kb hm hl howner s

/-- The classes with all of their breakpoints muted. -/
def ClassTable.silent (classes : ClassTable) : ClassTable :=
  classes.mapValues fun info =>
    { info with methods := info.methods.mapValues fun m => { m with body := m.body.silent } }

theorem ClassTable.mutes_silent (classes : ClassTable) : classes.Mutes classes.silent := by
  intro cls
  rw [silent, SortedMap.get?_mapValues]
  cases classes.get? cls with
  | none => exact .none
  | some info =>
    refine .some ⟨rfl, fun name => ?_⟩
    show Option.Rel _ _ ((info.methods.mapValues _).get? name)
    rw [SortedMap.get?_mapValues]
    cases info.methods.get? name with
    | none => exact .none
    | some m => exact .some ⟨rfl, m.body.mutes_silent⟩

/-- A method that pauses is called in a loop, which pauses before and after the call; the breakpoint
    after it stays. -/
theorem breakpoints_are_transparent_in_loop :
    let body : Stmt := .seq (.cond (.lit (.boolean true)) .breakpoint .skip) (.ret (.var "this"))
    let classes : ClassTable := .ofList [("C", ⟨[], .ofList [("m", ⟨[], body⟩)]⟩)]
    let create : Stmt := .create (.var "x") "C" []
    let call : Stmt := .call (some (.var "x")) (.var "x") "m" []
    let again : Expr := .lit (.boolean true)
    let main : Stmt :=
      .seq .breakpoint (.seq create (.loop again (.seq .breakpoint (.seq call .breakpoint))))
    let main' : Stmt :=
      .seq .skip (.seq create (.loop again (.seq .skip (.seq call .breakpoint))))
    let kb : Option (KnowledgeBase Unit) := none
    classes.Mutes classes.silent ∧ main.Mutes main' ∧
      (∃ f m f' m', (Machine.new classes ∅ 0).start main = .ok (f, m) ∧
        (Machine.new classes.silent ∅ 0).start main' = .ok (f', m') ∧ m.RunsMuted kb () m') := by
  intro body classes create call again main main' kb
  have hmain : main.Mutes main' :=
    .seq .breakpoint (.seq (.refl create) (.loop again (.seq .breakpoint (.refl _))))
  have hrun := breakpoints_are_transparent kb classes.mutes_silent hmain ∅ 0 ()
  exact ⟨classes.mutes_silent, hmain, hrun.1⟩

end ObjectMachine
