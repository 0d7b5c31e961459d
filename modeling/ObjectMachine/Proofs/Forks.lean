import ObjectMachine.Knowledge.Store
import ObjectMachine.Proofs.Transition

namespace ObjectMachine

/-!
# Forks

A fork has a heap and a stack of its own. All it shares with other machines is the knowledge base,
which is shown the heap of the one that asks right before it is asked. So whatever is done to the
others, in whatever order, a machine fares as if it were alone:

* `Mirror` — a knowledge base that answers from the heap it was shown last; `Store.mirror` — the
  triple store is one;
* `Machine.step_same` — a step does not depend on what others have shown the knowledge base;
* `Machine.actAll` — operations on a machine that is alone;
* `Family` — machines that share a knowledge base; `Family.run` — operations on any of them;
* `Family.Begins` — where a machine of a family comes from;
* `forks_do_not_interfere` — each machine of a family fares as if it were alone.
-/

variable {σ : Type} {kb : Option (KnowledgeBase σ)}

/-! ### Knowledge bases that mirror the heap -/

/-- The knowledge base, if there is one, answers a request from the heap it was shown last, as long
    as it is in a usable state. Whether it can be shown a heap depends on nothing but the heap. -/
structure Mirror (kb : Option (KnowledgeBase σ)) where
  Usable : σ → Prop
  /-- The heap was the last one that was shown. -/
  Shows : σ → Heap → Prop
  accepts : Heap → Except KnowledgeFault Unit
  answer : Heap → Request → Except KnowledgeFault (List String)
  dump_eq : ∀ base ∈ kb, ∀ h s, Usable s → (base.dump h s).1 = accepts h
  usable_dump : ∀ base ∈ kb, ∀ h s, Usable s → Usable (base.dump h s).2
  shows_dump : ∀ base ∈ kb, ∀ h s, Usable s → accepts h = .ok () → Shows (base.dump h s).2 h
  put_eq : ∀ base ∈ kb, ∀ h r s, Usable s → Shows s h → (base.put r s).1 = answer h r
  usable_put : ∀ base ∈ kb, ∀ r s, Usable s → Usable (base.put r s).2

/-- The triple store mirrors the heap until it is closed. -/
def Store.mirror : Mirror (some Store.base) where
  Usable s := s.closed = false
  Shows s h := s.table = h.triples
  accepts _ := .ok ()
  answer h r := (Store.base.put r ⟨h.triples, false⟩).1
  dump_eq := by
    rintro base ⟨⟩ h s hs
    simp [base, dump, hs]
  usable_dump := by
    rintro base ⟨⟩ h s hs
    simp [base, dump, hs]
  shows_dump := by
    rintro base ⟨⟩ h s hs -
    simp [base, dump, hs]
  put_eq := by
    rintro base ⟨⟩ h r ⟨table, closed⟩ rfl rfl
    rfl
  usable_put := by
    rintro base ⟨⟩ r s hs
    cases r <;> exact hs

namespace Mirror

variable (mirror : Mirror kb) {base : KnowledgeBase σ} {s t : σ}

/-- The answer to a request is a function of the heap of the one that asks. -/
def reply (h : Heap) (r : Request) : Except Fault (List String) :=
  match mirror.accepts h with
  | .error cause => .error (.dump cause)
  | .ok () => (mirror.answer h r).mapError .knowledge

theorem ask_eq (hkb : base ∈ kb) (hs : mirror.Usable s) (h : Heap) (r : Request) :
    (base.ask h r s).1 = mirror.reply h r ∧ mirror.Usable (base.ask h r s).2 := by
  have haccepts := mirror.dump_eq base hkb h s hs
  have husable := mirror.usable_dump base hkb h s hs
  have hshows := mirror.shows_dump base hkb h s hs
  rw [KnowledgeBase.ask, reply, ← haccepts]
  rw [← haccepts] at hshows
  generalize base.dump h s = dumped at haccepts husable hshows
  obtain ⟨result, s'⟩ := dumped
  cases result with
  | error cause => exact ⟨rfl, husable⟩
  | ok _ =>
    -- the request is put in the state in which the heap is shown
    have hanswer := mirror.put_eq base hkb h r s' husable (hshows rfl)
    have husable' := mirror.usable_put base hkb r s' husable
    simp only [← hanswer]
    generalize base.put r s' = answered at husable'
    obtain ⟨answer, s''⟩ := answered
    cases answer with
    | error cause => exact ⟨rfl, husable'⟩
    | ok ids => exact ⟨rfl, husable'⟩

end Mirror

/-! ### Machines that are alone -/

/-- What an operation on a machine reports. -/
inductive Response where
  | scheduled (f : Frame)
  | refused (fault : Fault)
  | stepped (outcome : Outcome) (printed : String)
  | forked

namespace Machine

/-- The machine after an operation, what the operation reports, and the state of the knowledge base
    after it. A fork is a machine of its own, so forking leaves the machine as it is. -/
def act (kb : Option (KnowledgeBase σ)) (m : Machine) (s : σ) :
    Operation Unit → Machine × Response × σ
  | .start main =>
    match m.start main with
    | .ok (f, m') => (m', .scheduled f, s)
    | .error fault => (m, .refused fault, s)
  | .push stmt owner locals =>
    match m.push stmt owner locals with
    | .ok (f, m') => (m', .scheduled f, s)
    | .error fault => (m, .refused fault, s)
  | .step () =>
    let r := m.step kb s
    (r.machine, .stepped r.outcome r.printed, r.knowledge)
  | .fork => (m, .forked, s)

/-- The machine after operations on it alone, and what they report. -/
def actAll (kb : Option (KnowledgeBase σ)) :
    List (Operation Unit) → Machine → σ → Machine × List Response
  | [], m, _ => (m, [])
  | op :: ops, m, s =>
    let (m', response, s') := m.act kb s op
    let (m'', responses) := actAll kb ops m' s'
    (m'', response :: responses)

/-- The machines that come into being by an operation. -/
def offspring (m : Machine) : Operation Unit → List Machine
  | .fork => [m.fork]
  | _ => []

section Mirrored

variable (mirror : Mirror kb) {s t : σ}
include mirror

theorem resolve_same (m : Machine) (i : Intent) (hs : mirror.Usable s) (ht : mirror.Usable t) :
    (m.resolve kb s i).1 = (m.resolve kb t i).1 ∧ mirror.Usable (m.resolve kb s i).2 := by
  cases i with
  | act e => exact ⟨rfl, hs⟩
  | ask r target =>
    cases kb with
    | none => exact ⟨rfl, hs⟩
    | some base =>
      cases hlist : hasListClass m.classes with
      | false =>
        rw [resolve_of_noList hlist, resolve_of_noList hlist]
        exact ⟨rfl, hs⟩
      | true =>
        obtain ⟨hreply, husable⟩ := mirror.ask_eq rfl hs m.heap r
        obtain ⟨hreply', -⟩ := mirror.ask_eq rfl ht m.heap r
        cases hask : base.ask m.heap r s with
        | mk result s' =>
          cases hask' : base.ask m.heap r t with
          | mk result' t' =>
            rw [hask] at hreply husable
            rw [hask'] at hreply'
            obtain rfl : result = result' := hreply.trans hreply'.symm
            cases result with
            | error fault =>
              rw [resolve_of_ask_error hlist hask, resolve_of_ask_error hlist hask']
              exact ⟨rfl, husable⟩
            | ok ids =>
              cases hids : m.heap.classifyAll ids with
              | error cause =>
                rw [resolve_of_classify_error hlist hask hids,
                  resolve_of_classify_error hlist hask' hids]
                exact ⟨rfl, husable⟩
              | ok contents =>
                rw [resolve_of_answers hlist hask hids, resolve_of_answers hlist hask' hids]
                exact ⟨rfl, husable⟩

theorem effectOf_same (m : Machine) (f : Frame) (below : List Frame) (hs : mirror.Usable s)
    (ht : mirror.Usable t) :
    (m.effectOf kb f below s).1 = (m.effectOf kb f below t).1 ∧
      mirror.Usable (m.effectOf kb f below s).2 := by
  rw [effectOf, effectOf]
  cases m.intentOf f below with
  | error fault => exact ⟨rfl, hs⟩
  | ok p => exact resolve_same mirror m p.1 hs ht

/-- A step does the same in all usable states of the knowledge base, and leaves it in one. -/
theorem step_same (m : Machine) (hs : mirror.Usable s) (ht : mirror.Usable t) :
    (m.step kb s).machine = (m.step kb t).machine ∧
      (m.step kb s).outcome = (m.step kb t).outcome ∧
      (m.step kb s).printed = (m.step kb t).printed ∧ mirror.Usable (m.step kb s).knowledge := by
  cases hm : m.stack with
  | nil =>
    rw [step_nil hm, step_nil hm]
    exact ⟨rfl, rfl, rfl, hs⟩
  | cons f below =>
    cases hl : m.limitReached with
    | true =>
      rw [step_of_limitReached hm hl, step_of_limitReached hm hl]
      exact ⟨rfl, rfl, rfl, hs⟩
    | false =>
      obtain ⟨hsame, husable⟩ := effectOf_same mirror m f below hs ht
      rw [step_eq hm hl, step_eq hm hl]
      generalize m.effectOf kb f below s = p at hsame husable
      generalize m.effectOf kb f below t = q at hsame
      obtain ⟨result, s'⟩ := p
      obtain ⟨result', t'⟩ := q
      obtain rfl : result = result' := hsame
      cases result with
      | error fault => exact ⟨rfl, rfl, rfl, husable⟩
      | ok e => exact ⟨rfl, rfl, rfl, husable⟩

theorem act_same (m : Machine) (op : Operation Unit) (hs : mirror.Usable s)
    (ht : mirror.Usable t) :
    (m.act kb s op).1 = (m.act kb t op).1 ∧ (m.act kb s op).2.1 = (m.act kb t op).2.1 ∧
      mirror.Usable (m.act kb s op).2.2 := by
  cases op with
  | start main =>
    rw [act, act]
    split <;> exact ⟨rfl, rfl, hs⟩
  | push stmt owner locals =>
    rw [act, act]
    split <;> exact ⟨rfl, rfl, hs⟩
  | step _ =>
    obtain ⟨hmachine, houtcome, hprinted, husable⟩ := step_same mirror m hs ht
    exact ⟨hmachine, by rw [act, act, houtcome, hprinted], husable⟩
  | fork => exact ⟨rfl, rfl, hs⟩

end Mirrored

end Machine

/-! ### Families -/

/-- Machines that share a knowledge base, in the order in which they came into being. -/
structure Family (σ : Type) where
  machines : List Machine
  knowledge : σ

/-- What is recorded under `i`. -/
def recorded {α : Type} (i : Nat) (entries : List (Nat × α)) : List α :=
  entries.filterMap fun e => if e.1 = i then some e.2 else none

theorem recorded_cons_self {α : Type} (i : Nat) (a : α) (entries : List (Nat × α)) :
    recorded i ((i, a) :: entries) = a :: recorded i entries := by
  simp [recorded]

theorem recorded_cons_of_ne {α : Type} {i j : Nat} (h : j ≠ i) (a : α)
    (entries : List (Nat × α)) : recorded i ((j, a) :: entries) = recorded i entries := by
  simp [recorded, h]

theorem recorded_append {α : Type} (i : Nat) (xs ys : List (Nat × α)) :
    recorded i (xs ++ ys) = recorded i xs ++ recorded i ys :=
  List.filterMap_append

namespace Family

/-- Performs an operation on the machine at index `i`, if there is one. Its offspring joins the
    family. -/
def act (kb : Option (KnowledgeBase σ)) (F : Family σ) (i : Nat) (op : Operation Unit) :
    Family σ × List (Nat × Response) :=
  match F.machines[i]? with
  | none => (F, [])
  | some m =>
    let (m', response, s) := m.act kb F.knowledge op
    (⟨F.machines.set i m' ++ m.offspring op, s⟩, [(i, response)])

/-- Performs operations on machines of the family, one after the other. -/
def run (kb : Option (KnowledgeBase σ)) :
    List (Nat × Operation Unit) → Family σ → Family σ × List (Nat × Response)
  | [], F => (F, [])
  | (i, op) :: ops, F =>
    let (F', responses) := F.act kb i op
    let (F'', responses') := run kb ops F'
    (F'', responses ++ responses')

variable {F : Family σ} {i j : Nat} {m : Machine} {op : Operation Unit}

theorem act_of_none (h : F.machines[i]? = none) : F.act kb i op = (F, []) := by
  rw [act, h]

theorem act_of_some (h : F.machines[i]? = some m) :
    F.act kb i op =
      (⟨F.machines.set i (m.act kb F.knowledge op).1 ++ m.offspring op,
        (m.act kb F.knowledge op).2.2⟩, [(i, (m.act kb F.knowledge op).2.1)]) := by
  rw [act, h]

/-- A machine is changed by the operations on it only. -/
theorem machines_act_of_ne (h : i ≠ j) (hm : F.machines[j]? = some m) :
    (F.act kb i op).1.machines[j]? = some m := by
  cases hi : F.machines[i]? with
  | none =>
    rw [act_of_none hi]
    exact hm
  | some m' =>
    have hj : j < F.machines.length := (List.getElem?_eq_some_iff.1 hm).1
    rw [act_of_some hi]
    show (F.machines.set i _ ++ _)[j]? = some m
    rw [List.getElem?_append_left (by simpa using hj), List.getElem?_set_ne h, hm]

theorem machines_act_self (kb : Option (KnowledgeBase σ)) (op : Operation Unit)
    (hm : F.machines[i]? = some m) :
    (F.act kb i op).1.machines[i]? = some (m.act kb F.knowledge op).1 := by
  have hi : i < F.machines.length := (List.getElem?_eq_some_iff.1 hm).1
  rw [act_of_some hm]
  show (F.machines.set i _ ++ _)[i]? = _
  rw [List.getElem?_append_left (by simpa using hi), List.getElem?_set_self hi]

/-- A fork joins the family at its end. -/
theorem machines_act_fork (kb : Option (KnowledgeBase σ)) (hm : F.machines[i]? = some m) :
    (F.act kb i .fork).1.machines[F.machines.length]? = some m.fork := by
  rw [act_of_some hm]
  show (F.machines.set i _ ++ [m.fork])[F.machines.length]? = _
  rw [List.getElem?_append_right (by simp), List.length_set, Nat.sub_self]
  rfl

/-- Only a fork makes a family larger, by one. -/
theorem length_act (kb : Option (KnowledgeBase σ)) (F : Family σ) (i : Nat)
    (op : Operation Unit) :
    (F.act kb i op).1.machines.length = F.machines.length ∨
      op = .fork ∧ (∃ m, F.machines[i]? = some m) ∧
        (F.act kb i op).1.machines.length = F.machines.length + 1 := by
  cases hi : F.machines[i]? with
  | none =>
    rw [act_of_none hi]
    exact .inl rfl
  | some m =>
    rw [act_of_some hi]
    cases op with
    | fork => exact .inr ⟨rfl, ⟨m, rfl⟩, by simp [Machine.offspring]⟩
    | _ => exact .inl (by simp [Machine.offspring])

theorem length_le_run (kb : Option (KnowledgeBase σ)) (ops : List (Nat × Operation Unit))
    (F : Family σ) :
    F.machines.length ≤ (F.run kb ops).1.machines.length := by
  induction ops generalizing F with
  | nil => exact Nat.le_refl _
  | cons o ops ih =>
    have hrest := ih (F.act kb o.1 o.2).1
    have hact := length_act kb F o.1 o.2
    have hrun : (F.run kb (o :: ops)).1 = ((F.act kb o.1 o.2).1.run kb ops).1 := rfl
    rw [hrun]
    omega

theorem run_append (xs ys : List (Nat × Operation Unit)) (F : Family σ) :
    F.run kb (xs ++ ys) =
      (((F.run kb xs).1.run kb ys).1, (F.run kb xs).2 ++ ((F.run kb xs).1.run kb ys).2) := by
  induction xs generalizing F with
  | nil => rfl
  | cons x xs ih =>
    have hrest := ih (F.act kb x.1 x.2).1
    simp only [List.cons_append, run, hrest, List.append_assoc]

/-- Before a machine comes into being nothing is recorded under its index. -/
theorem recorded_run_of_le {ops : List (Nat × Operation Unit)}
    (h : (F.run kb ops).1.machines.length ≤ j) : recorded j (F.run kb ops).2 = [] := by
  induction ops generalizing F with
  | nil => rfl
  | cons o ops ih =>
    obtain ⟨i, op⟩ := o
    have hrest : recorded j ((F.act kb i op).1.run kb ops).2 = [] := ih h
    have hlength := Nat.le_trans (length_le_run kb ((i, op) :: ops) F) h
    show recorded j ((F.act kb i op).2 ++ ((F.act kb i op).1.run kb ops).2) = []
    rw [recorded_append, hrest, List.append_nil]
    cases hi : F.machines[i]? with
    | none =>
      rw [act_of_none hi]
      rfl
    | some m =>
      have hij : i ≠ j := by
        have hlt : i < F.machines.length := (List.getElem?_eq_some_iff.1 hi).1
        omega
      rw [act_of_some hi]
      exact recorded_cons_of_ne hij _ []

/-! ### Each machine for itself -/

/-- Where a machine of a family comes from: the machine with which its index begins, and the
    operations that were performed by then. -/
inductive Begins (kb : Option (KnowledgeBase σ)) (F : Family σ) :
    Nat → Machine → List (Nat × Operation Unit) → Prop where
  | root {i : Nat} {m : Machine} (h : F.machines[i]? = some m) : Begins kb F i m []
  | fork (before : List (Nat × Operation Unit)) {i : Nat} {parent : Machine}
      (h : (F.run kb before).1.machines[i]? = some parent) :
      Begins kb F (F.run kb before).1.machines.length parent.fork (before ++ [(i, .fork)])

/-- Every machine of a family was there from the start, or is a fork of another one. -/
theorem exists_begins {ops : List (Nat × Operation Unit)}
    (h : j < (F.run kb ops).1.machines.length) :
    ∃ origin before after, ops = before ++ after ∧ F.Begins kb j origin before := by
  induction ops generalizing F with
  | nil => exact ⟨_, [], [], rfl, .root (List.getElem?_eq_getElem h)⟩
  | cons o ops ih =>
    obtain ⟨i, op⟩ := o
    by_cases hj : j < F.machines.length
    · exact ⟨_, [], _, rfl, .root (List.getElem?_eq_getElem hj)⟩
    · obtain ⟨origin, before, after, rfl, hbegins⟩ := ih (F := (F.act kb i op).1) h
      cases hbegins with
      | root hm =>
        -- the machine was not there before the operation, so it has come into being by it
        have hlt : j < (F.act kb i op).1.machines.length := (List.getElem?_eq_some_iff.1 hm).1
        obtain hsame | ⟨rfl, ⟨parent, hparent⟩, hlength⟩ := length_act kb F i op
        · omega
        · obtain rfl : F.machines.length = j := by omega
          exact ⟨_, [(i, .fork)], after, rfl, .fork [] hparent⟩
      | fork _ hparent => exact ⟨_, _, after, rfl, .fork ((i, op) :: _) hparent⟩

/-- When a machine comes into being, it is as it begins and nothing was reported about it. -/
theorem Begins.at_first {origin : Machine} {before : List (Nat × Operation Unit)}
    (h : F.Begins kb j origin before) :
    (F.run kb before).1.machines[j]? = some origin ∧ recorded j (F.run kb before).2 = [] := by
  cases h with
  | root h => exact ⟨h, rfl⟩
  | fork before h =>
    rename_i i parent
    have hi : i < (F.run kb before).1.machines.length := (List.getElem?_eq_some_iff.1 h).1
    rw [run_append, recorded_append, recorded_run_of_le (Nat.le_refl _)]
    refine ⟨machines_act_fork kb h, ?_⟩
    show recorded _ (((F.run kb before).1.act kb i .fork).2 ++ []) = []
    rw [act_of_some h]
    exact recorded_cons_of_ne (by omega) _ []

section Mirrored

variable (mirror : Mirror kb)
include mirror

theorem usable_act (h : mirror.Usable F.knowledge) (i : Nat) (op : Operation Unit) :
    mirror.Usable (F.act kb i op).1.knowledge := by
  cases hi : F.machines[i]? with
  | none =>
    rw [act_of_none hi]
    exact h
  | some m =>
    rw [act_of_some hi]
    exact (Machine.act_same mirror m op h h).2.2

theorem usable_run (h : mirror.Usable F.knowledge) (ops : List (Nat × Operation Unit)) :
    mirror.Usable (F.run kb ops).1.knowledge := by
  induction ops generalizing F with
  | nil => exact h
  | cons o ops ih => exact ih (usable_act mirror h o.1 o.2)

/-- A machine of a family fares as if it were alone with the operations on it. -/
theorem run_eq_actAll (hF : mirror.Usable F.knowledge) (hm : F.machines[j]? = some m) {t : σ}
    (ht : mirror.Usable t) (ops : List (Nat × Operation Unit)) :
    (F.run kb ops).1.machines[j]? = some (m.actAll kb (recorded j ops) t).1 ∧
      recorded j (F.run kb ops).2 = (m.actAll kb (recorded j ops) t).2 := by
  induction ops generalizing F m t with
  | nil => exact ⟨hm, rfl⟩
  | cons o ops ih =>
    obtain ⟨i, op⟩ := o
    have hF' := usable_act mirror hF i op
    have hlog : (F.run kb ((i, op) :: ops)).2 =
        (F.act kb i op).2 ++ ((F.act kb i op).1.run kb ops).2 := rfl
    rw [hlog, recorded_append]
    by_cases hij : i = j
    · -- the operation does to the machine what it does to it alone
      subst hij
      obtain ⟨hsame, hresponse, -⟩ := Machine.act_same mirror m op hF ht
      obtain ⟨-, -, ht'⟩ := Machine.act_same mirror m op ht ht
      have hm' := machines_act_self kb op hm
      rw [hsame] at hm'
      obtain ⟨hmachine, hresponses⟩ := ih hF' hm' ht'
      rw [recorded_cons_self, hresponses, act_of_some hm, hresponse]
      refine ⟨hmachine, ?_⟩
      show recorded i [(i, _)] ++ _ = _
      rw [recorded_cons_self]
      rfl
    · have hnone : recorded j (F.act kb i op).2 = [] := by
        cases hi : F.machines[i]? with
        | none =>
          rw [act_of_none hi]
          rfl
        | some m' =>
          rw [act_of_some hi]
          exact recorded_cons_of_ne hij _ []
      rw [recorded_cons_of_ne hij, hnone]
      exact ih hF' (machines_act_of_ne hij hm) ht

end Mirrored

end Family

/-- Machines are forked from one machine and from its forks, and operations are performed on them in
    any order. Each of them is in the end what it would be, and each operation on it reports what it
    would report, if since its beginning only the operations on it had been performed, whatever the
    knowledge base was shown before. -/
theorem forks_do_not_interfere (mirror : Mirror kb) (m : Machine) {s : σ} (hs : mirror.Usable s)
    (ops : List (Nat × Operation Unit)) {j : Nat} {m' : Machine}
    (hm' : (Family.run kb ops ⟨[m], s⟩).1.machines[j]? = some m') :
    ∃ origin before after, ops = before ++ after ∧ Family.Begins kb ⟨[m], s⟩ j origin before ∧
      mirror.Usable (Family.run kb before ⟨[m], s⟩).1.knowledge ∧
      ∀ t, mirror.Usable t →
        origin.actAll kb (recorded j after) t =
          (m', recorded j (Family.run kb ops ⟨[m], s⟩).2) := by
  obtain ⟨origin, before, after, rfl, hbegins⟩ :=
    Family.exists_begins (List.getElem?_eq_some_iff.1 hm').1
  obtain ⟨hfirst, hnothing⟩ := hbegins.at_first
  have husable := Family.usable_run mirror (F := ⟨[m], s⟩) hs before
  refine ⟨origin, before, after, rfl, hbegins, husable, fun t ht => ?_⟩
  obtain ⟨hmachine, hresponses⟩ := Family.run_eq_actAll mirror husable hfirst ht after
  rw [Family.run_append] at hm' ⊢
  rw [recorded_append, hnothing, List.nil_append, hresponses]
  have hlast : (origin.actAll kb (recorded j after) t).1 = m' :=
    Option.some.inj (hmachine.symm.trans hm')
  rw [← hlast]

/-- A machine asks the triple store for all nodes, of which it has none. Its fork has created one
    and asked the same question right before. -/
theorem forks_do_not_interfere_of_two_questions :
    let classes : ClassTable :=
      ⟨[("List", ⟨["content", "next"], ∅⟩), ("Node", ⟨[], ∅⟩)], by decide⟩
    let ask : Stmt := .derive (.var "x") (.lit (.string "Node"))
    let m : Machine := .new classes ∅ 0
    let ops : List (Nat × Operation Unit) :=
      [(0, .fork), (0, .start ask), (1, .start (.seq (.create (.var "n") "Node" []) ask)),
        (1, .step ()), (1, .step ()), (1, .step ()), (0, .step ()), (1, .step ())]
    let run := Family.run (some Store.base) ops ⟨[m], .empty⟩
    Store.mirror.Usable Store.empty ∧
    ∃ root fork, run.1.machines = [root, fork] ∧ root.heap.size = 1 ∧ fork.heap.size = 3 ∧
      ∃ origin before after, ops = before ++ after ∧
        Family.Begins (some Store.base) ⟨[m], .empty⟩ 0 origin before ∧
        origin.actAll (some Store.base) (recorded 0 after) Store.empty =
          (root, recorded 0 run.2) := by
  intro classes ask m ops
  have hsizes : (Family.run (some Store.base) ops ⟨[m], .empty⟩).1.machines.map (·.heap.size) =
      [1, 3] := by decide +kernel
  -- from here on it does not matter which operations they were
  clear_value ops m
  intro run
  obtain ⟨root, rest, hmachines, hroot, hrest⟩ := List.map_eq_cons_iff.1 hsizes
  obtain ⟨fork, rest', rfl, hfork, hnil⟩ := List.map_eq_cons_iff.1 hrest
  obtain rfl : rest' = [] := List.map_eq_nil_iff.1 hnil
  have hfirst : run.1.machines[0]? = some root := by
    rw [hmachines]
    rfl
  obtain ⟨origin, before, after, hops, hbegins, -, halone⟩ :=
    forks_do_not_interfere Store.mirror m (s := .empty) rfl ops hfirst
  exact ⟨rfl, root, fork, hmachines, hroot, hfork, origin, before, after, hops, hbegins,
    halone _ rfl⟩

end ObjectMachine
