import ObjectMachine.Machine.Effect

namespace ObjectMachine

/-!
# Continuations

What is left to run of a frame is a statement, and sequencing is binary, so the same list of
statements can be bracketed in many ways. This file reads a statement as that list:

* `Stmt.head` — the leftmost statement that is no sequence, the one a step runs;
* `Stmt.tail?` — what is to run after it, bracketed as a step leaves it;
* `Stmt.leaves` — all of them in order;
* `Stmt.leaves_eq_head_cons` — the head and the leaves of the tail are the leaves;
* `Stmt.intent_eq_head` — a step looks at the head only, and goes on with the tail.
-/

namespace Stmt

/-! ### Head, tail and leaves -/

/-- The leftmost statement that is no sequence. -/
def head : Stmt → Stmt
  | seq first _ => first.head
  | s => s

/-- What is to run after the head, if anything. -/
def tail? : Stmt → Option Stmt
  | seq first second => some (before first.tail? second)
  | _ => none

/-- The statements that are no sequences, from left to right. Branches and loop bodies are not
    looked into. -/
def leaves : Stmt → List Stmt
  | seq first second => first.leaves ++ second.leaves
  | s => [s]

/-- The leaves of what may be left to run. -/
def leavesOf : Option Stmt → List Stmt
  | none => []
  | some s => s.leaves

@[simp] theorem leavesOf_none : leavesOf none = [] := rfl

@[simp] theorem leavesOf_some (s : Stmt) : leavesOf (some s) = s.leaves := rfl

/-- Whether a statement is a sequence. -/
def isSeq : Stmt → Bool
  | seq _ _ => true
  | _ => false

theorem head_of_not_isSeq {s : Stmt} (h : s.isSeq = false) : s.head = s := by
  cases s
  case seq => exact absurd h (by simp [isSeq])
  all_goals rfl

theorem tail?_of_not_isSeq {s : Stmt} (h : s.isSeq = false) : s.tail? = none := by
  cases s
  case seq => exact absurd h (by simp [isSeq])
  all_goals rfl

/-- The head is no sequence. -/
theorem isSeq_head (s : Stmt) : s.head.isSeq = false := by
  induction s with
  | seq first second ih _ => exact ih
  | _ => rfl

theorem leaves_ne_nil (s : Stmt) : s.leaves ≠ [] := by
  induction s with
  | seq first second ih _ => simp [leaves, ih]
  | _ => simp [leaves]

/-! ### Joining statements -/

/-- Joining two statements joins their leaves, however they are bracketed. -/
@[simp] theorem leaves_append (s next : Stmt) :
    (s.append next).leaves = s.leaves ++ next.leaves := by
  induction s with
  | seq first second _ ih => simp [append, leaves, ih]
  | _ => simp [append, leaves]

@[simp] theorem leaves_andThen (s : Stmt) (rest : Option Stmt) :
    (s.andThen rest).leaves = s.leaves ++ leavesOf rest := by
  cases rest <;> simp [andThen]

@[simp] theorem leaves_before (rest : Option Stmt) (next : Stmt) :
    (before rest next).leaves = leavesOf rest ++ next.leaves := by
  cases rest <;> simp [before]

/-- A statement other than a sequence stays the direct first one. -/
theorem append_of_not_isSeq {s : Stmt} (h : s.isSeq = false) (next : Stmt) :
    s.append next = seq s next := by
  cases s
  case seq => exact absurd h (by simp [isSeq])
  all_goals rfl

/-- The leaves are the head followed by the leaves of the tail. -/
theorem leaves_eq_head_cons (s : Stmt) : s.leaves = s.head :: leavesOf s.tail? := by
  induction s with
  | seq first second ih _ => simp [leaves, head, tail?, ih]
  | _ => rfl

/-- Head and tail can be read off the leaves. -/
theorem head_eq_of_leaves {s x : Stmt} {xs : List Stmt} (h : s.leaves = x :: xs) :
    s.head = x ∧ leavesOf s.tail? = xs := by
  rw [leaves_eq_head_cons] at h
  exact List.cons.inj h

/-! ### What a step looks at -/

variable {classes : ClassTable} {sc : Scope} {caller : Caller}

/-- Only a sequence leaves something to run after its first statement. -/
theorem intent_rest_of_not_isSeq {s : Stmt} (h : s.isSeq = false) {i : Intent}
    {rest : Option Stmt} (hi : s.intent classes sc caller = .ok (i, rest)) : rest = none := by
  cases s
  case seq => exact absurd h (by simp [isSeq])
  case cond guard onTrue onFalse =>
    rw [intent] at hi
    cases hg : guard.eval sc with
    | error fault => simp [hg, bind, Except.bind] at hi
    | ok v =>
      -- either branch is taken with nothing after it
      simp only [hg, bind, Except.bind] at hi
      split at hi <;> simp_all [pure, Except.pure]
  all_goals
    simp only [intent, bind, Except.bind, pure, Except.pure] at hi
    repeat' split at hi
    all_goals simp_all

/-- A statement other than a sequence is its own head. -/
private theorem intent_eq_self {s : Stmt} (h : s.isSeq = false) :
    s.intent classes sc caller =
      (s.head.intent classes sc caller).map fun p => (p.1, s.tail?) := by
  rw [head_of_not_isSeq h, tail?_of_not_isSeq h]
  cases hi : s.intent classes sc caller with
  | error fault => rfl
  | ok p =>
    obtain ⟨i, rest⟩ := p
    rw [intent_rest_of_not_isSeq h hi]
    rfl

/-- The intent of a statement is the one of its head, with the tail to run after it. -/
theorem intent_eq_head (s : Stmt) :
    s.intent classes sc caller =
      (s.head.intent classes sc caller).map fun p => (p.1, s.tail?) := by
  induction s with
  | seq first second ih _ =>
    -- the second statement only goes behind what the first one leaves
    rw [intent, ih, head, tail?]
    cases first.head.intent classes sc caller <;> rfl
  | _ => exact intent_eq_self rfl

end Stmt

end ObjectMachine
