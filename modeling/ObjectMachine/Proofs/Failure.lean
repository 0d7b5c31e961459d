import ObjectMachine.Proofs.Transition

namespace ObjectMachine

/-!
# Steps that fail

A step finds out what is to be done before it does any of it, so a step that fails has done nothing:
whatever was evaluated, and whatever a knowledge base was asked, only the frame on top is gone. At
the step limit not even that happens.

* `Fault.category?_ne_stepLimit` — what is wrong with a frame is never the step limit;
* `Machine.step_of_failed` — the two ways in which a step fails, and all that each leaves;
* `failing_step_is_atomic` — the same in terms of what can be seen of a fault.
-/

/-- What is wrong with a frame is never the step limit. -/
theorem Fault.category?_ne_stepLimit (fault : Fault) : fault.category? ≠ some .stepLimit := by
  cases fault with
  | dump cause => exact KnowledgeFault.category?_ne (by simp) cause
  | knowledge cause => exact KnowledgeFault.category?_ne (by simp) cause
  | _ => simp [category?]

/-- The step limit is told from every other fault by its category. -/
theorem StepFault.category?_eq_stepLimit {fault : StepFault} :
    fault.category? = some .stepLimit ↔ fault = .limit := by
  cases fault with
  | limit => simp [category?]
  | frame id cause => simp [category?, cause.category?_ne_stepLimit]

namespace Machine

variable {σ : Type} {kb : Option (KnowledgeBase σ)}

/-- A step fails because the limit is reached, and then nothing happens; or because the frame on top
    has no effect, and then this frame leaves the stack and the step is counted. -/
theorem step_of_failed {m : Machine} {f : Frame} {below : List Frame} (hm : m.stack = f :: below)
    {s : σ} {fault : StepFault} (h : (m.step kb s).outcome = .failed fault) :
    (fault = .limit ∧ m.step kb s = ⟨m, s, "", .failed .limit⟩) ∨
      ∃ cause s', fault = .frame f.id cause ∧
        m.step kb s = ⟨(m.running below).retire f, s', "", .failed (.frame f.id cause)⟩ := by
  by_cases hl : m.limitReached = true
  · left
    have hstep : m.step kb s = ⟨m, s, "", .failed .limit⟩ := step_of_limitReached hm hl s
    rw [hstep] at h
    exact ⟨(Outcome.failed.inj h).symm, hstep⟩
  · right
    rw [step_eq hm (by simpa using hl)] at h ⊢
    cases he : m.effectOf kb f below s with
    | mk r s' =>
      rw [he] at h
      cases r with
      | error cause => exact ⟨cause, s', (Outcome.failed.inj h).symm, rfl⟩
      | ok e =>
        -- an effect once found is carried out, and no effect ends in a failure
        cases e <;> exact absurd h (by simp [outcomeOf])

end Machine

/-- A step that fails for another reason than the step limit prints nothing and changes nothing but
    this: the frame on top has left the stack, under the variables it had, and the step is counted.
    A step that fails at the limit changes nothing at all. -/
theorem failing_step_is_atomic {σ : Type} (kb : Option (KnowledgeBase σ)) (m : Machine) (s : σ)
    {f : Frame} {below : List Frame} (hm : m.stack = f :: below) {fault : StepFault}
    (h : (m.step kb s).outcome = .failed fault) :
    (fault.category? ≠ some .stepLimit →
      (m.step kb s).printed = "" ∧
      (m.step kb s).machine = { m with
        stack := below
        steps := m.steps + 1
        retired := (f.id, f.locals) :: m.retired }) ∧
    (fault.category? = some .stepLimit → m.step kb s = ⟨m, s, "", .failed fault⟩) := by
  rcases Machine.step_of_failed hm h with ⟨rfl, hstep⟩ | ⟨cause, s', rfl, hstep⟩
  · refine ⟨fun hcat => ?_, fun _ => hstep⟩
    exact absurd (StepFault.category?_eq_stepLimit.2 rfl) hcat
  · refine ⟨fun _ => ?_, fun hcat => ?_⟩
    · rw [hstep]
      exact ⟨rfl, rfl⟩
    · exact absurd (StepFault.category?_eq_stepLimit.1 hcat) (by simp)

/-- A query deep in a sequence is answered by a numeral and by an identifier that stands for
    nothing, after the numeral was found to stand for a value. -/
theorem failing_step_is_atomic_of_bad_answer :
    let owner : Value := .ref "obj1" "C"
    let classes : ClassTable :=
      ⟨[("List", ⟨["content", "next"], ∅⟩)], List.pairwise_singleton ..⟩
    let base : KnowledgeBase Nat :=
      ⟨fun _ n => (.ok (), n + 1), fun _ n => (.ok ["1", "oops"], n + 1),
        fun _ n => (.ok [], n + 1)⟩
    let f : Frame := ⟨1, 3, .seq (.seq (.query (.var "x") (.lit (.string "q")) []) .skip) .skip,
      ∅, owner, none⟩
    let g : Frame := ⟨2, 2, .skip, ∅, owner, none⟩
    let m : Machine := { Machine.new classes (Heap.insert ⟨1, ∅⟩ ⟨"obj1", "C"⟩ ∅) 0 with
      stack := [f, g], lastFrame := 2, lastKey := 3 }
    let fault : StepFault := .frame 1 (.knowledge (.unknownIdentifier "oops"))
    let limited : Machine := { m with maxSteps := 4, steps := 4 }
    (m.step (some base) 0).outcome = .failed fault ∧
      (m.step (some base) 0).printed = "" ∧
      (m.step (some base) 0).machine =
        { m with stack := [g], steps := 1, retired := [(1, ∅)] } ∧
      (limited.step (some base) 0).outcome = .failed .limit ∧
      limited.step (some base) 0 = ⟨limited, 0, "", .failed .limit⟩ := by
  intro owner classes base f g m fault limited
  have hfailed : (m.step (some base) 0).outcome = .failed fault := by rfl
  have hlimit : (limited.step (some base) 0).outcome = .failed .limit := by rfl
  have hatomic := (failing_step_is_atomic (some base) m 0 rfl hfailed).1 (by decide)
  have hidle := (failing_step_is_atomic (some base) limited 0 rfl hlimit).2 (by decide)
  exact ⟨hfailed, hatomic.1, hatomic.2, hlimit, hidle⟩

end ObjectMachine
