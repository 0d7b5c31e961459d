import ObjectMachine.Machine.Step

namespace ObjectMachine.Machine

/-!
# Runs

A run takes steps until nothing is left to run, a step fails or its fuel is used up. This file
says what one more step of a run is, and that fuel beyond the end of a run makes no difference:

* `Machine.runFrom_nil`, `Machine.runFrom_failed`, `Machine.runFrom_succ` — what a run does next;
* `RunResult.Unfinished` — a run that only its fuel has stopped;
* `Machine.unfinished_of_le` — it was not finished any earlier;
* `Machine.runFrom_add_of_finished` — a finished run stays as it is;
* `Machine.runFrom_add` — an unfinished run goes on from where it was stopped;
* `Machine.Ends` — how a run ends, whatever fuel that takes; `Machine.Ends.unique` — it does so in
  one way only.
-/

variable {σ : Type} {kb : Option (KnowledgeBase σ)} {m : Machine} {s : σ} {printed : String}

/-- The run was neither stopped by a fault nor is it done. -/
def RunResult.Unfinished (r : RunResult σ) : Prop :=
  r.fault = none ∧ r.machine.stack ≠ []

theorem runFrom_nil (h : m.stack = []) (n : Nat) (s : σ) (printed : String) :
    runFrom kb n m s printed = ⟨m, s, printed, none⟩ := by
  cases n with
  | zero => rfl
  | succ n =>
    rw [runFrom, done, h]
    rfl

/-- A failing step ends a run. -/
theorem runFrom_failed (h : m.stack ≠ []) {fault : StepFault}
    (hstep : (m.step kb s).outcome.fault? = some fault) (n : Nat) (printed : String) :
    runFrom kb (n + 1) m s printed =
      ⟨(m.step kb s).machine, (m.step kb s).knowledge, printed ++ (m.step kb s).printed,
        some fault⟩ := by
  have hdone : m.done = false := by simpa [done] using h
  rw [runFrom, hdone]
  cases ho : (m.step kb s).outcome with
  | failed fault' =>
    obtain rfl : fault' = fault := by simpa [ho, Outcome.fault?] using hstep
    simp only [ho]
    rfl
  | _ => exact absurd hstep (by simp [ho, Outcome.fault?])

/-- Any other step is followed by the rest of the run. -/
theorem runFrom_succ (h : m.stack ≠ []) (hstep : (m.step kb s).outcome.fault? = none) (n : Nat)
    (printed : String) :
    runFrom kb (n + 1) m s printed =
      runFrom kb n (m.step kb s).machine (m.step kb s).knowledge
        (printed ++ (m.step kb s).printed) := by
  have hdone : m.done = false := by simpa [done] using h
  rw [runFrom, hdone]
  cases ho : (m.step kb s).outcome with
  | failed fault => exact absurd hstep (by simp [ho, Outcome.fault?])
  | _ =>
    simp only [ho]
    rfl

/-- A run that is not finished was not finished one step before. -/
theorem unfinished_of_succ {n : Nat} (h : (runFrom kb (n + 1) m s printed).Unfinished) :
    (runFrom kb n m s printed).Unfinished := by
  induction n generalizing m s printed with
  | zero =>
    -- a machine with nothing to run would have been finished after one step too
    refine ⟨rfl, fun hnil => ?_⟩
    have hstack : m.stack = [] := hnil
    rw [runFrom_nil hstack] at h
    exact h.2 hstack
  | succ n ih =>
    by_cases hnil : m.stack = []
    · rw [runFrom_nil hnil] at h ⊢
      exact h
    · -- both runs take the same first step
      cases hstep : (m.step kb s).outcome.fault? with
      | none =>
        rw [runFrom_succ hnil hstep] at h ⊢
        exact ih h
      | some fault =>
        rw [runFrom_failed hnil hstep] at h
        exact absurd h.1 (by simp)

theorem unfinished_of_le {n k : Nat} (h : (runFrom kb n m s printed).Unfinished) (hk : k ≤ n) :
    (runFrom kb k m s printed).Unfinished := by
  induction hk with
  | refl => exact h
  | step _ ih => exact ih (unfinished_of_succ h)

/-- More fuel makes no difference to a run that is finished. -/
theorem runFrom_add_of_finished {n : Nat} (h : ¬(runFrom kb n m s printed).Unfinished) (k : Nat) :
    runFrom kb (n + k) m s printed = runFrom kb n m s printed := by
  induction n generalizing m s printed with
  | zero =>
    have hnil : m.stack = [] := by
      by_cases hstack : m.stack = []
      · exact hstack
      · exact absurd ⟨rfl, hstack⟩ h
    rw [runFrom_nil hnil, runFrom_nil hnil]
  | succ n ih =>
    by_cases hnil : m.stack = []
    · rw [runFrom_nil hnil, runFrom_nil hnil]
    · rw [Nat.add_right_comm]
      cases hstep : (m.step kb s).outcome.fault? with
      | none =>
        rw [runFrom_succ hnil hstep] at h ⊢
        rw [runFrom_succ hnil hstep]
        exact ih h
      | some fault => rw [runFrom_failed hnil hstep, runFrom_failed hnil hstep]

/-- A run that only its fuel has stopped goes on from there. -/
theorem runFrom_add {n : Nat} (h : (runFrom kb n m s printed).Unfinished) (k : Nat) :
    runFrom kb (n + k) m s printed =
      runFrom kb k (runFrom kb n m s printed).machine (runFrom kb n m s printed).knowledge
        (runFrom kb n m s printed).printed := by
  induction n generalizing m s printed with
  | zero => rw [Nat.zero_add, runFrom]
  | succ n ih =>
    have hne : m.stack ≠ [] := (unfinished_of_le h (Nat.zero_le (n + 1))).2
    rw [Nat.add_right_comm]
    cases hstep : (m.step kb s).outcome.fault? with
    | none =>
      rw [runFrom_succ hne hstep] at h
      rw [runFrom_succ hne hstep, runFrom_succ hne hstep]
      exact ih h
    | some fault =>
      rw [runFrom_failed hne hstep] at h
      exact absurd h.1 (by simp)

/-- What was printed before a run stands in front of what the run prints. -/
theorem runFrom_eq_append (n : Nat) (m : Machine) (s : σ) (printed : String) :
    runFrom kb n m s printed =
      { runFrom kb n m s "" with printed := printed ++ (runFrom kb n m s "").printed } := by
  induction n generalizing m s printed with
  | zero =>
    rw [runFrom, runFrom]
    simp
  | succ n ih =>
    by_cases hnil : m.stack = []
    · rw [runFrom_nil hnil, runFrom_nil hnil]
      simp
    · cases hstep : (m.step kb s).outcome.fault? with
      | none =>
        rw [runFrom_succ hnil hstep, runFrom_succ hnil hstep, ih,
          ih _ _ ("" ++ _)]
        simp [String.append_assoc]
      | some fault =>
        rw [runFrom_failed hnil hstep, runFrom_failed hnil hstep]
        simp

/-! ### How a run ends -/

/-- The run of a machine ends, and `r` is what it leaves behind. -/
def Ends (kb : Option (KnowledgeBase σ)) (m : Machine) (s : σ) (r : RunResult σ) : Prop :=
  ¬r.Unfinished ∧ ∃ fuel, m.runFor kb fuel s = r

/-- A run ends in one way only. -/
theorem Ends.unique {r r' : RunResult σ} (h : m.Ends kb s r) (h' : m.Ends kb s r') : r = r' := by
  obtain ⟨hr, n, rfl⟩ := h
  obtain ⟨hr', n', rfl⟩ := h'
  -- with the fuel of both of them each run is what it was
  have hlong : m.runFor kb (n + n') s = m.runFor kb n s := runFrom_add_of_finished hr n'
  have hlong' : m.runFor kb (n' + n) s = m.runFor kb n' s := runFrom_add_of_finished hr' n
  rw [← hlong, Nat.add_comm, hlong']

end ObjectMachine.Machine
