import ObjectMachine.Proofs.Aftermath
import ObjectMachine.Proofs.Runs

namespace ObjectMachine

/-!
# The step limit

A step looks at the limit before anything else, and nothing a step does depends on it. So a run with
a limit is the run without one, up to the step the limit forbids:

* `Machine.withLimit` — the machine with another limit;
* `Machine.step_withLimit` — below the limit a step is the step without a limit;
* `Machine.runFrom_withLimit` — and so are as many steps as the limit leaves;
* `Machine.steps_of_unfinished`, `Machine.steps_of_finished` — a run counts its steps;
* `step_limit_cuts_run` — a limited run is the unlimited one, or stops where the limit is reached.
-/

namespace Machine

variable {σ : Type} {kb : Option (KnowledgeBase σ)}

/-- The machine with another step limit. -/
def withLimit (m : Machine) (n : Nat) : Machine :=
  { m with maxSteps := n }

/-- What a run leaves behind, with another step limit. -/
def RunResult.withLimit (r : RunResult σ) (n : Nat) : RunResult σ :=
  { r with machine := r.machine.withLimit n }

/-! ### One step -/

theorem limitReached_withLimit (m : Machine) (n : Nat) :
    (m.withLimit n).limitReached = true ↔ 0 < n ∧ n ≤ m.steps := by
  show (decide (0 < n) && decide (n ≤ m.steps)) = true ↔ 0 < n ∧ n ≤ m.steps
  simp

theorem proceed_withLimit (m : Machine) (n : Nat) (f : Frame) (next : Option Stmt) :
    (m.withLimit n).proceed f next = (m.proceed f next).withLimit n := by
  cases next <;> rfl

theorem perform_withLimit (m : Machine) (n : Nat) (f : Frame) (rest : Option Stmt) (e : Effect) :
    (m.withLimit n).perform f rest e = (m.perform f rest e).withLimit n := by
  cases hstays : e.stays with
  | true =>
    rw [perform_of_stays hstays, perform_of_stays hstays]
    exact proceed_withLimit { m with heap := e.heapAfter m.heap } n _ _
  | false =>
    cases e with
    | invoke target callee body locals => rfl
    | resume g r => exact proceed_withLimit ((m.retire f).unschedule g.key) n g r
    | _ => exact absurd hstays (by simp [Effect.stays])

theorem effectOf_withLimit (m : Machine) (n : Nat) (f : Frame) (below : List Frame) (s : σ) :
    (m.withLimit n).effectOf kb f below s = m.effectOf kb f below s := by
  have hintent : (m.withLimit n).intentOf f below = m.intentOf f below := rfl
  have hresolve : ∀ i, (m.withLimit n).resolve kb s i = m.resolve kb s i := by
    intro i
    cases i <;> rfl
  rw [effectOf, effectOf, hintent]
  cases m.intentOf f below with
  | error fault => rfl
  | ok p => exact hresolve p.1

/-- As long as neither of two limits is reached, a step does the same under both. -/
theorem step_withLimit {m : Machine} {n : Nat} (hm : m.limitReached = false)
    (hn : (m.withLimit n).limitReached = false) (s : σ) :
    (m.withLimit n).step kb s =
      { m.step kb s with machine := (m.step kb s).machine.withLimit n } := by
  cases hstack : m.stack with
  | nil => rw [step_nil hstack, step_nil (m := m.withLimit n) hstack]
  | cons f below =>
    rw [step_eq hstack hm, step_eq (m := m.withLimit n) hstack hn, effectOf_withLimit]
    cases m.effectOf kb f below s with
    | mk r s' =>
      cases r with
      | error fault => rfl
      | ok e =>
        have hperform := perform_withLimit (m.running below) n f f.stmt.tail? e
        exact congrArg (fun m' => StepResult.mk m' s' (printedBy e) (outcomeOf f e)) hperform

/-- Every step is counted, whether it succeeds or fails, unless the limit forbids it. -/
theorem step_steps {m : Machine} (hne : m.stack ≠ []) (hl : m.limitReached = false) (s : σ) :
    (m.step kb s).machine.steps = m.steps + 1 := by
  obtain ⟨f, below, hm⟩ := List.exists_cons_of_ne_nil hne
  rw [step_eq hm hl]
  cases m.effectOf kb f below s with
  | mk r s' =>
    cases r with
    | error fault => rfl
    | ok e => exact perform_steps (m.running below) f f.stmt.tail? e

/-- At the limit a run stops without another step. -/
theorem runFrom_of_limitReached {m : Machine} (hne : m.stack ≠ []) (hl : m.limitReached = true)
    (fuel : Nat) (s : σ) (printed : String) :
    runFrom kb (fuel + 1) m s printed = ⟨m, s, printed, some .limit⟩ := by
  obtain ⟨f, below, hstack⟩ := List.exists_cons_of_ne_nil hne
  have hstep : m.step kb s = ⟨m, s, "", .failed .limit⟩ := step_of_limitReached hstack hl s
  have hfault : (m.step kb s).outcome.fault? = some .limit := by
    rw [hstep]
    rfl
  rw [runFrom_failed hne hfault, hstep, String.append_empty]

/-! ### Runs with and without a limit -/

section Unlimited

variable {m : Machine} (hm : m.maxSteps = 0) {n fuel : Nat} {s : σ} {printed : String}
include hm

theorem limitReached_of_unlimited : m.limitReached = false := by
  rw [limitReached, hm]
  rfl

/-- A run that is not finished has counted a step for each unit of its fuel. -/
theorem steps_of_unfinished (h : (runFrom kb fuel m s printed).Unfinished) :
    (runFrom kb fuel m s printed).machine.steps = m.steps + fuel := by
  induction fuel generalizing m s printed with
  | zero => rfl
  | succ fuel ih =>
    have hne : m.stack ≠ [] := (unfinished_of_le h (Nat.zero_le (fuel + 1))).2
    have hcount : (m.step kb s).machine.steps = m.steps + 1 :=
      step_steps hne (limitReached_of_unlimited hm) s
    cases hstep : (m.step kb s).outcome.fault? with
    | none =>
      rw [runFrom_succ hne hstep] at h ⊢
      rw [ih (by rw [step_maxSteps, hm]) h, hcount]
      omega
    | some fault =>
      -- a run that has failed is finished
      rw [runFrom_failed hne hstep] at h
      exact absurd h.1 (by simp)

/-- A run that is finished needed no more fuel than the steps it has counted. -/
theorem steps_of_finished (h : ¬(runFrom kb fuel m s printed).Unfinished) :
    ∃ k ≤ fuel, (runFrom kb fuel m s printed).machine.steps = m.steps + k ∧
      runFrom kb k m s printed = runFrom kb fuel m s printed := by
  induction fuel generalizing m s printed with
  | zero => exact ⟨0, Nat.le_refl 0, rfl, rfl⟩
  | succ fuel ih =>
    by_cases hnil : m.stack = []
    · rw [runFrom_nil hnil]
      exact ⟨0, Nat.zero_le _, rfl, runFrom_nil hnil 0 s printed⟩
    · have hcount : (m.step kb s).machine.steps = m.steps + 1 :=
        step_steps hnil (limitReached_of_unlimited hm) s
      cases hstep : (m.step kb s).outcome.fault? with
      | none =>
        rw [runFrom_succ hnil hstep] at h ⊢
        obtain ⟨k, hk, hsteps, hrun⟩ := ih (by rw [step_maxSteps, hm]) h
        refine ⟨k + 1, by omega, by omega, ?_⟩
        rw [runFrom_succ hnil hstep, hrun]
      | some fault =>
        -- the step that fails is the last one, and it is counted as well
        rw [runFrom_failed hnil hstep]
        exact ⟨1, by omega, hcount, runFrom_failed hnil hstep 0 printed⟩

/-- As many steps as the limit leaves are those of the run without a limit. -/
theorem runFrom_withLimit (hle : m.steps + fuel ≤ n) :
    runFrom kb fuel (m.withLimit n) s printed = (runFrom kb fuel m s printed).withLimit n := by
  -- each step moves one unit from the fuel to the count, so the bound is kept
  induction fuel generalizing m s printed with
  | zero => rfl
  | succ fuel ih =>
    by_cases hnil : m.stack = []
    · rw [runFrom_nil hnil, runFrom_nil (m := m.withLimit n) hnil]
      rfl
    · have hfree : m.limitReached = false := limitReached_of_unlimited hm
      have hbelow : (m.withLimit n).limitReached = false := by
        rw [← Bool.not_eq_true, limitReached_withLimit]
        omega
      have hlimited : (m.withLimit n).step kb s =
          { m.step kb s with machine := (m.step kb s).machine.withLimit n } :=
        step_withLimit hfree hbelow s
      have hcount : (m.step kb s).machine.steps = m.steps + 1 := step_steps hnil hfree s
      have hnil' : (m.withLimit n).stack ≠ [] := hnil
      cases hstep : (m.step kb s).outcome.fault? with
      | none =>
        have hstep' : ((m.withLimit n).step kb s).outcome.fault? = none := by rw [hlimited, hstep]
        rw [runFrom_succ hnil hstep, runFrom_succ hnil' hstep', hlimited]
        exact ih (by rw [step_maxSteps, hm]) (by omega)
      | some fault =>
        have hstep' : ((m.withLimit n).step kb s).outcome.fault? = some fault := by
          rw [hlimited, hstep]
        rw [runFrom_failed hnil hstep, runFrom_failed hnil' hstep', hlimited]
        rfl

/-- A run that ends within the limit ends in the same way under the limit. -/
theorem Ends.withLimit {r : RunResult σ} (h : m.Ends kb s r) (hle : r.machine.steps ≤ n) :
    (m.withLimit n).Ends kb s (r.withLimit n) := by
  obtain ⟨hfinished, fuel, rfl⟩ := h
  obtain ⟨k, -, hsteps, hrun⟩ := steps_of_finished hm hfinished
  refine ⟨hfinished, k, ?_⟩
  have hcut : (m.withLimit n).runFor kb k s = (m.runFor kb k s).withLimit n :=
    runFrom_withLimit hm (by rw [runFor] at hle; omega)
  rw [hcut]
  exact congrArg (RunResult.withLimit · n) hrun

/-- A run that goes on at the limit is stopped there, before another step is taken. -/
theorem ends_at_limit (hn : 0 < n) (hsteps : m.steps + fuel = n)
    (h : (m.runFor kb fuel s).Unfinished) :
    (m.withLimit n).Ends kb s
      { (m.runFor kb fuel s).withLimit n with fault := some .limit } := by
  have hcount : (m.runFor kb fuel s).machine.steps = m.steps + fuel := steps_of_unfinished hm h
  have hcut : (m.withLimit n).runFor kb fuel s = (m.runFor kb fuel s).withLimit n :=
    runFrom_withLimit hm (by omega)
  have hgoes : ((m.withLimit n).runFor kb fuel s).Unfinished := by
    rw [hcut]
    exact h
  have hreached : ((m.runFor kb fuel s).machine.withLimit n).limitReached = true := by
    rw [limitReached_withLimit]
    omega
  refine ⟨fun hunfinished => absurd hunfinished.1 (by simp), fuel + 1, ?_⟩
  calc (m.withLimit n).runFor kb (fuel + 1) s
      = runFrom kb 1 ((m.withLimit n).runFor kb fuel s).machine
          ((m.withLimit n).runFor kb fuel s).knowledge
          ((m.withLimit n).runFor kb fuel s).printed := runFrom_add hgoes 1
    _ = runFrom kb 1 ((m.runFor kb fuel s).machine.withLimit n) (m.runFor kb fuel s).knowledge
          (m.runFor kb fuel s).printed := by
        rw [hcut]
        rfl
    _ = { (m.runFor kb fuel s).withLimit n with fault := some .limit } :=
        runFrom_of_limitReached (m := (m.runFor kb fuel s).machine.withLimit n) h.2 hreached 0 _ _

end Unlimited

/-- A program is started in the same way under every limit. -/
theorem start_withLimit {m m' : Machine} {main : Stmt} {f : Frame}
    (h : m.start main = .ok (f, m')) (n : Nat) :
    (m.withLimit n).start main = .ok (f, m'.withLimit n) ∧ m'.maxSteps = m.maxSteps ∧
      m'.steps = m.steps := by
  rw [start_eq] at h
  obtain ⟨rfl, rfl⟩ := Prod.mk.inj (Except.ok.inj h)
  exact ⟨start_eq (m.withLimit n) main, rfl, rfl⟩

end Machine

/-- A program is started twice on the same heap, without a step limit and with the limit `n`. If the
    unlimited run ends after at most `n` steps, the limited one ends in exactly the same way. If it
    does not, the limited run stops at the limit, in the state of the unlimited run after exactly
    `n` steps. So the limited run always ends. -/
theorem step_limit_cuts_run {σ : Type} (kb : Option (KnowledgeBase σ)) (classes : ClassTable)
    (heap : Heap) (main : Stmt) (s : σ) {n : Nat} (hn : 0 < n) :
    ∃ f free limited, (Machine.new classes heap 0).start main = .ok (f, free) ∧
      (Machine.new classes heap n).start main = .ok (f, limited) ∧
      (∀ r, free.Ends kb s r → r.machine.steps ≤ n →
        ∀ r', limited.Ends kb s r' ↔ r' = r.withLimit n) ∧
      ((¬∃ r, free.Ends kb s r ∧ r.machine.steps ≤ n) →
        (free.runFor kb n s).Unfinished ∧ (free.runFor kb n s).machine.steps = n ∧
        ∀ r', limited.Ends kb s r' ↔
          r' = { (free.runFor kb n s).withLimit n with fault := some .limit }) ∧
      ∃ r', limited.Ends kb s r' := by
  obtain ⟨f, free, hstart⟩ := (Machine.new classes heap 0).exists_start main
  obtain ⟨hstart', hmax, hsteps⟩ := Machine.start_withLimit hstart n
  have hunlimited : free.maxSteps = 0 := hmax
  have hzero : free.steps = 0 := hsteps
  have hwithin : ∀ r, free.Ends kb s r → r.machine.steps ≤ n →
      (free.withLimit n).Ends kb s (r.withLimit n) := fun r hr hle => hr.withLimit hunlimited hle
  -- a run that were finished after `n` steps would have ended within the limit
  have hunfinished : (¬∃ r, free.Ends kb s r ∧ r.machine.steps ≤ n) →
      (free.runFor kb n s).Unfinished := by
    intro hno
    refine Classical.byContradiction fun hfinished => ?_
    obtain ⟨k, hk, hcount, -⟩ := Machine.steps_of_finished hunlimited hfinished
    exact hno ⟨free.runFor kb n s, ⟨hfinished, n, rfl⟩, by rw [Machine.runFor]; omega⟩
  have hbeyond : (free.runFor kb n s).Unfinished → (free.withLimit n).Ends kb s
      { (free.runFor kb n s).withLimit n with fault := some .limit } :=
    fun hgoes => Machine.ends_at_limit hunlimited hn (by omega) hgoes
  refine ⟨f, free, free.withLimit n, hstart, hstart', ?_, ?_, ?_⟩
  · intro r hr hle r'
    exact ⟨fun h => h.unique (hwithin r hr hle), fun h => h ▸ hwithin r hr hle⟩
  · intro hno
    have hgoes := hunfinished hno
    have hcount : (free.runFor kb n s).machine.steps = free.steps + n :=
      Machine.steps_of_unfinished hunlimited hgoes
    refine ⟨hgoes, by omega, fun r' => ⟨fun h => h.unique (hbeyond hgoes), ?_⟩⟩
    rintro rfl
    exact hbeyond hgoes
  · by_cases hends : ∃ r, free.Ends kb s r ∧ r.machine.steps ≤ n
    · obtain ⟨r, hr, hle⟩ := hends
      exact ⟨_, hwithin r hr hle⟩
    · exact ⟨_, hbeyond (hunfinished hends)⟩

/-- A program of two steps ends under the limit of two steps, and is stopped under that of one. -/
theorem step_limit_cuts_run_of_two_steps :
    let main : Stmt := .seq .breakpoint (.print (.lit .null))
    let kb : Option (KnowledgeBase Unit) := none
    ∃ f free, (Machine.new ∅ ∅ 0).start main = .ok (f, free) ∧
      (∃ limited, 0 < 2 ∧ (Machine.new ∅ ∅ 2).start main = .ok (f, limited) ∧
        ∃ r, free.Ends kb () r ∧ r.machine.steps = 2 ∧ r.fault = none ∧ r.printed = "null\n" ∧
          limited.Ends kb () (r.withLimit 2)) ∧
      ∃ limited, 0 < 1 ∧ (Machine.new ∅ ∅ 1).start main = .ok (f, limited) ∧
        ∃ r, limited.Ends kb () r ∧ r.machine.steps = 1 ∧ r.fault = some .limit := by
  intro main kb
  obtain ⟨f, free, two, hfree, htwo, hwithin, -⟩ :=
    step_limit_cuts_run kb ∅ ∅ main () (n := 2) (by decide)
  obtain ⟨f', free', one, hfree', hone, -, hbeyond, -⟩ :=
    step_limit_cuts_run kb ∅ ∅ main () (n := 1) (by decide)
  obtain ⟨rfl, rfl⟩ := Prod.mk.inj (Except.ok.inj (hfree'.symm.trans hfree))
  obtain ⟨hends, hsteps, hfault, hprinted⟩ :
      free'.Ends kb () (free'.runFor kb 2 ()) ∧ (free'.runFor kb 2 ()).machine.steps = 2 ∧
        (free'.runFor kb 2 ()).fault = none ∧ (free'.runFor kb 2 ()).printed = "null\n" := by
    rw [Machine.start_eq] at hfree'
    obtain ⟨-, rfl⟩ := Prod.mk.inj (Except.ok.inj hfree')
    exact ⟨⟨fun h => h.2 rfl, 2, rfl⟩, rfl, rfl, rfl⟩
  refine ⟨f', free', hfree', ⟨two, by decide, htwo, ?_⟩, one, by decide, hone, ?_⟩
  · exact ⟨_, hends, hsteps, hfault, hprinted, (hwithin _ hends (by omega) _).2 rfl⟩
  · obtain ⟨-, hcount, hlimited⟩ := hbeyond fun ⟨r, hr, hle⟩ => by
      rw [hr.unique hends, hsteps] at hle
      exact absurd hle (by decide)
    exact ⟨_, (hlimited _).2 rfl, hcount, rfl⟩

end ObjectMachine
