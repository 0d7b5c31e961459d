import ObjectMachine.Console.Launch
import ObjectMachine.Proofs.Runs
import ObjectMachine.Proofs.Transition

namespace ObjectMachine

/-!
# Commands do not disturb a run

A run at the console takes turns: a step of the program, or a command. A command looks at the
machine and leaves it alone, so what is left when the commands are forgotten is the uninterrupted
run:

* `Machine.path` — the machines an uninterrupted run goes through;
* `Console.Position` — where a run at the console stands; `Console.Position.turn` — one turn of it;
* `Console.drive_eq_turns` — a run is made of its turns;
* `Console.Position.path` — the machines it goes through;
* `Console.Position.Sound` — commands are asked for only while the program is not done;
* `Console.console_is_transparent` — both runs go through the same machines and end in the same
  way.
-/

namespace Machine

variable {σ : Type} {kb : Option (KnowledgeBase σ)} {m : Machine} {s : σ} {n : Nat}

/-- The machines an uninterrupted run goes through in at most `n` steps: the one it starts with, and
    the one after each step. -/
def path (kb : Option (KnowledgeBase σ)) : (n : Nat) → Machine → σ → List Machine
  | 0, m, _ => [m]
  | n + 1, m, s =>
    if m.done then [m]
    else
      match (m.step kb s).outcome.fault? with
      | some _ => [m, (m.step kb s).machine]
      | none => m :: path kb n (m.step kb s).machine (m.step kb s).knowledge

theorem path_of_done (h : m.done = true) (n : Nat) (s : σ) : m.path kb n s = [m] := by
  cases n with
  | zero => rfl
  | succ n => rw [path, if_pos h]

theorem path_of_failed (h : m.done = false) {fault : StepFault}
    (hstep : (m.step kb s).outcome.fault? = some fault) (n : Nat) :
    m.path kb (n + 1) s = [m, (m.step kb s).machine] := by
  rw [path, hstep]
  simp [h]

theorem path_of_ran (h : m.done = false) (hstep : (m.step kb s).outcome.fault? = none) (n : Nat) :
    m.path kb (n + 1) s = m :: (m.step kb s).machine.path kb n (m.step kb s).knowledge := by
  rw [path, hstep]
  simp [h]

theorem done_eq_false : m.done = false ↔ m.stack ≠ [] := by
  simp [done]

/-- The path starts with the machine itself. -/
theorem path_eq_cons (kb : Option (KnowledgeBase σ)) (n : Nat) (m : Machine) (s : σ) :
    ∃ rest, m.path kb n s = m :: rest := by
  cases n with
  | zero => exact ⟨[], rfl⟩
  | succ n =>
    rw [path]
    split
    · exact ⟨_, rfl⟩
    · split
      · exact ⟨_, rfl⟩
      · exact ⟨_, rfl⟩

/-- The path ends with the machine the run leaves behind. -/
theorem getLast?_path (n : Nat) (m : Machine) (s : σ) :
    (m.path kb n s).getLast? = some (m.runFor kb n s).machine := by
  induction n generalizing m s with
  | zero => rfl
  | succ n ih =>
    cases hdone : m.done with
    | true =>
      rw [path_of_done hdone, runFor, runFrom_nil (by simpa [done] using hdone)]
      rfl
    | false =>
      have hne : m.stack ≠ [] := done_eq_false.1 hdone
      cases hstep : (m.step kb s).outcome.fault? with
      | some fault =>
        rw [path_of_failed hdone hstep, runFor, runFrom_failed hne hstep]
        rfl
      | none =>
        obtain ⟨rest, hrest⟩ := path_eq_cons kb n (m.step kb s).machine (m.step kb s).knowledge
        have hlast := ih (m.step kb s).machine (m.step kb s).knowledge
        rw [path_of_ran hdone hstep, runFor, runFrom_succ hne hstep, runFrom_eq_append]
        rw [hrest] at hlast ⊢
        rw [List.getLast?_cons_cons, hlast]
        rfl

/-- With more steps the path only gets longer. -/
theorem path_isPrefix_succ (n : Nat) (m : Machine) (s : σ) :
    m.path kb n s <+: m.path kb (n + 1) s := by
  induction n generalizing m s with
  | zero =>
    obtain ⟨rest, hrest⟩ := path_eq_cons kb 1 m s
    rw [hrest]
    exact ⟨rest, rfl⟩
  | succ n ih =>
    cases hdone : m.done with
    | true =>
      rewrite [path_of_done hdone, path_of_done hdone]
      exact List.prefix_rfl
    | false =>
      cases hstep : (m.step kb s).outcome.fault? with
      | some fault =>
        rewrite [path_of_failed hdone hstep, path_of_failed hdone hstep]
        exact List.prefix_rfl
      | none =>
        rw [path_of_ran hdone hstep, path_of_ran hdone hstep]
        exact (List.prefix_cons_inj m).2 (ih _ _)

theorem path_isPrefix_of_le {n k : Nat} (h : n ≤ k) (m : Machine) (s : σ) :
    m.path kb n s <+: m.path kb k s := by
  induction h with
  | refl => exact List.prefix_rfl
  | step _ ih => exact ih.trans (path_isPrefix_succ _ m s)

/-- A run that is finished takes no further steps. -/
theorem path_succ_of_finished (h : ¬(m.runFor kb n s).Unfinished) :
    m.path kb (n + 1) s = m.path kb n s := by
  induction n generalizing m s with
  | zero =>
    have hnil : m.stack = [] := Classical.byContradiction fun hne => h ⟨rfl, hne⟩
    exact path_of_done (by simp [done, hnil]) 1 s
  | succ n ih =>
    cases hdone : m.done with
    | true => rw [path_of_done hdone, path_of_done hdone]
    | false =>
      cases hstep : (m.step kb s).outcome.fault? with
      | some fault => rw [path_of_failed hdone hstep, path_of_failed hdone hstep]
      | none =>
        rw [runFor, runFrom_succ (done_eq_false.1 hdone) hstep, runFrom_eq_append] at h
        rw [path_of_ran hdone hstep, path_of_ran hdone hstep, ih h]

/-- A step that does not fail has executed a breakpoint exactly if it does not go on. -/
theorem goesOn_eq_false {f : Frame} {below : List Frame} (hm : m.stack = f :: below)
    (hstep : (m.step kb s).outcome.fault? = none) :
    (m.step kb s).outcome.goesOn = false ↔ f.stmt.head = .breakpoint := by
  cases hl : m.limitReached with
  | true =>
    rw [step_of_limitReached hm hl] at hstep
    exact absurd hstep (by simp [Outcome.fault?])
  | false =>
    rw [step_eq hm hl] at hstep ⊢
    cases he : m.effectOf kb f below s with
    | mk r s' =>
      rw [he] at hstep
      cases r with
      | error fault => exact absurd hstep (by simp [Outcome.fault?])
      | ok e =>
        obtain ⟨-, henacts⟩ := enacts_of_effectOf he
        cases henacts with
        | act hw =>
          generalize f.stmt.head = head at hw
          cases hw <;> simp [outcomeOf, Outcome.goesOn]
        | ask hw =>
          generalize f.stmt.head = head at hw
          cases hw <;> simp [outcomeOf, Outcome.goesOn]

end Machine

namespace Console

variable {σ : Type} {setup : Setup σ}

/-! ### Steps and commands -/

/-- The fault a run ends with. -/
def Ending.fault? : Ending → Option StepFault
  | failed fault => some fault
  | _ => none

/-- How a run has ended, if it is over. -/
def Status.ending? : Status → Option Ending
  | .over e => some e
  | .running => none
  | .asking => none

theorem Status.eq_over {status : Status} {e : Ending} (h : status.ending? = some e) :
    status = .over e := by
  match status, h with
  | .over e', h => exact congrArg Status.over (Option.some.inj h)

/-- There are no more lines, or the next one has the command to quit. -/
def Quits (lines : List String) : Prop :=
  lines = [] ∨ ∃ line rest, lines = line :: rest ∧ Command.ofLine line = .quit

namespace Run

variable {r : Run σ}

/-- With nothing left to run, the run is finished. -/
theorem step_of_done (h : r.machine.done = true) : r.step setup = (r, .over .finished) :=
  if_pos h

@[simp] theorem displayStep_machine (r : Run σ) : (r.displayStep setup).machine = r.machine := by
  rw [displayStep]
  split <;> rfl

@[simp] theorem displayStep_knowledge (r : Run σ) :
    (r.displayStep setup).knowledge = r.knowledge := by
  rw [displayStep]
  split <;> rfl

@[simp] theorem displayStep_stepping (r : Run σ) : (r.displayStep setup).stepping = r.stepping := by
  rw [displayStep]
  split <;> rfl

/-- A step that fails ends the run. -/
theorem step_of_failed (h : r.machine.done = false) {fault : StepFault}
    (hstep : (r.machine.step setup.knowledgeBase r.knowledge).outcome.fault? = some fault) :
    (r.step setup).2 = .over (.failed fault) ∧
      (r.step setup).1.machine = (r.machine.step setup.knowledgeBase r.knowledge).machine := by
  rw [step, h]
  cases ho : (r.machine.step setup.knowledgeBase r.knowledge).outcome with
  | failed fault' =>
    obtain rfl : fault' = fault := by simpa [ho, Outcome.fault?] using hstep
    simp only [ho]
    exact ⟨rfl, rfl⟩
  | _ => exact absurd hstep (by simp [ho, Outcome.fault?])

/-- After any other step a command is asked for, or the program goes on. -/
theorem step_of_ran (h : r.machine.done = false)
    (hstep : (r.machine.step setup.knowledgeBase r.knowledge).outcome.fault? = none) :
    let s := r.machine.step setup.knowledgeBase r.knowledge
    (r.step setup).1.machine = s.machine ∧ (r.step setup).1.knowledge = s.knowledge ∧
      (r.step setup).1.stepping = r.stepping ∧
      (r.step setup).2 =
        if setup.interactive && !s.machine.done && (!s.outcome.goesOn || r.stepping) then .asking
        else .running := by
  intro s
  have hs : r.machine.step setup.knowledgeBase r.knowledge = s := rfl
  rw [step, h, hs]
  rw [hs] at hstep
  obtain ⟨machine, knowledge, printed, outcome⟩ := s
  cases outcome with
  | failed fault => exact absurd hstep (by simp [Outcome.fault?])
  | _ =>
    -- what is shown and noticed on the way makes no difference to the question asked at the end
    simp only [Bool.false_eq_true, if_false, pauses, displayStep_machine, displayStep_stepping]
    split
    · rename_i hpause
      exact ⟨displayStep_machine _, displayStep_knowledge _, displayStep_stepping _,
        (if_pos hpause).symm⟩
    · rename_i hpause
      exact ⟨displayStep_machine _, displayStep_knowledge _, displayStep_stepping _,
        (if_neg hpause).symm⟩

/-- A command leaves the machine and the knowledge base alone. After it another one is asked for, or
    the program goes on or is stopped. -/
theorem answer_eq (setup : Setup σ) (r : Run σ) (line? : Option String) :
    (r.answer setup line?).1.machine = r.machine ∧
      (r.answer setup line?).1.knowledge = r.knowledge ∧
      ((r.answer setup line?).2 = .asking ∨ (r.answer setup line?).2 = .running ∨
        (r.answer setup line?).2 = .over .stopped) := by
  cases line? with
  | none => exact ⟨rfl, rfl, .inr (.inr rfl)⟩
  | some line =>
    rw [answer]
    generalize (Command.ofLine line).run setup.color r.machine r.files = reply
    obtain ⟨shown, files, result⟩ := reply
    cases result with
    | error fault => exact ⟨rfl, rfl, .inl rfl⟩
    | ok action =>
      cases action with
      | prompt => exact ⟨rfl, rfl, .inl rfl⟩
      | quit => exact ⟨rfl, rfl, .inr (.inr rfl)⟩
      | step => exact ⟨rfl, rfl, .inr (.inl rfl)⟩
      | resume => exact ⟨rfl, rfl, .inr (.inl rfl)⟩

/-- Only the command to quit says that the program is to be stopped. -/
theorem result_eq_quit (color : Bool) (m : Machine) (files : Files) (c : Command) :
    (c.run color m files).result = .ok .quit ↔ c = .quit := by
  cases c with
  | eval source =>
    rw [Command.run]
    split <;> simp
  | snapshot file =>
    rw [Command.run]
    split <;> simp
  | _ => simp [Command.run]

/-- The program is stopped by the command to quit, and if there are no more commands. -/
theorem answer_stopped (r : Run σ) (line? : Option String) :
    (r.answer setup line?).2 = .over .stopped ↔
      line? = none ∨ ∃ line, line? = some line ∧ Command.ofLine line = .quit := by
  cases line? with
  | none => exact ⟨fun _ => .inl rfl, fun _ => rfl⟩
  | some line =>
    have hquit := result_eq_quit setup.color r.machine r.files (Command.ofLine line)
    have hstop : (r.answer setup (some line)).2 = .over .stopped ↔
        ((Command.ofLine line).run setup.color r.machine r.files).result = .ok .quit := by
      rw [answer]
      generalize (Command.ofLine line).run setup.color r.machine r.files = reply
      obtain ⟨shown, files, result⟩ := reply
      cases result with
      | error fault => simp [ask]
      | ok action => cases action <;> simp [ask, stop]
    rw [hstop, hquit]
    simp

end Run

/-! ### Turns -/

/-- Where a run at the console stands: what has become of it, what comes next, and the lines that
    are still to be typed. -/
structure Position (σ : Type) where
  run : Run σ
  status : Status
  lines : List String

namespace Position

/-- One turn: a step of the program, or one command. -/
def turn (setup : Setup σ) (p : Position σ) : Position σ :=
  match p.status with
  | .over _ => p
  | .running => ⟨(p.run.step setup).1, (p.run.step setup).2, p.lines⟩
  | .asking =>
    ⟨(p.run.answer setup p.lines.head?).1, (p.run.answer setup p.lines.head?).2, p.lines.tail⟩

/-- Any number of turns. -/
def turns (setup : Setup σ) : Nat → Position σ → Position σ
  | 0, p => p
  | n + 1, p => turns setup n (p.turn setup)

/-- Whether the next turn is a step of the machine. -/
def steps (p : Position σ) : Bool :=
  match p.status with
  | .running => !p.run.machine.done
  | _ => false

/-- The machines a run at the console goes through in `n` turns: the one it starts with, and the one
    after each step. -/
def path (setup : Setup σ) : (n : Nat) → Position σ → List Machine
  | 0, p => [p.run.machine]
  | n + 1, p =>
    if p.steps then p.run.machine :: path setup n (p.turn setup) else path setup n (p.turn setup)

variable {p : Position σ}

theorem turns_of_over {e : Ending} (h : p.status = .over e) (n : Nat) : p.turns setup n = p := by
  induction n with
  | zero => rfl
  | succ n ih =>
    have hturn : p.turn setup = p := by rw [turn, h]
    rw [turns, hturn, ih]

theorem path_of_over {e : Ending} (h : p.status = .over e) (n : Nat) :
    p.path setup n = [p.run.machine] := by
  induction n with
  | zero => rfl
  | succ n ih =>
    have hturn : p.turn setup = p := by rw [turn, h]
    rw [path, steps, h, hturn]
    exact ih

end Position

/-- A run is made of its turns. -/
theorem drive_eq_turns (setup : Setup σ) (n : Nat) (r : Run σ) (status : Status)
    (lines : List String) :
    r.drive setup n status lines =
      ((Position.turns setup n ⟨r, status, lines⟩).run,
        (Position.turns setup n ⟨r, status, lines⟩).status.ending?) := by
  induction n generalizing r status lines with
  | zero => cases status <;> rfl
  | succ n ih =>
    match status with
    | .running => exact ih (r.step setup).1 (r.step setup).2 lines
    | .asking => exact ih (r.answer setup lines.head?).1 (r.answer setup lines.head?).2 lines.tail
    | .over e =>
      rw [Position.turns_of_over rfl, Run.drive]
      rfl

namespace Position

/-- What a turn can do. -/
inductive Turned (setup : Setup σ) (p p' : Position σ) : Prop where
  | ended {e : Ending} (hstatus : p.status = .over e) (hsame : p' = p)
  | finished (hstatus : p.status = .running) (hdone : p.run.machine.done = true)
      (hover : p'.status = .over .finished) (hmachine : p'.run.machine = p.run.machine)
  | failed {fault : StepFault} (hstatus : p.status = .running)
      (hdone : p.run.machine.done = false)
      (hstep : (p.run.machine.step setup.knowledgeBase p.run.knowledge).outcome.fault? = some fault)
      (hover : p'.status = .over (.failed fault))
      (hmachine : p'.run.machine =
        (p.run.machine.step setup.knowledgeBase p.run.knowledge).machine)
  | ran (hstatus : p.status = .running) (hdone : p.run.machine.done = false)
      (hstep : (p.run.machine.step setup.knowledgeBase p.run.knowledge).outcome.fault? = none)
      (hmachine : p'.run.machine =
        (p.run.machine.step setup.knowledgeBase p.run.knowledge).machine)
      (hknowledge : p'.run.knowledge =
        (p.run.machine.step setup.knowledgeBase p.run.knowledge).knowledge)
      (hlines : p'.lines = p.lines) (hstepping : p'.run.stepping = p.run.stepping)
      (hgoes : p'.status = .running ∨
        p'.status = .asking ∧ setup.interactive = true ∧ p'.run.machine.done = false ∧
          ((p.run.machine.step setup.knowledgeBase p.run.knowledge).outcome.goesOn = false ∨
            p.run.stepping = true))
  | answered (hstatus : p.status = .asking) (hmachine : p'.run.machine = p.run.machine)
      (hknowledge : p'.run.knowledge = p.run.knowledge) (hlines : p'.lines = p.lines.tail)
      (hgoes : p'.status = .asking ∨ p'.status = .running ∨ p'.status = .over .stopped)
      (hquit : p'.status = .over .stopped ↔ Quits p.lines)

/-- Every turn does one of these things. -/
theorem turned (setup : Setup σ) (p : Position σ) : p.Turned setup (p.turn setup) := by
  obtain ⟨r, status, lines⟩ := p
  match status with
  | .over e => exact .ended rfl rfl
  | .running =>
    cases hdone : r.machine.done with
    | true =>
      have hturn : turn setup ⟨r, .running, lines⟩ = ⟨r, .over .finished, lines⟩ := by
        simp only [turn, Run.step_of_done hdone]
      rw [hturn]
      exact .finished rfl hdone rfl rfl
    | false =>
      cases hstep : (r.machine.step setup.knowledgeBase r.knowledge).outcome.fault? with
      | some fault =>
        obtain ⟨hover, hmachine⟩ := Run.step_of_failed hdone hstep
        exact .failed rfl hdone hstep hover hmachine
      | none =>
        obtain ⟨hmachine, hknowledge, hstepping, hstatus⟩ := Run.step_of_ran hdone hstep
        refine .ran rfl hdone hstep hmachine hknowledge rfl hstepping ?_
        split at hstatus
        · rename_i hpause
          refine .inr ⟨hstatus, ?_⟩
          show setup.interactive = true ∧ (r.step setup).1.machine.done = false ∧ _
          rw [hmachine]
          simpa [and_assoc] using hpause
        · exact .inl hstatus
  | .asking =>
    obtain ⟨hmachine, hknowledge, hgoes⟩ := Run.answer_eq setup r lines.head?
    refine .answered rfl hmachine hknowledge rfl hgoes ?_
    refine (r.answer_stopped lines.head?).trans ?_
    cases lines with
    | nil => simp [Quits]
    | cons line rest => simp [Quits]

/-- After a step of the program that goes on, the run is not over. -/
theorem ending?_of_goesOn {status : Status} {P : Prop}
    (h : status = .running ∨ status = .asking ∧ P) : status.ending? = none := by
  obtain rfl | ⟨rfl, -⟩ := h <;> rfl

/-- After a command that does not stop the program, the run is not over. -/
theorem ending?_of_answered {status : Status}
    (h : status = .asking ∨ status = .running ∨ status = .over .stopped)
    (hstop : status ≠ .over .stopped) : status.ending? = none := by
  obtain rfl | rfl | rfl := h
  · rfl
  · rfl
  · exact absurd rfl hstop

/-- The path starts where the run stands. -/
theorem path_eq_cons (setup : Setup σ) (n : Nat) (p : Position σ) :
    ∃ rest, p.path setup n = p.run.machine :: rest := by
  induction n generalizing p with
  | zero => exact ⟨[], rfl⟩
  | succ n ih =>
    cases hsteps : p.steps with
    | true =>
      rw [path, if_pos hsteps]
      exact ⟨_, rfl⟩
    | false =>
      -- a turn that is no step leaves the machine as it is
      have hsame : (p.turn setup).run.machine = p.run.machine := by
        cases p.turned setup with
        | ended _ hsame => rw [hsame]
        | finished _ _ _ hmachine => exact hmachine
        | failed hstatus hdone => exact absurd hsteps (by simp [steps, hstatus, hdone])
        | ran hstatus hdone => exact absurd hsteps (by simp [steps, hstatus, hdone])
        | answered _ hmachine => exact hmachine
      rw [path, hsteps, ← hsame]
      exact ih _

/-- The path ends where the run stands after its turns. -/
theorem getLast?_path (n : Nat) (p : Position σ) :
    (p.path setup n).getLast? = some (p.turns setup n).run.machine := by
  induction n generalizing p with
  | zero => rfl
  | succ n ih =>
    have hlast := ih (p.turn setup)
    rw [path, turns, ← hlast]
    split
    · obtain ⟨rest, hrest⟩ := path_eq_cons setup n (p.turn setup)
      rw [hrest, List.getLast?_cons_cons]
    · rfl

variable {p : Position σ}

theorem path_of_steps (h : p.status = .running) (hdone : p.run.machine.done = false) (n : Nat) :
    p.path setup (n + 1) = p.run.machine :: (p.turn setup).path setup n := by
  rw [path, steps, h]
  simp [hdone]

theorem path_of_asking (h : p.status = .asking) (n : Nat) :
    p.path setup (n + 1) = (p.turn setup).path setup n := by
  rw [path, steps, h]
  simp

theorem path_of_done (h : p.status = .running) (hdone : p.run.machine.done = true) (n : Nat) :
    p.path setup (n + 1) = (p.turn setup).path setup n := by
  rw [path, steps, h]
  simp [hdone]

/-! ### The same machines -/

/-- A run that ends by itself has taken the step, if any, that ends the uninterrupted run. -/
theorem path_of_ended (hstatus : p.status = .running) {e : Ending}
    (hover : (p.turn setup).status = .over e) (n : Nat) :
    p.path setup (n + 1) = p.run.machine.path setup.knowledgeBase (n + 1) p.run.knowledge := by
  cases p.turned setup with
  | ended hover' _ => exact absurd hstatus (by simp [hover'])
  | finished _ hdone _ hmachine =>
    rw [path_of_done hstatus hdone, path_of_over hover, hmachine, Machine.path_of_done hdone]
  | failed _ hdone hstep _ hmachine =>
    rw [path_of_steps hstatus hdone, path_of_over hover, hmachine,
      Machine.path_of_failed hdone hstep]
  | ran _ _ _ _ _ _ _ hgoes =>
    exact absurd (ending?_of_goesOn hgoes) (by simp [hover, Status.ending?])
  | answered hasked _ _ _ _ _ => exact absurd hstatus (by simp [hasked])

/-- A run that is not stopped at its end is not stopped now. -/
theorem not_stopped_of_turns {n : Nat} (h : (p.turns setup (n + 1)).status ≠ .over .stopped) :
    (p.turn setup).status ≠ .over .stopped := by
  intro hturn
  rw [turns, turns_of_over hturn] at h
  exact h hturn

/-- The run at the console goes through the machines of the uninterrupted run, one after the
    other. -/
theorem path_isPrefix (n : Nat) (p : Position σ) :
    p.path setup n <+: p.run.machine.path setup.knowledgeBase n p.run.knowledge := by
  induction n generalizing p with
  | zero => exact List.prefix_rfl
  | succ n ih =>
    cases p.turned setup with
    | ended hstatus _ =>
      obtain ⟨rest, hrest⟩ :=
        Machine.path_eq_cons setup.knowledgeBase (n + 1) p.run.machine p.run.knowledge
      rw [path_of_over hstatus, hrest]
      exact ⟨rest, rfl⟩
    | finished hstatus _ hover _ =>
      rewrite [path_of_ended hstatus hover]
      exact List.prefix_rfl
    | failed hstatus _ _ hover _ =>
      rewrite [path_of_ended hstatus hover]
      exact List.prefix_rfl
    | ran hstatus hdone hstep hmachine hknowledge =>
      have hrest := ih (p.turn setup)
      rw [hmachine, hknowledge] at hrest
      rw [path_of_steps hstatus hdone, Machine.path_of_ran hdone hstep]
      exact (List.prefix_cons_inj _).2 hrest
    | answered hstatus hmachine hknowledge =>
      have hrest := ih (p.turn setup)
      rw [hmachine, hknowledge] at hrest
      rw [path_of_asking hstatus]
      exact hrest.trans (Machine.path_isPrefix_succ n _ _)

/-- Unless it is stopped, the run at the console goes through the machines of as many steps as it
    has turns left after all commands. -/
theorem isPrefix_path {n k : Nat} (hk : n + p.lines.length ≤ k)
    (hstop : (p.turns setup k).status ≠ .over .stopped) (hover : p.status.ending? = none) :
    p.run.machine.path setup.knowledgeBase n p.run.knowledge <+: p.path setup k := by
  induction k generalizing n p with
  | zero =>
    obtain rfl : n = 0 := by omega
    exact List.prefix_rfl
  | succ k ih =>
    cases n with
    | zero =>
      obtain ⟨rest, hrest⟩ := path_eq_cons setup (k + 1) p
      exact ⟨rest, hrest.symm⟩
    | succ n =>
      cases p.turned setup with
      | ended hstatus _ => exact absurd hover (by simp [hstatus, Status.ending?])
      | finished hstatus _ hover _ =>
        rw [path_of_ended hstatus hover]
        exact Machine.path_isPrefix_of_le (by omega) _ _
      | failed hstatus _ _ hover _ =>
        rw [path_of_ended hstatus hover]
        exact Machine.path_isPrefix_of_le (by omega) _ _
      | ran hstatus hdone hstep hmachine hknowledge hlines _ hgoes =>
        have hrest := ih (p := p.turn setup) (n := n) (by rw [hlines]; omega) hstop
          (ending?_of_goesOn hgoes)
        rw [hmachine, hknowledge] at hrest
        rw [path_of_steps hstatus hdone, Machine.path_of_ran hdone hstep]
        exact (List.prefix_cons_inj _).2 hrest
      | answered hstatus hmachine hknowledge hlines hgoes hquit =>
        -- the command was not the last one, and it has used up a turn and a line
        have hgoes' : (p.turn setup).status ≠ .over .stopped := not_stopped_of_turns hstop
        have hcons : p.lines ≠ [] := fun hnil => hgoes' (hquit.2 (.inl hnil))
        have hlength : 0 < p.lines.length := List.length_pos_iff.2 hcons
        have hrest := ih (p := p.turn setup) (n := n + 1)
          (by rw [hlines, List.length_tail]; omega) hstop (ending?_of_answered hgoes hgoes')
        rw [hmachine, hknowledge] at hrest
        rw [path_of_asking hstatus]
        exact hrest

/-! ### The same ending -/

/-- Unless it is stopped, a run at the console that is over has taken the whole path of the
    uninterrupted run, and has ended in the same way. -/
theorem finished_of_over {n : Nat} {e : Ending} (h : (p.turns setup n).status = .over e)
    (he : e ≠ .stopped) (hover : p.status.ending? = none) :
    p.path setup n = p.run.machine.path setup.knowledgeBase n p.run.knowledge ∧
      ¬(p.run.machine.runFor setup.knowledgeBase n p.run.knowledge).Unfinished ∧
      (p.run.machine.runFor setup.knowledgeBase n p.run.knowledge).machine =
        (p.turns setup n).run.machine ∧
      (p.run.machine.runFor setup.knowledgeBase n p.run.knowledge).fault = e.fault? := by
  induction n generalizing p with
  | zero =>
    have hstatus : p.status = .over e := h
    exact absurd hover (by simp [hstatus, Status.ending?])
  | succ n ih =>
    cases p.turned setup with
    | ended hstatus _ => exact absurd hover (by simp [hstatus, Status.ending?])
    | finished hstatus hdone hover' hmachine =>
      have hnil : p.run.machine.stack = [] := by simpa [Machine.done] using hdone
      rw [turns, turns_of_over hover', hover'] at h
      obtain rfl : Ending.finished = e := Status.over.inj h
      rw [path_of_ended hstatus hover', turns, turns_of_over hover', Machine.runFor,
        Machine.runFrom_nil hnil, hmachine]
      exact ⟨rfl, fun hunfinished => hunfinished.2 hnil, rfl, rfl⟩
    | failed hstatus hdone hstep hover' hmachine =>
      rename_i fault
      have hne : p.run.machine.stack ≠ [] := Machine.done_eq_false.1 hdone
      rw [turns, turns_of_over hover', hover'] at h
      obtain rfl : Ending.failed fault = e := Status.over.inj h
      rw [path_of_ended hstatus hover', turns, turns_of_over hover', Machine.runFor,
        Machine.runFrom_failed hne hstep, hmachine]
      exact ⟨rfl, fun hunfinished => absurd hunfinished.1 (by simp), rfl, rfl⟩
    | ran hstatus hdone hstep hmachine hknowledge _ _ hgoes =>
      have hne : p.run.machine.stack ≠ [] := Machine.done_eq_false.1 hdone
      obtain ⟨hpath, hfinished, hlast, hfault⟩ := ih h (ending?_of_goesOn hgoes)
      rw [hmachine, hknowledge] at hpath hfinished hlast hfault
      rw [path_of_steps hstatus hdone, hpath, Machine.path_of_ran hdone hstep, Machine.runFor,
        Machine.runFrom_succ hne hstep, Machine.runFrom_eq_append]
      exact ⟨rfl, hfinished, hlast, hfault⟩
    | answered hstatus hmachine hknowledge _ hgoes _ =>
      have hgoes' : (p.turn setup).status ≠ .over .stopped := by
        refine not_stopped_of_turns (n := n) ?_
        rw [h]
        exact fun hstopped => he (Status.over.inj hstopped)
      obtain ⟨hpath, hfinished, hlast, hfault⟩ := ih h (ending?_of_answered hgoes hgoes')
      rw [hmachine, hknowledge] at hpath hfinished hlast hfault
      -- the turn was no step, so the uninterrupted run has one more than it needs
      have hmore : p.run.machine.runFor setup.knowledgeBase (n + 1) p.run.knowledge =
          p.run.machine.runFor setup.knowledgeBase n p.run.knowledge :=
        Machine.runFrom_add_of_finished hfinished 1
      rw [path_of_asking hstatus, hpath, Machine.path_succ_of_finished hfinished, hmore]
      exact ⟨rfl, hfinished, hlast, hfault⟩

/-- If the uninterrupted run ends, so does the run at the console: there are only so many commands
    that can hold it up. -/
theorem over_of_finished {n k : Nat}
    (h : ¬(p.run.machine.runFor setup.knowledgeBase n p.run.knowledge).Unfinished)
    (hk : n + p.lines.length < k) : ∃ e, (p.turns setup k).status = .over e := by
  induction k generalizing n p with
  | zero => omega
  | succ k ih =>
    rw [turns]
    cases p.turned setup with
    | ended hstatus hsame =>
      rw [hsame, turns_of_over hstatus]
      exact ⟨_, hstatus⟩
    | finished _ _ hover _ =>
      rw [turns_of_over hover]
      exact ⟨_, hover⟩
    | failed _ _ _ hover _ =>
      rw [turns_of_over hover]
      exact ⟨_, hover⟩
    | ran _ hdone hstep hmachine hknowledge hlines _ _ =>
      have hne : p.run.machine.stack ≠ [] := Machine.done_eq_false.1 hdone
      cases n with
      | zero => exact absurd ⟨rfl, hne⟩ h
      | succ n =>
        rw [Machine.runFor, Machine.runFrom_succ hne hstep, Machine.runFrom_eq_append] at h
        refine ih (n := n) ?_ (by rw [hlines]; omega)
        rw [hmachine, hknowledge]
        exact h
    | answered _ hmachine hknowledge hlines _ hquit =>
      by_cases hnil : p.lines = []
      · have hturn := hquit.2 (.inl hnil)
        rw [turns_of_over hturn]
        exact ⟨_, hturn⟩
      · have hlength : 0 < p.lines.length := List.length_pos_iff.2 hnil
        refine ih (n := n) ?_ (by rw [hlines, List.length_tail]; omega)
        rw [hmachine, hknowledge]
        exact h

/-! ### When commands are asked for -/

/-- A command is asked for only if that is wanted, and while the program is not done. -/
def Sound (setup : Setup σ) (p : Position σ) : Prop :=
  p.status = .asking → setup.interactive = true ∧ p.run.machine.done = false

theorem sound_turn (h : p.Sound setup) : (p.turn setup).Sound setup := by
  intro hasking
  cases p.turned setup with
  | ended _ hsame =>
    rw [hsame] at hasking ⊢
    exact h hasking
  | finished _ _ hover _ => exact absurd hasking (by simp [hover])
  | failed _ _ _ hover _ => exact absurd hasking (by simp [hover])
  | ran _ _ _ _ _ _ _ hgoes =>
    obtain hrunning | ⟨-, hinteractive, hdone, -⟩ := hgoes
    · exact absurd hasking (by simp [hrunning])
    · exact ⟨hinteractive, hdone⟩
  | answered hstatus hmachine _ _ _ _ =>
    -- nothing has changed since the last time a command was asked for
    rw [hmachine]
    exact h hstatus

theorem sound_turns (h : p.Sound setup) (n : Nat) : (p.turns setup n).Sound setup := by
  induction n generalizing p with
  | zero => exact h
  | succ n ih => exact ih (sound_turn h)

/-- A run is stopped only by the command to quit, or because there are no more commands. -/
theorem exists_asking_of_stopped {n : Nat} (h : (p.turns setup n).status = .over .stopped)
    (hover : p.status.ending? = none) :
    ∃ k < n, (p.turns setup k).status = .asking ∧ Quits (p.turns setup k).lines := by
  induction n generalizing p with
  | zero =>
    have hstatus : p.status = .over .stopped := h
    exact absurd hover (by simp [hstatus, Status.ending?])
  | succ n ih =>
    -- later on is where the run was stopped, unless it was stopped right now
    have hlater : (p.turn setup).status.ending? = none →
        ∃ k < n + 1, (p.turns setup k).status = .asking ∧ Quits (p.turns setup k).lines := by
      intro hover
      obtain ⟨k, hk, hasking⟩ := ih h hover
      exact ⟨k + 1, by omega, hasking⟩
    cases p.turned setup with
    | ended hstatus _ => exact absurd hover (by simp [hstatus, Status.ending?])
    | finished _ _ hover' _ =>
      rw [turns, turns_of_over hover', hover'] at h
      exact absurd h (by simp)
    | failed _ _ _ hover' _ =>
      rw [turns, turns_of_over hover', hover'] at h
      exact absurd h (by simp)
    | ran _ _ _ _ _ _ _ hgoes => exact hlater (ending?_of_goesOn hgoes)
    | answered hstatus _ _ _ hgoes hquit =>
      by_cases hturn : (p.turn setup).status = .over .stopped
      · exact ⟨0, by omega, hstatus, hquit.1 hturn⟩
      · exact hlater (ending?_of_answered hgoes hturn)

/-- If no commands are asked for, every turn is a step. -/
theorem path_eq (hinteractive : setup.interactive = false) (n : Nat) (h : p.status = .running) :
    p.path setup n = p.run.machine.path setup.knowledgeBase n p.run.knowledge := by
  induction n generalizing p with
  | zero => rfl
  | succ n ih =>
    cases p.turned setup with
    | ended hstatus _ => exact absurd hstatus (by simp [h])
    | finished hstatus _ hover _ => exact path_of_ended hstatus hover n
    | failed hstatus _ _ hover _ => exact path_of_ended hstatus hover n
    | ran hstatus hdone hstep hmachine hknowledge _ _ hgoes =>
      obtain hrunning | ⟨-, hasks, -⟩ := hgoes
      · rw [path_of_steps hstatus hdone, Machine.path_of_ran hdone hstep, ih hrunning, hmachine,
          hknowledge]
      · exact absurd hasks (by simp [hinteractive])
    | answered hstatus _ _ _ _ _ => exact absurd hstatus (by simp [h])

/-- After a step, a command is asked for because of a breakpoint or because the session goes step by
    step. -/
theorem stepping_or_breakpoint (hstatus : p.status = .running)
    (hasking : (p.turn setup).status = .asking) :
    p.run.stepping = true ∨
      ∃ f below, p.run.machine.stack = f :: below ∧ f.stmt.head = .breakpoint := by
  cases p.turned setup with
  | ended hover _ => exact absurd hstatus (by simp [hover])
  | finished _ _ hover _ => exact absurd hasking (by simp [hover])
  | failed _ _ _ hover _ => exact absurd hasking (by simp [hover])
  | ran _ hdone hstep _ _ _ _ hgoes =>
    obtain hrunning | ⟨-, -, -, hpaused | hstepping⟩ := hgoes
    · exact absurd hasking (by simp [hrunning])
    · obtain ⟨f, below, hstack⟩ := List.exists_cons_of_ne_nil (Machine.done_eq_false.1 hdone)
      exact .inr ⟨f, below, hstack, (Machine.goesOn_eq_false hstack hstep).1 hpaused⟩
    · exact .inl hstepping
  | answered hasked _ _ _ _ _ => exact absurd hstatus (by simp [hasked])

end Position

/-! ### Transparency -/

/-- A run at the console beside the uninterrupted run from the same machine. -/
structure Transparent (setup : Setup σ) (r : Run σ) (lines : List String) : Prop where
  /-- The run at the console arrives at the last machine of its path. -/
  arrives : ∀ n, (Position.path setup n ⟨r, .running, lines⟩).getLast? =
    some (r.drive setup n .running lines).1.machine
  /-- So does the uninterrupted run. -/
  arrivesAlone : ∀ n, (r.machine.path setup.knowledgeBase n r.knowledge).getLast? =
    some (r.machine.runFor setup.knowledgeBase n r.knowledge).machine
  /-- The run at the console goes through the machines of the uninterrupted run. -/
  goesAlong : ∀ n, Position.path setup n ⟨r, .running, lines⟩ <+:
    r.machine.path setup.knowledgeBase n r.knowledge
  /-- Unless it is stopped, it goes through all of them, held up by one turn for each command. -/
  goesOn : ∀ n, (r.drive setup (n + lines.length) .running lines).2 ≠ some .stopped →
    r.machine.path setup.knowledgeBase n r.knowledge <+:
      Position.path setup (n + lines.length) ⟨r, .running, lines⟩
  /-- Unless it is stopped, it ends as the uninterrupted run does: after the same machines, and with
      the same fault. -/
  endsAlike : ∀ n r' e, r.drive setup n .running lines = (r', some e) → e ≠ .stopped →
    Position.path setup n ⟨r, .running, lines⟩ =
        r.machine.path setup.knowledgeBase n r.knowledge ∧
      ∃ res, r.machine.Ends setup.knowledgeBase r.knowledge res ∧ res.machine = r'.machine ∧
        res.fault = e.fault?
  /-- It ends if the uninterrupted run does. -/
  endsToo : ∀ res, r.machine.Ends setup.knowledgeBase r.knowledge res →
    ∃ n r' e, r.drive setup n .running lines = (r', some e)
  /-- It is stopped where a command is asked for: by the command to quit, or if there is none. -/
  stops : ∀ n r', r.drive setup n .running lines = (r', some .stopped) →
    ∃ k < n, ∃ q, Position.turns setup k ⟨r, .running, lines⟩ = q ∧ q.status = .asking ∧
      Quits q.lines
  /-- If no commands are asked for, each turn is a step and the run is never stopped. -/
  alone : setup.interactive = false → ∀ n,
    Position.path setup n ⟨r, .running, lines⟩ =
        r.machine.path setup.knowledgeBase n r.knowledge ∧
      (r.drive setup n .running lines).2 ≠ some .stopped
  /-- A command is asked for only while the program is not done. -/
  asks : ∀ n q, Position.turns setup n ⟨r, .running, lines⟩ = q → q.status = .asking →
    q.run.machine.done = false
  /-- After a step, this happens only if it was a breakpoint or the session goes step by step. -/
  asksAfter : ∀ n q, Position.turns setup n ⟨r, .running, lines⟩ = q → q.status = .running →
    (q.turn setup).status = .asking → q.run.stepping = true ∨
      ∃ f below, q.run.machine.stack = f :: below ∧ f.stmt.head = .breakpoint

/-- Commands do not disturb a run, whatever is typed: unless it is stopped, a run at the console
    goes through the machines of the uninterrupted run and ends in the same way. The fault it ends
    with is the one that is reported. -/
theorem console_is_transparent (setup : Setup σ) (r : Run σ) (lines : List String) :
    Transparent setup r lines ∧
      ∀ (r' : Run Store) (e : Ending), (Job.conclude r' (some e)).fault = e.fault?.map .run := by
  have hdrive := fun n => drive_eq_turns setup n r .running lines
  have hsound : Position.Sound setup ⟨r, .running, lines⟩ := fun h => absurd h (by simp)
  have hover : ∀ n e, (r.drive setup n .running lines).2 = some e →
      (Position.turns setup n ⟨r, .running, lines⟩).status = .over e := by
    intro n e h
    rw [hdrive] at h
    exact Status.eq_over h
  refine ⟨?_, fun r' e => by cases e <;> rfl⟩
  constructor
  case arrives =>
    intro n
    rw [Position.getLast?_path, hdrive]
  case arrivesAlone => exact fun n => Machine.getLast?_path n _ _
  case goesAlong => exact fun n => Position.path_isPrefix n _
  case goesOn =>
    intro n hstop
    refine Position.isPrefix_path (p := ⟨r, .running, lines⟩) (Nat.le_refl _) ?_ rfl
    intro hstopped
    rw [hdrive, hstopped] at hstop
    exact hstop rfl
  case endsAlike =>
    intro n r' e h he
    obtain ⟨hpath, hfinished, hmachine, hfault⟩ :=
      Position.finished_of_over (hover n e (by rw [h])) he rfl
    have hlast : (Position.turns setup n ⟨r, .running, lines⟩).run = r' := by
      rw [hdrive] at h
      exact (Prod.mk.inj h).1
    exact ⟨hpath, _, ⟨hfinished, n, rfl⟩, hlast ▸ hmachine, hfault⟩
  case endsToo =>
    rintro res ⟨hfinished, n, rfl⟩
    obtain ⟨e, he⟩ := Position.over_of_finished (p := ⟨r, .running, lines⟩) hfinished
      (Nat.lt_succ_self (n + lines.length))
    exact ⟨_, _, e, by rw [hdrive, he]; rfl⟩
  case stops =>
    intro n r' h
    obtain ⟨k, hk, hasking, hquit⟩ :=
      Position.exists_asking_of_stopped (hover n .stopped (by rw [h])) rfl
    exact ⟨k, hk, _, rfl, hasking, hquit⟩
  case alone =>
    intro hinteractive n
    refine ⟨Position.path_eq hinteractive n rfl, fun hstopped => ?_⟩
    obtain ⟨k, -, hasking, -⟩ := Position.exists_asking_of_stopped (hover n .stopped hstopped) rfl
    exact absurd (Position.sound_turns hsound k hasking).1 (by simp [hinteractive])
  case asks =>
    rintro n q rfl hasking
    exact (Position.sound_turns hsound n hasking).2
  case asksAfter =>
    rintro n q rfl hrunning hasking
    exact Position.stepping_or_breakpoint hrunning hasking

end Console

end ObjectMachine
