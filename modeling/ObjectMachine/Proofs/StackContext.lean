import ObjectMachine.Proofs.Aftermath

namespace ObjectMachine

/-!
# What lies beneath makes no difference

A step looks at the frame on top, and at its caller if it returns. So the frames on top of a stack,
as long as their callers are among them, run as they would run alone, and what lies beneath them is
left as it is:

* `Machine.above` — the machine with further frames beneath its own;
* `Machine.SelfContained`, `Machine.ApartFrom` — the callers are among the own frames, and none of
  these is one of the frames beneath;
* `Machine.step_above`, `Machine.advance_above` — one step, and any number of steps, with and
  without frames beneath;
* `Machine.push_eq_above` — scheduling a frame on a stack and on an empty one;
* `stack_context_independence` — all of it, for every machine and everything beneath it.
-/

/-- The caller of `f` is none of the frames beneath. -/
def Frame.CallerOutside (f : Frame) (beneath : List Frame) : Prop :=
  ∀ r, f.caller = some r → ∀ b ∈ beneath, b.key ≠ r.key

/-- Frames that are not the caller make no difference to who the caller is. -/
theorem Frame.CallerOutside.callerIn_append {f : Frame} {beneath : List Frame}
    (h : f.CallerOutside beneath) (below : List Frame) :
    f.callerIn (below ++ beneath) = f.callerIn below := by
  unfold callerIn
  cases hc : f.caller with
  | none => rfl
  | some r =>
    have hnone : beneath.find? (fun g => decide (g.key = r.key)) = none := by
      refine List.find?_eq_none.2 fun b hb => ?_
      simpa using h r hc b hb
    simp only [List.find?_append, hnone, Option.or_none]

namespace Machine

variable {σ : Type} {kb : Option (KnowledgeBase σ)}

/-- The machine with further frames beneath its own. -/
def above (m : Machine) (beneath : List Frame) : Machine :=
  { m with stack := m.stack ++ beneath }

/-! ### Effects -/

theorem proceed_above (m : Machine) (beneath : List Frame) (f : Frame) (next : Option Stmt) :
    (m.above beneath).proceed f next = (m.proceed f next).above beneath := by
  cases next <;> rfl

/-- A frame that is found among the own frames is taken off there. -/
theorem unschedule_above {m : Machine} {g : Frame} (hg : g ∈ m.stack) (beneath : List Frame) :
    (m.above beneath).unschedule g.key = (m.unschedule g.key).above beneath := by
  have herase : (m.stack ++ beneath).eraseP (fun f => decide (f.key = g.key)) =
      m.stack.eraseP (fun f => decide (f.key = g.key)) ++ beneath :=
    List.eraseP_append_left (by simp) beneath hg
  unfold unschedule above
  simp only [herase]

/-- An effect is carried out above what lies beneath, provided that a caller it resumes does not
    lie there. -/
theorem perform_above (m : Machine) (beneath : List Frame) (f : Frame) (rest : Option Stmt)
    {e : Effect} (he : ∀ g r, e = .resume g r → g ∈ m.stack) :
    (m.above beneath).perform f rest e = (m.perform f rest e).above beneath := by
  cases hstays : e.stays with
  | true =>
    rw [perform_of_stays hstays, perform_of_stays hstays]
    exact proceed_above { m with heap := e.heapAfter m.heap } beneath _ _
  | false =>
    cases e with
    | invoke target callee body locals => rfl
    | resume g r =>
      have hg : g ∈ (m.retire f).stack := he g r rfl
      show (((m.retire f).above beneath).unschedule g.key).proceed g r = _
      rw [unschedule_above hg, proceed_above]
      rfl
    | _ => exact absurd hstays (by simp [Effect.stays])

/-! ### One step -/

/-- Beyond the frame on top, its effect depends on the classes, on the heap and on the caller. -/
theorem effectOf_above {f : Frame} {beneath : List Frame} (hf : f.CallerOutside beneath)
    (m : Machine) (below : List Frame) (s : σ) :
    (m.above beneath).effectOf kb f (below ++ beneath) s = m.effectOf kb f below s := by
  have hintent : (m.above beneath).intentOf f (below ++ beneath) = m.intentOf f below := by
    rw [intentOf, intentOf, hf.callerIn_append]
    rfl
  have hresolve : ∀ i, (m.above beneath).resolve kb s i = m.resolve kb s i := by
    intro i
    cases i <;> rfl
  rw [effectOf, effectOf, hintent]
  cases m.intentOf f below with
  | error fault => rfl
  | ok p => exact hresolve p.1

/-- A step with frames beneath that are no callers is the step without them: it ends, prints and
    asks the same, and leaves these frames where they are. -/
theorem step_above {m : Machine} {beneath : List Frame} (hne : m.stack ≠ [])
    (hout : ∀ f ∈ m.stack, f.CallerOutside beneath) (s : σ) :
    (m.above beneath).step kb s =
      { m.step kb s with machine := (m.step kb s).machine.above beneath } := by
  obtain ⟨f, below, hm⟩ := List.exists_cons_of_ne_nil hne
  have habove : (m.above beneath).stack = f :: (below ++ beneath) := by
    unfold above
    rw [hm]
    rfl
  by_cases hl : m.limitReached = true
  · rw [step_of_limitReached hm hl, step_of_limitReached habove hl]
  · have hl' : m.limitReached = false := by simpa using hl
    have hf : f.CallerOutside beneath := hout f (hm ▸ List.mem_cons_self)
    rw [step_eq hm hl', step_eq habove hl', effectOf_above hf]
    cases he : m.effectOf kb f below s with
    | mk r s' =>
      cases r with
      | error fault => rfl
      | ok e =>
        -- only a caller that was found among the own frames is resumed
        have hresume : ∀ g r, e = .resume g r → g ∈ (m.running below).stack := by
          rintro g r rfl
          obtain ⟨-, henacts⟩ := enacts_of_effectOf he
          exact Frame.mem_of_callerIn henacts.callerIn_of_resume
        have hrun : (m.above beneath).running (below ++ beneath) =
            (m.running below).above beneath := rfl
        show StepResult.mk (perform _ f f.stmt.tail? e) _ _ _ = _
        rw [hrun, perform_above _ beneath f _ hresume]

/-! ### Any number of steps -/

/-- Every frame has a key that was handed out. -/
def Issued (m : Machine) : Prop :=
  ∀ f ∈ m.stack, f.key ≤ m.lastKey

/-- A frame refers to a caller that a frame referred to before, or to one that was made just
    now. -/
theorem Moves.caller_cases {m m' : Machine} (h : m.Moves m') {f' : Frame} (hf' : f' ∈ m'.stack)
    {r : FrameRef} (hr : f'.caller = some r) :
    (∃ f ∈ m.stack, f.caller = some r) ∨ m.lastKey < r.key := by
  cases h with
  | keep hs hf hk => exact .inl ⟨f', hs ▸ hf', hr⟩
  | clear hs hf =>
    rw [hs] at hf'
    exact absurd hf' List.not_mem_nil
  | push hs hid hkey hc hf hk =>
    rw [hs] at hf'
    rcases List.mem_cons.1 hf' with rfl | hmem
    · rw [hc] at hr
      exact absurd hr (by simp)
    · exact .inl ⟨f', hmem, hr⟩
  | drop hm hs hf hk =>
    rw [hs] at hf'
    exact .inl ⟨f', hm ▸ List.mem_cons_of_mem _ hf', hr⟩
  | @rewrite f _ below hm hs hrep hkey hf hk =>
    rw [hs] at hf'
    rcases List.mem_cons.1 hf' with rfl | hmem
    · exact .inl ⟨f, hm ▸ List.mem_cons_self, hrep.caller ▸ hr⟩
    · exact .inl ⟨f', hm ▸ List.mem_cons_of_mem _ hmem, hr⟩
  | @call f g callee below hm hs hrep hw hkey hc hcid hckey hf hk =>
    rw [hs] at hf'
    rcases List.mem_cons.1 hf' with rfl | hmem
    · -- the caller of a method is the frame that was just made to wait for it
      obtain rfl : g.ref = r := Option.some.inj (hc.symm.trans hr)
      right
      show m.lastKey < g.key
      omega
    · rcases List.mem_cons.1 hmem with rfl | hmem
      · exact .inl ⟨f, hm ▸ List.mem_cons_self, hrep.caller ▸ hr⟩
      · exact .inl ⟨f', hm ▸ List.mem_cons_of_mem _ hmem, hr⟩
  | release hm hg hs hf hk =>
    rw [hs] at hf'
    exact .inl ⟨f', hm ▸ List.mem_cons_of_mem _ (List.mem_of_mem_eraseP hf'), hr⟩
  | @resume f g _ below hm hg hs hrep hl hkey hf hk =>
    rw [hs] at hf'
    rcases List.mem_cons.1 hf' with rfl | hmem
    · have hmem : g ∈ m.stack := hm ▸ List.mem_cons_of_mem _ (Frame.mem_of_callerIn hg)
      exact .inl ⟨g, hmem, hrep.caller ▸ hr⟩
    · exact .inl ⟨f', hm ▸ List.mem_cons_of_mem _ (List.mem_of_mem_eraseP hmem), hr⟩

theorem lastKey_le_proceed (m : Machine) (f : Frame) (next : Option Stmt) :
    m.lastKey ≤ (m.proceed f next).lastKey := by
  cases next with
  | none => exact Nat.le_refl _
  | some s => exact Nat.le_succ _

theorem lastKey_le_perform (m : Machine) (f : Frame) (rest : Option Stmt) (e : Effect) :
    m.lastKey ≤ (m.perform f rest e).lastKey := by
  cases hstays : e.stays with
  | true =>
    rw [perform_of_stays hstays]
    exact lastKey_le_proceed { m with heap := e.heapAfter m.heap } _ _
  | false =>
    cases e with
    | invoke target callee body locals => exact Nat.le_add_right m.lastKey 2
    | resume g r => exact lastKey_le_proceed ((m.retire f).unschedule g.key) g r
    | _ => exact absurd hstays (by simp [Effect.stays])

/-- Keys are only ever handed out. -/
theorem lastKey_le_step (m : Machine) (s : σ) : m.lastKey ≤ (m.step kb s).machine.lastKey := by
  rcases step_cases kb m s with h | ⟨f, below, -, h | ⟨e, s', -, -, h⟩⟩
  · exact Nat.le_of_eq (congrArg lastKey h.symm)
  · rw [h]
    exact Nat.le_refl m.lastKey
  · rw [h]
    exact lastKey_le_perform (m.running below) f f.stmt.tail? e

/-- Frames that are no callers do not become callers. -/
theorem callerOutside_step {m : Machine} {beneath : List Frame}
    (hout : ∀ f ∈ m.stack, f.CallerOutside beneath) (hissued : ∀ b ∈ beneath, b.key ≤ m.lastKey)
    (s : σ) : ∀ f ∈ (m.step kb s).machine.stack, f.CallerOutside beneath := by
  intro f' hf' r hr b hb heq
  rcases (moves_step m s).caller_cases hf' hr with ⟨f, hf, hfr⟩ | hlt
  · exact hout f hf r hfr b hb heq
  · have hle := hissued b hb
    omega

/-- For as long as the frames of `m` are not done, steps with the frames `beneath` end and print as
    they do without them, leave the knowledge base in the same state, and leave the machine they
    leave without them, above exactly these frames. -/
def RunsAbove (kb : Option (KnowledgeBase σ)) (s : σ) (m : Machine) (beneath : List Frame) :
    Prop :=
  ∀ n, (∀ k < n, (m.advance kb k s).1.stack ≠ []) →
    (m.above beneath).transcript kb n s = m.transcript kb n s ∧
    (m.above beneath).advance kb n s =
      ((m.advance kb n s).1.above beneath, (m.advance kb n s).2)

theorem advance_above {m : Machine} {beneath : List Frame}
    (hout : ∀ f ∈ m.stack, f.CallerOutside beneath) (hissued : ∀ b ∈ beneath, b.key ≤ m.lastKey)
    (s : σ) : m.RunsAbove kb s beneath := by
  intro n
  induction n generalizing m s with
  | zero => exact fun _ => ⟨rfl, rfl⟩
  | succ n ih =>
    intro hbusy
    have hne : m.stack ≠ [] := hbusy 0 (Nat.succ_pos n)
    have hstep : (m.above beneath).step kb s =
        { m.step kb s with machine := (m.step kb s).machine.above beneath } := step_above hne hout s
    have hissued' : ∀ b ∈ beneath, b.key ≤ (m.step kb s).machine.lastKey :=
      fun b hb => Nat.le_trans (hissued b hb) (lastKey_le_step m s)
    have hbusy' : ∀ k < n,
        ((m.step kb s).machine.advance kb k (m.step kb s).knowledge).1.stack ≠ [] :=
      fun k hk => hbusy (k + 1) (Nat.succ_lt_succ hk)
    obtain ⟨htranscript, hadvance⟩ :=
      ih (callerOutside_step hout hissued s) hissued' (m.step kb s).knowledge hbusy'
    constructor
    · rw [transcript, transcript, hstep]
      exact congrArg (_ :: ·) htranscript
    · rw [advance, advance, hstep]
      exact hadvance

/-! ### Frames on top and frames beneath -/

/-- The caller of every frame is one of the frames of the machine. -/
def SelfContained (m : Machine) : Prop :=
  ∀ f ∈ m.stack, ∀ r, f.caller = some r → ∃ g ∈ m.stack, g.ref = r

/-- None of the frames beneath is a frame of the machine. -/
def ApartFrom (m : Machine) (beneath : List Frame) : Prop :=
  ∀ b ∈ beneath, ∀ f ∈ m.stack, b.key ≠ f.key

theorem SelfContained.callerOutside {m : Machine} (h : m.SelfContained) {beneath : List Frame}
    (hapart : m.ApartFrom beneath) : ∀ f ∈ m.stack, f.CallerOutside beneath := by
  intro f hf r hr b hb heq
  obtain ⟨g, hg, rfl⟩ := h f hf r hr
  exact hapart b hb g hg heq

/-- Scheduling a frame on a stack is scheduling it on an empty one, above that stack. -/
theorem push_eq_above (m : Machine) (stmt : Stmt) (owner : Value) (locals : Memory) :
    m.push stmt owner locals =
      (push { m with stack := [] } stmt owner locals).map
        fun p => (p.1, p.2.above m.stack) := by
  unfold push
  split
  · rfl
  · rfl

/-- A frame that was just scheduled runs above whatever it was put on. -/
theorem runsAbove_of_push {m alone : Machine} (hissued : m.Issued) {stmt : Stmt} {owner : Value}
    {locals : Memory} {f : Frame}
    (h : push { m with stack := [] } stmt owner locals = .ok (f, alone)) (s : σ) :
    alone.RunsAbove kb s m.stack := by
  unfold push at h
  split at h
  · obtain ⟨rfl, rfl⟩ : _ = f ∧ _ = alone := by simpa using h
    refine advance_above (fun g hg r hr => ?_) (fun b hb => ?_) s
    · -- a frame that is scheduled from outside has no caller
      obtain rfl := List.mem_singleton.1 hg
      exact absurd hr (by simp)
    · exact Nat.le_succ_of_le (hissued b hb)
  · simp at h

end Machine

/-- Let the callers of the frames on top be among these frames, and let other frames lie beneath.
    Then a step is the step of the frames on top alone: it ends and prints the same, and leaves
    the machine that it leaves alone, above exactly the frames beneath. So is any number of steps,
    until the frames on top are done. In particular a frame that is scheduled on any stack has the
    fate it has on an empty one, and when it is done the stack is what it was. -/
theorem stack_context_independence {σ : Type} (kb : Option (KnowledgeBase σ)) (s : σ) :
    (∀ (m : Machine) (beneath : List Frame), m.stack ≠ [] → m.SelfContained →
      m.ApartFrom beneath →
      (m.above beneath).step kb s =
        { m.step kb s with machine := (m.step kb s).machine.above beneath }) ∧
    (∀ (m : Machine) (beneath : List Frame), m.SelfContained → m.ApartFrom beneath →
      (m.above beneath).Issued → m.RunsAbove kb s beneath) ∧
    (∀ (m : Machine) (stmt : Stmt) (owner : Value) (locals : Memory), m.Issued →
      m.push stmt owner locals =
        (Machine.push { m with stack := [] } stmt owner locals).map
          (fun p => (p.1, p.2.above m.stack)) ∧
      ∀ f alone, Machine.push { m with stack := [] } stmt owner locals = .ok (f, alone) →
        alone.RunsAbove kb s m.stack) := by
  refine ⟨?_, ?_, ?_⟩
  · intro m beneath hne hself hapart
    exact Machine.step_above hne (hself.callerOutside hapart) s
  · intro m beneath hself hapart hissued
    refine Machine.advance_above (hself.callerOutside hapart) (fun b hb => ?_) s
    exact hissued b (List.mem_append_right _ hb)
  · intro m stmt owner locals hissued
    refine ⟨m.push_eq_above stmt owner locals, fun f alone h => ?_⟩
    exact Machine.runsAbove_of_push hissued h s

/-- A method about to return to its caller, above a frame of another program; and one more frame
    on top of the two. -/
theorem stack_context_independence_of_call :
    let owner : Value := .ref "obj1" "C"
    let waiting : Frame := ⟨1, 4, .seq (.storeReturn (some (.var "x"))) .skip, ∅, owner, none⟩
    let method : Frame := ⟨2, 5, .ret (.lit .null), ∅, owner, some ⟨1, 4⟩⟩
    let other : Frame := ⟨3, 2, .breakpoint, ∅, owner, none⟩
    let heap : Heap := Heap.insert ⟨1, ∅⟩ ⟨"obj1", "C"⟩ ∅
    let m : Machine :=
      { Machine.new ∅ heap 0 with stack := [method, waiting], lastFrame := 3, lastKey := 5 }
    let kb : Option (KnowledgeBase Unit) := none
    (m.stack ≠ [] ∧ m.SelfContained ∧ m.ApartFrom [other] ∧ (m.above [other]).Issued ∧ m.Issued) ∧
      (m.above [other]).step kb () =
        { m.step kb () with machine := (m.step kb ()).machine.above [other] } ∧
      m.RunsAbove kb () [other] ∧
      ∃ f alone, Machine.push { m with stack := [] } .skip owner ∅ = .ok (f, alone) ∧
        m.push .skip owner ∅ = .ok (f, alone.above m.stack) ∧ alone.RunsAbove kb () m.stack := by
  intro owner waiting method other heap m kb
  have hne : m.stack ≠ [] := by simp [m]
  have hself : m.SelfContained := by
    intro f hf r hr
    obtain rfl | rfl : f = method ∨ f = waiting := by simpa [m] using hf
    · exact ⟨waiting, by simp [m], Option.some.inj hr⟩
    · exact absurd hr (by simp [waiting])
  have hapart : m.ApartFrom [other] := by
    simp [Machine.ApartFrom, m, other, method, waiting]
  have hissued : (m.above [other]).Issued := by
    simp [Machine.Issued, Machine.above, m, other, method, waiting]
  have hissued' : m.Issued := by simp [Machine.Issued, m, method, waiting]
  obtain ⟨hstep, hrun, hpush⟩ := stack_context_independence kb ()
  obtain ⟨heq, habove⟩ := hpush m .skip owner ∅ hissued'
  have halone : Machine.push { m with stack := [] } .skip owner ∅ = .ok _ :=
    if_pos (heap.contains_insert_self ⟨"obj1", "C"⟩ ∅)
  exact ⟨⟨hne, hself, hapart, hissued, hissued'⟩, hstep m [other] hne hself hapart,
    hrun m [other] hself hapart hissued, _, _, halone, by rw [heq, halone]; rfl, habove _ _ halone⟩

end ObjectMachine
