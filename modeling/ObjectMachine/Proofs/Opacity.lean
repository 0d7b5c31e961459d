import ObjectMachine.Proofs.Naming
import ObjectMachine.Proofs.Renaming

namespace ObjectMachine

/-!
# Names of objects are opaque

Without a knowledge base a program cannot find out what its objects are called. If references were
handed out before it was started, its objects have other names, and that is the only difference:

* `Renaming.machine` — a machine with all its objects renamed;
* `Renaming.step_machine` — a step commutes with renaming;
* `Renaming.advance_machine` — and so does any number of steps;
* `Renaming.shift` — the renaming that shifts the numbers in names;
* `object_names_are_opaque` — references that were handed out before make no other difference.
-/

/-! ### Machines -/

namespace Machine

variable {σ : Type}

/-- Without a knowledge base a frame does what its head does. -/
theorem effectOf_none (m : Machine) (f : Frame) (below : List Frame) (s : σ) :
    m.effectOf none f below s =
      (if m.heap.contains f.owner then
        f.stmt.head.attempt m.classes (m.scopeOf f) (f.callerIn below)
      else .error (.unknownObject f.owner), s) := by
  by_cases howner : m.heap.contains f.owner = true
  · rw [effectOf_eq_head howner, if_pos howner, Stmt.attempt]
    cases f.stmt.head.intent m.classes (m.scopeOf f) (f.callerIn below) with
    | error fault => rfl
    | ok p =>
      obtain ⟨i, rest⟩ := p
      cases i <;> rfl
  · rw [effectOf, intentOf, if_neg howner, if_neg howner]

end Machine

namespace Renaming

variable (ρ : Renaming)

/-- The fault of a step with all values it mentions renamed. -/
def stepFault : StepFault → StepFault
  | .limit => .limit
  | .frame id cause => .frame id (ρ.fault cause)

/-- How the step of a renamed machine ends. -/
def outcome : Outcome → Outcome
  | .failed fault => .failed (ρ.stepFault fault)
  | o => o

@[simp] theorem category?_stepFault (fault : StepFault) :
    (ρ.stepFault fault).category? = fault.category? := by
  cases fault with
  | limit => rfl
  | frame id cause => exact ρ.category?_fault cause

@[simp] theorem goesOn_outcome (o : Outcome) : (ρ.outcome o).goesOn = o.goesOn := by
  cases o <;> rfl

/-- A step of the renamed machine fails exactly if the step does, and in the same category. -/
theorem category?_outcome (o : Outcome) :
    (ρ.outcome o).fault?.map StepFault.category? = o.fault?.map StepFault.category? := by
  cases o with
  | failed fault => exact congrArg some (ρ.category?_stepFault fault)
  | _ => rfl

/-- The machine with all its objects renamed: on the heap, in variables, as owners and in what is
    left to run. -/
def machine (m : Machine) : Machine :=
  { m with
    heap := ρ.heap m.heap
    stack := m.stack.map ρ.frame
    retired := m.retired.map fun e => (e.1, ρ.memory e.2) }

theorem callerIn_frame (f : Frame) (below : List Frame) :
    (ρ.frame f).callerIn (below.map ρ.frame) = ρ.caller (f.callerIn below) := by
  have hcaller : (ρ.frame f).caller = f.caller := rfl
  rw [Frame.callerIn, Frame.callerIn, hcaller]
  cases f.caller with
  | none => rfl
  | some r =>
    -- callers are found by their keys, which have nothing to do with objects
    have hkey : ((fun g : Frame => decide (g.key = r.key)) ∘ ρ.frame) =
        fun g => decide (g.key = r.key) := rfl
    simp only [List.find?_map, hkey]
    cases below.find? fun g => decide (g.key = r.key) <;> rfl

variable {σ : Type} {m : Machine}

/-- The effect of the top frame of a renamed machine. -/
theorem effectOf_machine (hclasses : m.classes.RefFree) (f : Frame) (below : List Frame) (s : σ) :
    (ρ.machine m).effectOf none (ρ.frame f) (below.map ρ.frame) s =
      (ρ.result ρ.effect (m.effectOf none f below s).1, s) := by
  have howner : (ρ.machine m).heap.contains (ρ.frame f).owner = m.heap.contains f.owner :=
    ρ.contains_heap m.heap f.owner
  have hscope : (ρ.machine m).scopeOf (ρ.frame f) = ρ.scope (m.scopeOf f) := rfl
  have hhead : (ρ.frame f).stmt.head = ρ.stmt f.stmt.head := ρ.head_stmt f.stmt
  rw [Machine.effectOf_none, Machine.effectOf_none, howner, hscope, hhead, callerIn_frame]
  split
  · exact Prod.ext (ρ.attempt_stmt hclasses _ f.stmt.isSeq_head) rfl
  · rfl

theorem proceed_machine (m : Machine) (f : Frame) (next : Option Stmt) :
    (ρ.machine m).proceed (ρ.frame f) (next.map ρ.stmt) = ρ.machine (m.proceed f next) := by
  cases next <;> rfl

theorem unschedule_machine (m : Machine) (key : Nat) :
    (ρ.machine m).unschedule key = ρ.machine (m.unschedule key) := by
  have hkey : ((fun g : Frame => decide (g.key = key)) ∘ ρ.frame) =
      fun g => decide (g.key = key) := rfl
  simp only [Machine.unschedule, machine, List.eraseP_map, hkey]

theorem heapAfter_effect (h : Heap) (e : Effect) :
    (ρ.effect e).heapAfter (ρ.heap h) = ρ.heap (e.heapAfter h) := by
  cases e with
  | setField r name v => exact ρ.heap_setField h r name v
  | create target cls fields => exact congrArg Prod.snd (ρ.heap_create h cls fields)
  | enlist target contents => exact congrArg Prod.snd (ρ.heap_addList h .null contents)
  | _ => rfl

theorem localsAfter_effect (locals : Memory) (e : Effect) :
    (ρ.effect e).localsAfter (ρ.memory locals) = ρ.memory (e.localsAfter locals) := by
  cases e with
  | setLocal name v => exact (ρ.memory_insert locals name v).symm
  | _ => rfl

/-- A new object is named in what comes next, and there it has the renamed name. -/
theorem next_effect (h : Heap) (rest : Option Stmt) (e : Effect) :
    (ρ.effect e).next (ρ.heap h) (rest.map ρ.stmt) = (e.next h rest).map ρ.stmt := by
  cases e with
  | become s => exact congrArg some (ρ.stmt_andThen s rest).symm
  | create target cls fields =>
    have hnew : ((ρ.heap h).create cls (ρ.memory fields)).1 = ρ.ref (h.create cls fields).1 :=
      congrArg Prod.fst (ρ.heap_create h cls fields)
    simp only [effect, Effect.next, hnew, Option.map_some, stmt_andThen]
    rfl
  | enlist target contents =>
    have hnew : ((ρ.heap h).addList .null (contents.map ρ.value)).1 =
        ρ.value (h.addList .null contents).1 :=
      congrArg Prod.fst (ρ.heap_addList h .null contents)
    simp only [effect, Effect.next, hnew, Option.map_some, stmt_andThen]
    rfl
  | invoke target callee body locals =>
    exact congrArg some (ρ.stmt_andThen (.storeReturn target) rest).symm
  | _ => rfl

/-- Renaming commutes with carrying out an effect. -/
theorem perform_machine (m : Machine) (f : Frame) (rest : Option Stmt) (e : Effect) :
    (ρ.machine m).perform (ρ.frame f) (rest.map ρ.stmt) (ρ.effect e) =
      ρ.machine (m.perform f rest e) := by
  -- calls and returns change the stack; everything else happens in the frame and on the heap
  cases hstays : e.stays with
  | true =>
    have hstays' : (ρ.effect e).stays = true := by
      rw [← hstays]
      cases e <;> rfl
    rw [Machine.perform_of_stays hstays, Machine.perform_of_stays hstays']
    show Machine.proceed { ρ.machine m with heap := (ρ.effect e).heapAfter (ρ.heap m.heap) }
      { ρ.frame f with locals := (ρ.effect e).localsAfter (ρ.memory f.locals) }
      ((ρ.effect e).next (ρ.heap m.heap) (rest.map ρ.stmt)) = _
    rw [heapAfter_effect, localsAfter_effect, next_effect]
    exact ρ.proceed_machine { m with heap := e.heapAfter m.heap }
      { f with locals := e.localsAfter f.locals } (e.next m.heap rest)
  | false =>
    cases e with
    | invoke target callee body locals =>
      have hrest := ρ.stmt_andThen (.storeReturn target) rest
      show Machine.spawn (Machine.rewrite _ _ ((ρ.stmt (.storeReturn target)).andThen _)) _ _ _ = _
      rw [← hrest]
      rfl
    | resume g r =>
      show ((ρ.machine (m.retire f)).unschedule g.key).proceed (ρ.frame g) _ = _
      rw [unschedule_machine, proceed_machine]
      rfl
    | _ => exact absurd hstays (by simp [Effect.stays])

/-- One of two steps prints a value and the other one the renamed value, or neither prints
    anything. -/
inductive Prints : String → String → Prop where
  | nothing : Prints "" ""
  | value (v : Value) : Prints (v.text ++ "\n") ((ρ.value v).text ++ "\n")

theorem prints_effect (e : Effect) :
    ρ.Prints (Machine.printedBy e) (Machine.printedBy (ρ.effect e)) := by
  cases e with
  | print v => exact .value v
  | _ => exact .nothing

/-- A step commutes with renaming, and it prints the renamed values. -/
theorem step_machine (hclasses : m.classes.RefFree) (s : σ) :
    ((ρ.machine m).step none s).machine = ρ.machine (m.step none s).machine ∧
      ((ρ.machine m).step none s).knowledge = (m.step none s).knowledge ∧
      ((ρ.machine m).step none s).outcome = ρ.outcome (m.step none s).outcome ∧
      ρ.Prints (m.step none s).printed ((ρ.machine m).step none s).printed := by
  cases hm : m.stack with
  | nil =>
    have hrenamed : (ρ.machine m).stack = [] := by rw [machine, hm]; rfl
    rw [Machine.step_nil hm, Machine.step_nil hrenamed]
    exact ⟨rfl, rfl, rfl, .nothing⟩
  | cons f below =>
    have hrenamed : (ρ.machine m).stack = ρ.frame f :: below.map ρ.frame := by
      rw [machine, hm]
      rfl
    have hlimit : (ρ.machine m).limitReached = m.limitReached := rfl
    cases hl : m.limitReached with
    | true =>
      rw [Machine.step_of_limitReached hm hl,
        Machine.step_of_limitReached hrenamed (hlimit.trans hl)]
      exact ⟨rfl, rfl, rfl, .nothing⟩
    | false =>
      rw [Machine.step_eq hm hl, Machine.step_eq hrenamed (hlimit.trans hl),
        ρ.effectOf_machine hclasses f below s]
      have hstate : (m.effectOf none f below s).2 = s := by rw [Machine.effectOf_none]
      generalize m.effectOf none f below s = p at hstate
      obtain ⟨result, s'⟩ := p
      obtain rfl : s' = s := hstate
      cases result with
      | error fault => exact ⟨rfl, rfl, rfl, .nothing⟩
      | ok e =>
        have hrun : (ρ.machine m).running (below.map ρ.frame) = ρ.machine (m.running below) := rfl
        have htail : (ρ.frame f).stmt.tail? = f.stmt.tail?.map ρ.stmt := ρ.tail?_stmt f.stmt
        refine ⟨?_, rfl, by cases e <;> rfl, ρ.prints_effect e⟩
        show Machine.perform _ _ _ _ = _
        rw [hrun, htail, perform_machine]

/-- Any number of steps commutes with renaming. -/
theorem advance_machine (hclasses : m.classes.RefFree) (n : Nat) (s : σ) :
    ((ρ.machine m).advance none n s) = (ρ.machine (m.advance none n s).1, (m.advance none n s).2) ∧
      (m.advance none n s).1.classes.RefFree := by
  induction n generalizing m s with
  | zero => exact ⟨rfl, hclasses⟩
  | succ n ih =>
    obtain ⟨hmachine, hknowledge, -⟩ := ρ.step_machine hclasses s
    rw [Machine.advance, Machine.advance, hmachine, hknowledge]
    exact ih (by rw [Machine.step_classes]; exact hclasses) (m.step none s).knowledge

end Renaming

/-! ### Numbers in names -/

namespace Text

theorem isDigit_of_mem_repr {n : Nat} {c : Char} (h : c ∈ (Nat.repr n).toList) :
    isDigit c = true := by
  rw [Nat.toList_repr] at h
  have hdigit : c.isDigit = true := Nat.isDigit_of_mem_toDigits (by decide) (by decide) h
  simpa [isDigit, Char.isDigit, Char.le_def] using hdigit

/-- The digits of a number are read as that number. -/
theorem digits?_repr (n : Nat) : digits? (Nat.repr n).toList = some n := by
  have hall : (Nat.repr n).toList.all isDigit = true :=
    List.all_eq_true.2 fun c hc => isDigit_of_mem_repr hc
  have hne : (Nat.repr n).toList.isEmpty = false := by
    rw [Nat.toList_repr, List.isEmpty_eq_false_iff]
    exact Nat.toDigits_ne_nil
  have hvalue : digitsValue (Nat.repr n).toList = n := by
    rw [Nat.toList_repr]
    exact Nat.ofDigitChars_ten_toDigits
  rw [digits?, hall, hne, hvalue]
  rfl

/-- A run of digits is read without a sign. -/
theorem signedDigits?_of_digits? {cs : List Char} {n : Nat} (h : digits? cs = some n) :
    signedDigits? cs = some (n : Int) := by
  unfold signedDigits?
  split
  · exact absurd h (by simp [digits?, isDigit])
  · exact absurd h (by simp [digits?, isDigit])
  · rw [h]
    rfl

/-- The canonical numeral of an integer is read as that integer. -/
theorem readInt?_showInt {n : Int} (h : fits n = true) : readInt? (showInt n) = some n := by
  have hread : signedDigits? (showInt n).toList = some n := by
    unfold showInt
    split
    · have habs : -(n.natAbs : Int) = n := by omega
      have hsign : "-".toList = ['-'] := rfl
      rw [String.toList_append, hsign, List.singleton_append, signedDigits?, digits?_repr]
      exact congrArg some habs
    · have habs : (n.natAbs : Int) = n := by omega
      rw [signedDigits?_of_digits? (digits?_repr n.natAbs), habs]
  rw [readInt?, hread, Option.filter_some, if_pos h]

/-- The integers that fit are their own representatives. -/
theorem wrap_of_fits {n : Int} (h : fits n = true) : wrap n = n := by
  have hmodulus : (modulus : Int) = 18446744073709551616 := rfl
  rw [fits, minInt, maxInt, Bool.and_eq_true, decide_eq_true_iff, decide_eq_true_iff] at h
  refine Int.bmod_eq_of_le ?_ ?_ <;> omega

end Text

namespace Heap

/-- The number in a name that a heap hands out. -/
def refNumber? (s : String) : Option Int :=
  -- `obj+1` and `obj01` have a number too, but no heap hands them out
  (Text.readInt? (String.ofList (s.toList.drop 3))).filter fun n => s = "obj" ++ Text.showInt n

theorem refNumber?_eq_some_iff {s : String} {n : Int} :
    refNumber? s = some n ↔ Text.fits n = true ∧ s = "obj" ++ Text.showInt n := by
  rw [refNumber?, Option.filter_eq_some_iff, decide_eq_true_iff]
  constructor
  · rintro ⟨hread, hname⟩
    exact ⟨Text.fits_of_readInt? hread, hname⟩
  · rintro ⟨hfits, rfl⟩
    refine ⟨?_, rfl⟩
    have hdrop : ("obj" ++ Text.showInt n).toList.drop 3 = (Text.showInt n).toList := by
      rw [String.toList_append]
      rfl
    rw [hdrop, String.ofList_toList, Text.readInt?_showInt hfits]

/-- No name that a heap hands out is a numeral. -/
theorem readInt?_of_refNumber? {s : String} {n : Int} (h : refNumber? s = some n) :
    Text.readInt? s = none := by
  obtain ⟨-, rfl⟩ := refNumber?_eq_some_iff.1 h
  rw [Text.readInt?, String.toList_append]
  rfl

end Heap

namespace Renaming

/-- The name with its number shifted by `k`; any other text stays as it is. -/
def shiftName (k : Int) (s : String) : String :=
  match Heap.refNumber? s with
  | some n => "obj" ++ Text.showInt (Text.wrap (n + k))
  | none => s

theorem shiftName_of_fits {n : Int} (h : Text.fits n = true) (k : Int) :
    shiftName k ("obj" ++ Text.showInt n) = "obj" ++ Text.showInt (Text.wrap (n + k)) := by
  rw [shiftName, Heap.refNumber?_eq_some_iff.2 ⟨h, rfl⟩]

/-- Shifting there and back again changes nothing. -/
theorem shiftName_shiftName {j k : Int} (h : j + k = 0) (s : String) :
    shiftName k (shiftName j s) = s := by
  cases hs : Heap.refNumber? s with
  | none =>
    have hsame : ∀ i, shiftName i s = s := by
      intro i
      rw [shiftName, hs]
    rw [hsame, hsame]
  | some n =>
    obtain ⟨hfits, rfl⟩ := Heap.refNumber?_eq_some_iff.1 hs
    have hback : Text.wrap (Text.wrap (n + j) + k) = n := by
      have hwrap : Text.wrap (Text.wrap (n + j) + k) = Text.wrap (n + j + k) := Int.bmod_add_bmod
      rw [hwrap, show n + j + k = n by omega, Text.wrap_of_fits hfits]
    rw [shiftName_of_fits hfits, shiftName_of_fits (Text.fits_wrap _), hback]

theorem readInt?_shiftName (k : Int) (s : String) :
    Text.readInt? (shiftName k s) = Text.readInt? s := by
  cases hs : Heap.refNumber? s with
  | none => rw [shiftName, hs]
  | some n =>
    -- neither name is a numeral
    have hshifted : Heap.refNumber? (shiftName k s) = some (Text.wrap (n + k)) := by
      rw [shiftName, hs]
      exact Heap.refNumber?_eq_some_iff.2 ⟨Text.fits_wrap _, rfl⟩
    rw [Heap.readInt?_of_refNumber? hs, Heap.readInt?_of_refNumber? hshifted]

/-- Shifts the numbers in all names by `k`. -/
def shift (k : Int) : Renaming where
  name := shiftName k
  back := shiftName (-k)
  number n := Text.wrap (n + k)
  back_name := shiftName_shiftName (by omega)
  name_back := shiftName_shiftName (by omega)
  readInt?_name := readInt?_shiftName k
  number_next n := by
    have hleft : Text.wrap (Text.wrap (n + 1) + k) = Text.wrap (n + 1 + k) := Int.bmod_add_bmod
    have hright : Text.wrap (Text.wrap (n + k) + 1) = Text.wrap (n + k + 1) := Int.bmod_add_bmod
    rw [hleft, hright, show n + 1 + k = n + k + 1 by omega]
  name_number n := by rw [shiftName_of_fits (Text.fits_wrap n)]

/-- The next names are shifted too, whatever number the counter has arrived at. -/
theorem shift_refName (i k : Nat) : (shift k).name (Heap.refName i) = Heap.refName (i + k) := by
  have hwrap : Text.wrap (Text.wrap i + k) = Text.wrap (i + k) := Int.bmod_add_bmod
  simp only [shift, Heap.refName]
  rw [shiftName_of_fits (Text.fits_wrap _), hwrap, Int.natCast_add]

end Renaming

/-! ### Names that were handed out before -/

/-- Until the counter wraps around, names are numbered in decimal. -/
theorem Heap.refName_of_le {i : Nat} (h : (i : Int) ≤ Text.maxInt) :
    refName i = "obj" ++ Nat.repr i := by
  rw [refName, Text.wrap_of_le h, Text.showInt, if_neg (by omega), Int.natAbs_natCast]

/-- The heap after references to objects of some classes were handed out and thrown away. -/
def Heap.waste (h : Heap) (discarded : List String) : Heap :=
  discarded.foldl (fun h cls => (h.alloc cls).2) h

theorem Heap.waste_eq {h : Heap} (hfits : Text.fits h.counter = true) (discarded : List String) :
    h.waste discarded = { h with counter := Text.wrap (h.counter + discarded.length) } := by
  induction discarded generalizing h with
  | nil =>
    show h = { h with counter := Text.wrap (h.counter + 0) }
    rw [Int.add_zero, Text.wrap_of_fits hfits]
  | cons cls rest ih =>
    have hcount : Text.wrap (Text.wrap (h.counter + 1) + rest.length) =
        Text.wrap (h.counter + (rest.length + 1 : Nat)) := by
      have hwrap : Text.wrap (Text.wrap (h.counter + 1) + rest.length) =
          Text.wrap (h.counter + 1 + rest.length) := Int.bmod_add_bmod
      rw [hwrap]
      exact congrArg Text.wrap (by omega)
    have hrest := ih (h := (h.alloc cls).2) (Text.fits_wrap _)
    show (h.alloc cls).2.waste rest = _
    rw [hrest, List.length_cons, ← hcount]
    rfl

/-- Wasting names on the empty heap is a renaming of it. -/
theorem Renaming.heap_shift_empty (discarded : List String) :
    (shift discarded.length).heap ∅ = Heap.waste ∅ discarded := by
  have hfits : Text.fits (∅ : Heap).counter = true := by decide
  have hobjects : ∀ ρ : Renaming, (∅ : Heap).objects.mapEntries ρ.ref ρ.memory = ∅ := fun ρ => rfl
  rw [Heap.waste_eq hfits, heap, hobjects]
  simp only [shift]
  rfl

/-- A program that was started is renamed along with the heap. -/
theorem Renaming.start_machine (ρ : Renaming) {m m' : Machine} {main : Stmt} {f : Frame}
    (hmain : main.RefFree) (h : m.start main = .ok (f, m')) :
    (ρ.machine m).start main = .ok (ρ.frame f, ρ.machine m') := by
  have hcreate : (ρ.heap m.heap).create entryClass ∅ =
      (ρ.ref (m.heap.create entryClass ∅).1, ρ.heap (m.heap.create entryClass ∅).2) :=
    ρ.heap_create m.heap entryClass ∅
  have hlocals : ρ.memory (SortedMap.insert ∅ "this" (.object (m.heap.create entryClass ∅).1)) =
      SortedMap.insert ∅ "this" (.object (ρ.ref (m.heap.create entryClass ∅).1)) :=
    ρ.memory_insert ∅ "this" _
  have hstmt : ρ.stmt main = main := ρ.stmt_of_refFree hmain
  rw [Machine.start_eq] at h ⊢
  obtain ⟨rfl, rfl⟩ := Prod.mk.inj (Except.ok.inj h)
  simp only [machine, hcreate, frame, value, hstmt, hlocals, List.map_cons]

/-- A program without references in its text is started twice, on the empty heap and on a heap that
    has handed out some references before. Without a knowledge base the second run is, after any
    number of steps, the first one with all objects renamed: the object with the `i`-th reference
    has the name of the one `k` references later, if `k` were handed out before. The next step goes
    on, pauses or fails in both of them, with a fault of the same category, and prints the same
    value up to renaming. -/
theorem object_names_are_opaque {σ : Type} {classes : ClassTable} (hclasses : classes.RefFree)
    {main : Stmt} (hmain : main.RefFree) (maxSteps : Nat) (discarded : List String) (s : σ) :
    let k := discarded.length
    let ρ := Renaming.shift k
    (∀ i, ρ.name (Heap.refName i) = Heap.refName (i + k)) ∧
    (∀ i : Nat, (i + k : Nat) ≤ Text.maxInt →
      ρ.name ("obj" ++ Nat.repr i) = "obj" ++ Nat.repr (i + k)) ∧
    ∃ f m f' m', (Machine.new classes ∅ maxSteps).start main = .ok (f, m) ∧
      (Machine.new classes (Heap.waste ∅ discarded) maxSteps).start main = .ok (f', m') ∧
      ∀ n, (m'.advance none n s).1 = ρ.machine (m.advance none n s).1 ∧
        let next := (m.advance none n s).1.step none s
        let next' := (m'.advance none n s).1.step none s
        next'.outcome.goesOn = next.outcome.goesOn ∧
        next'.outcome.fault?.map StepFault.category? =
          next.outcome.fault?.map StepFault.category? ∧
        ρ.Prints next.printed next'.printed := by
  intro k ρ
  have hrefs : ∀ i, ρ.name (Heap.refName i) = Heap.refName (i + k) :=
    fun i => Renaming.shift_refName i k
  refine ⟨hrefs, fun i hi => ?_, ?_⟩
  · have hi' : (i : Int) ≤ Text.maxInt := by omega
    rw [← Heap.refName_of_le hi', hrefs, Heap.refName_of_le hi]
  · obtain ⟨f, m, hstart⟩ := (Machine.new classes ∅ maxSteps).exists_start main
    have hnew : ρ.machine (Machine.new classes ∅ maxSteps) =
        Machine.new classes (Heap.waste ∅ discarded) maxSteps := by
      rw [← Renaming.heap_shift_empty]
      rfl
    have hstart' := ρ.start_machine hmain hstart
    rw [hnew] at hstart'
    have hrefFree : m.classes.RefFree := by
      rw [Machine.start_eq] at hstart
      obtain ⟨-, rfl⟩ := Prod.mk.inj (Except.ok.inj hstart)
      exact hclasses
    refine ⟨f, m, ρ.frame f, ρ.machine m, hstart, hstart', fun n => ?_⟩
    obtain ⟨hadvance, hrefFree'⟩ := ρ.advance_machine hrefFree n s
    obtain ⟨-, -, houtcome, hprints⟩ := ρ.step_machine hrefFree' s
    rw [hadvance]
    refine ⟨rfl, ?_, ?_, hprints⟩
    · rw [houtcome, Renaming.goesOn_outcome]
    · rw [houtcome, Renaming.category?_outcome]

/-- An object is created and printed, after two references were thrown away. -/
theorem object_names_are_opaque_of_printed_object :
    let classes : ClassTable := ⟨[("C", ⟨[], ∅⟩)], List.pairwise_singleton ..⟩
    let main : Stmt := .seq (.create (.var "x") "C" []) (.print (.var "x"))
    let discarded := ["C", "D"]
    classes.RefFree ∧ main.RefFree ∧
      ∃ f m f' m', (Machine.new classes ∅ 0).start main = .ok (f, m) ∧
        (Machine.new classes (Heap.waste ∅ discarded) 0).start main = .ok (f', m') ∧
        (m'.advance none 2 ()).1 = (Renaming.shift 2).machine (m.advance none 2 ()).1 ∧
        ((m.advance none 2 ()).1.step none ()).printed = "obj2:C\n" ∧
        ((m'.advance none 2 ()).1.step none ()).printed = "obj4:C\n" := by
  intro classes main discarded
  have hclasses : classes.RefFree := by decide
  have hmain : main.RefFree := by decide
  obtain ⟨-, -, f, m, f', m', hstart, hstart', hrun⟩ :=
    object_names_are_opaque hclasses hmain 0 discarded ()
  refine ⟨hclasses, hmain, f, m, f', m', hstart, hstart', (hrun 2).1, ?_, ?_⟩
  · rw [Machine.start_eq] at hstart
    obtain ⟨-, rfl⟩ := Prod.mk.inj (Except.ok.inj hstart)
    decide +kernel
  · rw [Machine.start_eq] at hstart'
    obtain ⟨-, rfl⟩ := Prod.mk.inj (Except.ok.inj hstart')
    decide +kernel

end ObjectMachine
