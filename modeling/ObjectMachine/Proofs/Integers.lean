import ObjectMachine.Proofs.Evolution
import ObjectMachine.Proofs.Loading
import ObjectMachine.Proofs.Opacity
import ObjectMachine.Proofs.Operands

namespace ObjectMachine

/-!
# Integers are canonical

An integer is kept by a numeral, and equality compares numerals while the order compares what they
denote. The two agree because a loaded program never gets to see another numeral than the canonical
one:

* `Text.Canonical` — canonical numerals, `Text.canonical_iff` — one for each 64-bit integer;
* `Value.Canonical`, `admissible_canonical` — every new integer has such a numeral;
* `Expr.comparesAlike_of_canonical` — equality and order agree on them;
* `Machine.Occurs` — the values of a state, `Machine.Settled` — all of them are canonical;
* `integers_are_canonical` — so are those of every state that loaded programs can reach.
-/

/-! ### Canonical numerals -/

namespace Text

/-- The canonical numerals of 64-bit integers: there is no plus sign and no leading zero, and zero
    has no sign. -/
structure Canonical (s : String) : Prop where
  denotes : (readInt? s).isSome = true
  plain : s = "0" ∨ ∃ c cs, isDigit c = true ∧ c ≠ '0' ∧
    (s.toList = c :: cs ∨ s.toList = '-' :: c :: cs)

theorem isDigit_iff {c : Char} : isDigit c = true ↔ 48 ≤ c.toNat ∧ c.toNat ≤ 57 := by
  rw [← show c.isDigit = isDigit c by simp [isDigit, Char.isDigit, Char.le_def]]
  exact Char.isDigit_iff_toNat

theorem digitChar_of_isDigit {c : Char} (h : isDigit c = true) :
    Nat.digitChar (c.toNat - 48) = c := by
  have hrange := isDigit_iff.1 h
  have hlt : c.toNat - 48 < 10 := by omega
  rw [← Char.toNat_inj, Nat.toNat_digitChar_of_lt_ten hlt]
  omega

/-- Digits after a number other than zero are appended to its numeral. -/
theorem toDigits_foldl {n : Nat} (hn : 0 < n) {cs : List Char} (h : cs.all isDigit = true) :
    Nat.toDigits 10 (cs.foldl (fun n c => 10 * n + (c.toNat - 48)) n) =
      Nat.toDigits 10 n ++ cs := by
  induction cs generalizing n with
  | nil => simp
  | cons c cs ih =>
    obtain ⟨hc, hcs⟩ : isDigit c = true ∧ cs.all isDigit = true := by simpa using h
    have hrange := isDigit_iff.1 hc
    have hlt : c.toNat - 48 < 10 := by omega
    rw [List.foldl_cons, ih (by omega) hcs,
      ← Nat.toDigits_append_toDigits (by omega) hn hlt, Nat.toDigits_of_lt_base hlt,
      digitChar_of_isDigit hc, List.append_assoc, List.singleton_append]

/-- Digits that do not start with a zero are the numeral of their value. -/
theorem repr_digitsValue {c : Char} {cs : List Char} (hc : c ≠ '0')
    (h : (c :: cs).all isDigit = true) :
    (Nat.repr (digitsValue (c :: cs))).toList = c :: cs := by
  obtain ⟨hd, hcs⟩ : isDigit c = true ∧ cs.all isDigit = true := by simpa using h
  have hrange := isDigit_iff.1 hd
  have hpos : 0 < c.toNat - 48 := by
    have hne : c.toNat ≠ '0'.toNat := fun heq => hc (Char.toNat_inj.1 heq)
    have hzero : '0'.toNat = 48 := rfl
    omega
  have hlt : c.toNat - 48 < 10 := by omega
  have hfold := toDigits_foldl hpos hcs
  rw [Nat.toDigits_of_lt_base hlt, digitChar_of_isDigit hd] at hfold
  rw [Nat.toList_repr, digitsValue, List.foldl_cons]
  simpa using hfold

/-- The numeral of a number other than zero does not start with a zero. -/
theorem exists_toDigits_cons {n : Nat} (hn : 0 < n) :
    ∃ c cs, Nat.toDigits 10 n = c :: cs ∧ c ≠ '0' := by
  induction n using Nat.strongRecOn with
  | ind n ih =>
    by_cases hlt : n < 10
    · refine ⟨n.digitChar, [], Nat.toDigits_of_lt_base hlt, ?_⟩
      simp only [ne_eq, Nat.digitChar_eq_zero]
      omega
    · obtain ⟨c, cs, hcs, hc⟩ := ih (n / 10) (by omega) (by omega)
      refine ⟨c, cs ++ [(n % 10).digitChar], ?_, hc⟩
      rw [Nat.toDigits_of_base_le (by omega) (by omega), hcs]
      rfl

/-- The digits of a number other than zero. -/
theorem exists_repr_cons {n : Nat} (hn : 0 < n) :
    ∃ c cs, (Nat.repr n).toList = c :: cs ∧ isDigit c = true ∧ c ≠ '0' := by
  obtain ⟨c, cs, hcs, hc⟩ := exists_toDigits_cons hn
  rw [← Nat.toList_repr] at hcs
  exact ⟨c, cs, hcs, isDigit_of_mem_repr (n := n) (by simp [hcs]), hc⟩

theorem canonical_showInt {n : Int} (h : fits n = true) : Canonical (showInt n) := by
  refine ⟨by rw [readInt?_showInt h]; rfl, ?_⟩
  by_cases hzero : n = 0
  · subst hzero
    exact .inl rfl
  · right
    obtain ⟨c, cs, hcs, hdigit, hc⟩ := exists_repr_cons (n := n.natAbs) (by omega)
    refine ⟨c, cs, hdigit, hc, ?_⟩
    unfold showInt
    split
    · right
      rw [String.toList_append, hcs]
      rfl
    · left
      exact hcs

theorem all_of_digits? {cs : List Char} {n : Nat} (h : digits? cs = some n) :
    cs.all isDigit = true ∧ digitsValue cs = n := by
  rw [digits?] at h
  split at h
  · rename_i hcs
    exact ⟨(Bool.and_eq_true_iff.1 hcs).2, Option.some.inj h⟩
  · simp at h

/-- Digits without a leading zero are the numeral of what they are read as. -/
theorem repr_of_digits? {c : Char} {cs : List Char} {n : Nat} (hc : c ≠ '0')
    (h : digits? (c :: cs) = some n) : (Nat.repr n).toList = c :: cs := by
  obtain ⟨hall, rfl⟩ := all_of_digits? h
  exact repr_digitsValue hc hall

/-- What starts with a digit has no sign. -/
theorem signedDigits?_digit {c : Char} {cs : List Char} {n : Int} (hc : isDigit c = true)
    (h : signedDigits? (c :: cs) = some n) : ∃ k, digits? (c :: cs) = some k ∧ n = k := by
  unfold signedDigits? at h
  split at h
  · rename_i heq
    obtain ⟨rfl, -⟩ := List.cons.inj heq
    exact absurd hc (by decide)
  · rename_i heq
    obtain ⟨rfl, -⟩ := List.cons.inj heq
    exact absurd hc (by decide)
  · cases hk : digits? (c :: cs) with
    | none => simp [hk] at h
    | some k => exact ⟨k, rfl, by simpa [hk] using h.symm⟩

theorem signedDigits?_minus {cs : List Char} {n : Int}
    (h : signedDigits? ('-' :: cs) = some n) : ∃ k, digits? cs = some k ∧ n = -k := by
  rw [signedDigits?] at h
  cases hk : digits? cs with
  | none => simp [hk] at h
  | some k => exact ⟨k, rfl, by simpa [hk] using h.symm⟩

/-- A numeral without leading zeros is the one of the integer it denotes. -/
theorem Canonical.exists_showInt {s : String} (h : Canonical s) :
    ∃ n, fits n = true ∧ s = showInt n := by
  obtain ⟨n, hn⟩ := Option.isSome_iff_exists.1 h.denotes
  obtain ⟨hread, hfits⟩ := Option.filter_eq_some_iff.1 hn
  refine ⟨n, hfits, ?_⟩
  rcases h.plain with rfl | ⟨c, cs, hdigit, hc, hs | hs⟩
  · have hzero : readInt? "0" = some 0 := by decide
    obtain rfl : (0 : Int) = n := Option.some.inj (hzero.symm.trans hn)
    rfl
  · rw [hs] at hread
    obtain ⟨k, hk, rfl⟩ := signedDigits?_digit hdigit hread
    have hnonneg : ¬ (k : Int) < 0 := by omega
    rw [← String.toList_inj, hs, showInt, if_neg hnonneg, Int.natAbs_natCast,
      repr_of_digits? hc hk]
  · rw [hs] at hread
    obtain ⟨k, hk, rfl⟩ := signedDigits?_minus hread
    have hdigits : (Nat.repr k).toList = c :: cs := repr_of_digits? hc hk
    have hpos : k ≠ 0 := by
      -- zero has a leading zero
      rintro rfl
      exact hc (List.cons.inj hdigits).1.symm
    have hneg : -(k : Int) < 0 := by omega
    rw [← String.toList_inj, hs, showInt, if_pos hneg, Int.natAbs_neg, Int.natAbs_natCast,
      String.toList_append, hdigits]
    rfl

/-- The canonical numerals are those of the 64-bit integers. -/
theorem canonical_iff {s : String} : Canonical s ↔ ∃ n, fits n = true ∧ s = showInt n := by
  constructor
  · exact Canonical.exists_showInt
  · rintro ⟨n, hn, rfl⟩
    exact canonical_showInt hn

end Text

/-! ### Values -/

/-- The value is no integer, or an integer with its canonical numeral. -/
def Value.Canonical (v : Value) : Prop :=
  ∀ numeral, v = .integer numeral → Text.Canonical numeral

theorem Value.canonical_ofInt {n : Int} (hn : Text.fits n = true) : (ofInt n).Canonical := by
  intro numeral heq
  obtain rfl := Value.integer.inj heq
  exact Text.canonical_showInt hn

/-- An integer that a document writes is kept by its canonical numeral. -/
theorem Value.Written.canonical {v : Value} (h : v.Written) : v.Canonical := by
  cases h with
  | null => exact nofun
  | boolean b => exact nofun
  | string s => exact nofun
  | integer hn => exact canonical_ofInt hn

/-- Operators and knowledge bases give canonical integers only. -/
theorem admissible_canonical : Admissible fun _ v => v.Canonical where
  null _ := nofun
  boolean _ _ := nofun
  string _ _ := nofun
  integer _ _ hn := Value.canonical_ofInt hn
  object hv := by
    intro numeral heq
    subst heq
    exact absurd hv (by simp [Heap.contains, Heap.lookup])
  mono _ _ hv := hv

/-! ### Comparisons -/

/-- All comparisons of `x` and `y` have a truth value; the two are equal exactly if either one is
    at least the other one, and different exactly if they are not equal. -/
def Expr.ComparesAlike (sc : Scope) (x y : Expr) : Prop :=
  ∃ equal atLeast atMost : Bool,
    (Expr.apply .eq [x, y]).eval sc = .ok (.boolean equal) ∧
    (Expr.apply .neq [x, y]).eval sc = .ok (.boolean (!equal)) ∧
    (Expr.apply .geq [x, y]).eval sc = .ok (.boolean atLeast) ∧
    (Expr.apply .leq [x, y]).eval sc = .ok (.boolean atMost) ∧
    (equal = true ↔ atLeast = true ∧ atMost = true)

theorem Expr.eval_apply_pair {sc : Scope} {op : Operator} {x y : Expr} {a b : Value}
    (hx : x.eval sc = .ok a) (hy : y.eval sc = .ok b) :
    (Expr.apply op [x, y]).eval sc = op.apply [a, b] := by
  refine Expr.eval_apply ?_ nofun
  simp only [Expr.evalAll, hx, hy]
  rfl

theorem Value.toInt?_ofInt {n : Int} (hn : Text.fits n = true) : (ofInt n).toInt? = some n :=
  Text.readInt?_showInt hn

/-- Canonical integers are equal exactly if they denote the same integer. -/
theorem Value.ofInt_inj {m n : Int} : ofInt m = ofInt n ↔ m = n := by
  refine ⟨fun h => Text.showInt_inj (Value.integer.inj h), ?_⟩
  rintro rfl
  rfl

/-- The order relations compare what the operands denote. -/
theorem Operator.binaryInt_ofInt {op : Operator} {m n : Int} (hm : Text.fits m = true)
    (hn : Text.fits n = true) (f : Int → Int → Value) :
    op.binaryInt f [.ofInt m, .ofInt n] = .ok (f m n) := by
  simp only [binaryInt, binary, operand, Value.toInt?_ofInt hm, Value.toInt?_ofInt hn]
  rfl

/-- On canonical integers equality agrees with the order. -/
theorem Expr.comparesAlike_of_canonical {sc : Scope} {x y : Expr} {a b : String}
    (hx : x.eval sc = .ok (.integer a)) (hy : y.eval sc = .ok (.integer b))
    (ha : Text.Canonical a) (hb : Text.Canonical b) : Expr.ComparesAlike sc x y := by
  obtain ⟨m, hm, rfl⟩ := ha.exists_showInt
  obtain ⟨n, hn, rfl⟩ := hb.exists_showInt
  have hequal : decide (Value.ofInt m = .ofInt n) = decide (m = n) :=
    decide_eq_decide.2 Value.ofInt_inj
  refine ⟨decide (m = n), decide (m ≥ n), decide (m ≤ n), ?_, ?_, ?_, ?_, ?_⟩
  · rw [eval_apply_pair hx hy, ← hequal]
    rfl
  · rw [eval_apply_pair hx hy, ← hequal, ← decide_not]
    rfl
  · rw [eval_apply_pair hx hy]
    exact Operator.binaryInt_ofInt hm hn _
  · rw [eval_apply_pair hx hy]
    exact Operator.binaryInt_ofInt hm hn _
  · simp only [decide_eq_true_eq]
    omega

/-! ### Machines -/

/-- What can be done to a machine by running programs that were loaded: starting one, stepping and
    forking. -/
def Operation.Loaded {σ : Type} : Operation σ → Prop
  | .start main => ∃ text p, Program.load text = .ok p ∧ p.main = main
  | .push _ _ _ => False
  | .step _ | .fork => True

namespace Machine

variable {σ : Type} {kb : Option (KnowledgeBase σ)} {m : Machine}

/-- The values of a state: in fields, in variables of scheduled and of former frames, and in the
    literals of what is left to run. -/
inductive Occurs (m : Machine) : Value → Prop where
  | field {r : Ref} {fields : Memory} {name : String} {v : Value}
      (hr : m.heap.objects.get? r = some fields) (hv : fields.get? name = some v) : Occurs m v
  | binding {f : Frame} {name : String} {v : Value} (hf : f ∈ m.stack)
      (hv : f.locals.get? name = some v) : Occurs m v
  | retired {id : Nat} {locals : Memory} {name : String} {v : Value}
      (hl : (id, locals) ∈ m.retired) (hv : locals.get? name = some v) : Occurs m v
  | literal {f : Frame} {v : Value} (hf : f ∈ m.stack) (hv : v ∈ f.stmt.literals) : Occurs m v

/-- All integers of a machine are canonical, those in the methods of its classes included. -/
structure Settled (m : Machine) : Prop where
  values : m.AllValues fun _ v => v.Canonical
  retired : ∀ entry ∈ m.retired, entry.2.All Value.Canonical

theorem Settled.canonical (h : m.Settled) {v : Value} (hv : m.Occurs v) : v.Canonical := by
  cases hv with
  | field hr hv =>
    have hfields : SortedMap.All Value.Canonical _ := h.values.fields.get? hr
    exact hfields.get? hv
  | binding hf hv => exact (h.values.frames _ hf).locals.get? hv
  | retired hl hv => exact (h.retired _ hl).get? hv
  | literal hf hv => exact (h.values.frames _ hf).literals _ hv

theorem settled_new {p : Program} (hp : p.Written) (maxSteps : Nat) :
    (new p.classes ∅ maxSteps).Settled := by
  refine ⟨⟨fun f hf => absurd hf List.not_mem_nil, .empty, ?_⟩,
    fun entry he => absurd he List.not_mem_nil⟩
  exact hp.classes.imp fun v hv => hv.canonical

/-- The frames that leave the stack in a step are the running one and its caller. -/
theorem all_retired_perform {Q : Memory → Prop} {f : Frame} {below : List Frame}
    {rest : Option Stmt} {e : Effect} (hold : ∀ entry ∈ m.retired, Q entry.2)
    (hrun : Q (e.localsAfter f.locals)) (hcaller : ∀ g next, e = .resume g next → Q g.locals) :
    ∀ entry ∈ ((m.running below).perform f rest e).retired, Q entry.2 := by
  intro entry hentry
  cases e with
  | invoke target callee body locals => exact hold entry hentry
  | resume g next =>
    rcases mem_retired_proceed hentry with rfl | hentry
    · exact hcaller g next rfl
    · rcases List.mem_cons.1 hentry with rfl | hentry
      · exact hrun
      · exact hold entry hentry
  | _ =>
    rw [perform_of_stays rfl] at hentry
    rcases mem_retired_proceed hentry with rfl | hentry
    · exact hrun
    · exact hold entry hentry

theorem Settled.step (h : m.Settled) (s : σ) : (m.step kb s).machine.Settled := by
  refine ⟨h.values.step admissible_canonical s, ?_⟩
  rcases step_cases kb m s with hstep | ⟨f, below, hm, hstep | ⟨e, s', -, henacts, hstep⟩⟩
  · rw [hstep]
    exact h.retired
  · have hf : f.AllValues Value.Canonical := h.values.frames f (hm ▸ List.mem_cons_self)
    rw [hstep]
    exact List.forall_mem_cons.2 ⟨hf.locals, h.retired⟩
  · have hf : f.AllValues Value.Canonical := h.values.frames f (hm ▸ List.mem_cons_self)
    have he : e.AllValues Value.Canonical := henacts.allValues admissible_canonical h.values hm
    rw [hstep]
    refine all_retired_perform h.retired (he.locals hf.locals) fun g next heq => ?_
    subst heq
    exact he.1.locals

theorem Settled.operate (h : m.Settled) {op : Operation σ} (hop : op.Loaded) :
    (m.operate kb op).Settled := by
  cases op with
  | start main =>
    obtain ⟨text, p, hload, rfl⟩ := hop
    have hmain : ∀ v ∈ p.main.literals, v.Canonical :=
      fun v hv => ((Program.written_of_load hload).main v hv).canonical
    refine ⟨?_, ?_⟩
    · obtain ⟨f, m', hstart⟩ := m.exists_start p.main
      rw [Machine.operate, hstart]
      exact h.values.start admissible_canonical hmain hstart
    · rw [Machine.operate, m.start_eq p.main]
      exact h.retired
  | push stmt owner locals => exact absurd hop id
  | step s => exact h.step s
  | fork => exact ⟨h.values.fork, fun entry he => absurd he List.not_mem_nil⟩

end Machine

/-- However loaded programs are started, stepped and forked on the empty heap, with the classes of
    a loaded program and any knowledge base: every integer of the state has the canonical numeral
    of a 64-bit integer, and on the integers of the state equality agrees with the order. -/
theorem integers_are_canonical {σ : Type} (kb : Option (KnowledgeBase σ)) {text : String}
    {p : Program} (hload : Program.load text = .ok p) (maxSteps : Nat) {ops : List (Operation σ)}
    (hops : ∀ op ∈ ops, op.Loaded) :
    let m := (Machine.new p.classes ∅ maxSteps).operateAll kb ops
    (∀ a, m.Occurs (.integer a) → Text.Canonical a) ∧
      ∀ a b, m.Occurs (.integer a) → m.Occurs (.integer b) →
        ∀ sc x y, x.eval sc = .ok (.integer a) → y.eval sc = .ok (.integer b) →
          Expr.ComparesAlike sc x y := by
  intro m
  have hm : m.Settled :=
    Machine.operateAll_preserves Operation.Loaded (fun m op hm hop => hm.operate hop)
      (Machine.settled_new (Program.written_of_load hload) maxSteps) hops
  have hcanonical : ∀ a, m.Occurs (.integer a) → Text.Canonical a :=
    fun a ha => hm.canonical ha a rfl
  refine ⟨hcanonical, ?_⟩
  intro a b ha hb sc x y hx hy
  exact Expr.comparesAlike_of_canonical hx hy (hcanonical a ha) (hcanonical b hb)

/-- A literal with a leading zero is assigned, and one with a sign is still to be printed. -/
theorem integers_are_canonical_of_two_literals :
    let text := "main:\n  - assign: \x7btarget: \x7blocal: x\x7d, value: \x7bint: -07\x7d\x7d\n" ++
      "  - print: \x7bint: +7\x7d"
    ∃ p, Program.load text = .ok p ∧
      let ops : List (Operation Unit) := [.start p.main, .step ()]
      let m := (Machine.new p.classes ∅ 0).operateAll none ops
      (∀ op ∈ ops, op.Loaded) ∧ m.Occurs (.integer "-7") ∧ m.Occurs (.integer "7") ∧
        Text.Canonical "-7" ∧ Text.Canonical "7" ∧
        ∀ sc x y, x.eval sc = .ok (.integer "-7") → y.eval sc = .ok (.integer "7") →
          Expr.ComparesAlike sc x y := by
  intro text
  have hstate : (Program.load text).toOption.any (fun p =>
      let ops : List (Operation Unit) := [.start p.main, .step ()]
      let m := (Machine.new p.classes ∅ 0).operateAll none ops
      m.stack.any fun f => f.locals.get? "x" = some (.integer "-7") &&
        decide (.integer "7" ∈ f.stmt.literals)) = true := by
    decide +kernel
  cases hload : Program.load text with
  | error cause => simp [hload, Except.toOption] at hstate
  | ok p =>
    refine ⟨p, rfl, ?_⟩
    intro ops m
    obtain ⟨f, hf, hx, hlit⟩ : ∃ f ∈ m.stack, f.locals.get? "x" = some (.integer "-7") ∧
        Value.integer "7" ∈ f.stmt.literals := by
      simpa [hload, Except.toOption] using hstate
    have hneg : m.Occurs (.integer "-7") := .binding hf hx
    have hpos : m.Occurs (.integer "7") := .literal hf hlit
    have hops : ∀ op ∈ ops, op.Loaded := by
      intro op hop
      obtain rfl | rfl : op = .start p.main ∨ op = .step () := by simpa [ops] using hop
      · exact ⟨text, p, hload, rfl⟩
      · trivial
    obtain ⟨hcanonical, hcompare⟩ := integers_are_canonical none hload 0 hops
    exact ⟨hops, hneg, hpos, hcanonical _ hneg, hcanonical _ hpos,
      hcompare _ _ hneg hpos⟩

end ObjectMachine
