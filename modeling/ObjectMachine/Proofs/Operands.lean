import ObjectMachine.Proofs.Values

namespace ObjectMachine

/-!
# Operands of integer operators

Sums, differences and the two order relations take integers. An operand is read by its literal,
whatever the kind of the value is, so a text or an object counts as an integer if it is called like
one:

* `Expr.eval_apply` — an operator is applied to the values of its operands;
* `Operator.onIntegers`, `Operator.Takes` — the operators, and how many operands they take;
* `Operator.exists_operands_iff`, `Operator.category?_of_operands` — which operands are read, and
  how reading the others fails;
* `Operator.apply_eq_operands` — an operator on integers is a function of what is read,
  `Operator.exists_apply_iff`, `Operator.apply_of_unread` — so it succeeds and fails as reading
  does;
* `Value.Misread` — the values that are read as integers although they are none;
* `integer_operators_reject_non_integers` — all other values than these and integers are rejected;
* `integer_operators_accept_a_text` — these are accepted.
-/

/-! ### Applying operators -/

section Apply

variable {sc : Scope}

theorem Expr.evalAllWith_of_evalAll {own : Memory} (hown : sc.heap.lookup sc.owner = some own)
    (es : List Expr) : Expr.evalAllWith sc own es = Expr.evalAll sc es := by
  induction es with
  | nil => simp [Expr.evalAllWith, Expr.evalAll]
  | cons e es ih => rw [Expr.evalAllWith, Expr.evalAll, ih, Expr.eval_eq_evalWith hown]

theorem Expr.evalAll_map_lit (howner : sc.heap.contains sc.owner = true) (vs : List Value) :
    Expr.evalAll sc (vs.map .lit) = .ok vs := by
  induction vs with
  | nil => rfl
  | cons v vs ih =>
    rw [List.map_cons, Expr.evalAll, ih, Expr.eval_lit howner]
    rfl

/-- An operator is applied to the values of its operands. -/
theorem Expr.eval_apply {op : Operator} {es : List Expr} {vs : List Value}
    (hvs : Expr.evalAll sc es = .ok vs)
    (howner : es = [] → sc.heap.contains sc.owner = true) :
    (Expr.apply op es).eval sc = op.apply vs := by
  have hon : sc.heap.contains sc.owner = true := by
    cases es with
    | nil => exact howner rfl
    | cons e es =>
      obtain ⟨v, hv⟩ := Expr.eval_of_evalAll hvs (List.mem_cons_self (a := e))
      exact contains_of_eval hv
  obtain ⟨own, hown⟩ := Option.isSome_iff_exists.1 hon
  rw [Expr.eval_eq_evalWith hown, Expr.evalWith, evalAllWith_of_evalAll hown, hvs]
  rfl

end Apply

namespace Operator

/-- Whether an operator takes integers. -/
def onIntegers : Operator → Bool
  | plus | minus | geq | leq => true
  | eq | neq | other _ => false

/-- Whether an operator takes `n` operands: any number can be added, the others take two. -/
def Takes (op : Operator) (n : Nat) : Prop :=
  op = plus ∨ n = 2

variable {op : Operator} {vs : List Value}

/-- Operands are read if every literal denotes an integer. -/
theorem exists_operands_iff (op : Operator) (vs : List Value) :
    (∃ ns, op.operands vs = .ok ns) ↔ ∀ v ∈ vs, v.toInt?.isSome = true := by
  induction vs with
  | nil => simp [operands]
  | cons v vs ih =>
    rw [List.forall_mem_cons, ← ih, operands, operand]
    cases v.toInt? with
    | none => simp [bind, Except.bind]
    | some n =>
      cases op.operands vs <;> simp [bind, Except.bind, pure, Except.pure]

/-- Operands that are not read have the wrong type. -/
theorem category?_of_operands {fault : Fault} (h : op.operands vs = .error fault) :
    fault.category? = some .typeMismatch := by
  induction vs with
  | nil => simp [operands] at h
  | cons v vs ih =>
    rw [operands] at h
    rcases bind_eq_error.1 h with h | ⟨n, -, h⟩
    · rw [operand] at h
      split at h
      · simp at h
      · obtain rfl := Except.error.inj h
        rfl
    · rcases bind_eq_error.1 h with h | ⟨ns, -, h⟩
      · exact ih h
      · exact (pure_ne_error.1 h).elim

theorem binaryInt_eq_operands (f : Int → Int → Value) (a b : Value) :
    ∃ g, op.binaryInt f [a, b] = (op.operands [a, b]).map g := by
  refine ⟨fun ns => f (ns.getD 0 0) (ns.getD 1 0), ?_⟩
  simp only [binaryInt, binary, operands]
  cases op.operand a with
  | error fault => rfl
  | ok m => cases op.operand b <;> rfl

/-- An operator on integers succeeds and fails as reading its operands does. -/
theorem apply_eq_operands (hop : op.onIntegers = true) (htakes : op.Takes vs.length) :
    ∃ g, op.apply vs = (op.operands vs).map g := by
  have hpair (hne : op ≠ plus) : ∃ a b, vs = [a, b] := by
    match vs, htakes.resolve_left hne with
    | [a, b], _ => exact ⟨a, b, rfl⟩
  cases op with
  | plus =>
    refine ⟨fun ns => .ofInt (Text.total ns), ?_⟩
    rw [apply]
    cases plus.operands vs <;> rfl
  | minus =>
    obtain ⟨a, b, rfl⟩ := hpair (by simp)
    exact binaryInt_eq_operands _ a b
  | geq =>
    obtain ⟨a, b, rfl⟩ := hpair (by simp)
    exact binaryInt_eq_operands _ a b
  | leq =>
    obtain ⟨a, b, rfl⟩ := hpair (by simp)
    exact binaryInt_eq_operands _ a b
  | eq => simp [onIntegers] at hop
  | neq => simp [onIntegers] at hop
  | other symbol => simp [onIntegers] at hop

theorem binary_eq_ok_length {f : Value → Value → Except Fault Value} {v : Value}
    (h : op.binary f vs = .ok v) : vs.length = 2 := by
  rw [binary.eq_def] at h
  split at h
  · rfl
  · simp at h

/-- An operator on integers succeeds with the right number of operands only. -/
theorem takes_of_apply (hop : op.onIntegers = true) {v : Value} (h : op.apply vs = .ok v) :
    op.Takes vs.length := by
  cases op with
  | plus => exact .inl rfl
  | minus => exact .inr (binary_eq_ok_length h)
  | geq => exact .inr (binary_eq_ok_length h)
  | leq => exact .inr (binary_eq_ok_length h)
  | eq => simp [onIntegers] at hop
  | neq => simp [onIntegers] at hop
  | other symbol => simp [onIntegers] at hop

/-- An operator on integers succeeds on the right number of literals that denote integers. -/
theorem exists_apply_iff (hop : op.onIntegers = true) :
    (∃ v, op.apply vs = .ok v) ↔
      op.Takes vs.length ∧ ∀ v ∈ vs, v.toInt?.isSome = true := by
  rw [← exists_operands_iff op]
  constructor
  · rintro ⟨v, hv⟩
    have htakes : op.Takes vs.length := takes_of_apply hop hv
    obtain ⟨g, hg⟩ := apply_eq_operands hop htakes
    rw [hg] at hv
    obtain ⟨ns, hns, -⟩ := map_eq_ok.1 hv
    exact ⟨htakes, ns, hns⟩
  · rintro ⟨htakes, ns, hns⟩
    obtain ⟨g, hg⟩ := apply_eq_operands hop htakes
    exact ⟨g ns, by rw [hg, hns]; rfl⟩

/-- Given the right number of operands, one that cannot be read is a type mismatch. -/
theorem apply_of_unread (hop : op.onIntegers = true) (htakes : op.Takes vs.length) {v : Value}
    (hv : v ∈ vs) (hnone : v.toInt? = none) :
    ∃ fault, op.apply vs = .error fault ∧ fault.category? = some .typeMismatch := by
  obtain ⟨g, hg⟩ := apply_eq_operands hop htakes
  cases hread : op.operands vs with
  | ok ns =>
    have hall := (exists_operands_iff op vs).1 ⟨ns, hread⟩ v hv
    rw [hnone] at hall
    exact absurd hall (by simp)
  | error fault =>
    refine ⟨fault, ?_, category?_of_operands hread⟩
    rw [hg, hread]
    rfl

end Operator

/-! ### Kinds and literals -/

namespace Value

/-- Whether a value is an integer. -/
def isInteger : Value → Bool
  | integer _ => true
  | _ => false

/-- The values that are read as integers although they are none: texts and references that are
    called like a 64-bit integer. -/
inductive Misread : Value → Prop where
  | text {s : String} (h : (Text.readInt? s).isSome = true) : Misread (.string s)
  | reference {r : Ref} (h : (Text.readInt? r.name).isSome = true) : Misread (.object r)

/-- The literal of a value denotes an integer if the value is misread, or is an integer that is
    kept by a numeral. -/
theorem isSome_toInt?_iff {v : Value}
    (hv : ∀ numeral, v = .integer numeral → (Text.readInt? numeral).isSome = true) :
    v.toInt?.isSome = true ↔ v.isInteger = true ∨ v.Misread := by
  cases v with
  | null =>
    have hnone : Value.null.toInt? = none := rfl
    simp only [hnone, isInteger]
    exact ⟨nofun, nofun⟩
  | boolean b =>
    have hnone : (Value.boolean b).toInt? = none := by cases b <;> rfl
    simp only [hnone, isInteger]
    exact ⟨nofun, nofun⟩
  | integer numeral => exact ⟨fun _ => .inl rfl, fun _ => hv numeral rfl⟩
  | string s =>
    refine ⟨fun h => .inr (.text h), ?_⟩
    rintro (h | h)
    · simp [isInteger] at h
    · cases h with
      | text h => exact h
  | object r =>
    refine ⟨fun h => .inr (.reference h), ?_⟩
    rintro (h | h)
    · simp [isInteger] at h
    · cases h with
      | reference h => exact h

end Value

/-- An operator on integers succeeds on the right number of operands of which each is an integer
    or misread as one. Given that number, a text, a boolean, null or an object that is not misread
    is a type mismatch. So if no operand is misread, the operators take integers only. -/
theorem integer_operators_reject_non_integers {sc : Scope} {op : Operator}
    (hop : op.onIntegers = true) {es : List Expr} {vs : List Value}
    (hvs : Expr.evalAll sc es = .ok vs) (howner : es = [] → sc.heap.contains sc.owner = true)
    (hnumerals : ∀ numeral, .integer numeral ∈ vs → (Text.readInt? numeral).isSome = true) :
    ((∃ w, (Expr.apply op es).eval sc = .ok w) ↔
      op.Takes es.length ∧ ∀ v ∈ vs, v.isInteger = true ∨ v.Misread) ∧
    (op.Takes es.length → (∃ v ∈ vs, v.isInteger = false ∧ ¬ v.Misread) →
      ∃ fault, (Expr.apply op es).eval sc = .error fault ∧
        fault.category? = some .typeMismatch) := by
  have hread : ∀ v ∈ vs, (v.toInt?.isSome = true ↔ v.isInteger = true ∨ v.Misread) := by
    intro v hv
    refine Value.isSome_toInt?_iff fun numeral heq => hnumerals numeral ?_
    rw [← heq]
    exact hv
  rw [Expr.eval_apply hvs howner, ← Expr.length_evalAll hvs]
  constructor
  · rw [Operator.exists_apply_iff hop]
    exact and_congr_right fun _ => forall₂_congr hread
  · rintro htakes ⟨v, hv, hkind, hmisread⟩
    have hnone : v.toInt? = none := by
      rw [← Option.not_isSome_iff_eq_none, hread v hv]
      rintro (h | h)
      · rw [hkind] at h
        exact absurd h (by simp)
      · exact hmisread h
    exact Operator.apply_of_unread hop htakes hv hnone

/-- A boolean is no operand of a sum. -/
theorem integer_operators_reject_non_integers_of_boolean :
    let owner : Ref := ⟨"obj1", "C"⟩
    let sc : Scope := ⟨∅, (∅ : Heap).insert owner ∅, .object owner⟩
    let es : List Expr := [.lit (.ofInt 1), .lit (.boolean true)]
    Expr.evalAll sc es = .ok [.ofInt 1, .boolean true] ∧
      ∃ fault, (Expr.apply .plus es).eval sc = .error fault ∧
        fault.category? = some .typeMismatch := by
  intro owner sc es
  have hvs : Expr.evalAll sc es = .ok [.ofInt 1, .boolean true] :=
    Expr.evalAll_map_lit (by decide) [.ofInt 1, .boolean true]
  have hnumerals : ∀ numeral, Value.integer numeral ∈ [.ofInt 1, .boolean true] →
      (Text.readInt? numeral).isSome = true := by
    intro numeral hmem
    obtain rfl : numeral = Text.showInt 1 := by simpa [Value.ofInt] using hmem
    decide
  refine ⟨hvs, (integer_operators_reject_non_integers rfl hvs nofun hnumerals).2 (.inl rfl) ?_⟩
  exact ⟨.boolean true, by simp, rfl, nofun⟩

/-- A text and an object that are called like integers are added to an integer. -/
theorem integer_operators_accept_a_text :
    let owner : Ref := ⟨"7", "C"⟩
    let sc : Scope := ⟨∅, (∅ : Heap).insert owner ∅, .object owner⟩
    let es : List Expr := [.lit (.string "5"), .lit (.ofInt 1), .lit (.object owner)]
    Expr.evalAll sc es = .ok [.string "5", .ofInt 1, .object owner] ∧
      Operator.Takes .plus es.length ∧ (Value.string "5").isInteger = false ∧
      (Value.object owner).isInteger = false ∧
      (Expr.apply .plus es).eval sc = .ok (.ofInt 13) := by
  intro owner sc es
  have hvs : Expr.evalAll sc es = .ok [.string "5", .ofInt 1, .object owner] :=
    Expr.evalAll_map_lit (by decide) [.string "5", .ofInt 1, .object owner]
  have htext : (Value.string "5").toInt? = some 5 := by decide
  have hone : (Value.ofInt 1).toInt? = some 1 := by decide
  have hobject : (Value.object owner).toInt? = some 7 := by decide
  refine ⟨hvs, .inl rfl, rfl, rfl, ?_⟩
  rw [Expr.eval_apply hvs nofun]
  simp only [Operator.apply, Operator.operands, Operator.operand, htext, hone, hobject]
  rfl

end ObjectMachine
