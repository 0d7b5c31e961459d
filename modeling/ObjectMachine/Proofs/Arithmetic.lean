import Mathlib.Algebra.BigOperators.Group.List.Basic
import Mathlib.Data.Int.ModEq
import Mathlib.Data.List.Perm.Basic
import ObjectMachine.Proofs.Integers

namespace ObjectMachine

/-!
# Arithmetic modulo `2 ^ 64`

Integers are decimal text that every operator reads, and writes again. Sums are added up from left
to right, and each addition wraps around. This file says what comes out of it:

* `Text.Represents` — the 64-bit integer that stands for an exact one, `Text.Represents.unique`;
* `Expr.Yields` — an expression evaluates to an integer;
* `Expr.Regroups` — operands in another order and in nested sums;
* `Expr.eval_plus`, `Expr.eval_minus` — sums and differences are represented;
* `Expr.Regroups.exists_yields` — other orders and groups have the same sum modulo `2 ^ 64`;
* `arithmetic_is_exact_modulo` — all this together, with the order of integers;
* `empty_sum_needs_owner` — without an object that it is evaluated for, nothing has a value.
-/

/-! ### Representatives -/

namespace Text

/-- The two's complement representative of `n`: a 64-bit integer that differs from `n` by a multiple
    of `2 ^ 64`. -/
structure Represents (w n : Int) : Prop where
  fits : minInt ≤ w ∧ w ≤ maxInt
  modEq : w ≡ n [ZMOD modulus]

variable {w w' n : Int}

theorem represents_wrap (n : Int) : Represents (wrap n) n where
  fits := by simpa [Text.fits] using fits_wrap n
  modEq := Int.bmod_emod

/-- The integers of 64 bits represent themselves. -/
theorem represents_self (h : fits n = true) : Represents n n :=
  ⟨by simpa [Text.fits] using h, .rfl⟩

/-- There is only one representative. -/
theorem Represents.unique (h : Represents w n) (h' : Represents w' n) : w = w' := by
  have hmod : w ≡ w' [ZMOD modulus] := h.modEq.trans h'.modEq.symm
  obtain ⟨hmin, hmax⟩ := h.fits
  obtain ⟨hmin', hmax'⟩ := h'.fits
  have hmodulus : (modulus : Int) = 18446744073709551616 := rfl
  rw [Int.ModEq, hmodulus] at hmod
  rw [minInt] at hmin hmin'
  rw [maxInt] at hmax hmax'
  omega

/-- Adding in a 64-bit word gives what the exact sum wraps around to. -/
theorem total_eq_wrap (ns : List Int) : total ns = wrap ns.sum := by
  have hfold : ∀ sum : Int, ns.foldl (fun sum n => wrap (sum + n)) (wrap sum) =
      wrap (sum + ns.sum) := by
    induction ns with
    | nil => simp
    | cons n ns ih =>
      intro sum
      have hadd : wrap (wrap sum + n) = wrap (sum + n) := Int.bmod_add_bmod
      rw [List.foldl_cons, hadd, ih, List.sum_cons, Int.add_assoc]
  have hzero : wrap 0 = 0 := by decide
  have htotal := hfold 0
  rw [hzero, Int.zero_add] at htotal
  exact htotal

end Text

/-! ### Operands -/

namespace Expr

variable {sc : Scope} {es es' : List Expr} {ns : List Int} {x y : Expr} {m n : Int}

/-- An expression evaluates to a value that is read as the integer `n`. -/
def Yields (sc : Scope) (e : Expr) (n : Int) : Prop :=
  ∃ v, e.eval sc = .ok v ∧ v.toInt? = some n

theorem Yields.fits (h : Yields sc x n) : Text.fits n = true := by
  obtain ⟨v, -, hread⟩ := h
  exact Text.fits_of_readInt? hread

theorem Yields.contains_owner (h : Yields sc x n) : sc.heap.contains sc.owner = true := by
  obtain ⟨v, hv, -⟩ := h
  exact contains_of_eval hv

theorem yields_ofInt (hx : x.eval sc = .ok (.ofInt n)) (hn : Text.fits n = true) :
    Yields sc x n :=
  ⟨_, hx, Value.toInt?_ofInt hn⟩

/-- Integers are read from the values of the operands, from left to right. -/
theorem operands_of_yields (op : Operator) (h : List.Forall₂ (Yields sc) es ns) :
    ∃ vs, Expr.evalAll sc es = .ok vs ∧ op.operands vs = .ok ns := by
  induction h with
  | nil => exact ⟨[], rfl, rfl⟩
  | @cons e n es ns he _ ih =>
    obtain ⟨v, hv, hread⟩ := he
    obtain ⟨vs, hvs, hops⟩ := ih
    refine ⟨v :: vs, ?_, ?_⟩
    · rw [Expr.evalAll, hv, hvs]
      rfl
    · rw [Operator.operands, Operator.operand, hread, hops]
      rfl

/-- The operators that take two integers are applied to the integers of their operands. -/
theorem eval_binaryInt {op : Operator} (f : Int → Int → Value)
    (hop : ∀ vs, op.apply vs = op.binaryInt f vs) (hx : Yields sc x m) (hy : Yields sc y n) :
    (Expr.apply op [x, y]).eval sc = .ok (f m n) := by
  obtain ⟨a, ha, hm⟩ := hx
  obtain ⟨b, hb, hn⟩ := hy
  rw [eval_apply_pair ha hb, hop, Operator.binaryInt, Operator.binary]
  simp only [Operator.operand, hm, hn]
  rfl

/-- A sum is the representative of the exact one. The operands, or else the owner, have to be
    there. -/
theorem eval_plus (h : List.Forall₂ (Yields sc) es ns)
    (howner : es = [] → sc.heap.contains sc.owner = true) :
    ∃ w, Text.Represents w ns.sum ∧ (Expr.apply .plus es).eval sc = .ok (.ofInt w) := by
  obtain ⟨vs, hvs, hops⟩ := operands_of_yields .plus h
  refine ⟨Text.total ns, ?_, ?_⟩
  · rw [Text.total_eq_wrap]
    exact Text.represents_wrap _
  · rw [eval_apply hvs howner, Operator.apply, hops]
    rfl

/-- A difference is the representative of the exact one. -/
theorem eval_minus (hx : Yields sc x m) (hy : Yields sc y n) :
    ∃ w, Text.Represents w (m - n) ∧ (Expr.apply .minus [x, y]).eval sc = .ok (.ofInt w) := by
  refine ⟨Text.wrap (m - n), Text.represents_wrap _, ?_⟩
  exact eval_binaryInt (fun m n => .ofInt (Text.wrap (m - n))) (fun _ => rfl) hx hy

/-! ### Orders and groups -/

/-- The operands of a sum in another order, some of them in nested sums, at any depth. A nested sum
    may have no operands. -/
inductive Regroups : List Expr → List Expr → Prop where
  | nil : Regroups [] []
  | keep {es es' : List Expr} (e : Expr) (h : Regroups es es') : Regroups (e :: es) (e :: es')
  | group {gs gs' es es' : List Expr} (hg : Regroups gs gs') (h : Regroups es es') :
      Regroups (gs ++ es) (.apply .plus gs' :: es')
  | order {es₁ es₂ es' : List Expr} (hperm : es₁.Perm es₂) (h : Regroups es₂ es') :
      Regroups es₁ es'

/-- Other orders and groups of operands yield integers with the same sum, up to multiples of
    `2 ^ 64`. -/
theorem Regroups.exists_yields (h : Regroups es es') (howner : sc.heap.contains sc.owner = true)
    (hes : List.Forall₂ (Yields sc) es ns) :
    ∃ ns', List.Forall₂ (Yields sc) es' ns' ∧ ns'.sum ≡ ns.sum [ZMOD Text.modulus] := by
  induction h generalizing ns with
  | nil => exact ⟨ns, hes, .rfl⟩
  | keep e _ ih =>
    obtain ⟨n, ns, he, hrest, rfl⟩ := List.forall₂_cons_left_iff.1 hes
    obtain ⟨ns', hes', hsum⟩ := ih hrest
    refine ⟨n :: ns', .cons he hes', ?_⟩
    rw [List.sum_cons, List.sum_cons]
    exact hsum.add_left n
  | @group gs gs' es es' _ _ ihg ih =>
    -- the integers of the group, and those of the other operands
    have hgs : List.Forall₂ (Yields sc) gs (ns.take gs.length) :=
      (List.forall₂_take_append _ _ _ hes.flip).flip
    have hrest : List.Forall₂ (Yields sc) es (ns.drop gs.length) :=
      (List.forall₂_drop_append _ _ _ hes.flip).flip
    obtain ⟨ms, hms, hgroup⟩ := ihg hgs
    obtain ⟨ns', hns', hsum⟩ := ih hrest
    obtain ⟨w, hw, heval⟩ := eval_plus hms fun _ => howner
    have hfits : Text.fits w = true := by simpa [Text.fits] using hw.fits
    refine ⟨w :: ns', .cons (yields_ofInt heval hfits) hns', ?_⟩
    have hsplit : ns.sum = (ns.take gs.length).sum + (ns.drop gs.length).sum := by
      rw [← List.sum_append, List.take_append_drop]
    rw [List.sum_cons, hsplit]
    exact (hw.modEq.trans hgroup).add hsum
  | order hperm _ ih =>
    obtain ⟨ms, hms, hperm'⟩ := List.perm_comp_forall₂ hperm.symm hes
    obtain ⟨ns', hns', hsum⟩ := ih hms
    rw [hperm'.sum_eq] at hsum
    exact ⟨ns', hns', hsum⟩

/-- Sums do not depend on the order or on the grouping of their operands. -/
theorem Regroups.eval_eq (h : Regroups es es') (howner : sc.heap.contains sc.owner = true)
    (hes : List.Forall₂ (Yields sc) es ns) :
    (Expr.apply .plus es').eval sc = (Expr.apply .plus es).eval sc := by
  obtain ⟨ns', hes', hsum⟩ := h.exists_yields howner hes
  obtain ⟨w, hw, heval⟩ := eval_plus hes fun _ => howner
  obtain ⟨w', hw', heval'⟩ := eval_plus hes' fun _ => howner
  have hsame : w' = w := Text.Represents.unique ⟨hw'.fits, hw'.modEq.trans hsum⟩ hw
  rw [heval, heval', hsame]

/-- What was added is taken away again, also if the sum wraps around. -/
theorem eval_minus_plus (hx : Yields sc x m) (hy : Yields sc y n) :
    (Expr.apply .minus [.apply .plus [x, y], y]).eval sc = .ok (.ofInt m) := by
  have hpair : List.Forall₂ (Yields sc) [x, y] [m, n] := .cons hx (.cons hy .nil)
  obtain ⟨w, hw, hplus⟩ := eval_plus hpair nofun
  have hfits : Text.fits w = true := by simpa [Text.fits] using hw.fits
  obtain ⟨w', hw', hminus⟩ := eval_minus (yields_ofInt hplus hfits) hy
  have hback : w' ≡ m [ZMOD Text.modulus] := by
    have hsum : ([m, n].sum : Int) - n = m := by simp
    have hsub : w - n ≡ [m, n].sum - n [ZMOD Text.modulus] := hw.modEq.sub_right n
    rw [hsum] at hsub
    exact hw'.modEq.trans hsub
  have hsame : w' = m :=
    Text.Represents.unique ⟨hw'.fits, hback⟩ (Text.represents_self hx.fits)
  rw [hminus, hsame]

end Expr

/-- Let operands evaluate to integers. Their sum is the canonical 64-bit integer that represents the
    exact sum, and so are the sums of the same operands in any other order and in any nested groups;
    the sum of no operands is zero. A difference represents the exact difference, and taking away
    what was added gives back the other operand. The two order relations compare the exact integers.
    All expressions are evaluated on behalf of an object of the heap, and where there is an operand
    that has a value, this is so. -/
theorem arithmetic_is_exact_modulo {sc : Scope} :
    (∀ es ns, List.Forall₂ (Expr.Yields sc) es ns →
      (es = [] → sc.heap.contains sc.owner = true) →
      (∃ w, Text.Represents w ns.sum ∧ (Expr.apply .plus es).eval sc = .ok (.ofInt w)) ∧
      ∀ es', Expr.Regroups es es' →
        (Expr.apply .plus es').eval sc = (Expr.apply .plus es).eval sc) ∧
    (sc.heap.contains sc.owner = true → (Expr.apply .plus []).eval sc = .ok (.ofInt 0)) ∧
    ∀ x y m n, Expr.Yields sc x m → Expr.Yields sc y n →
      (∃ w, Text.Represents w (m - n) ∧ (Expr.apply .minus [x, y]).eval sc = .ok (.ofInt w)) ∧
      (Expr.apply .minus [.apply .plus [x, y], y]).eval sc = .ok (.ofInt m) ∧
      (Expr.apply .geq [x, y]).eval sc = .ok (.boolean (m ≥ n)) ∧
      (Expr.apply .leq [y, x]).eval sc = .ok (.boolean (m ≥ n)) := by
  refine ⟨fun es ns hes howner => ⟨Expr.eval_plus hes howner, fun es' hgroups => ?_⟩,
    fun howner => ?_, fun x y m n hx hy => ?_⟩
  · have hon : sc.heap.contains sc.owner = true := by
      cases hes with
      | nil => exact howner rfl
      | cons he _ => exact he.contains_owner
    exact hgroups.eval_eq hon hes
  · have hnone : List.Forall₂ (Expr.Yields sc) [] [] := .nil
    obtain ⟨w, hw, heval⟩ := Expr.eval_plus hnone fun _ => howner
    have hzero : Text.Represents 0 ([] : List Int).sum := Text.represents_self (by decide)
    rw [heval, hw.unique hzero]
  · refine ⟨Expr.eval_minus hx hy, Expr.eval_minus_plus hx hy, ?_, ?_⟩
    · exact Expr.eval_binaryInt (fun m n => .boolean (m ≥ n)) (fun _ => rfl) hx hy
    · exact Expr.eval_binaryInt (fun n m => .boolean (n ≤ m)) (fun _ => rfl) hy hx

/-- The greatest integer and one: their sum is the least one, in whichever order and groups they are
    added. Taking one away leads back. -/
theorem arithmetic_is_exact_modulo_of_extremes :
    let owner : Ref := ⟨"obj1", "C"⟩
    let sc : Scope := ⟨∅, (∅ : Heap).insert owner ∅, .object owner⟩
    let x : Expr := .lit (.integer "9223372036854775807")
    let y : Expr := .lit (.integer "+1")
    let least : Value := .integer "-9223372036854775808"
    Expr.Yields sc x 9223372036854775807 ∧ Expr.Yields sc y 1 ∧
      Expr.Regroups [x, y] [y, .apply .plus [x], .apply .plus []] ∧
      (Expr.apply .plus [x, y]).eval sc = .ok least ∧
      (Expr.apply .plus [y, .apply .plus [x], .apply .plus []]).eval sc = .ok least ∧
      (Expr.apply .minus [.apply .plus [x, y], y]).eval sc =
        .ok (.integer "9223372036854775807") ∧
      (Expr.apply .geq [x, y]).eval sc = .ok (.boolean true) := by
  intro owner sc x y least
  have hlit : ∀ v, (Expr.lit v).eval sc = .ok v := Expr.eval_lit (by decide)
  have hx : Expr.Yields sc x 9223372036854775807 := ⟨_, hlit _, by decide⟩
  have hy : Expr.Yields sc y 1 := ⟨_, hlit _, by decide⟩
  have hgroups : Expr.Regroups [x, y] [y, .apply .plus [x], .apply .plus []] :=
    .order (List.Perm.swap y x []) (.keep y (.group (.keep x .nil) (.group .nil .nil)))
  obtain ⟨hsums, -, hpairs⟩ := @arithmetic_is_exact_modulo sc
  obtain ⟨⟨w, hw, hplus⟩, hsame⟩ := hsums [x, y] _ (.cons hx (.cons hy .nil)) nofun
  obtain ⟨-, hback, hgeq, -⟩ := hpairs x y _ _ hx hy
  have hleast : Text.Represents (-9223372036854775808) [9223372036854775807, 1].sum :=
    ⟨by decide, by decide⟩
  rw [hw.unique hleast] at hplus
  exact ⟨hx, hy, hgroups, hplus, (hsame _ hgroups).trans hplus, hback, hgeq⟩

/-- On behalf of an object that is not on the heap even the sum of no operands has no value. -/
theorem empty_sum_needs_owner :
    let owner : Value := .object ⟨"obj1", "C"⟩
    let sc : Scope := ⟨∅, ∅, owner⟩
    List.Forall₂ (Expr.Yields sc) [] [] ∧
      (Expr.apply .plus []).eval sc = .error (.unknownObject owner) ∧
      (Expr.apply .plus []).eval sc ≠ .ok (.ofInt 0) := by
  intro owner sc
  have heval : (Expr.apply .plus []).eval sc = .error (.unknownObject owner) := rfl
  exact ⟨.nil, heval, by simp [heval]⟩

end ObjectMachine
