import ObjectMachine.Proofs.Joining

namespace ObjectMachine

/-!
# Bracketing

Two statements are variants of each other if they differ only in how their sequences are
bracketed, in branches and loop bodies too. Every statement has one variant in which all sequences
are bracketed to the right, and variants are compared by it:

* `Stmt.Variant` — the relation;
* `Stmt.normal` — the variant with all sequences bracketed to the right;
* `Stmt.variant_iff` — variants are the statements with the same normal form;
* `Stmt.head_normal`, `Stmt.tail?_normal`, `Stmt.normal_append` — the normal form of what a step
  looks at and of what it leaves;
* `Stmt.text_normal` — variants are shown alike.
-/

namespace Stmt

/-- The statements differ only in how sequences are bracketed. -/
inductive Variant : Stmt → Stmt → Prop where
  | refl (s : Stmt) : Variant s s
  | symm {s t : Stmt} (h : Variant s t) : Variant t s
  | trans {s t u : Stmt} (h : Variant s t) (h' : Variant t u) : Variant s u
  | assoc (a b c : Stmt) : Variant (seq (seq a b) c) (seq a (seq b c))
  | seq {a a' b b' : Stmt} (ha : Variant a a') (hb : Variant b b') :
      Variant (seq a b) (seq a' b')
  | cond (guard : Expr) {a a' b b' : Stmt} (ha : Variant a a') (hb : Variant b b') :
      Variant (cond guard a b) (cond guard a' b')
  | loop (guard : Expr) {body body' : Stmt} (h : Variant body body') :
      Variant (loop guard body) (loop guard body')

/-! ### Normal forms -/

/-- The leaves of a statement, with all sequences inside of them bracketed to the right. -/
def flat : Stmt → List Stmt
  | seq first second => first.flat ++ second.flat
  | cond guard onTrue onFalse => [cond guard (block onTrue.flat) (block onFalse.flat)]
  | loop guard body => [loop guard (block body.flat)]
  | s => [s]

/-- The statement with all sequences bracketed to the right. -/
def normal (s : Stmt) : Stmt :=
  block s.flat

theorem flat_ne_nil (s : Stmt) : s.flat ≠ [] := by
  induction s with
  | seq first second ih _ => simp [flat, ih]
  | _ => simp [flat]

theorem isSeq_of_mem_flat {s x : Stmt} (h : x ∈ s.flat) : x.isSeq = false := by
  induction s with
  | seq first second ih₁ ih₂ =>
    rcases List.mem_append.1 h with h | h
    · exact ih₁ h
    · exact ih₂ h
  | _ =>
    obtain rfl := List.mem_singleton.1 h
    rfl

/-- A statement other than a sequence is its only leaf, up to what is inside of it. -/
theorem flat_of_not_isSeq {s : Stmt} (h : s.isSeq = false) : s.flat = [s.normal] := by
  cases s
  case seq => exact absurd h (by simp [isSeq])
  all_goals rfl

/-- The leaves are no sequences, so a block can be joined to the block of them. -/
theorem append_block_flat (s : Stmt) {ts : List Stmt} (hts : ts ≠ []) :
    (block s.flat).append (block ts) = block (s.flat ++ ts) := by
  have hlast : s.flat.getLast? = some (s.flat.getLast s.flat_ne_nil) :=
    List.getLast?_eq_some_getLast s.flat_ne_nil
  exact (append_block_iff hts).2 ⟨_, hlast, isSeq_of_mem_flat (List.getLast_mem s.flat_ne_nil)⟩

@[simp] theorem flat_append (s next : Stmt) : (s.append next).flat = s.flat ++ next.flat := by
  induction s with
  | seq first second _ ih => simp [append, flat, ih]
  | _ => simp [append, flat]

/-- The normal form of a continuation that was extended. -/
theorem normal_append (s next : Stmt) : (s.append next).normal = s.normal.append next.normal := by
  rw [normal, flat_append]
  exact (append_block_flat s next.flat_ne_nil).symm

theorem normal_andThen (s : Stmt) (rest : Option Stmt) :
    (s.andThen rest).normal = s.normal.andThen (rest.map normal) := by
  cases rest with
  | none => rfl
  | some next => exact normal_append s next

theorem normal_before (rest : Option Stmt) (next : Stmt) :
    (before rest next).normal = before (rest.map normal) next.normal := by
  cases rest with
  | none => rfl
  | some s => exact normal_append s next

theorem isSeq_normal {s : Stmt} (h : s.isSeq = false) : s.normal.isSeq = false :=
  isSeq_of_mem_flat (s := s) (by rw [flat_of_not_isSeq h]; simp)

/-- The normal form of a sequence joins those of its parts. -/
theorem normal_seq (first second : Stmt) :
    (seq first second).normal = first.normal.append second.normal :=
  (append_block_flat first second.flat_ne_nil).symm

/-! ### What a step looks at -/

theorem head_append (s next : Stmt) : (s.append next).head = s.head := by
  cases s <;> rfl

theorem tail?_append (s next : Stmt) : (s.append next).tail? = some (before s.tail? next) := by
  cases s
  case seq first second =>
    -- both sides put `next` last, one of them before the rest of `first` is joined
    show some (before first.tail? (second.append next)) =
      some ((before first.tail? second).append next)
    cases first.tail? with
    | none => rfl
    | some rest => exact congrArg some (append_assoc rest second next).symm
  all_goals rfl

/-- The head of the normal form is the normal form of the head. -/
theorem head_normal (s : Stmt) : s.normal.head = s.head.normal := by
  induction s with
  | seq first second ih _ => rw [normal_seq, head_append, ih, head]
  | _ => exact head_of_not_isSeq (isSeq_normal rfl)

/-- The tail of the normal form is the normal form of the tail. -/
theorem tail?_normal (s : Stmt) : s.normal.tail? = s.tail?.map normal := by
  induction s with
  | seq first second ih _ =>
    rw [normal_seq, tail?_append, ih, ← normal_before]
    rfl
  | _ => exact tail?_of_not_isSeq (isSeq_normal rfl)

/-! ### Variants -/

theorem Variant.flat_eq {s t : Stmt} (h : Variant s t) : s.flat = t.flat := by
  induction h with
  | refl s => rfl
  | symm _ ih => exact ih.symm
  | trans _ _ ih ih' => exact ih.trans ih'
  | assoc a b c => simp [flat]
  | seq _ _ iha ihb => rw [flat, flat, iha, ihb]
  | cond guard _ _ iha ihb => rw [flat, flat, iha, ihb]
  | loop guard _ ih => rw [flat, flat, ih]

theorem variant_append (s next : Stmt) : Variant (seq s next) (s.append next) := by
  induction s with
  | seq first second _ ih => exact (Variant.assoc first second next).trans (.seq (.refl _) ih)
  | _ => exact .refl _

theorem variant_normal (s : Stmt) : Variant s s.normal := by
  induction s with
  | seq first second ih₁ ih₂ =>
    rw [normal_seq]
    exact (Variant.seq ih₁ ih₂).trans (variant_append _ _)
  | cond guard a b iha ihb => exact .cond guard iha ihb
  | loop guard body ih => exact .loop guard ih
  | _ => exact .refl _

/-- Two statements are variants of each other exactly if they have the same normal form. -/
theorem variant_iff {s t : Stmt} : Variant s t ↔ s.normal = t.normal := by
  constructor
  · intro h
    rw [normal, normal, h.flat_eq]
  · intro h
    have hs : Variant s t.normal := h ▸ variant_normal s
    exact hs.trans (variant_normal t).symm

/-- The normal form is shown as the statement is. -/
theorem text_normal (s : Stmt) : s.normal.text = s.text := by
  induction s with
  | seq first second ih₁ ih₂ => rw [normal_seq, text_append, ih₁, ih₂, text]
  | cond guard a b iha ihb =>
    show (cond guard a.normal b.normal).text = _
    rw [text, iha, ihb, text]
  | loop guard body ih =>
    show (loop guard body.normal).text = _
    rw [text, ih, text]
  | _ => rfl

end Stmt

end ObjectMachine
