import ObjectMachine.Proofs.Continuation

namespace ObjectMachine

/-!
# Joining statements

A statement is extended on the right, and what stands first stays first. So it is a list in
disguise: the direct first statements on the way down to the right, and at the end a statement that
is no sequence. Joining two statements joins these lists, whatever is nested to the left:

* `Stmt.spine` — the list of a statement, `Stmt.block_spine` — the statement of the list;
* `Stmt.spine_append` — joining statements joins their lists; `Stmt.append_assoc`;
* `Stmt.first?_append`, `Stmt.awaiting?_append` — what stands first is kept;
* `Stmt.text_append` — how joined statements are shown;
* `Stmt.append_block_iff` — when joined blocks are the block of the joined lists;
* `joining_concatenates` — all of this together.
-/

namespace Stmt

/-! ### The list of a statement -/

/-- The direct first statements on the way down to the right, and the statement at its end. -/
def spine : Stmt → List Stmt
  | seq first second => first :: second.spine
  | s => [s]

theorem spine_ne_nil (s : Stmt) : s.spine ≠ [] := by
  cases s <;> simp [spine]

/-- Only a sequence has more than itself on its spine. -/
theorem spine_eq_singleton_iff {s : Stmt} : s.spine = [s] ↔ s.isSeq = false := by
  cases s
  case seq first second => simp [spine, isSeq, spine_ne_nil]
  all_goals simp [spine, isSeq]

theorem block_cons (s : Stmt) {ss : List Stmt} (h : ss ≠ []) :
    block (s :: ss) = seq s (block ss) := by
  obtain ⟨t, rest, rfl⟩ := List.exists_cons_of_ne_nil h
  rfl

/-- A statement is the block of its spine. -/
@[simp] theorem block_spine (s : Stmt) : block s.spine = s := by
  induction s with
  | seq first second _ ih => rw [spine, block_cons first second.spine_ne_nil, ih]
  | _ => rfl

/-- Statements are known by their spines. -/
theorem spine_inj {s t : Stmt} : s.spine = t.spine ↔ s = t := by
  refine ⟨fun h => ?_, congrArg spine⟩
  rw [← block_spine s, h, block_spine]

/-- The last statement of a block adds its own spine. -/
theorem spine_block_concat (ss : List Stmt) (s : Stmt) :
    (block (ss ++ [s])).spine = ss ++ s.spine := by
  induction ss with
  | nil => rfl
  | cons t rest ih => rw [List.cons_append, block_cons t (by simp), spine, ih, List.cons_append]

/-! ### Joining -/

/-- Joining statements joins their spines. -/
@[simp] theorem spine_append (s next : Stmt) : (s.append next).spine = s.spine ++ next.spine := by
  induction s with
  | seq first second _ ih => simp [append, spine, ih]
  | _ => rfl

theorem append_assoc (s t u : Stmt) : (s.append t).append u = s.append (t.append u) := by
  rw [← spine_inj]
  simp

/-- Joined blocks are the block of the joined lists exactly if the first list has a last statement
    and this is no sequence. The empty list has none: its block is a statement of its own, which
    stays in front. -/
theorem append_block_iff {ss ts : List Stmt} (hts : ts ≠ []) :
    (block ss).append (block ts) = block (ss ++ ts) ↔
      ∃ s, ss.getLast? = some s ∧ s.isSeq = false := by
  obtain ⟨ts, t, rfl⟩ := (List.eq_nil_or_concat ts).resolve_left hts
  rw [← spine_inj, spine_append, List.concat_eq_append, ← List.append_assoc, spine_block_concat,
    spine_block_concat, ← List.append_assoc, List.append_cancel_right_eq,
    List.append_cancel_right_eq]
  rcases List.eq_nil_or_concat ss with rfl | ⟨ss, s, rfl⟩
  · simp [block, spine]
  · -- both sides have `ss` in front, so the spine of the last statement decides
    rw [List.concat_eq_append, spine_block_concat, List.append_cancel_left_eq,
      spine_eq_singleton_iff]
    simp

/-- The direct first statement of a sequence. -/
def first? : Stmt → Option Stmt
  | seq first _ => some first
  | _ => none

/-- What is joined starts with the direct first statement of its first part, or with this part
    itself. -/
theorem first?_append (s next : Stmt) : (s.append next).first? = some (s.first?.getD s) := by
  cases s <;> rfl

/-- A statement that waits for the result of a call still waits for it when it is extended. -/
theorem awaiting?_append (s next : Stmt) :
    (s.append next).awaiting? = s.awaiting?.map fun p => (p.1, some (before p.2 next)) := by
  cases s
  case seq first second => cases first <;> rfl
  all_goals rfl

theorem text_append (s next : Stmt) : (s.append next).text = s.text ++ "; " ++ next.text := by
  induction s with
  | seq first second _ ih => simp [append, text, ih, String.append_assoc]
  | _ => rfl

end Stmt

/-- Joining is concatenation of lists of statements:

    * it is associative;
    * the leaves of what is joined are those of the first part, followed by those of the second one;
    * it starts with the direct first statement of the first part, or with this part itself if that
      is no sequence; so a pending call at the front is kept, with its target, and the second part
      is run after everything else;
    * it is shown as both parts with a semicolon in between;
    * two blocks, the second of which is not empty, are joined to the block of all their statements
      exactly if the first one has a last statement and that is no sequence. -/
theorem joining_concatenates (s t u : Stmt) :
    (s.append t).append u = s.append (t.append u) ∧
    (s.append t).leaves = s.leaves ++ t.leaves ∧
    (s.append t).first? = some (s.first?.getD s) ∧
    (s.append t).awaiting? = s.awaiting?.map (fun p => (p.1, some (Stmt.before p.2 t))) ∧
    (s.append t).text = s.text ++ "; " ++ t.text ∧
    ∀ (xs : List Stmt) (y : Stmt) (ys : List Stmt),
      (Stmt.block xs).append (Stmt.block (y :: ys)) = Stmt.block (xs ++ y :: ys) ↔
        ∃ x, xs.getLast? = some x ∧ x.isSeq = false := by
  refine ⟨Stmt.append_assoc s t u, Stmt.leaves_append s t, Stmt.first?_append s t,
    Stmt.awaiting?_append s t, Stmt.text_append s t, fun xs y ys => ?_⟩
  exact Stmt.append_block_iff (List.cons_ne_nil y ys)

end ObjectMachine
