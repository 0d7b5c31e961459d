import Mathlib.Data.List.Forall2
import ObjectMachine.Proofs.Integers
import ObjectMachine.Proofs.Operands
import ObjectMachine.Proofs.Protocol

namespace ObjectMachine

/-!
# Placeholders of queries

A query is sent with its placeholders `%1`, `%2`, ... replaced by its parameters. They are replaced
one number after the other, from the highest one down, and each time in a text that already holds
the parameters with higher numbers. This file compares that with a replacement of all of them at
once:

* `Template.parse` — the placeholders of a query, `Template.instantiate` — all of them replaced at
  once;
* `Template.Undisturbed` — no parameter becomes part of a placeholder when it is filled in;
* `Template.render` — the text while only the parameters above a number are filled in,
  `Template.replaceFrom_render` — one more of them is;
* `Template.fill_eq_instantiate` — all of them are;
* `Machine.Queries` — the machines that send a query;
* `parameters_are_filled_in_at_once` — undisturbed parameters are filled in as if all of them were
  at once;
* `parameters_are_filled_in_one_by_one` — others are not.
-/

/-! ### Replacing -/

namespace Text

variable {old new : List Char}

theorem replaceFrom_eq_drop (skip : Nat) (cs : List Char) :
    replaceFrom old new skip cs = replaceFrom old new 0 (cs.drop skip) := by
  induction cs generalizing skip with
  | nil => simp [replaceFrom]
  | cons c cs ih =>
    cases skip with
    | zero => rfl
    | succ skip => exact ih skip

theorem replaceFrom_cons {c : Char} {cs : List Char} (h : ¬ old <+: c :: cs) :
    replaceFrom old new 0 (c :: cs) = c :: replaceFrom old new 0 cs := by
  rw [replaceFrom, if_neg (by simpa using h)]

/-- An occurrence at the front is replaced, and the rest is searched after it. -/
theorem replaceFrom_append (h : old ≠ []) (cs : List Char) :
    replaceFrom old new 0 (old ++ cs) = new ++ replaceFrom old new 0 cs := by
  obtain ⟨c, tail, rfl⟩ := List.exists_cons_of_ne_nil h
  rw [List.cons_append, replaceFrom, if_pos (by simp), replaceFrom_eq_drop]
  simp

/-! ### Numerals -/

theorem digitsValue_repr (n : Nat) : digitsValue (Nat.repr n).toList = n :=
  (all_of_digits? (digits?_repr n)).2

/-- Digits at the end do not make a number smaller. -/
theorem le_foldl_digits (n : Nat) (cs : List Char) :
    n ≤ cs.foldl (fun n c => 10 * n + (c.toNat - 48)) n := by
  induction cs generalizing n with
  | nil => exact Nat.le_refl n
  | cons c cs ih =>
    have hfirst : n ≤ 10 * n + (c.toNat - 48) := by omega
    exact Nat.le_trans hfirst (ih _)

end Text

namespace Template

/-! ### Templates -/

/-- The placeholder of a parameter. -/
def marker (k : Nat) : List Char :=
  '%' :: (Nat.repr k).toList

theorem marker_ne_nil (k : Nat) : marker k ≠ [] :=
  List.cons_ne_nil _ _

/-- The percent sign of a placeholder is its first character only. -/
theorem eq_of_suffix_marker {k : Nat} {post : List Char} (h : '%' :: post <:+ marker k) :
    post = (Nat.repr k).toList := by
  rcases List.suffix_cons_iff.1 h with heq | h
  · exact (List.cons.inj heq).2
  · have hdigit := Text.isDigit_of_mem_repr (h.subset (List.mem_cons_self ..))
    exact absurd hdigit (by decide)

/-- A query consists of characters that are copied and of placeholders. -/
inductive Piece where
  | copied (c : Char)
  | hole (k : Nat)
deriving DecidableEq, Repr

/-- The placeholder that a text starts with, if there are `n` parameters. It is the one with the
    highest number. -/
def placeholder? (n : Nat) (cs : List Char) : Option Nat :=
  (List.range' 1 n).reverse.find? fun k => (marker k).isPrefixOf cs

/-- The pieces of a query with `n` parameters, from left to right. The first `skip` characters
    belong to a placeholder that is already found. -/
def parse (n skip : Nat) : List Char → List Piece
  | [] => []
  | c :: cs =>
    match skip with
    | skip + 1 => parse n skip cs
    | 0 =>
      match placeholder? n (c :: cs) with
      | some k => .hole k :: parse n ((marker k).length - 1) cs
      | none => .copied c :: parse n 0 cs

/-- A piece with its placeholder filled in. -/
def Piece.filled (texts : Nat → List Char) : Piece → List Char
  | .copied c => [c]
  | .hole k => texts k

/-- What is filled in for the placeholders: the parameters, as knowledge bases store them. -/
def inserted (vs : List Value) (k : Nat) : List Char :=
  match vs[k - 1]? with
  | some v => v.identifier.toList
  | none => []

/-- A query with all its placeholders replaced at once. -/
def instantiate (q : String) (vs : List Value) : String :=
  String.ofList ((parse vs.length 0 q.toList).flatMap (Piece.filled (inserted vs)))

variable {n k i j b skip : Nat} {c : Char} {cs : List Char} {x : Piece} {ps rest : List Piece}
  {texts : Nat → List Char}

theorem placeholder?_eq_some (h : placeholder? n cs = some k) :
    1 ≤ k ∧ k ≤ n ∧ marker k <+: cs := by
  have hmem : k ∈ (List.range' 1 n).reverse := List.mem_of_find?_eq_some h
  have hprefix := List.find?_some h
  have hrange := List.mem_range'_1.1 (List.mem_reverse.1 hmem)
  exact ⟨hrange.1, by omega, by simpa using hprefix⟩

/-- No placeholder is missed for one with a lower number. -/
theorem exists_placeholder_ge (hi : 1 ≤ i) (hn : i ≤ n) (h : marker i <+: cs) :
    ∃ k, placeholder? n cs = some k ∧ i ≤ k := by
  have hmem : i ∈ (List.range' 1 n).reverse :=
    List.mem_reverse.2 (List.mem_range'_1.2 ⟨hi, by omega⟩)
  have hdescending : (List.range' 1 n).reverse.Pairwise (· > ·) :=
    List.pairwise_reverse.2 List.pairwise_lt_range'
  cases hfound : placeholder? n cs with
  | none =>
    have hno := List.find?_eq_none.1 hfound i hmem
    exact absurd h (by simpa using hno)
  | some k =>
    refine ⟨k, rfl, ?_⟩
    obtain ⟨-, above, below, hsplit, habove⟩ := List.find?_eq_some_iff_append.1 hfound
    rw [hsplit] at hmem hdescending
    rcases List.mem_append.1 hmem with hmem | hmem
    · have hno := habove i hmem
      rw [List.isPrefixOf_iff_prefix.2 h] at hno
      exact absurd hno (by decide)
    · rcases List.mem_cons.1 hmem with rfl | hmem
      · exact Nat.le_refl _
      · have hpair := (List.pairwise_append.1 hdescending).2.1
        exact Nat.le_of_lt ((List.pairwise_cons.1 hpair).1 i hmem)

theorem parse_eq_drop (n skip : Nat) (cs : List Char) :
    parse n skip cs = parse n 0 (cs.drop skip) := by
  induction cs generalizing skip with
  | nil => simp [parse]
  | cons c cs ih =>
    cases skip with
    | zero => rfl
    | succ skip => exact ih skip

/-- What the first piece of a query is, and what the others are the pieces of. -/
theorem parse_eq_cons (h : parse n 0 cs = x :: rest) :
    ∃ tail, rest = parse n 0 tail ∧
      ((∃ k, x = .hole k ∧ placeholder? n cs = some k ∧ cs = marker k ++ tail) ∨
        ∃ c, x = .copied c ∧ placeholder? n cs = none ∧ cs = c :: tail) := by
  cases cs with
  | nil => simp [parse] at h
  | cons c cs =>
    rw [parse] at h
    split at h
    · rename_i k hk
      obtain ⟨rfl, rfl⟩ := List.cons.inj h
      obtain ⟨-, -, tail, htail⟩ := placeholder?_eq_some hk
      have hcs : cs = (Nat.repr k).toList ++ tail := (List.cons.inj htail).2.symm
      refine ⟨tail, ?_, .inl ⟨k, rfl, hk, htail.symm⟩⟩
      rw [parse_eq_drop, hcs]
      simp [marker]
    · rename_i hnone
      obtain ⟨rfl, rfl⟩ := List.cons.inj h
      exact ⟨cs, rfl, .inr ⟨c, rfl, hnone, rfl⟩⟩

theorem exists_parse_of_cons (h : parse n 0 (c :: cs) = x :: rest) :
    ∃ skip, rest = parse n skip cs := by
  rw [parse] at h
  split at h
  · exact ⟨_, (List.cons.inj h).2.symm⟩
  · exact ⟨_, (List.cons.inj h).2.symm⟩

/-- The last pieces of a query are the pieces of its end. -/
theorem exists_parse_of_suffix (h : ps <:+ parse n skip cs) : ∃ tail, ps = parse n 0 tail := by
  induction cs generalizing skip with
  | nil => exact ⟨[], List.suffix_nil.1 h⟩
  | cons c cs ih =>
    cases skip with
    | succ skip => exact ih h
    | zero =>
      cases hp : parse n 0 (c :: cs) with
      | nil =>
        rw [hp] at h
        exact ⟨[], List.suffix_nil.1 h⟩
      | cons x rest =>
        rw [hp] at h
        rcases List.suffix_cons_iff.1 h with rfl | h
        · exact ⟨c :: cs, hp.symm⟩
        · obtain ⟨skip, rfl⟩ := exists_parse_of_cons hp
          exact ih h

theorem le_of_hole_mem_parse (h : .hole k ∈ parse n skip cs) : 1 ≤ k ∧ k ≤ n := by
  obtain ⟨before, rest, hsplit⟩ := List.append_of_mem h
  have hsuffix : .hole k :: rest <:+ parse n skip cs := ⟨before, hsplit.symm⟩
  obtain ⟨tail, htail⟩ := exists_parse_of_suffix hsuffix
  obtain ⟨-, -, ⟨k', hk', hp, -⟩ | ⟨c, hc, -⟩⟩ := parse_eq_cons htail.symm
  · obtain rfl := Piece.hole.inj hk'
    obtain ⟨hpos, hle, -⟩ := placeholder?_eq_some hp
    exact ⟨hpos, hle⟩
  · exact Piece.noConfusion hc

/-! ### Texts with some parameters filled in -/

/-- A piece while only the parameters above `j` are filled in. -/
def Piece.text (texts : Nat → List Char) (j : Nat) : Piece → List Char
  | .copied c => [c]
  | .hole k => if j < k then texts k else marker k

/-- The text of a query while only the parameters above `j` are filled in. -/
def render (texts : Nat → List Char) (j : Nat) (ps : List Piece) : List Char :=
  ps.flatMap (Piece.text texts j)

@[simp] theorem render_nil : render texts j [] = [] := rfl

@[simp] theorem render_cons : render texts j (x :: ps) = x.text texts j ++ render texts j ps := rfl

/-- Before anything is filled in, the text is the query. -/
theorem render_parse (texts : Nat → List Char) (n skip : Nat) (cs : List Char) :
    render texts n (parse n skip cs) = cs.drop skip := by
  induction cs generalizing skip with
  | nil => simp [parse]
  | cons c cs ih =>
    cases skip with
    | succ skip => exact ih skip
    | zero =>
      rw [parse]
      split
      · rename_i k hk
        obtain ⟨-, hle, tail, htail⟩ := placeholder?_eq_some hk
        obtain ⟨rfl, rfl⟩ := List.cons.inj htail
        rw [render_cons, ih, Piece.text, if_neg (by omega)]
        simp [marker]
      · rw [render_cons, ih]
        rfl

/-- In the end all placeholders are filled in. -/
theorem render_zero (h : ∀ k, .hole k ∈ ps → 1 ≤ k) :
    render texts 0 ps = ps.flatMap (Piece.filled texts) := by
  refine List.flatMap_congr fun x hx => ?_
  cases x with
  | copied c => rfl
  | hole k => exact if_pos (h k hx)

/-! ### Placeholders that inserted text completes -/

/-- The digit `c` turns `%k` into the placeholder of a parameter below `b`. A percent sign alone is
    taken for `%0`. -/
def Completes (k b : Nat) (c : Char) : Prop :=
  Text.isDigit c = true ∧ 0 < 10 * k + (c.toNat - 48) ∧ 10 * k + (c.toNat - 48) < b

instance : Decidable (Completes k b c) :=
  inferInstanceAs (Decidable (_ ∧ _ ∧ _))

/-- Right after `%k` there comes to stand a digit that completes a placeholder which is not filled
    in yet. What follows `%k` are the characters `cs` and then the pieces, when the parameters from
    `b` on are filled in. Where nothing is left of those, it is looked for behind them. -/
def Extends (texts : Nat → List Char) (k b : Nat) : List Char → List Piece → Prop
  | c :: _, _ => Completes k b c
  | [], [] => False
  | [], .copied c :: _ => Completes k b c
  | [], .hole i :: rest => Extends texts k (min b i) (texts i) rest

theorem extends_cons : Extends texts k b (c :: cs) ps ↔ Completes k b c := by
  cases ps <;> rfl

/-- The number of the placeholder that a piece may be the beginning of. -/
def Piece.start? : Piece → Option Nat
  | .copied c => if c = '%' then some 0 else none
  | .hole k => some k

/-- No text that is filled in becomes part of a placeholder: neither of one that begins with a
    percent sign or a placeholder of the query right before it, nor of one that begins with a
    percent sign in the text itself. -/
structure Undisturbed (texts : Nat → List Char) (ps : List Piece) : Prop where
  query : ∀ x k i rest, x.start? = some k → x :: .hole i :: rest <:+ ps →
    ¬ Extends texts k i (texts i) rest
  inserted : ∀ k post rest, .hole k :: rest <:+ ps → '%' :: post <:+ texts k →
    ¬ Extends texts 0 k post rest

/-- The digits after the percent sign of `%k`, with none for a percent sign alone. -/
def numeral (k : Nat) : List Char :=
  if k = 0 then [] else (Nat.repr k).toList

theorem numeral_of_pos (h : 1 ≤ k) : numeral k = (Nat.repr k).toList :=
  if_neg (by omega)

theorem digitsValue_numeral (k : Nat) : Text.digitsValue (numeral k) = k := by
  unfold numeral
  split
  · rename_i hzero
    exact hzero.symm
  · exact Text.digitsValue_repr k

theorem Completes.mono {b' : Nat} (h : Completes k b c) (hb : b ≤ b') : Completes k b' c :=
  ⟨h.1, h.2.1, Nat.lt_of_lt_of_le h.2.2 hb⟩

/-- A digit that completes a placeholder is the last digit of its number. -/
theorem Completes.repr_eq (h : Completes k b c) :
    (Nat.repr (10 * k + (c.toNat - 48))).toList = numeral k ++ [c] := by
  obtain ⟨hdigit, hpos, -⟩ := h
  have hall : [c].all Text.isDigit = true := by simpa using hdigit
  unfold numeral
  split
  · rename_i hzero
    subst hzero
    have hc : c ≠ '0' := by
      rintro rfl
      exact absurd hpos (by decide)
    have hvalue : Text.digitsValue [c] = 10 * 0 + (c.toNat - 48) := rfl
    rw [← hvalue, List.nil_append]
    exact Text.repr_digitsValue hc hall
  · rename_i hk
    have hfold := Text.toDigits_foldl (Nat.pos_of_ne_zero hk) hall
    rw [Nat.toList_repr, Nat.toList_repr]
    exact hfold

/-- If the digits of `j` are found in `%k` and what follows it, but `k` is below `j`, the first
    character that follows completes a placeholder. -/
theorem exists_completes (hk : k < j) (h : (Nat.repr j).toList <+: numeral k ++ cs) :
    ∃ c tail, cs = c :: tail ∧ Completes k (j + 1) c := by
  have hj := Text.digitsValue_repr j
  have hvalue := digitsValue_numeral k
  rcases List.prefix_or_prefix_of_prefix h (List.prefix_append (numeral k) cs) with hle | hle
  · -- then `j` would not be above `k`
    obtain ⟨more, hmore⟩ := hle
    rw [← hmore, Text.digitsValue, List.foldl_append, ← Text.digitsValue, hj] at hvalue
    have hle := Text.le_foldl_digits j more
    omega
  · obtain ⟨more, hmore⟩ := hle
    rw [← hmore] at h
    obtain ⟨tail, rfl⟩ := (List.prefix_append_right_inj _).1 h
    cases more with
    | nil =>
      rw [← hmore, List.append_nil, hvalue] at hj
      omega
    | cons c more =>
      have hdigit : Text.isDigit c = true :=
        Text.isDigit_of_mem_repr (n := j) (by rw [← hmore]; simp)
      refine ⟨c, more ++ tail, rfl, hdigit, ?_, ?_⟩
      · by_cases hzero : k = 0
        · -- the first digit of a number is no zero
          obtain ⟨c', cs', hcs, -, hc⟩ := Text.exists_repr_cons (n := j) (by omega)
          rw [← hmore, numeral, if_pos hzero] at hcs
          obtain ⟨rfl, -⟩ := List.cons.inj hcs
          have hrange := Text.isDigit_iff.1 hdigit
          have hne : c.toNat ≠ '0'.toNat := fun heq => hc (Char.toNat_inj.1 heq)
          have hchar : '0'.toNat = 48 := rfl
          omega
        · omega
      · rw [← hmore, Text.digitsValue, List.foldl_append, ← Text.digitsValue, hvalue] at hj
        have hle := Text.le_foldl_digits (10 * k + (c.toNat - 48)) more
        rw [List.foldl_cons] at hj
        omega

theorem completes_of_prefix (hk : k < j) (hb : j < b)
    (h : (Nat.repr j).toList <+: numeral k ++ c :: cs) : Completes k b c := by
  obtain ⟨c', tail, hcs, hcompletes⟩ := exists_completes hk h
  obtain ⟨rfl, -⟩ := List.cons.inj hcs
  exact hcompletes.mono hb

/-- The digits of `j` are found only where a placeholder is completed. -/
theorem extends_of_prefix (hk : k < j) (hb : j < b)
    (h : (Nat.repr j).toList <+: numeral k ++ (cs ++ render texts j ps)) :
    Extends texts k b cs ps := by
  induction ps generalizing b cs with
  | nil =>
    cases cs with
    | cons c cs => exact completes_of_prefix hk hb h
    | nil =>
      obtain ⟨c, tail, hcs, -⟩ := exists_completes hk h
      simp at hcs
  | cons x ps ih =>
    cases cs with
    | cons c cs => exact completes_of_prefix hk hb h
    | nil =>
      cases x with
      | copied c => exact completes_of_prefix hk hb h
      | hole i =>
        rw [List.nil_append, render_cons, Piece.text] at h
        split at h
        · rename_i hi
          exact ih (by omega) h
        · -- a placeholder that is not filled in starts with a percent sign
          have hpercent := completes_of_prefix hk hb h
          exact absurd hpercent.1 (by decide)

/-! ### Filling in one parameter after the other -/

/-- Whichever of the `n` parameters are filled in, there are no other placeholders than those of the
    query. -/
structure Sound (texts : Nat → List Char) (n : Nat) (ps : List Piece) : Prop where
  pos : ∀ k, .hole k ∈ ps → 1 ≤ k
  query : ∀ x k rest, x.start? = some k → x :: rest <:+ ps → ¬ Extends texts k (n + 1) [] rest
  inserted : ∀ k post rest, .hole k :: rest <:+ ps → '%' :: post <:+ texts k →
    ¬ Extends texts 0 k post rest

theorem Sound.tail (h : Sound texts n (x :: ps)) : Sound texts n ps where
  pos k hk := h.pos k (List.mem_cons_of_mem x hk)
  query y k rest hy hrest := h.query y k rest hy (hrest.trans (List.suffix_cons x ps))
  inserted k post rest hrest := h.inserted k post rest (hrest.trans (List.suffix_cons x ps))

/-- A character of the query does not complete a placeholder, for else this one would have been
    found instead of the piece before it. -/
theorem not_completes_of_suffix (hx : x.start? = some k)
    (h : x :: .copied c :: rest <:+ parse n skip cs) : ¬ Completes k (n + 1) c := by
  intro hcompletes
  -- the text that the two pieces were found at the front of
  obtain ⟨text, htext⟩ := exists_parse_of_suffix h
  obtain ⟨tail, htail, hfirst⟩ := parse_eq_cons htext.symm
  obtain ⟨tail', -, ⟨i, hi, -⟩ | ⟨c', hc', -, rfl⟩⟩ := parse_eq_cons htail.symm
  · exact Piece.noConfusion hi
  obtain rfl := Piece.copied.inj hc'
  have hmarker : marker (10 * k + (c.toNat - 48)) = '%' :: (numeral k ++ [c]) :=
    congrArg (List.cons '%') hcompletes.repr_eq
  rcases hfirst with ⟨i, rfl, hi, rfl⟩ | ⟨d, rfl, hnone, rfl⟩
  · obtain rfl : i = k := Option.some.inj hx
    obtain ⟨hpos, -, -⟩ := placeholder?_eq_some hi
    have hprefix : marker (10 * i + (c.toNat - 48)) <+: marker i ++ c :: tail' := by
      rw [hmarker, numeral_of_pos hpos, marker]
      exact ⟨tail', by simp⟩
    obtain ⟨i', hi', hle⟩ := exists_placeholder_ge hcompletes.2.1
      (Nat.le_of_lt_succ hcompletes.2.2) hprefix
    obtain rfl : i = i' := Option.some.inj (hi.symm.trans hi')
    omega
  · obtain ⟨rfl, rfl⟩ : d = '%' ∧ k = 0 := by
      simpa [Piece.start?, eq_comm] using hx
    have hprefix : marker (10 * 0 + (c.toNat - 48)) <+: '%' :: c :: tail' := by
      rw [hmarker]
      exact ⟨tail', rfl⟩
    obtain ⟨i', hi', -⟩ := exists_placeholder_ge hcompletes.2.1
      (Nat.le_of_lt_succ hcompletes.2.2) hprefix
    exact absurd hi' (by simp [hnone])

theorem Undisturbed.sound (h : Undisturbed texts (parse n skip cs)) :
    Sound texts n (parse n skip cs) where
  pos k hk := (le_of_hole_mem_parse hk).1
  query x k rest hx hrest := by
    cases rest with
    | nil => exact id
    | cons y rest =>
      cases y with
      | copied c => exact not_completes_of_suffix hx hrest
      | hole i =>
        have hi : i ≤ n := (le_of_hole_mem_parse (hrest.subset (by simp))).2
        rw [Extends, Nat.min_eq_right (by omega)]
        exact h.query x k i rest hx hrest
  inserted := h.inserted

/-- A text in which no placeholder of `j` begins is left as it is. -/
theorem replaceFrom_marker {new text after : List Char}
    (h : ∀ post, '%' :: post <:+ text → ¬ (Nat.repr j).toList <+: post ++ after) :
    Text.replaceFrom (marker j) new 0 (text ++ after) =
      text ++ Text.replaceFrom (marker j) new 0 after := by
  induction text with
  | nil => rfl
  | cons c text ih =>
    have hfirst : ¬ marker j <+: c :: (text ++ after) := by
      intro hprefix
      obtain ⟨rfl, hdigits⟩ := List.cons_prefix_cons.1 hprefix
      exact h text (List.suffix_refl _) hdigits
    rw [List.cons_append, Text.replaceFrom_cons hfirst, List.cons_append,
      ih fun post hpost => h post (hpost.trans (List.suffix_cons c text))]

/-- Filling in one more parameter. -/
theorem replaceFrom_render (hj : j < n) (h : Sound texts n ps) :
    Text.replaceFrom (marker (j + 1)) (texts (j + 1)) 0 (render texts (j + 1) ps) =
      render texts j ps := by
  induction ps with
  | nil => rfl
  | cons x ps ih =>
    have hrest := ih h.tail
    cases x with
    | copied c =>
      rw [render_cons, Piece.text, replaceFrom_marker, hrest]
      · rfl
      · -- only a percent sign could begin a placeholder
        intro post hpost hprefix
        obtain ⟨rfl, rfl⟩ : '%' = c ∧ post = [] := by simpa [List.suffix_cons_iff] using hpost
        refine h.query (.copied '%') 0 ps rfl (List.suffix_refl _) ?_
        exact extends_of_prefix (by omega) (by omega) hprefix
    | hole k =>
      rcases Nat.lt_trichotomy k (j + 1) with hk | rfl | hk
      · -- the placeholder comes later, and is not the beginning of a higher one
        have hpos : 1 ≤ k := h.pos k (by simp)
        rw [render_cons, render_cons, Piece.text, Piece.text, if_neg (by omega), if_neg (by omega),
          replaceFrom_marker, hrest]
        intro post hpost hprefix
        obtain rfl := eq_of_suffix_marker hpost
        refine h.query (.hole k) k ps rfl (List.suffix_refl _) ?_
        exact extends_of_prefix hk (by omega) (by rwa [numeral_of_pos hpos])
      · rw [render_cons, render_cons, Piece.text, Piece.text, if_neg (by omega), if_pos (by omega),
          Text.replaceFrom_append (marker_ne_nil (j + 1)), hrest]
      · -- what is already filled in has no placeholder
        rw [render_cons, render_cons, Piece.text, Piece.text, if_pos hk, if_pos (by omega),
          replaceFrom_marker, hrest]
        intro post hpost hprefix
        refine h.inserted k post ps (List.suffix_refl _) hpost ?_
        exact extends_of_prefix (by omega) hk hprefix

theorem inserted_succ {vs : List Value} (h : j < vs.length) :
    inserted vs (j + 1) = vs[j].identifier.toList := by
  simp [inserted, h]

/-- Filling in all parameters that are left. -/
theorem fill_render {vs : List Value} (h : Sound (inserted vs) vs.length ps) (hj : j ≤ vs.length) :
    Request.fill (String.ofList (render (inserted vs) j ps))
        (((List.range' 1 vs.length).zip vs).take j).reverse =
      String.ofList (render (inserted vs) 0 ps) := by
  induction j with
  | zero => rfl
  | succ j ih =>
    have hlt : j < ((List.range' 1 vs.length).zip vs).length := by
      simpa using Nat.lt_of_succ_le hj
    have hlast : ((List.range' 1 vs.length).zip vs)[j] = (j + 1, vs[j]) := by
      simp [Nat.add_comm]
    have hmarker : ("%" ++ Nat.repr (j + 1)).toList = marker (j + 1) := by
      simp [marker]
    have hstep : Text.replaceAll (String.ofList (render (inserted vs) (j + 1) ps))
        ("%" ++ Nat.repr (j + 1)) vs[j].identifier =
        String.ofList (render (inserted vs) j ps) := by
      rw [Text.replaceAll, hmarker, String.toList_ofList, ← inserted_succ hj,
        replaceFrom_render hj h]
    rw [List.take_succ_eq_append_getElem hlt, hlast, List.reverse_append, List.reverse_singleton,
      List.singleton_append, Request.fill, hstep]
    exact ih (by omega)

/-- The parameters are filled in as if all of them were at once. -/
theorem fill_eq_instantiate {q : String} {vs : List Value}
    (h : Undisturbed (inserted vs) (parse vs.length 0 q.toList)) :
    Request.fill q ((List.range' 1 vs.length).reverse.zip vs.reverse) = instantiate q vs := by
  have hsound := h.sound
  have hzip : (List.range' 1 vs.length).reverse.zip vs.reverse =
      (((List.range' 1 vs.length).zip vs).take vs.length).reverse := by
    rw [List.take_of_length_le (by simp)]
    exact (List.reverse_zipWith (by simp)).symm
  -- from the query itself to the text with everything filled in
  have hfill := fill_render hsound (Nat.le_refl _)
  rw [render_parse, render_zero hsound.pos] at hfill
  rw [hzip, instantiate, ← hfill]
  simp

end Template

/-! ### What is sent -/

/-- The values of a list of expressions are those of its members. -/
theorem Expr.evalAll_eq_ok {sc : Scope} {es : List Expr} {vs : List Value} :
    Expr.evalAll sc es = .ok vs ↔ List.Forall₂ (fun e v => e.eval sc = .ok v) es vs := by
  constructor
  · intro h
    induction es generalizing vs with
    | nil =>
      obtain rfl := pure_eq_ok.1 h
      exact .nil
    | cons e es ih =>
      rw [Expr.evalAll] at h
      obtain ⟨v, hv, h⟩ := bind_eq_ok.1 h
      obtain ⟨ws, hws, h⟩ := bind_eq_ok.1 h
      obtain rfl := pure_eq_ok.1 h
      exact .cons hv (ih hws)
  · intro h
    induction h with
    | nil => rfl
    | cons hv _ ih =>
      rw [Expr.evalAll, hv, ih]
      rfl

/-- Expressions have the same values whether they are evaluated from the first or from the last
    one. -/
theorem Expr.evalAll_reverse {sc : Scope} {es : List Expr} {vs : List Value}
    (h : Expr.evalAll sc es = .ok vs) : Expr.evalAll sc es.reverse = .ok vs.reverse :=
  Expr.evalAll_eq_ok.2 (List.forall₂_reverse_iff.2 (Expr.evalAll_eq_ok.1 h))

namespace Machine

/-- The next step of a machine sends a query: the top frame is to query for `q` with parameters that
    have the values `vs`, and nothing stands in the way of it. -/
structure Queries (m : Machine) (f : Frame) (below : List Frame) (q : String) (vs : List Value) :
    Prop where
  stack : m.stack = f :: below
  limit : m.limitReached = false
  list : Machine.hasListClass m.classes = true
  head : ∃ target text params, f.stmt.head = .query target text params ∧
    text.eval (m.scopeOf f) = .ok (.string q) ∧ Expr.evalAll (m.scopeOf f) params = .ok vs

theorem Queries.asks {m : Machine} {f : Frame} {below : List Frame} {q : String} {vs : List Value}
    (h : m.Queries f below q vs) :
    m.Asks f below
      (.query (Request.fill q ((List.range' 1 vs.length).reverse.zip vs.reverse))) := by
  obtain ⟨target, text, params, hhead, htext, hparams⟩ := h.head
  refine ⟨h.stack, h.limit, Expr.contains_of_eval htext, ?_, h.list⟩
  have hasks : (Stmt.query target text params).Asks (m.scopeOf f) _ :=
    .query htext (Expr.evalAll_reverse hparams)
  rw [hhead]
  simpa using hasks

/-- A machine that is to send a query. -/
def querying (q : String) (vs : List Value) : Machine :=
  (Machine.new (.ofList [(listClass, ⟨["content", "next"], ∅⟩)]) ∅ 0).operate
    (none : Option (KnowledgeBase Unit))
    (.start (.query (.var "r") (.lit (.string q)) (vs.map .lit)))

theorem exists_queries (q : String) (vs : List Value) :
    ∃ f, (querying q vs).Queries f [] q vs := by
  have hlist : hasListClass (.ofList [(listClass, ⟨["content", "next"], ∅⟩)]) = true := by decide
  exact ⟨_, rfl, rfl, hlist, _, _, _, rfl, rfl, Expr.evalAll_map_lit rfl vs⟩

end Machine

/-- A knowledge base that has no answers. -/
def noAnswers : KnowledgeBase Unit where
  dump _ _ := (.ok (), ())
  query _ _ := (.ok [], ())
  derive _ _ := (.ok [], ())

/-- As long as no parameter becomes part of a placeholder, the query that is sent is the one with
    all placeholders replaced at once. -/
theorem parameters_are_filled_in_at_once {σ : Type} (base : KnowledgeBase σ) (s : σ) {m : Machine}
    {f : Frame} {below : List Frame} {q : String} {vs : List Value} (h : m.Queries f below q vs)
    (hundisturbed : Template.Undisturbed (Template.inserted vs)
      (Template.parse vs.length 0 q.toList)) :
    m.calls base s = base.block m.heap (.query (Template.instantiate q vs)) s := by
  rw [h.asks.calls_eq base s, Template.fill_eq_instantiate hundisturbed]

/-- A query with a percent sign before a placeholder and a digit after another one, and with a
    parameter that has a percent sign. -/
theorem parameters_are_filled_in_at_once_beside_percent_signs :
    let q := "%12 %%2 %"
    let vs : List Value := [.string "50%", .string "x"]
    let m := Machine.querying q vs
    Template.Undisturbed (Template.inserted vs) (Template.parse vs.length 0 q.toList) ∧
      ∃ f, m.Queries f [] q vs ∧
        m.calls noAnswers () =
          [.dump m.heap (.ok ()), .put (.query "\"50%\"2 %\"x\" %") (.ok [])] := by
  intro q vs m
  have hparse : Template.parse vs.length 0 q.toList =
      [.hole 1, .copied '2', .copied ' ', .copied '%', .hole 2, .copied ' ', .copied '%'] := by
    decide
  have hfirst : Template.inserted vs 1 = ['"', '5', '0', '%', '"'] := by decide
  have hsecond : Template.inserted vs 2 = ['"', 'x', '"'] := by decide
  have hundisturbed :
      Template.Undisturbed (Template.inserted vs) (Template.parse vs.length 0 q.toList) := by
    rw [hparse]
    constructor
    · intro x k i rest hx hrest
      obtain ⟨rfl, rfl, -⟩ : x = .copied '%' ∧ i = 2 ∧ rest = [.copied ' ', .copied '%'] := by
        simpa [List.suffix_cons_iff] using hrest
      obtain rfl : 0 = k := Option.some.inj hx
      rw [hsecond, Template.extends_cons]
      decide
    · intro k post rest hrest hpost
      have hk : k = 1 ∨ k = 2 := by
        simpa [or_comm] using hrest.subset (List.mem_cons_self ..)
      rcases hk with rfl | rfl
      · obtain rfl : post = ['"'] := by
          simpa [hfirst, List.suffix_cons_iff] using hpost
        rw [Template.extends_cons]
        decide
      · rw [hsecond] at hpost
        exact absurd (hpost.subset (List.mem_cons_self ..)) (by decide)
  have hsent : Template.instantiate q vs = "\"50%\"2 %\"x\" %" := by decide
  obtain ⟨f, hf⟩ := Machine.exists_queries q vs
  refine ⟨hundisturbed, f, hf, ?_⟩
  rw [parameters_are_filled_in_at_once noAnswers () hf hundisturbed, hsent]
  rfl

/-- A parameter that looks like a placeholder is taken for one. -/
theorem parameters_are_filled_in_one_by_one :
    let q := "SELECT %2"
    let vs : List Value := [.string "x", .string "%1"]
    let m := Machine.querying q vs
    (∃ f, m.Queries f [] q vs) ∧ Template.instantiate q vs = "SELECT \"%1\"" ∧
      m.calls noAnswers () =
        [.dump m.heap (.ok ()), .put (.query "SELECT \"\"x\"\"") (.ok [])] := by
  intro q vs m
  obtain ⟨f, hf⟩ := Machine.exists_queries q vs
  have hfill : Request.fill q ((List.range' 1 vs.length).reverse.zip vs.reverse) =
      "SELECT \"\"x\"\"" := by decide
  refine ⟨⟨f, hf⟩, by decide, ?_⟩
  rw [hf.asks.calls_eq noAnswers (), hfill]
  rfl

/-- A digit that is filled in after a percent sign makes a placeholder with it. -/
example :
    let vs : List Value := [.string "x", .ofInt 1]
    Template.instantiate "%%2" vs = "%1" ∧
      Request.fill "%%2" ((List.range' 1 vs.length).reverse.zip vs.reverse) = "\"x\"" := by
  decide

/-- A digit that is filled in after a placeholder makes a longer one with it. -/
example :
    let vs := List.replicate 11 (Value.ofInt 0)
    Template.instantiate "%1%11" vs = "00" ∧
      Request.fill "%1%11" ((List.range' 1 vs.length).reverse.zip vs.reverse) = "0" := by
  decide +kernel

end ObjectMachine
