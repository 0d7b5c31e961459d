import Mathlib.Data.Set.Basic
import ObjectMachine.Proofs.ClassQueries

namespace ObjectMachine

/-!
# Class expressions are set algebra

What a class expression means can be said without reading it: its words are class names and
connectives by turns, a class name stands for a set of subjects, and the connectives stand for
intersection and union, applied from left to right. The store answers every text accordingly,
whatever its table holds.

* `Text.pieces` — the words of a text;
* `ClassExpr.Alternates` — the words that make a class expression;
* `ClassExpr.denote` — the set of subjects that these words stand for;
* `ClassExpr.exists_read_iff` — what is read are the words that make a class expression;
* `ClassExpr.mem_members_iff` — what is selected is the set that they stand for;
* `class_expressions_denote_set_algebra` — so the store refuses all other texts, and answers these.
-/

/-! ### Words -/

namespace Text

/-- The words of a text: what stands between white space, empty pieces left out. -/
def pieces (text : String) : List String :=
  ((text.toList.splitOnP isBlank).filter fun piece => piece ≠ []).map String.ofList

/-- Words are cut off one by one; the characters that were read so far belong to the first piece. -/
theorem wordsFrom_eq (current cs : List Char) :
    wordsFrom current cs =
      (((cs.splitOnP isBlank).modifyHead fun piece => current.reverse ++ piece).filter
        fun piece => piece ≠ []).map String.ofList := by
  induction cs generalizing current with
  | nil =>
    rw [wordsFrom, List.splitOnP_nil]
    cases current <;> simp
  | cons c cs ih =>
    rw [wordsFrom, List.splitOnP_cons_eq_if_modifyHead]
    have hrest : wordsFrom [] cs =
        ((cs.splitOnP isBlank).filter fun piece => piece ≠ []).map String.ofList := by
      rw [ih]
      cases cs.splitOnP isBlank <;> rfl
    by_cases hblank : isBlank c = true
    · rw [if_pos hblank, if_pos hblank, hrest]
      cases current <;> simp
    · rw [if_neg hblank, if_neg hblank, ih, List.modifyHead_modifyHead]
      congr 3
      funext piece
      simp

theorem words_eq_pieces (text : String) : words text = pieces text := by
  rw [words, wordsFrom_eq, pieces]
  cases text.toList.splitOnP isBlank <;> rfl

end Text

/-! ### What words make a class expression -/

/-- Letters in the sense of class names. -/
def IsLetter (c : Char) : Prop :=
  'A' ≤ c ∧ c ≤ 'Z' ∨ 'a' ≤ c ∧ c ≤ 'z'

/-- The word starts with a letter or an underscore, and has letters, digits and underscores only. -/
def IsName (word : String) : Prop :=
  ∃ c cs, word.toList = c :: cs ∧ (IsLetter c ∨ c = '_') ∧
    ∀ d ∈ cs, IsLetter d ∨ d = '_' ∨ '0' ≤ d ∧ d ≤ '9'

/-- The words are the same up to the case of letters. -/
def SameUpToCase (word word' : String) : Prop :=
  word.toList.map Char.toLower = word'.toList.map Char.toLower

instance (word word' : String) : Decidable (SameUpToCase word word') :=
  inferInstanceAs (Decidable (_ = _))

/-- The word is a connective, in any case. -/
def IsConnective (word : String) : Prop :=
  SameUpToCase word "and" ∨ SameUpToCase word "or"

namespace ClassExpr

/-- Class names stand at even positions, and connectives at odd ones. -/
def Fits (position : Nat) (word : String) : Prop :=
  if position % 2 = 0 then IsName word else IsConnective word

/-- The words are an odd number of class names and connectives by turns. -/
structure Alternates (words : List String) : Prop where
  odd : words.length % 2 = 1
  fits : ∀ i (h : i < words.length), Fits i words[i]

/-- The subjects that a table states to belong to a class. -/
def extension (table : List Triple) (cls : String) : Set String :=
  {s | ⟨s, typePredicate, cls⟩ ∈ table}

/-- Joins a set with those of the class names to come: with `and` the intersection is taken, with
    `or` the union. -/
def denoteFrom (table : List Triple) (known : Set String) : List String → Set String
  | joiner :: cls :: words =>
    denoteFrom table
      (if SameUpToCase joiner "and" then known ∩ extension table cls
        else known ∪ extension table cls) words
  | _ => known

/-- The set of subjects that the words of a class expression stand for. -/
def denote (table : List Triple) : List String → Set String
  | [] => ∅
  | cls :: words => denoteFrom table (extension table cls) words

end ClassExpr

/-! ### Class names and connectives -/

theorem isLetter_iff {c : Char} :
    IsLetter c ↔ 65 ≤ c.toNat ∧ c.toNat ≤ 90 ∨ 97 ≤ c.toNat ∧ c.toNat ≤ 122 := by
  simp only [IsLetter, Char.le_def, UInt32.le_iff_toNat_le]
  exact Iff.rfl

theorem isDigit_iff_le {c : Char} : Text.isDigit c = true ↔ '0' ≤ c ∧ c ≤ '9' := by
  rw [Text.isDigit_iff, Char.le_def, Char.le_def, UInt32.le_iff_toNat_le, UInt32.le_iff_toNat_le]
  exact Iff.rfl

theorem isNameChar_iff {c : Char} :
    isNameChar c = true ↔ IsLetter c ∨ c = '_' ∨ '0' ≤ c ∧ c ≤ '9' := by
  have hletter : c.isAlpha = true ↔ IsLetter c := by
    have halpha : c.isAlpha =
        (decide ('A' ≤ c ∧ c ≤ 'Z') || (decide ('a' ≤ c) && decide (c ≤ 'z'))) := rfl
    simp only [halpha, IsLetter, Bool.or_eq_true, Bool.and_eq_true, decide_eq_true_eq]
  rw [isNameChar, Bool.or_eq_true, Bool.or_eq_true, hletter, isDigit_iff_le, decide_eq_true_eq,
    or_assoc]

/-- No digit is a letter or an underscore. -/
theorem not_isDigit_of_letter {c : Char} (h : IsLetter c ∨ c = '_') : Text.isDigit c = false := by
  rw [Bool.eq_false_iff]
  intro hdigit
  rw [Text.isDigit_iff] at hdigit
  rcases h with h | rfl
  · rw [isLetter_iff] at h
    omega
  · exact absurd hdigit (by decide)

theorem isClassName_iff {word : String} : isClassName word = true ↔ IsName word := by
  unfold isClassName IsName
  cases word.toList with
  | nil => simp
  | cons c cs =>
    simp only [Bool.and_eq_true, Bool.not_eq_true', List.all_eq_true, isNameChar_iff,
      List.cons.injEq]
    constructor
    · intro ⟨⟨hc, hdigit⟩, hcs⟩
      refine ⟨c, cs, ⟨rfl, rfl⟩, ?_, hcs⟩
      rcases hc with hc | hc | hc
      · exact .inl hc
      · exact .inr hc
      · exact absurd (isDigit_iff_le.2 hc) (by simp [hdigit])
    · rintro ⟨_, _, ⟨rfl, rfl⟩, hc, hcs⟩
      exact ⟨⟨hc.imp_right .inl, not_isDigit_of_letter hc⟩, hcs⟩

/-- A word spells a connective if it is the same up to case. -/
theorem Connective.ofWord?_eq (word : String) :
    Connective.ofWord? word =
      if SameUpToCase word "and" then some .and
      else if SameUpToCase word "or" then some .or
      else none := by
  have hsame : ∀ word', word'.toList.map Char.toLower = word'.toList →
      (String.ofList (word.toList.map Char.toLower) = word' ↔ SameUpToCase word word') := by
    intro word' hlower
    rw [SameUpToCase, hlower]
    constructor
    · rintro rfl
      rw [String.toList_ofList]
    · intro h
      rw [h, String.ofList_toList]
  have hand := hsame "and" (by decide)
  have hor := hsame "or" (by decide)
  simp only [ofWord?, hand, hor]

theorem Connective.exists_ofWord?_iff {word : String} :
    (∃ c, Connective.ofWord? word = some c) ↔ IsConnective word := by
  rw [Connective.ofWord?_eq, IsConnective]
  by_cases hand : SameUpToCase word "and"
  · simp [hand]
  · by_cases hor : SameUpToCase word "or"
    · simp [hand, hor]
    · simp [hand, hor]

/-! ### Reading -/

/-- What holds of all items of a list and their positions, item by item. -/
theorem forall_getElem_cons {α : Type} {P : Nat → α → Prop} {a : α} {as : List α} :
    (∀ i (h : i < (a :: as).length), P i (a :: as)[i]) ↔
      P 0 a ∧ ∀ i (h : i < as.length), P (i + 1) as[i] := by
  constructor
  · intro h
    exact ⟨h 0 (Nat.zero_lt_succ _), fun i hi => h (i + 1) (Nat.succ_lt_succ hi)⟩
  · intro ⟨hhead, htail⟩ i hi
    cases i with
    | zero => exact hhead
    | succ i => exact htail i (Nat.lt_of_succ_lt_succ hi)

namespace ClassExpr

/-- The words fit the positions after the first one, and there is an even number of them. -/
def Continues (words : List String) : Prop :=
  words.length % 2 = 0 ∧ ∀ i (h : i < words.length), Fits (i + 1) words[i]

theorem alternates_cons {word : String} {words : List String} :
    Alternates (word :: words) ↔ IsName word ∧ Continues words := by
  have hlen : (word :: words).length % 2 = 1 ↔ words.length % 2 = 0 := by
    rw [List.length_cons]
    omega
  constructor
  · intro h
    obtain ⟨hword, hwords⟩ := forall_getElem_cons.1 h.fits
    exact ⟨hword, hlen.1 h.odd, hwords⟩
  · intro ⟨hword, heven, hwords⟩
    exact ⟨hlen.2 heven, forall_getElem_cons.2 ⟨hword, hwords⟩⟩

theorem continues_cons {joiner name : String} {words : List String} :
    Continues (joiner :: name :: words) ↔
      IsConnective joiner ∧ IsName name ∧ Continues words := by
  have hlen : (joiner :: name :: words).length % 2 = words.length % 2 := by
    rw [List.length_cons, List.length_cons]
    omega
  have hshift : ∀ i word, Fits (i + 1 + 1 + 1) word ↔ Fits (i + 1) word := by
    intro i word
    have hmod : (i + 1 + 1 + 1) % 2 = (i + 1) % 2 := by omega
    rw [Fits, Fits, hmod]
  rw [Continues, forall_getElem_cons (P := fun i => Fits (i + 1)),
    forall_getElem_cons (P := fun i => Fits (i + 1 + 1)), hlen]
  simp only [hshift]
  constructor
  · intro ⟨heven, hjoiner, hname, hwords⟩
    exact ⟨hjoiner, hname, heven, hwords⟩
  · intro ⟨hjoiner, hname, heven, hwords⟩
    exact ⟨heven, hjoiner, hname, hwords⟩

theorem exists_readRest_iff (text : String) {words : List String} :
    (∃ rest, readRest text words = .ok rest) ↔ Continues words := by
  fun_induction readRest text words with
  | case1 => simp [Continues]
  | case2 => simp [Continues]
  | case3 joiner name words hjoiner =>
    rw [continues_cons, ← Connective.exists_ofWord?_iff, hjoiner]
    simp
  | case4 joiner name words c hjoiner hname ih =>
    rw [continues_cons, ← Connective.exists_ofWord?_iff, ← isClassName_iff, ← ih]
    constructor
    · rintro ⟨rest, h⟩
      obtain ⟨rest', hrest', -⟩ := bind_eq_ok.1 h
      exact ⟨⟨c, hjoiner⟩, hname, rest', hrest'⟩
    · rintro ⟨-, -, rest', hrest'⟩
      exact ⟨(c, name) :: rest', bind_eq_ok.2 ⟨rest', hrest', rfl⟩⟩
  | case5 joiner name words c hjoiner hname =>
    rw [continues_cons, ← isClassName_iff]
    simp [hname]

/-- A text is read if its words make a class expression. -/
theorem exists_read_iff (text : String) :
    (∃ e, read text = .ok e) ↔ Alternates (Text.pieces text) := by
  rw [read, ← Text.words_eq_pieces]
  cases Text.words text with
  | nil =>
    refine ⟨?_, fun h => absurd h.odd (by simp)⟩
    rintro ⟨e, h⟩
    exact absurd h (by simp)
  | cons name rest =>
    rw [alternates_cons, ← isClassName_iff]
    show (∃ e, (if rest.length % 2 = 1 then _ else _) = Except.ok e) ↔ _
    by_cases hlen : rest.length % 2 = 1
    · rw [if_pos hlen]
      refine ⟨?_, fun h => absurd h.2.1 (by omega)⟩
      rintro ⟨e, h⟩
      exact absurd h (by simp)
    · rw [if_neg hlen]
      by_cases hname : isClassName name = true
      · rw [if_pos hname, ← exists_readRest_iff text]
        constructor
        · rintro ⟨e, h⟩
          obtain ⟨rest', hrest', -⟩ := bind_eq_ok.1 h
          exact ⟨hname, rest', hrest'⟩
        · rintro ⟨-, rest', hrest'⟩
          exact ⟨⟨name, rest'⟩, bind_eq_ok.2 ⟨rest', hrest', rfl⟩⟩
      · rw [if_neg hname]
        refine ⟨?_, fun h => absurd h.1 hname⟩
        rintro ⟨e, h⟩
        exact absurd h (by simp)

theorem category?_of_readRest {text : String} {words : List String} {fault : KnowledgeFault}
    (h : readRest text words = .error fault) : fault.category? = some .knowledgeContract := by
  fun_induction readRest text words with
  | case1 => simp at h
  | case4 joiner name words c hjoiner hname ih =>
    rcases bind_eq_error.1 h with h | ⟨rest, -, h⟩
    · exact ih h
    · simp at h
  | _ =>
    obtain rfl := Except.error.inj h
    rfl

/-- A text that is no class expression breaks the contract. -/
theorem category?_of_read {text : String} {fault : KnowledgeFault} (h : read text = .error fault) :
    fault.category? = some .knowledgeContract := by
  rw [read] at h
  split at h
  · obtain rfl := Except.error.inj h
    rfl
  · split at h
    · obtain rfl := Except.error.inj h
      rfl
    · split at h
      · rcases bind_eq_error.1 h with h | ⟨rest, -, h⟩
        · exact category?_of_readRest h
        · simp at h
      · obtain rfl := Except.error.inj h
        rfl

/-! ### Selecting -/

theorem mem_ofClass {table : List Triple} {cls s : String} :
    s ∈ ofClass table cls ↔ s ∈ extension table cls := by
  rw [ofClass, List.mem_map]
  constructor
  · rintro ⟨t, ht, rfl⟩
    obtain ⟨hmem, ht⟩ := List.mem_filter.1 ht
    obtain ⟨hpredicate, hobject⟩ : t.predicate = typePredicate ∧ t.object = cls := by simpa using ht
    show ⟨t.subject, typePredicate, cls⟩ ∈ table
    rw [← hpredicate, ← hobject]
    exact hmem
  · intro hmem
    exact ⟨⟨s, typePredicate, cls⟩, List.mem_filter.2 ⟨hmem, by simp⟩, rfl⟩

/-- A connective joins what is selected as the sets are joined. -/
theorem mem_join_iff {joiner : String} {c : Connective} (hc : Connective.ofWord? joiner = some c)
    {ms others : List String} {known other : Set String} (hms : ∀ s, s ∈ ms ↔ s ∈ known)
    (hothers : ∀ s, s ∈ others ↔ s ∈ other) (s : String) :
    s ∈ join c ms others ↔
      s ∈ if SameUpToCase joiner "and" then known ∩ other else known ∪ other := by
  rw [Connective.ofWord?_eq] at hc
  rw [mem_join]
  by_cases hand : SameUpToCase joiner "and"
  · rw [if_pos hand] at hc
    obtain rfl := Option.some.inj hc
    rw [if_pos hand]
    simp [Connective.holds, hms, hothers]
  · rw [if_neg hand, Option.ite_none_right_eq_some] at hc
    obtain rfl := Option.some.inj hc.2
    rw [if_neg hand]
    simp [Connective.holds, hms, hothers]

theorem mem_foldl_join {text : String} {table : List Triple} {words : List String}
    {rest : List (Connective × String)} (h : readRest text words = .ok rest) {ms : List String}
    {known : Set String} (hms : ∀ s, s ∈ ms ↔ s ∈ known) (s : String) :
    s ∈ rest.foldl (fun ms j => join j.1 ms (ofClass table j.2)) ms ↔
      s ∈ denoteFrom table known words := by
  fun_induction readRest text words generalizing rest ms known with
  | case1 =>
    obtain rfl := Except.ok.inj h
    exact hms s
  | case4 joiner name words c hjoiner hname ih =>
    obtain ⟨rest', hrest', h⟩ := bind_eq_ok.1 h
    obtain rfl := pure_eq_ok.1 h
    rw [List.foldl_cons, denoteFrom]
    exact ih hrest' (mem_join_iff hjoiner hms fun _ => mem_ofClass)
  | _ => simp at h

/-- What is read starts with a class name, and goes on with the words after it. -/
theorem exists_of_read {text : String} {e : ClassExpr} (h : read text = .ok e) :
    ∃ name words rest, Text.words text = name :: words ∧ readRest text words = .ok rest ∧
      e = ⟨name, rest⟩ := by
  rw [read] at h
  split at h
  · simp at h
  · rename_i name words hwords
    split at h
    · simp at h
    · split at h
      · obtain ⟨rest, hrest, h⟩ := bind_eq_ok.1 h
        exact ⟨name, words, rest, hwords, hrest, (pure_eq_ok.1 h).symm⟩
      · simp at h

/-- What a class expression selects is the set that its words stand for. -/
theorem mem_members_iff {text : String} {e : ClassExpr} (h : read text = .ok e)
    (table : List Triple) (s : String) :
    s ∈ e.members table ↔ s ∈ denote table (Text.pieces text) := by
  obtain ⟨name, words, rest, hwords, hrest, rfl⟩ := exists_of_read h
  rw [← Text.words_eq_pieces, hwords]
  exact mem_foldl_join hrest (fun _ => mem_ofClass) s

/-- Two words are read at a time. -/
theorem length_of_readRest {text : String} {words : List String}
    {rest : List (Connective × String)} (h : readRest text words = .ok rest) :
    words.length = 2 * rest.length := by
  fun_induction readRest text words generalizing rest with
  | case1 =>
    obtain rfl := Except.ok.inj h
    rfl
  | case4 joiner name words c hjoiner hname ih =>
    obtain ⟨rest', hrest', h⟩ := bind_eq_ok.1 h
    obtain rfl := pure_eq_ok.1 h
    rw [List.length_cons, List.length_cons, List.length_cons, ih hrest']
    omega
  | _ => simp at h

/-- There is a connective if there is more than one word. -/
theorem rest_ne_nil {text : String} {e : ClassExpr} (h : read text = .ok e)
    (hlen : 1 < (Text.pieces text).length) : e.rest ≠ [] := by
  obtain ⟨name, words, rest, hwords, hrest, rfl⟩ := exists_of_read h
  rw [← Text.words_eq_pieces, hwords, List.length_cons, length_of_readRest hrest] at hlen
  rintro rfl
  simp at hlen

end ClassExpr

/-- Whatever the table of an open store holds and whatever text it is asked, the store answers with
    what the query for the text selects. The text breaks the contract exactly if its words are not
    class names and connectives by turns; otherwise the answer is the set that these words stand
    for, shorter names first, and without duplicates if there is a connective. -/
theorem class_expressions_denote_set_algebra (table : List Triple) (text : String) :
    let answer := Store.derive text ⟨table, false⟩
    let words := Text.pieces text
    ((∃ fault, answer = .error fault ∧ fault.category? = some .knowledgeContract) ↔
      ¬ClassExpr.Alternates words) ∧
    (ClassExpr.Alternates words → ∃ ids, answer = .ok ids ∧
      (∀ s, s ∈ ids ↔ s ∈ ClassExpr.denote table words) ∧
      (ids.Pairwise fun a b => a.length < b.length ∨ a.length = b.length ∧ a ≤ b) ∧
      (1 < words.length → ids.Nodup)) ∧
    ((∃ fault, ClassExpr.compile text = .error fault ∧ answer = .error fault) ∨
      ∃ sql params query ids, ClassExpr.compile text = .ok (sql, params) ∧
        (∀ query' : Sql.Compound, query'.text = sql ↔ query' = query) ∧
        query.rows? params table = some ids ∧ answer = .ok ids) := by
  intro answer words
  have hread := ClassExpr.exists_read_iff text
  refine ⟨?_, ?_, Store.derive_eq_compile table text⟩
  · rw [← hread]
    constructor
    · rintro ⟨fault, hfault, -⟩ ⟨e, he⟩
      simp only [answer, Store.derive, he] at hfault
      simp at hfault
    · intro hnone
      cases he : ClassExpr.read text with
      | ok e => exact absurd ⟨e, he⟩ hnone
      | error fault =>
        refine ⟨fault, ?_, ClassExpr.category?_of_read he⟩
        simp only [answer, Store.derive, he]
  · intro halternates
    obtain ⟨e, he⟩ := hread.2 halternates
    have hperm : (e.instances table).Perm (e.members table) := List.mergeSort_perm _ _
    refine ⟨e.instances table, by simp [answer, Store.derive, he], fun s => ?_, ?_, fun hlen => ?_⟩
    · rw [hperm.mem_iff, ClassExpr.mem_members_iff he]
    · have hsorted : (e.instances table).Pairwise fun a b => ClassExpr.before a b = true :=
        List.pairwise_mergeSort ClassExpr.before_trans ClassExpr.before_total _
      exact hsorted.imp ClassExpr.before_iff.1
    · exact hperm.nodup_iff.2 (ClassExpr.nodup_members table (ClassExpr.rest_ne_nil he hlen))

end ObjectMachine
