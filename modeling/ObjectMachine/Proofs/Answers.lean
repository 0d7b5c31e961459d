import Mathlib.Data.List.Forall2
import ObjectMachine.Proofs.Integers
import ObjectMachine.Proofs.Protocol

namespace ObjectMachine

/-!
# Answers become lists

A knowledge base answers with identifiers. Each of them stands for an object, a text or an integer,
and together they become a linked list on the heap. This file says what the list is:

* `Text.Decimal` — an integer in decimal digits;
* `Heap.Denotes` — the value that an identifier stands for, if it stands for any;
* `Heap.denotes_of_classify`, `Heap.not_denotes_of_classify` — classification finds this value;
* `Heap.Lists` — what is found by following `next` from a value;
* `Heap.lists_addList` — following the nodes of a list leads to what was in front of it;
* `answers_become_one_list` — a step with answers makes one list of new nodes, or changes nothing
  on the heap.
-/

/-! ### Identifiers -/

namespace Text

/-- Characters that are the integer `n` in decimal digits, with a minus sign in front or none. Zeros
    in front are possible. -/
inductive Decimal : List Char → Int → Prop where
  | natural {cs : List Char} (hne : cs ≠ []) (hdigits : ∀ c ∈ cs, isDigit c = true) :
      Decimal cs (digitsValue cs)
  | negated {cs : List Char} (hne : cs ≠ []) (hdigits : ∀ c ∈ cs, isDigit c = true) :
      Decimal ('-' :: cs) (-(digitsValue cs : Int))

theorem digits?_eq_some_iff {cs : List Char} {n : Nat} :
    digits? cs = some n ↔ cs ≠ [] ∧ (∀ c ∈ cs, isDigit c = true) ∧ digitsValue cs = n := by
  by_cases hcs : cs ≠ [] ∧ ∀ c ∈ cs, isDigit c = true
  · simp [digits?, hcs]
  · constructor
    · intro h
      refine absurd ⟨?_, List.all_eq_true.1 (all_of_digits? h).1⟩ hcs
      rintro rfl
      exact absurd h (by simp [digits?])
    · exact fun h => absurd ⟨h.1, h.2.1⟩ hcs

/-- What is written in decimal digits is read as what it is. -/
theorem Decimal.signedDigits?_eq {cs : List Char} {n : Int} (h : Decimal cs n) :
    signedDigits? cs = some n := by
  cases h with
  | natural hne hdigits =>
    exact signedDigits?_of_digits? (digits?_eq_some_iff.2 ⟨hne, hdigits, rfl⟩)
  | negated hne hdigits =>
    rw [signedDigits?, digits?_eq_some_iff.2 ⟨hne, hdigits, rfl⟩]
    rfl

theorem Decimal.unique {cs : List Char} {n k : Int} (h : Decimal cs n) (h' : Decimal cs k) :
    n = k :=
  Option.some.inj (h.signedDigits?_eq.symm.trans h'.signedDigits?_eq)

/-- What starts with a double quote is not written in decimal digits. -/
theorem not_decimal_quote (cs : List Char) (n : Int) : ¬Decimal ('"' :: cs) n := by
  intro h
  have hread : signedDigits? ('"' :: cs) = some n := h.signedDigits?_eq
  simp [signedDigits?, digits?, isDigit] at hread

end Text

/-- Numerals are what is written in decimal digits. -/
theorem isNumeral_iff {id : String} : isNumeral id = true ↔ ∃ n, Text.Decimal id.toList n := by
  rw [isNumeral]
  generalize id.toList = cs
  constructor
  · intro h
    split at h
    · obtain ⟨k, hk⟩ := Option.isSome_iff_exists.1 h
      obtain ⟨hne, hdigits, rfl⟩ := Text.digits?_eq_some_iff.1 hk
      exact ⟨_, .negated hne hdigits⟩
    · obtain ⟨k, hk⟩ := Option.isSome_iff_exists.1 h
      obtain ⟨hne, hdigits, rfl⟩ := Text.digits?_eq_some_iff.1 hk
      exact ⟨_, .natural hne hdigits⟩
  · rintro ⟨n, h⟩
    cases h with
    | negated hne hdigits =>
      exact Option.isSome_iff_exists.2 ⟨_, Text.digits?_eq_some_iff.2 ⟨hne, hdigits, rfl⟩⟩
    | natural hne hdigits =>
      split
      · -- a minus sign is no digit
        exact absurd (hdigits '-' List.mem_cons_self) (by decide)
      · exact Option.isSome_iff_exists.2 ⟨_, Text.digits?_eq_some_iff.2 ⟨hne, hdigits, rfl⟩⟩

/-- What stands between two double quotes is found. -/
theorem quotedBody?_eq_some_iff {cs body : List Char} :
    quotedBody? cs = some body ↔ cs = '"' :: (body ++ ['"']) := by
  constructor
  · intro h
    unfold quotedBody? at h
    split at h
    · rename_i rest
      split at h
      · rename_i rev hrest
        obtain rfl := Option.some.inj h
        rw [← List.reverse_cons, ← hrest, List.reverse_reverse]
      · simp at h
    · simp at h
  · rintro rfl
    simp [quotedBody?]

namespace Heap

/-- The value that an identifier stands for. An object goes before a text in double quotes, and this
    before a 64-bit integer in decimal digits. -/
inductive Denotes (h : Heap) (id : String) : Value → Prop where
  | object {r : Ref} (hr : h.contains (.object r) = true) (hname : r.name = id) :
      Denotes h id (.object r)
  | text {body : String} (hnone : ∀ r, h.contains (.object r) = true → r.name ≠ id)
      (hquoted : id = "\"" ++ body ++ "\"") : Denotes h id (.string body)
  | integer {n : Int} (hnone : ∀ r, h.contains (.object r) = true → r.name ≠ id)
      (hdecimal : Text.Decimal id.toList n) (hfits : Text.minInt ≤ n ∧ n ≤ Text.maxInt) :
      Denotes h id (.ofInt n)

variable {h : Heap} {id : String} {v : Value}

theorem name_ne_of_find?_eq_none (hfind : h.find? id = none) {r : Ref}
    (hr : h.contains (.object r) = true) : r.name ≠ id := by
  simpa using List.find?_eq_none.1 hfind r (mem_keys_iff.2 hr)

/-- The characters of a quoted text. -/
theorem toList_quoted (body : String) :
    ("\"" ++ body ++ "\"").toList = '"' :: (body.toList ++ ['"']) := by
  have hquote : "\"".toList = ['"'] := rfl
  rw [String.toList_append, String.toList_append, hquote, List.singleton_append, List.cons_append]

/-- What an identifier is classified as is what it stands for. -/
theorem denotes_of_classify (hv : h.classify id = .ok v) : h.Denotes id v := by
  rw [classify] at hv
  split at hv
  · rename_i r hfind
    obtain rfl := Except.ok.inj hv
    exact .object (contains_of_find? hfind) (by simpa using List.find?_some hfind)
  · rename_i hfind
    have hnone : ∀ r, h.contains (.object r) = true → r.name ≠ id :=
      fun r hr => name_ne_of_find?_eq_none hfind hr
    split at hv
    · rename_i body hbody
      obtain rfl := Except.ok.inj hv
      refine .text hnone (String.toList_inj.1 ?_)
      rw [toList_quoted, String.toList_ofList]
      exact quotedBody?_eq_some_iff.1 hbody
    · split at hv
      · rename_i hnumeral
        obtain ⟨n, hn⟩ := isNumeral_iff.1 hnumeral
        split at hv
        · rename_i k hk
          obtain rfl := Except.ok.inj hv
          rw [Text.readInt?, hn.signedDigits?_eq, Option.filter_some] at hk
          split at hk
          · rename_i hfits
            obtain rfl := Option.some.inj hk
            exact .integer hnone hn (by simpa [Text.fits] using hfits)
          · simp at hk
        · simp at hv
      · simp at hv

/-- An identifier that is not classified breaks the contract and stands for nothing. -/
theorem not_denotes_of_classify {cause : KnowledgeFault} (hid : h.classify id = .error cause) :
    cause.category? = some .knowledgeContract ∧ ∀ v, ¬h.Denotes id v := by
  rw [classify] at hid
  split at hid
  · simp at hid
  · rename_i hfind
    split at hid
    · simp at hid
    · rename_i hbody
      -- neither an object nor a text, so only an integer is left
      have honly : (∀ n, Text.Decimal id.toList n → ¬(Text.minInt ≤ n ∧ n ≤ Text.maxInt)) →
          ∀ v, ¬h.Denotes id v := by
        intro hno v hv
        cases hv with
        | object hr hname => exact name_ne_of_find?_eq_none hfind hr hname
        | text _ hquoted =>
          have hsome := quotedBody?_eq_some_iff.2 (hquoted ▸ toList_quoted _)
          rw [hbody] at hsome
          exact absurd hsome (by simp)
        | integer _ hdecimal hfits => exact hno _ hdecimal hfits
      split at hid
      · rename_i hnumeral
        split at hid
        · simp at hid
        · rename_i hread
          obtain rfl := Except.error.inj hid
          refine ⟨rfl, honly fun n hn hfits => ?_⟩
          rw [Text.readInt?, hn.signedDigits?_eq, Option.filter_some] at hread
          simp [Text.fits, hfits] at hread
      · rename_i hnumeral
        obtain rfl := Except.error.inj hid
        exact ⟨rfl, honly fun n hn _ => hnumeral (isNumeral_iff.2 ⟨n, hn⟩)⟩

/-- If only one object is called like an identifier, it stands for one value at most. -/
theorem Denotes.unique_of_alike {w : Value} (hv : h.Denotes id v) (hw : h.Denotes id w)
    (halike : ∀ r r', h.contains (.object r) = true → h.contains (.object r') = true →
      r.name = id → r'.name = id → r = r') : v = w := by
  cases hv with
  | object hr hname =>
    cases hw with
    | object hr' hname' => rw [halike _ _ hr hr' hname hname']
    | text hnone _ => exact absurd hname (hnone _ hr)
    | integer hnone _ _ => exact absurd hname (hnone _ hr)
  | text hnone hquoted =>
    cases hw with
    | object hr hname => exact absurd hname (hnone _ hr)
    | text _ hquoted' =>
      have hfront := (String.append_left_inj _).1 (hquoted.symm.trans hquoted')
      rw [(String.append_right_inj _).1 hfront]
    | integer _ hdecimal _ =>
      rw [hquoted, toList_quoted] at hdecimal
      exact absurd hdecimal (Text.not_decimal_quote _ _)
  | integer hnone hdecimal _ =>
    cases hw with
    | object hr hname => exact absurd hname (hnone _ hr)
    | text _ hquoted =>
      rw [hquoted, toList_quoted] at hdecimal
      exact absurd hdecimal (Text.not_decimal_quote _ _)
    | integer _ hdecimal' _ => rw [hdecimal.unique hdecimal']

/-- If no two objects have one name, an identifier stands for one value at most. -/
theorem Denotes.unique {w : Value} (hv : h.Denotes id v) (hw : h.Denotes id w)
    (hdistinct : ∀ r r', h.contains (.object r) = true → h.contains (.object r') = true →
      r.name = r'.name → r = r') : v = w :=
  hv.unique_of_alike hw fun r r' hr hr' hname hname' =>
    hdistinct r r' hr hr' (hname.trans hname'.symm)

/-- A response is classified if each of its identifiers is. -/
theorem forall₂_denotes_of_classifyAll {ids : List String} {vs : List Value}
    (hvs : h.classifyAll ids = .ok vs) : List.Forall₂ h.Denotes ids vs := by
  induction ids generalizing vs with
  | nil =>
    obtain rfl : [] = vs := Except.ok.inj hvs
    exact .nil
  | cons id ids ih =>
    obtain ⟨v, hv, hvs⟩ := bind_eq_ok.1 hvs
    obtain ⟨ws, hws, hvs⟩ := bind_eq_ok.1 hvs
    obtain rfl := pure_eq_ok.1 hvs
    exact .cons (denotes_of_classify hv) (ih hws)

theorem exists_denotes {ids : List String} {vs : List Value} (hvs : List.Forall₂ h.Denotes ids vs) :
    ∀ id ∈ ids, ∃ v, h.Denotes id v := by
  induction hvs with
  | nil => simp
  | cons hv _ ih => exact List.forall_mem_cons.2 ⟨⟨_, hv⟩, ih⟩

/-- A response is not classified if one of its identifiers stands for nothing, wherever it is. -/
theorem exists_not_denotes_of_classifyAll {ids : List String} {cause : KnowledgeFault}
    (hids : h.classifyAll ids = .error cause) :
    cause.category? = some .knowledgeContract ∧ ∃ id ∈ ids, ∀ v, ¬h.Denotes id v := by
  induction ids with
  | nil => exact absurd hids (by simp [classifyAll])
  | cons id ids ih =>
    rcases bind_eq_error.1 hids with hid | ⟨v, -, hids⟩
    · obtain ⟨hcategory, hno⟩ := not_denotes_of_classify hid
      exact ⟨hcategory, id, List.mem_cons_self, hno⟩
    · rcases bind_eq_error.1 hids with hids | ⟨vs, -, hids⟩
      · obtain ⟨hcategory, id', hid', hno⟩ := ih hids
        exact ⟨hcategory, id', List.mem_cons_of_mem _ hid', hno⟩
      · exact absurd hids (by simp)

/-! ### Lists on the heap -/

/-- Starting from a value and following `next`, the nodes of a list are found one after the other,
    each with its content, and null after the last one. -/
inductive Lists (h : Heap) : Value → List (Ref × Value) → Prop where
  | nil : Lists h .null []
  | cons {r : Ref} {own : Memory} {v next : Value} {nodes : List (Ref × Value)}
      (hr : h.objects.get? r = some own) (hcontent : own.get? "content" = some v)
      (hnext : own.get? "next" = some next) (hnodes : Lists h next nodes) :
      Lists h (.object r) ((r, v) :: nodes)

/-- The fields of a list node. -/
def nodeFields (v next : Value) : Memory :=
  .ofList [("content", v), ("next", next)]

theorem nodeFields_content (v next : Value) : (nodeFields v next).get? "content" = some v :=
  SortedMap.get?_ofList (e := ("content", v)) (by simp) List.mem_cons_self

theorem nodeFields_next (v next : Value) : (nodeFields v next).get? "next" = some next :=
  SortedMap.get?_ofList (e := ("next", next)) (by simp) (by simp)

/-- A list node has these two fields and no other. -/
theorem isSome_get?_nodeFields {v next : Value} {name : String} :
    ((nodeFields v next).get? name).isSome = true ↔ name = "content" ∨ name = "next" := by
  constructor
  · intro hname
    simpa using SortedMap.mem_of_isSome_get?_ofList hname
  · rintro (rfl | rfl)
    · rw [nodeFields_content]
      rfl
    · rw [nodeFields_next]
      rfl

/-- In a heap with the nodes that a list is made of, following `next` from the front of the list
    leads through all of them, the last one first, and on to what was in front before. -/
theorem lists_addList {h h' : Heap} {front : Value} {vs : List Value} {nodes : List (Ref × Value)}
    (hget : ∀ e ∈ h.newNodes front vs, h'.objects.get? e.1 = some e.2)
    (hfront : h'.Lists front nodes) :
    h'.Lists (h.addList front vs).1
      ((((h.newNodes front vs).map Prod.fst).zip vs).reverse ++ nodes) := by
  -- induction on what is still to be put in front
  induction vs generalizing h front nodes with
  | nil => exact hfront
  | cons v vs ih =>
    have hnode : h'.Lists (.object (h.alloc listClass).1) (((h.alloc listClass).1, v) :: nodes) :=
      .cons (hget _ List.mem_cons_self) (nodeFields_content v front) (nodeFields_next v front)
        hfront
    have hothers := ih (fun e he => hget e (List.mem_cons_of_mem _ he)) hnode
    rw [newNodes, List.map_cons, List.zip_cons_cons, List.reverse_cons, List.append_assoc]
    exact hothers

theorem length_newNodes (h : Heap) (front : Value) (vs : List Value) :
    (h.newNodes front vs).length = vs.length := by
  induction vs generalizing h front with
  | nil => rfl
  | cons v vs ih =>
    rw [newNodes, List.length_cons, ih, List.length_cons]

/-- Every node of a list is of the class of lists and has its two fields. -/
theorem of_mem_newNodes {h : Heap} {front : Value} {vs : List Value} {e : Ref × Memory}
    (he : e ∈ h.newNodes front vs) : e.1.cls = listClass ∧ ∃ v next, e.2 = nodeFields v next := by
  induction vs generalizing h front with
  | nil => exact absurd he List.not_mem_nil
  | cons v vs ih =>
    rcases List.mem_cons.1 he with rfl | he
    · exact ⟨rfl, v, front, rfl⟩
    · exact ih he

/-- A list takes one reference for each of its nodes. -/
theorem counter_addList {n : Nat} {h : Heap} (hn : h.Counted n) (vs : List Value) :
    (h.addList .null vs).2.counter = Text.wrap (h.counter + vs.length) := by
  rw [(hn.addList .null vs).counter, hn.counter, Int.natCast_add]
  exact Int.bmod_add_bmod.symm

/-- What a list of answers adds to a heap, as long as the number of objects is a 64-bit integer:
    for each answer one node, which was not there before. Nothing else is changed, and following
    the nodes from the front leads through the answers from the last to the first. -/
structure Enlisted (h : Heap) (vs : List Value) (front : Value) (nodes : List Ref) (h' : Heap) :
    Prop where
  length : nodes.length = vs.length
  distinct : nodes.Nodup
  cls : ∀ r ∈ nodes, r.cls = listClass
  fresh : ∀ r ∈ nodes, h.contains (.object r) = false
  fields : ∀ r ∈ nodes, ∃ own, h'.objects.get? r = some own ∧
    ∀ name, (own.get? name).isSome = true ↔ name = "content" ∨ name = "next"
  others : ∀ r, r ∉ nodes → h'.objects.get? r = h.objects.get? r
  lists : h'.Lists front (nodes.zip vs.reverse)

theorem Counted.enlisted_addList {n : Nat} {h : Heap} (hn : h.Counted n) {vs : List Value}
    (hfits : (h.addList .null vs).2.Fits) :
    h.Enlisted vs (h.addList .null vs).1 ((h.newNodes .null vs).map Prod.fst).reverse
      (h.addList .null vs).2 := by
  have hadds : h.Adds (h.newNodes .null vs) (h.addList .null vs).2 := hn.adds_addList vs
  have hdistinct := hadds.distinct hfits
  have hget : ∀ e ∈ h.newNodes .null vs, (h.addList .null vs).2.objects.get? e.1 = some e.2 := by
    intro e he
    rw [hadds.objects]
    exact SortedMap.get?_foldl_insert_of_mem hdistinct he _
  have hnode : ∀ {r}, r ∈ ((h.newNodes .null vs).map Prod.fst).reverse →
      ∃ e ∈ h.newNodes .null vs, e.1 = r :=
    fun hr => List.mem_map.1 (List.mem_reverse.1 hr)
  have hlength : ((h.newNodes .null vs).map Prod.fst).length = vs.length := by
    rw [List.length_map, length_newNodes]
  constructor
  · rw [List.length_reverse, hlength]
  · exact (List.reverse_perm _).nodup_iff.2 hdistinct
  · intro r hr
    obtain ⟨e, he, rfl⟩ := hnode hr
    exact (of_mem_newNodes he).1
  · intro r hr
    obtain ⟨e, he, rfl⟩ := hnode hr
    exact hadds.fresh hfits e he
  · intro r hr
    obtain ⟨e, he, rfl⟩ := hnode hr
    obtain ⟨-, v, next, hfields⟩ := of_mem_newNodes he
    refine ⟨e.2, hget e he, fun name => ?_⟩
    rw [hfields]
    exact isSome_get?_nodeFields
  · intro r hr
    rw [hadds.objects]
    exact SortedMap.get?_foldl_insert_of_notMem (fun hin => hr (List.mem_reverse.2 hin)) _
  · have hlists := lists_addList hget .nil
    rw [List.append_nil, List.zip, List.reverse_zipWith hlength] at hlists
    exact hlists

end Heap

/-! ### Steps with answers -/

/-- Where a request wants the list of its answers. -/
def Stmt.answerTarget? : Stmt → Option Location
  | .query target _ _ | .derive target _ => some target
  | _ => none

namespace Machine

variable {σ : Type} {base : KnowledgeBase σ} {m : Machine} {f : Frame} {below : List Frame}
  {r : Request} {s s' : σ} {ids : List String}

/-- What a machine that asks does is up to what its request is resolved to. -/
theorem Asks.exists_resolve (h : m.Asks f below r) (kb : Option (KnowledgeBase σ)) (s : σ) :
    ∃ target, f.stmt.head.answerTarget? = some target ∧
      m.effectOf kb f below s = m.resolve kb s (.ask r target) := by
  obtain ⟨target, hw⟩ := h.head.wants m.classes (f.callerIn below)
  refine ⟨target, ?_, effectOf_of_wants h.owner hw s⟩
  generalize f.stmt.head = x at hw
  cases hw <;> rfl

/-- A response with an identifier that stands for nothing makes the step fail, and nothing is put on
    the heap. -/
theorem Asks.step_of_not_denotes (h : m.Asks f below r)
    (hask : base.ask m.heap r s = (.ok ids, s')) (hids : ∃ id ∈ ids, ∀ v, ¬m.heap.Denotes id v) :
    ∃ fault, (m.step (some base) s).outcome = .failed (.frame f.id fault) ∧
      fault.category? = some .knowledgeContract ∧ (m.step (some base) s).machine.heap = m.heap := by
  obtain ⟨target, -, heffect⟩ := h.exists_resolve (some base) s
  rw [step_eq h.stack h.limit, heffect]
  cases hvs : m.heap.classifyAll ids with
  | ok vs =>
    -- then each identifier would stand for a value
    obtain ⟨id, hid, hno⟩ := hids
    obtain ⟨v, hv⟩ := Heap.exists_denotes (Heap.forall₂_denotes_of_classifyAll hvs) id hid
    exact absurd hv (hno v)
  | error cause =>
    rw [resolve_of_classify_error h.list hask hvs]
    exact ⟨.knowledge cause, rfl, (Heap.exists_not_denotes_of_classifyAll hvs).1, rfl⟩

/-- A response in which every identifier stands for a value becomes a list, and the frame goes on
    with its assignment. -/
theorem Asks.step_of_denotes (h : m.Asks f below r) (hask : base.ask m.heap r s = (.ok ids, s'))
    (hids : ∀ id ∈ ids, ∃ v, m.heap.Denotes id v) :
    (m.step (some base) s).outcome = .ran ∧ ∃ contents target g,
      List.Forall₂ m.heap.Denotes ids contents ∧ f.stmt.head.answerTarget? = some target ∧
      (m.step (some base) s).machine.heap = (m.heap.addList .null contents).2 ∧
      (m.step (some base) s).machine.stack = g :: below ∧ g.Replaces f ∧ g.locals = f.locals ∧
      g.stmt = (Stmt.assign target (.lit (m.heap.addList .null contents).1)).andThen
        f.stmt.tail? := by
  obtain ⟨target, htarget, heffect⟩ := h.exists_resolve (some base) s
  rw [step_eq h.stack h.limit, heffect]
  cases hvs : m.heap.classifyAll ids with
  | ok contents =>
    rw [resolve_of_answers h.list hask hvs]
    exact ⟨rfl, contents, target, _, Heap.forall₂_denotes_of_classifyAll hvs, htarget, rfl, rfl,
      ⟨rfl, rfl, rfl⟩, rfl, rfl⟩
  | error cause =>
    obtain ⟨-, id, hid, hno⟩ := Heap.exists_not_denotes_of_classifyAll hvs
    obtain ⟨v, hv⟩ := hids id hid
    exact absurd hv (hno v)

end Machine

/-- Operations are performed in any order on a machine that starts with an empty heap, and the next
    step asks a knowledge base, which answers. If one of the identifiers of the response stands for
    nothing, wherever it is, the step fails because of the contract and the heap is as it was. If
    each of them stands for a value on the heap before the step, the step succeeds; the frame goes
    on with the assignment of the front of the list, and as many references were handed out as
    there are answers. As long as the number of objects is a 64-bit integer, no identifier stands
    for two values, there is one new node for each of them and every other object is as it was;
    following the nodes from the front leads through the answers from the last to the first, and to
    null. -/
theorem answers_become_one_list {σ : Type} (base : KnowledgeBase σ) (classes : ClassTable)
    (maxSteps : Nat) (ops : List (Operation σ)) {f : Frame} {below : List Frame} {r : Request}
    (hasks : ((Machine.new classes ∅ maxSteps).operateAll (some base) ops).Asks f below r)
    {s s' : σ} {ids : List String}
    (hask : base.ask ((Machine.new classes ∅ maxSteps).operateAll (some base) ops).heap r s =
      (.ok ids, s')) :
    let m := (Machine.new classes ∅ maxSteps).operateAll (some base) ops
    let next := m.step (some base) s
    ((∃ id ∈ ids, ∀ v, ¬m.heap.Denotes id v) →
      ∃ fault, next.outcome = .failed (.frame f.id fault) ∧
        fault.category? = some .knowledgeContract ∧ next.machine.heap = m.heap) ∧
    ((∀ id ∈ ids, ∃ v, m.heap.Denotes id v) →
      next.outcome = .ran ∧ ∃ contents front target g,
        List.Forall₂ m.heap.Denotes ids contents ∧ f.stmt.head.answerTarget? = some target ∧
        next.machine.stack = g :: below ∧ g.Replaces f ∧ g.locals = f.locals ∧
        g.stmt = (Stmt.assign target (.lit front)).andThen f.stmt.tail? ∧
        next.machine.heap.counter = Text.wrap (m.heap.counter + ids.length) ∧
        (ids = [] → front = .null ∧ next.machine.heap = m.heap) ∧
        (next.machine.heap.Fits →
          (∀ contents', List.Forall₂ m.heap.Denotes ids contents' → contents' = contents) ∧
          ∃ nodes, m.heap.Enlisted contents front nodes next.machine.heap)) := by
  intro m next
  refine ⟨hasks.step_of_not_denotes hask, fun hids => ?_⟩
  obtain ⟨n, hn⟩ : ∃ n, m.heap.Counted n := Machine.exists_counted classes maxSteps ops
  obtain ⟨hran, contents, target, g, hcontents, htarget, hheap, hstack, hg, hlocals, hstmt⟩ :=
    hasks.step_of_denotes hask hids
  have hlength : ids.length = contents.length := hcontents.length_eq
  refine ⟨hran, contents, (m.heap.addList .null contents).1, target, g, hcontents, htarget, hstack,
    hg, hlocals, hstmt, ?_, ?_, fun hfits => ⟨fun contents' hcontents' => ?_, ?_⟩⟩
  · rw [hlength, hheap]
    exact Heap.counter_addList hn contents
  · rintro rfl
    obtain rfl := List.forall₂_nil_left_iff.1 hcontents
    exact ⟨rfl, hheap⟩
  · rw [hheap] at hfits
    have hlt : n + contents.length < Text.modulus := (hn.addList .null contents).lt_modulus hfits
    have hunique : Relator.RightUnique m.heap.Denotes :=
      fun id v w hv hw => hv.unique hw (hn.distinct (by omega))
    exact List.right_unique_forall₂' hunique hcontents' hcontents
  · rw [hheap] at hfits ⊢
    exact ⟨_, hn.enlisted_addList hfits⟩

/-- A knowledge base that always answers with the same identifiers. -/
def answering (ids : List String) : KnowledgeBase Unit where
  dump _ _ := (.ok (), ())
  query _ _ := (.ok ids, ())
  derive _ _ := (.ok ids, ())

/-- A program asks a knowledge base that answers with an object, a text and a numeral with zeros in
    front: three nodes are put on the heap. Another knowledge base answers with the object and then
    with a text that stands for nothing: nothing is put on the heap. -/
theorem answers_become_one_list_of_three :
    let classes : ClassTable := .ofList [(listClass, ⟨["content", "next"], ∅⟩)]
    let ops : List (Operation Unit) := [.start (.derive (.var "x") (.lit (.string "C")))]
    let m (ids : List String) : Machine :=
      (Machine.new classes ∅ 0).operateAll (some (answering ids)) ops
    let next (ids : List String) : StepResult Unit := (m ids).step (some (answering ids)) ()
    let three : List String := ["obj1", "\"hi\"", "-007"]
    let two : List String := ["obj1", "who knows"]
    let entry : Value := .object ⟨"obj1", entryClass⟩
    (∃ f, (m three).Asks f [] (.derive "C") ∧
      (answering three).ask (m three).heap (.derive "C") () = (.ok three, ()) ∧
      (∀ id ∈ three, ∃ v, (m three).heap.Denotes id v) ∧ (next three).machine.heap.Fits ∧
      ∃ front nodes, (m three).heap.Enlisted [entry, .string "hi", .ofInt (-7)] front nodes
        (next three).machine.heap) ∧
    ∃ f, (m two).Asks f [] (.derive "C") ∧
      (answering two).ask (m two).heap (.derive "C") () = (.ok two, ()) ∧
      (∃ id ∈ two, ∀ v, ¬(m two).heap.Denotes id v) ∧
      ∃ fault, (next two).outcome = .failed (.frame f.id fault) ∧
        fault.category? = some .knowledgeContract := by
  intro classes ops m next three two entry
  have hlist : Machine.hasListClass classes = true := by decide
  have hasks : ∀ ids, ∃ f, (m ids).Asks f [] (.derive "C") := by
    intro ids
    show ∃ f, ((Machine.new classes ∅ 0).operate (some (answering ids)) (.start _)).Asks f [] _
    rw [Machine.operate, Machine.start_eq]
    have howner := Heap.contains_create_self ∅ entryClass ∅
    exact ⟨_, rfl, rfl, howner, .derive (Expr.eval_lit howner _), hlist⟩
  refine ⟨?_, ?_⟩
  · obtain ⟨f, hf⟩ := hasks three
    obtain ⟨-, hsuccess⟩ := answers_become_one_list (answering three) classes 0 ops hf (s := ()) rfl
    have hcontents :
        List.Forall₂ (m three).heap.Denotes three [entry, .string "hi", .ofInt (-7)] := by
      have hvs : ((m three).heap.classifyAll three).toOption =
          some [entry, .string "hi", .ofInt (-7)] := by decide
      cases hids : (m three).heap.classifyAll three with
      | ok vs =>
        obtain rfl : vs = [entry, .string "hi", .ofInt (-7)] := by
          simpa [hids, Except.toOption] using hvs
        exact Heap.forall₂_denotes_of_classifyAll hids
      | error cause => simp [hids, Except.toOption] at hvs
    have hids := Heap.exists_denotes hcontents
    have hfits : (next three).machine.heap.Fits := by decide
    obtain ⟨-, contents, front, target, g, -, -, -, -, -, -, -, -, hlists⟩ := hsuccess hids
    obtain ⟨hunique, nodes, hnodes⟩ := hlists hfits
    obtain rfl := hunique _ hcontents
    exact ⟨f, hf, rfl, hids, hfits, front, nodes, hnodes⟩
  · obtain ⟨f, hf⟩ := hasks two
    obtain ⟨hfailure, -⟩ := answers_become_one_list (answering two) classes 0 ops hf (s := ()) rfl
    have hno : ∃ id ∈ two, ∀ v, ¬(m two).heap.Denotes id v := by
      have hvs : ((m two).heap.classifyAll two).toOption = none := by decide
      cases hids : (m two).heap.classifyAll two with
      | ok vs => simp [hids, Except.toOption] at hvs
      | error cause => exact (Heap.exists_not_denotes_of_classifyAll hids).2
    obtain ⟨fault, houtcome, hcategory, -⟩ := hfailure hno
    exact ⟨f, hf, rfl, hno, fault, houtcome, hcategory⟩

end ObjectMachine
