import Mathlib.Data.List.Induction
import ObjectMachine.Proofs.Placeholders

namespace ObjectMachine

/-!
# Arguments and parameters

The variables of a method start with `this` and the parameters. They are bound one after the
other, so where a name occurs twice the last value stays, and a class table accepts every list of
parameters. This file says when every argument still reaches its parameter:

* `SortedMap.get?_ofList_eq_find?` — of the entries with one key the last one is found;
* `Memory.Binds` — variables that are exactly those of a list;
* `Memory.binds_ofList_iff` — binding one after the other does that if no name gets two values;
* `Method.bindings` — what a method starts with, in the order in which it is bound;
* `ClassTable.exists_accepted` — the checks of a class table do not look at parameters;
* `call_binds_arguments_iff` — the variables a call starts a method with;
* `arguments_miss_their_parameters` — where a name occurs twice.
-/

/-! ### Binding one after the other -/

/-- What is found in a map that was made from a list is the last entry with the key. -/
theorem SortedMap.get?_ofList_eq_find? {κ ν : Type} [Ord κ] [Std.TransOrd κ] [Std.LawfulEqOrd κ]
    [DecidableEq κ] (es : List (κ × ν)) (k : κ) :
    (ofList es).get? k = (es.reverse.find? fun e => e.1 = k).map Prod.snd := by
  induction es using List.reverseRecOn with
  | nil => rfl
  | append_singleton es e ih =>
    have hinsert : ofList (es ++ [e]) = (ofList es).insert e.1 e.2 := by
      rw [ofList, List.foldl_append]
      rfl
    rw [hinsert, List.reverse_concat, List.find?_cons]
    by_cases hk : e.1 = k
    · rw [← hk, get?_insert_self]
      simp
    · rw [get?_insert_of_ne _ (Ne.symm hk), ih]
      simp [hk]

/-- The variables are exactly those of a list, each with the value it has there. -/
structure Memory.Binds (locals : Memory) (es : List (String × Value)) : Prop where
  bound : ∀ e ∈ es, locals.get? e.1 = some e.2
  only : ∀ name, (locals.get? name).isSome = true → name ∈ es.map Prod.fst

/-- Binding the entries of a list one after the other binds each of them if and only if all entries
    with one name have the same value. -/
theorem Memory.binds_ofList_iff (es : List (String × Value)) :
    Memory.Binds (.ofList es) es ↔ ∀ e ∈ es, ∀ e' ∈ es, e.1 = e'.1 → e.2 = e'.2 := by
  constructor
  · intro h e he e' he' hname
    have hvalue : some e.2 = some e'.2 := by
      rw [← h.bound e he, hname, h.bound e' he']
    exact Option.some.inj hvalue
  · intro h
    refine ⟨fun e he => ?_, fun name hname => SortedMap.mem_of_isSome_get?_ofList hname⟩
    -- the value that is found comes from some entry with the name
    obtain ⟨v, hv⟩ := Option.isSome_iff_exists.1
      (SortedMap.isSome_get?_ofList (List.mem_map.2 ⟨e, he, rfl⟩))
    have hmem : (e.1, v) ∈ es := SortedMap.mem_ofList (SortedMap.mem_of_get? hv)
    rw [hv, h e he (e.1, v) hmem rfl]

theorem Memory.binds_ofList_of_nodup {es : List (String × Value)}
    (h : (es.map Prod.fst).Nodup) : Memory.Binds (.ofList es) es :=
  ⟨fun _ he => SortedMap.get?_ofList h he,
    fun _ hname => SortedMap.mem_of_isSome_get?_ofList hname⟩

/-- What a method starts with, in the order in which it is bound. -/
def Method.bindings (method : Method) (callee : Ref) (args : List Value) : List (String × Value) :=
  ("this", .object callee) :: method.params.zip args

/-- The checks of a class table accept every list of parameters, also one in which a name occurs
    twice or one with the name `this`. -/
theorem ClassTable.exists_accepted {cls : String} (hcls : cls ≠ "") (name : String)
    (params : List String) (body : Stmt) :
    ∃ classes, ofDecls [⟨cls, [], [(name, ⟨params, some body⟩)]⟩] = .ok classes ∧
      classes.method cls name = .ok ⟨params, body⟩ := by
  have hdecl : ofDecls [⟨cls, [], [(name, ⟨params, some body⟩)]⟩] =
      .ok (SortedMap.insert ∅ cls ⟨[], SortedMap.insert ∅ name ⟨params, body⟩⟩) := by
    simp only [ofDecls, List.foldlM_cons, declare, if_neg hcls]
    rfl
  refine ⟨_, hdecl, ?_⟩
  simp only [method, SortedMap.get?_insert_self]

/-! ### Calls -/

/-- A call that succeeds starts a method on behalf of the value of its callee, and every argument
    has a value where it was made. Each variable of the method is the last argument for a parameter
    of that name, or else the callee if it is called `this`. So each parameter has the value of its
    argument, `this` is the callee and nothing else is bound, if and only if arguments for one name
    have the same value and an argument for a parameter called `this` is the callee; this is so
    whenever the parameters are different from each other and from `this`. -/
theorem call_binds_arguments_iff {σ : Type} {kb : Option (KnowledgeBase σ)} {m : Machine}
    {f : Frame} {below : List Frame} (hm : m.stack = f :: below) {target : Option Location}
    {callee : Expr} {name : String} {args : List Expr}
    (hhead : f.stmt.head = .call target callee name args) {s : σ}
    (hran : (m.step kb s).outcome = .ran) :
    ∃ r method vs body g,
      callee.eval (m.scopeOf f) = .ok (.object r) ∧ m.classes.method r.cls name = .ok method ∧
      List.Forall₂ (fun e v => e.eval (m.scopeOf f) = .ok v) args vs ∧
      method.params.length = vs.length ∧
      (m.step kb s).machine.stack = body :: g :: below ∧ body.owner = .object r ∧
      body.stmt = method.body ∧
      (∀ x, body.locals.get? x =
        ((method.bindings r vs).reverse.find? fun e => e.1 = x).map Prod.snd) ∧
      (body.locals.Binds (method.bindings r vs) ↔
        (∀ e ∈ method.params.zip vs, e.1 = "this" → e.2 = .object r) ∧
        ∀ e ∈ method.params.zip vs, ∀ e' ∈ method.params.zip vs, e.1 = e'.1 → e.2 = e'.2) ∧
      (("this" :: method.params).Nodup → body.locals.Binds (method.bindings r vs)) := by
  obtain ⟨e, hw, hstep⟩ := Machine.wants_of_ran hm hhead nofun hran
  cases hw with
  | @call _ _ _ _ r method vs hcallee hr hmethod hlen hargs =>
    have hcount : method.params.length = vs.length := by
      rw [hlen, Expr.length_evalAll hargs]
    refine ⟨r, method, vs, _, _, hcallee, hmethod, Expr.evalAll_eq_ok.1 hargs, hcount,
      by rw [hstep]; rfl, rfl, rfl, SortedMap.get?_ofList_eq_find? _, ?_, fun hnodup => ?_⟩
    · show Memory.Binds (.ofList (method.bindings r vs)) _ ↔ _
      rw [Memory.binds_ofList_iff]
      constructor
      · intro h
        refine ⟨fun e he hname => ?_, fun e he e' he' => ?_⟩
        · exact h e (List.mem_cons_of_mem _ he) _ List.mem_cons_self hname
        · exact h e (List.mem_cons_of_mem _ he) e' (List.mem_cons_of_mem _ he')
      · rintro ⟨hthis, hargs⟩ e he e' he' hname
        rcases List.mem_cons.1 he with rfl | he <;> rcases List.mem_cons.1 he' with rfl | he'
        · rfl
        · exact (hthis e' he' hname.symm).symm
        · exact hthis e he hname
        · exact hargs e he e' he' hname
    · refine Memory.binds_ofList_of_nodup ?_
      have hnames : (method.params.zip vs).map Prod.fst = method.params :=
        List.map_fst_zip (Nat.le_of_eq hcount)
      show ("this" :: (method.params.zip vs).map Prod.fst).Nodup
      rw [hnames]
      exact hnodup

/-- A program calls an object with the arguments 1 and 2 for the parameters `p` and `q`. -/
theorem call_binds_arguments_iff_of_two :
    let classes : ClassTable := .ofList [("C", ⟨[], .ofList [("m", ⟨["p", "q"], .skip⟩)]⟩)]
    let obj : Value := .object ⟨"obj1", "C"⟩
    let main : Stmt := .call none (.lit obj) "m" [.lit (.integer "1"), .lit (.integer "2")]
    let kb : Option (KnowledgeBase Unit) := none
    let m : Machine := (Machine.new classes (Heap.create ∅ "C" ∅).2 0).operate kb (.start main)
    ∃ f below, m.stack = f :: below ∧ f.stmt.head = main ∧ (m.step kb ()).outcome = .ran ∧
      ∃ body g, (m.step kb ()).machine.stack = body :: g :: below ∧
        body.locals.Binds [("this", obj), ("p", .integer "1"), ("q", .integer "2")] := by
  intro classes obj main kb m
  have hran : (m.step kb ()).outcome = .ran := Outcome.goesOn_iff.1 (by decide)
  obtain ⟨f, below, hm, hhead, hclasses, howner⟩ : ∃ f below, m.stack = f :: below ∧
      f.stmt.head = main ∧ m.classes = classes ∧ m.heap.contains f.owner = true := by
    rw [show m = (Machine.new classes (Heap.create ∅ "C" ∅).2 0).operate kb (.start main) from rfl,
      Machine.operate, Machine.start_eq]
    exact ⟨_, _, rfl, rfl, rfl, Heap.contains_create_self _ _ _⟩
  refine ⟨f, below, hm, hhead, hran, ?_⟩
  obtain ⟨r, method, vs, body, g, hcallee, hmethod, hargs, -, hstack, -, -, -, -, hbinds⟩ :=
    call_binds_arguments_iff hm hhead hran
  refine ⟨body, g, hstack, ?_⟩
  -- the callee and the arguments are literals, so the method and what it starts with are known
  obtain rfl : ⟨"obj1", "C"⟩ = r := Value.object.inj (Expr.eq_of_eval_lit hcallee)
  have hfound : m.classes.method "C" "m" = .ok ⟨["p", "q"], .skip⟩ := by
    simp only [hclasses, classes, ClassTable.method, SortedMap.ofList, List.foldl,
      SortedMap.get?_insert_self]
  obtain rfl : ⟨["p", "q"], .skip⟩ = method := Except.ok.inj (hfound.symm.trans hmethod)
  obtain rfl : [.integer "1", .integer "2"] = vs :=
    Except.ok.inj ((Expr.evalAll_map_lit howner _).symm.trans (Expr.evalAll_eq_ok.2 hargs))
  exact hbinds (by decide)

/-- A class table is made of declarations in which a method has two parameters `p`, and another one
    has a parameter `this`. Both are called on the object `obj2`. In the first one `p` is the second
    argument and the first one is lost; in the other one `this` is the argument, and nothing names
    the object that is called. -/
theorem arguments_miss_their_parameters :
    let decls : List ClassDecl := [⟨"C", [], [("twice", ⟨["p", "p"], some .skip⟩),
      ("taking", ⟨["this"], some .skip⟩)]⟩]
    let main (name : String) (args : List Expr) : Stmt :=
      .seq (.create (.var "x") "C" []) (.call none (.var "x") name args)
    let kb : Option (KnowledgeBase Unit) := none
    let one : Value := .integer "1"
    let two : Value := .integer "2"
    let obj : Value := .object ⟨"obj2", "C"⟩
    ∃ classes, ClassTable.ofDecls decls = .ok classes ∧
      let called (name : String) (args : List Expr) : StepResult Unit :=
        ((Machine.new classes ∅ 0).operateAll kb
          [.start (main name args), .step (), .step ()]).step kb ()
      (∃ body g, (called "twice" [.lit one, .lit two]).outcome = .ran ∧
        (called "twice" [.lit one, .lit two]).machine.stack = [body, g] ∧
        body.locals.get? "p" = some two ∧
        ¬body.locals.Binds [("this", obj), ("p", one), ("p", two)]) ∧
      ∃ body g, (called "taking" [.lit one]).outcome = .ran ∧
        (called "taking" [.lit one]).machine.stack = [body, g] ∧
        body.locals.get? "this" = some one ∧
        ¬body.locals.Binds [("this", obj), ("this", one)] := by
  intro decls main kb one two obj
  refine ⟨_, rfl, ?_⟩
  intro called
  -- what the frame of the method finds is computed, and contradicts what it should find
  have htop : ∀ (name param : String) (args : List Expr) (v : Value),
      (called name args).outcome.goesOn = true →
      (called name args).machine.stack.length = 2 →
      ((called name args).machine.stack.head?.bind fun k => k.locals.get? param) = some v →
      ∃ body g, (called name args).outcome = .ran ∧ (called name args).machine.stack = [body, g] ∧
        body.locals.get? param = some v := by
    intro name param args v hran hlength hget
    obtain ⟨body, g, hstack⟩ := List.length_eq_two.1 hlength
    rw [hstack] at hget
    exact ⟨body, g, Outcome.goesOn_iff.1 hran, hstack, hget⟩
  obtain ⟨body, g, hran, hstack, hp⟩ := htop "twice" "p" [.lit one, .lit two] two
    (by decide) (by decide) (by decide)
  obtain ⟨body', g', hran', hstack', hthis⟩ := htop "taking" "this" [.lit one] one
    (by decide) (by decide) (by decide)
  refine ⟨⟨body, g, hran, hstack, hp, fun h => ?_⟩, body', g', hran', hstack', hthis, fun h => ?_⟩
  · have hone : body.locals.get? "p" = some one := h.bound ("p", one) (by simp)
    exact absurd (hp.symm.trans hone) (by decide)
  · have hobj : body'.locals.get? "this" = some obj := h.bound ("this", obj) (by simp)
    exact absurd (hthis.symm.trans hobj) (by decide)

end ObjectMachine
