import ObjectMachine.Proofs.Aftermath

namespace ObjectMachine

/-!
# Where values come from

Values stand in the literals of statements, in variables, in fields and as the owners of frames.
A step takes them from there, computes booleans and integers, reads answers of a knowledge base
or makes new objects. So a property of all of these is a property of every value a machine ever
holds:

* `Expr.literals`, `Stmt.literals` — the literals of a program;
* `Admissible` — a property of values, relative to a heap, that all new values have;
* `Machine.AllValues` — every value in a machine has the property;
* `Expr.admits_of_eval` — evaluation gives such values only;
* `Machine.AllValues.step`, `Machine.AllValues.start`, `Machine.AllValues.fork` — so they stay the
  only ones.
-/

/-! ### Literals -/

mutual

/-- The literals of an expression. -/
def Expr.literals : Expr → List Value
  | .lit v => [v]
  | .var _ | .own _ => []
  | .field base _ => base.literals
  | .apply _ operands => Expr.literalsOf operands

/-- The literals of a list of expressions. -/
def Expr.literalsOf : List Expr → List Value
  | [] => []
  | e :: es => e.literals ++ Expr.literalsOf es

end

/-- The literals of a location. -/
def Location.literals : Location → List Value
  | .var _ | .own _ => []
  | .field base _ => base.literals

/-- The literals of a location that may be missing. -/
def Location.literalsOf : Option Location → List Value
  | none => []
  | some l => l.literals

/-- The literals of a statement, those of its parts included. -/
def Stmt.literals : Stmt → List Value
  | .skip | .breakpoint => []
  | .print e | .ret e => e.literals
  | .assign target value => target.literals ++ value.literals
  | .call target callee _ args =>
    Location.literalsOf target ++ callee.literals ++ Expr.literalsOf args
  | .create target _ args => target.literals ++ Expr.literalsOf args
  | .cond guard onTrue onFalse => guard.literals ++ onTrue.literals ++ onFalse.literals
  | .loop guard body => guard.literals ++ body.literals
  | .seq first second => first.literals ++ second.literals
  | .query target text params => target.literals ++ text.literals ++ Expr.literalsOf params
  | .derive target cls => target.literals ++ cls.literals
  | .storeReturn target => Location.literalsOf target

/-- The literals of what may be left to run. -/
def Stmt.literalsOf : Option Stmt → List Value
  | none => []
  | some s => s.literals

theorem Expr.mem_literalsOf {e : Expr} {es : List Expr} (he : e ∈ es) {v : Value}
    (hv : v ∈ e.literals) : v ∈ Expr.literalsOf es := by
  induction es with
  | nil => simp at he
  | cons a es ih =>
    rw [Expr.literalsOf, List.mem_append]
    rcases List.mem_cons.1 he with rfl | he
    · exact .inl hv
    · exact .inr (ih he)

/-- The literals of a part of an expression are literals of the whole. -/
theorem Expr.Within.literals {e e' : Expr} (h : Expr.Within e e') {v : Value}
    (hv : v ∈ e.literals) : v ∈ e'.literals := by
  induction h with
  | refl => exact hv
  | base _ ih => exact ih
  | operand ha _ ih => exact Expr.mem_literalsOf ha ih

namespace Stmt

theorem mem_literals_append {s next : Stmt} {v : Value} :
    v ∈ (s.append next).literals ↔ v ∈ s.literals ∨ v ∈ next.literals := by
  induction s with
  | seq first second _ ih => simp [append, literals, ih, or_assoc]
  | _ => simp [append, literals, or_assoc]

theorem mem_literals_andThen {s : Stmt} {rest : Option Stmt} {v : Value} :
    v ∈ (s.andThen rest).literals ↔ v ∈ s.literals ∨ v ∈ literalsOf rest := by
  cases rest <;> simp [andThen, literalsOf, mem_literals_append]

theorem mem_literals_before {rest : Option Stmt} {next : Stmt} {v : Value} :
    v ∈ (before rest next).literals ↔ v ∈ literalsOf rest ∨ v ∈ next.literals := by
  cases rest <;> simp [before, literalsOf, mem_literals_append]

/-- The literals of the head and of what comes after it are those of the whole. -/
theorem mem_literals_head_tail {s : Stmt} {v : Value} :
    v ∈ s.literals ↔ v ∈ s.head.literals ∨ v ∈ literalsOf s.tail? := by
  induction s with
  | seq first second ih _ =>
    simp only [literals, head, tail?, literalsOf, List.mem_append, mem_literals_before, ih,
      or_assoc]
  | _ => simp [head, tail?, literalsOf]

/-- The expressions a statement evaluates have only literals of the statement. -/
theorem mem_literals_of_exprs {s : Stmt} {e : Expr} (he : e ∈ s.exprs) {v : Value}
    (hv : v ∈ e.literals) : v ∈ s.literals := by
  have hargs : ∀ {es : List Expr}, e ∈ es → v ∈ Expr.literalsOf es :=
    fun h => Expr.mem_literalsOf h hv
  cases s
  case assign target value =>
    rcases List.mem_cons.1 he with rfl | he
    · simp [literals, hv]
    · cases target <;> simp_all [Location.exprs, literals, Location.literals]
  case call target callee name args =>
    rcases List.mem_cons.1 he with rfl | he
    · simp [literals, hv]
    · simp [literals, hargs he]
  case create target cls args =>
    have he' : e ∈ args := he
    simp [literals, hargs he']
  case query target text params =>
    rcases List.mem_cons.1 he with rfl | he
    · simp [literals, hv]
    · simp [literals, hargs he]
  all_goals simp_all [exprs, literals]

end Stmt

/-! ### Properties of values -/

/-- Every value of a map has a property. -/
def SortedMap.All {κ ν : Type} [Ord κ] (P : ν → Prop) (m : SortedMap κ ν) : Prop :=
  ∀ e ∈ m.entries, P e.2

instance {κ ν : Type} [Ord κ] (P : ν → Prop) [DecidablePred P] (m : SortedMap κ ν) :
    Decidable (m.All P) :=
  inferInstanceAs (Decidable (∀ e ∈ m.entries, P e.2))

namespace SortedMap.All

variable {κ ν : Type} [Ord κ] {P Q : ν → Prop} {m : SortedMap κ ν}

theorem empty : (∅ : SortedMap κ ν).All P :=
  fun _ he => absurd he List.not_mem_nil

theorem imp (h : m.All P) (hPQ : ∀ v, P v → Q v) : m.All Q :=
  fun e he => hPQ e.2 (h e he)

variable [Std.LawfulEqOrd κ]

theorem get? (h : m.All P) {k : κ} {v : ν} (hv : m.get? k = some v) : P v :=
  h (k, v) (mem_of_get? hv)

variable [Std.TransOrd κ]

theorem insert (h : m.All P) (k : κ) {v : ν} (hv : P v) : (m.insert k v).All P := by
  intro e he
  rcases mem_insert he with rfl | he
  · exact hv
  · exact h e he

theorem ofList {es : List (κ × ν)} (h : ∀ e ∈ es, P e.2) : (SortedMap.ofList es).All P :=
  fun e he => h e (mem_ofList he)

/-- Values bound to names one by one. -/
theorem ofList_zip {ks : List κ} {vs : List ν} (h : ∀ v ∈ vs, P v) :
    (SortedMap.ofList (ks.zip vs)).All P :=
  ofList fun e he => h e.2 (List.of_mem_zip he).2

end SortedMap.All

/-- A property of values on a heap that everything has which is not read from variables, fields
    or literals: null, booleans, texts, 64-bit integers and the objects of the heap. -/
structure Admissible (P : Heap → Value → Prop) : Prop where
  null (h : Heap) : P h .null
  boolean (h : Heap) (b : Bool) : P h (.boolean b)
  string (h : Heap) (s : String) : P h (.string s)
  integer (h : Heap) {n : Int} (hn : Text.fits n = true) : P h (.ofInt n)
  object {h : Heap} {v : Value} (hv : h.contains v = true) : P h v
  mono {h h' : Heap} (hg : h.Grows h') {v : Value} (hv : P h v) : P h' v

/-- Every value in the fields of the objects of a heap has a property. -/
def Heap.AllFields (P : Heap → Value → Prop) (h : Heap) : Prop :=
  h.objects.All (SortedMap.All (P h))

/-! ### Evaluation -/

/-- Wrapping around gives a 64-bit integer. -/
theorem Text.fits_wrap (n : Int) : fits (wrap n) = true := by
  have hpos : 0 < modulus := by decide
  have hlt : n.bmod modulus < ((modulus : Int) + 1) / 2 := Int.bmod_lt hpos
  have hle : -((modulus : Int) / 2) ≤ n.bmod modulus := Int.le_bmod hpos
  have hmod : (modulus : Int) = 18446744073709551616 := rfl
  rw [hmod] at hlt hle
  rw [fits, wrap, minInt, maxInt, Bool.and_eq_true, decide_eq_true_iff, decide_eq_true_iff]
  omega

/-- A sum that is wrapped at each addition fits in 64 bits. -/
theorem Text.fits_total (ns : List Int) : fits (total ns) = true := by
  have hfold : ∀ sum, fits sum = true →
      fits (ns.foldl (fun sum n => wrap (sum + n)) sum) = true := by
    induction ns with
    | nil => exact fun sum hsum => hsum
    | cons n ns ih => exact fun sum _ => ih _ (fits_wrap _)
  exact hfold 0 (by decide)

/-- An integer that was read fits in 64 bits. -/
theorem Text.fits_of_readInt? {s : String} {n : Int} (h : readInt? s = some n) :
    fits n = true :=
  (Option.filter_eq_some_iff.1 h).2

variable {P : Heap → Value → Prop}

theorem Operator.binary_eq_ok {op : Operator} {f : Value → Value → Except Fault Value}
    {vs : List Value} {v : Value} (h : op.binary f vs = .ok v) : ∃ a b, f a b = .ok v := by
  rw [binary.eq_def] at h
  split at h
  · exact ⟨_, _, h⟩
  · simp at h

theorem Operator.binaryInt_eq_ok {op : Operator} {f : Int → Int → Value} {vs : List Value}
    {v : Value} (h : op.binaryInt f vs = .ok v) : ∃ m n, v = f m n := by
  obtain ⟨a, b, h⟩ := binary_eq_ok h
  obtain ⟨m, -, h⟩ := bind_eq_ok.1 h
  obtain ⟨n, -, h⟩ := bind_eq_ok.1 h
  exact ⟨m, n, (pure_eq_ok.1 h).symm⟩

/-- Operators give booleans and 64-bit integers. -/
theorem Operator.admits_of_apply (hP : Admissible P) {op : Operator} {vs : List Value} {v : Value}
    (heap : Heap) (h : op.apply vs = .ok v) : P heap v := by
  cases op with
  | eq =>
    obtain ⟨a, b, h⟩ := binary_eq_ok h
    obtain rfl := Except.ok.inj h
    exact hP.boolean heap _
  | neq =>
    obtain ⟨a, b, h⟩ := binary_eq_ok h
    obtain rfl := Except.ok.inj h
    exact hP.boolean heap _
  | geq =>
    obtain ⟨m, n, rfl⟩ := binaryInt_eq_ok h
    exact hP.boolean heap _
  | leq =>
    obtain ⟨m, n, rfl⟩ := binaryInt_eq_ok h
    exact hP.boolean heap _
  | minus =>
    obtain ⟨m, n, rfl⟩ := binaryInt_eq_ok h
    exact hP.integer heap (Text.fits_wrap _)
  | plus =>
    obtain ⟨ns, -, h⟩ := bind_eq_ok.1 h
    obtain rfl := pure_eq_ok.1 h
    exact hP.integer heap (Text.fits_total ns)
  | other symbol => simp [apply] at h

/-- The fields of an object that is found have the property. -/
theorem Heap.AllFields.lookup {h : Heap} (hf : h.AllFields P) {v : Value} {fields : Memory}
    (hv : h.lookup v = some fields) : fields.All (P h) := by
  cases v
  case object r => exact hf.get? hv
  all_goals simp [Heap.lookup] at hv

variable {sc : Scope}

/-- The value of an expression is one of its literals, is read from a variable or a field, or is
    computed. -/
theorem Expr.admits_of_eval (hP : Admissible P) (hlocals : sc.locals.All (P sc.heap))
    (hfields : sc.heap.AllFields P) {e : Expr} (hlit : ∀ v ∈ e.literals, P sc.heap v) {v : Value}
    (h : e.eval sc = .ok v) : P sc.heap v := by
  rw [Expr.eval] at h
  split at h
  · simp at h
  · rename_i own hown
    cases e with
    | lit w =>
      obtain rfl : w = v := by simpa [Expr.evalWith] using h
      exact hlit w (by simp [Expr.literals])
    | var name =>
      rw [Expr.evalWith] at h
      split at h
      · rename_i w hw
        obtain rfl := Except.ok.inj h
        exact hlocals.get? hw
      · simp at h
    | own name =>
      rw [Expr.evalWith] at h
      split at h
      · rename_i w hw
        obtain rfl := Except.ok.inj h
        exact (hfields.lookup hown).get? hw
      · simp at h
    | field base name =>
      rw [Expr.evalWith] at h
      obtain ⟨b, -, h⟩ := bind_eq_ok.1 h
      split at h
      · simp at h
      · rename_i fields hfound
        split at h
        · rename_i w hw
          obtain rfl := Except.ok.inj h
          exact (hfields.lookup hfound).get? hw
        · simp at h
    | apply op operands =>
      rw [Expr.evalWith] at h
      obtain ⟨vs, -, h⟩ := bind_eq_ok.1 h
      exact Operator.admits_of_apply hP sc.heap h

theorem Expr.admits_of_evalAll (hP : Admissible P) (hlocals : sc.locals.All (P sc.heap))
    (hfields : sc.heap.AllFields P) {es : List Expr}
    (hlit : ∀ v ∈ Expr.literalsOf es, P sc.heap v) {vs : List Value}
    (h : Expr.evalAll sc es = .ok vs) : ∀ v ∈ vs, P sc.heap v := by
  induction es generalizing vs with
  | nil =>
    obtain rfl : [] = vs := by simpa [Expr.evalAll] using h
    simp
  | cons e es ih =>
    rw [Expr.evalAll] at h
    obtain ⟨w, hw, h⟩ := bind_eq_ok.1 h
    obtain ⟨ws, hws, h⟩ := bind_eq_ok.1 h
    obtain rfl := pure_eq_ok.1 h
    have hhead : P sc.heap w :=
      admits_of_eval hP hlocals hfields (fun v hv => hlit v (by simp [Expr.literalsOf, hv])) hw
    have htail : ∀ v ∈ ws, P sc.heap v :=
      ih (fun v hv => hlit v (by simp [Expr.literalsOf, hv])) hws
    intro v hv
    rcases List.mem_cons.1 hv with rfl | hv
    · exact hhead
    · exact htail v hv

/-! ### Heaps -/

namespace Heap

/-- An object that is found by its name is on the heap. -/
theorem contains_of_find? {h : Heap} {name : String} {r : Ref} (hr : h.find? name = some r) :
    h.contains (.object r) = true :=
  mem_keys_iff.1 (List.mem_of_find?_eq_some hr)

/-- An answer of a knowledge base stands for an object of the heap, a text or an integer. -/
theorem admits_of_classify (hP : Admissible P) {h : Heap} {id : String} {v : Value}
    (hv : h.classify id = .ok v) : P h v := by
  rw [classify] at hv
  split at hv
  · rename_i r hr
    obtain rfl := Except.ok.inj hv
    exact hP.object (contains_of_find? hr)
  · split at hv
    · obtain rfl := Except.ok.inj hv
      exact hP.string h _
    · split at hv
      · split at hv
        · rename_i n hn
          obtain rfl := Except.ok.inj hv
          exact hP.integer h (Text.fits_of_readInt? hn)
        · simp at hv
      · simp at hv

theorem admits_of_classifyAll (hP : Admissible P) {h : Heap} {ids : List String}
    {vs : List Value} (hvs : h.classifyAll ids = .ok vs) : ∀ v ∈ vs, P h v := by
  induction ids generalizing vs with
  | nil =>
    obtain rfl : [] = vs := by simpa [classifyAll] using hvs
    simp
  | cons id ids ih =>
    rw [classifyAll] at hvs
    obtain ⟨w, hw, hvs⟩ := bind_eq_ok.1 hvs
    obtain ⟨ws, hws, hvs⟩ := bind_eq_ok.1 hvs
    obtain rfl := pure_eq_ok.1 hvs
    intro v hv
    rcases List.mem_cons.1 hv with rfl | hv
    · exact admits_of_classify hP hw
    · exact ih hws v hv

namespace AllFields

variable {h : Heap}

/-- What holds of all fields still does on a larger heap with one more object. -/
theorem insert (hP : Admissible P) (hf : h.AllFields P) {r : Ref} {fields : Memory}
    (hnew : fields.All (P h)) : (h.insert r fields).AllFields P := by
  have hmono : ∀ v, P h v → P (h.insert r fields) v := fun v => hP.mono (h.grows_insert r fields)
  exact (hf.imp fun own hown => hown.imp hmono).insert r (hnew.imp hmono)

theorem create (hP : Admissible P) (hf : h.AllFields P) {cls : String} {fields : Memory}
    (hnew : fields.All (P h)) : (h.create cls fields).2.AllFields P := by
  have hmono : ∀ v, P h v → P (h.create cls fields).2 v :=
    fun v => hP.mono (h.grows_create cls fields)
  exact (hf.imp fun own hown => hown.imp hmono).insert _ (hnew.imp hmono)

theorem setField (hP : Admissible P) (hf : h.AllFields P) {r : Ref} {name : String} {v : Value}
    (hv : P h v) : (h.setField r name v).AllFields P := by
  rw [Heap.setField]
  split
  · exact hf
  · rename_i fields hfound
    exact hf.insert hP ((hf.get? hfound).insert name hv)

/-- A list of answers is built of nodes whose fields have the property, and its front has it. -/
theorem addList (hP : Admissible P) (hf : h.AllFields P) {front : Value} (hfront : P h front)
    {vs : List Value} (hvs : ∀ v ∈ vs, P h v) :
    (h.addList front vs).2.AllFields P ∧ P (h.addList front vs).2 (h.addList front vs).1 := by
  induction vs generalizing h front with
  | nil => exact ⟨hf, hfront⟩
  | cons v vs ih =>
    -- lists are built back to front: what was added so far comes after the new node
    have hnew : (SortedMap.ofList [("content", v), ("next", front)]).All (P h) := by
      refine .ofList fun e he => ?_
      rcases List.mem_cons.1 he with rfl | he
      · exact hvs v (by simp)
      · obtain rfl := List.mem_singleton.1 he
        exact hfront
    refine ih (hf.create hP hnew) (hP.object (h.contains_create_self _ _)) fun w hw => ?_
    exact hP.mono (h.grows_create _ _) (hvs w (by simp [hw]))

end AllFields

end Heap

/-! ### Machines -/

/-- Every literal in the methods of a class table has a property. -/
def ClassTable.AllLiterals (P : Value → Prop) (classes : ClassTable) : Prop :=
  classes.All fun info => info.methods.All fun m => ∀ v ∈ m.body.literals, P v

/-- What holds of every method of a class table holds of a method that is found. -/
theorem ClassTable.all_of_method {Q : Method → Prop} {classes : ClassTable}
    (h : classes.All fun info => info.methods.All Q) {cls name : String} {m : Method}
    (hm : classes.method cls name = .ok m) : Q m := by
  rw [ClassTable.method] at hm
  split at hm
  · simp at hm
  · rename_i info hinfo
    split at hm
    · simp at hm
    · rename_i m' hm'
      obtain rfl := Except.ok.inj hm
      have hmethods := h.get? hinfo
      exact hmethods.get? hm'

/-- The literals of a method that is found have the property. -/
theorem ClassTable.AllLiterals.method {P : Value → Prop} {classes : ClassTable}
    (h : classes.AllLiterals P) {cls name : String} {m : Method}
    (hm : classes.method cls name = .ok m) : ∀ v ∈ m.body.literals, P v :=
  ClassTable.all_of_method h hm

theorem ClassTable.AllLiterals.imp {P Q : Value → Prop} {classes : ClassTable}
    (h : classes.AllLiterals P) (hPQ : ∀ v, P v → Q v) : classes.AllLiterals Q :=
  SortedMap.All.imp h fun _ hinfo => hinfo.imp fun _ hbody v hv => hPQ v (hbody v hv)

/-- Every value a frame holds has a property. -/
structure Frame.AllValues (P : Value → Prop) (f : Frame) : Prop where
  owner : P f.owner
  locals : f.locals.All P
  literals : ∀ v ∈ f.stmt.literals, P v

/-- Every value a machine holds, or can read from its class table, has a property. -/
structure Machine.AllValues (P : Heap → Value → Prop) (m : Machine) : Prop where
  frames : ∀ f ∈ m.stack, f.AllValues (P m.heap)
  fields : m.heap.AllFields P
  methods : m.classes.AllLiterals (P m.heap)

theorem Frame.AllValues.imp {P Q : Value → Prop} {f : Frame} (h : f.AllValues P)
    (hPQ : ∀ v, P v → Q v) : f.AllValues Q where
  owner := hPQ _ h.owner
  locals := h.locals.imp hPQ
  literals v hv := hPQ v (h.literals v hv)

/-- Every value an effect carries has a property. -/
def Effect.AllValues (P : Value → Prop) : Effect → Prop
  | .finish | .pause => True
  | .print v | .setLocal _ v | .setField _ _ v => P v
  | .become s => ∀ v ∈ s.literals, P v
  | .create target _ fields => (∀ v ∈ target.literals, P v) ∧ fields.All P
  | .enlist target contents => (∀ v ∈ target.literals, P v) ∧ ∀ v ∈ contents, P v
  | .invoke target callee body locals =>
    (∀ v ∈ Location.literalsOf target, P v) ∧ P (.object callee) ∧
      (∀ v ∈ body.literals, P v) ∧ locals.All P
  | .resume g rest => g.AllValues P ∧ ∀ v ∈ Stmt.literalsOf rest, P v

/-- A suspended statement is a marker of a pending call, and what runs after it. -/
theorem Stmt.eq_of_awaiting? {s : Stmt} {target : Option Location} {rest : Option Stmt}
    (h : s.awaiting? = some (target, rest)) :
    s = .storeReturn target ∧ rest = none ∨
      ∃ next, s = .seq (.storeReturn target) next ∧ rest = some next := by
  rw [awaiting?.eq_def] at h
  split at h <;> simp_all

/-- What a suspended statement goes on with has its literals, and the result it waited for. -/
theorem Stmt.mem_literals_received {s : Stmt} {target : Option Location} {rest : Option Stmt}
    (h : s.awaiting? = some (target, rest)) {v w : Value}
    (hw : w ∈ literalsOf (received target rest v)) : w ∈ s.literals ∨ w = v := by
  rcases eq_of_awaiting? h with ⟨rfl, rfl⟩ | ⟨next, rfl, rfl⟩
  · cases target <;>
      simp_all [received, literalsOf, literals, Location.literalsOf, Expr.literals]
  · cases target <;>
      simp_all [received, literalsOf, literals, Location.literalsOf, Expr.literals]
    grind

namespace Effect

variable {heap : Heap} {e : Effect}

/-- The fields after an effect have the property. -/
theorem AllValues.fields (hP : Admissible P) (h : e.AllValues (P heap))
    (hfields : heap.AllFields P) : (e.heapAfter heap).AllFields P := by
  cases e with
  | setField r name v => exact hfields.setField hP h
  | create target cls fields => exact hfields.create hP h.2
  | enlist target contents => exact (hfields.addList hP (hP.null heap) h.2).1
  | _ => exact hfields

/-- The variables of the running frame after an effect have the property. -/
theorem AllValues.locals {Q : Value → Prop} (h : e.AllValues Q) {locals : Memory}
    (hl : locals.All Q) : (e.localsAfter locals).All Q := by
  cases e with
  | setLocal name v => exact hl.insert name h
  | _ => exact hl

/-- The literals of what the running frame goes on with have the property. The reference to a new
    object is among them, which is why they are looked at on the heap after the effect. -/
theorem AllValues.next (hP : Admissible P) (h : e.AllValues (P heap))
    (hfields : heap.AllFields P) {rest : Option Stmt}
    (hrest : ∀ v ∈ Stmt.literalsOf rest, P heap v) :
    ∀ v ∈ Stmt.literalsOf (e.next heap rest), P (e.heapAfter heap) v := by
  have hmono : ∀ v, P heap v → P (e.heapAfter heap) v := fun v => hP.mono (e.grows_heapAfter heap)
  -- a new object and a list of answers are assigned by a statement in front of the rest
  have hassign : ∀ {target : Location} {w v : Value}, (∀ v ∈ target.literals, P heap v) →
      P (e.heapAfter heap) w →
      v ∈ Stmt.literalsOf (some ((Stmt.assign target (.lit w)).andThen rest)) →
      P (e.heapAfter heap) v := by
    intro target w v ht hw hv
    rcases Stmt.mem_literals_andThen.1 hv with hv | hv
    · rcases List.mem_append.1 hv with hv | hv
      · exact hmono v (ht v hv)
      · obtain rfl := List.mem_singleton.1 hv
        exact hw
    · exact hmono v (hrest v hv)
  intro v hv
  cases e with
  | become s =>
    rcases Stmt.mem_literals_andThen.1 hv with hv | hv
    · exact h v hv
    · exact hrest v hv
  | create target cls fields =>
    exact hassign h.1 (hP.object (heap.contains_create_self cls fields)) hv
  | enlist target contents =>
    exact hassign h.1 (hfields.addList hP (hP.null heap) h.2).2 hv
  | invoke target callee body locals =>
    rcases Stmt.mem_literals_andThen.1 hv with hv | hv
    · exact h.1 v hv
    · exact hrest v hv
  | resume g r => exact absurd hv List.not_mem_nil
  | _ => exact hmono v (hrest v hv)

end Effect

namespace Machine

variable {σ : Type} {kb : Option (KnowledgeBase σ)}

/-- Every effect of the top frame carries values with the property only. -/
theorem Enacts.allValues (hP : Admissible P) {m : Machine} (h : m.AllValues P) {f : Frame}
    {below : List Frame} (hm : m.stack = f :: below) {s s' : σ} {e : Effect}
    (he : Enacts kb m f below s e s') : e.AllValues (P m.heap) := by
  have hf : f.AllValues (P m.heap) := h.frames f (hm ▸ List.mem_cons_self)
  have hhead : ∀ v ∈ f.stmt.head.literals, P m.heap v :=
    fun v hv => hf.literals v (Stmt.mem_literals_head_tail.2 (.inl hv))
  -- the values of the expressions of the head, one by one and as lists
  have heval : ∀ {x : Expr} {v : Value}, (∀ w ∈ x.literals, w ∈ f.stmt.head.literals) →
      x.eval (m.scopeOf f) = .ok v → P m.heap v := fun hx hv =>
    Expr.admits_of_eval hP hf.locals h.fields (fun w hw => hhead w (hx w hw)) hv
  have hevalAll : ∀ {xs : List Expr} {vs : List Value},
      (∀ w ∈ Expr.literalsOf xs, w ∈ f.stmt.head.literals) →
      Expr.evalAll (m.scopeOf f) xs = .ok vs → ∀ v ∈ vs, P m.heap v := fun hx hv =>
    Expr.admits_of_evalAll hP hf.locals h.fields (fun w hw => hhead w (hx w hw)) hv
  cases he with
  | ask hw _ _ _ hids =>
    refine ⟨fun v hv => hhead v ?_, Heap.admits_of_classifyAll hP hids⟩
    generalize f.stmt.head = x at hw
    cases hw <;> simp [Stmt.literals, hv]
  | act hw =>
    generalize f.stmt.head = x at *
    cases hw with
    | skip => trivial
    | breakpoint => trivial
    | print he => exact heval (by simp [Stmt.literals]) he
    | setVar he => exact heval (by simp +contextual [Stmt.literals]) he
    | setOwn he hw => exact heval (by simp +contextual [Stmt.literals]) he
    | setField he hb hw => exact heval (by simp +contextual [Stmt.literals]) he
    | @call target callee name args r method vs hc hr hmeth hlen hargs =>
      have hvs : ∀ v ∈ vs, P m.heap v := hevalAll (by simp +contextual [Stmt.literals]) hargs
      have hcallee : P m.heap (.object r) := hP.object hr
      refine ⟨fun v hv => hhead v (by simp [Stmt.literals, hv]), hcallee,
        h.methods.method hmeth, .ofList fun e he => ?_⟩
      rcases List.mem_cons.1 he with rfl | he
      · exact hcallee
      · exact hvs e.2 (List.of_mem_zip he).2
    | create hfields hlen hargs =>
      exact ⟨fun v hv => hhead v (by simp [Stmt.literals, hv]),
        .ofList_zip (hevalAll (by simp +contextual [Stmt.literals]) hargs)⟩
    | @ret e v g target rest hg hawait he =>
      have hgframe : g.AllValues (P m.heap) :=
        h.frames g (hm ▸ List.mem_cons_of_mem f (Frame.mem_of_callerIn hg))
      refine ⟨hgframe, fun w hw => ?_⟩
      -- the caller goes on with its own literals and the value that is returned
      rcases Stmt.mem_literals_received hawait hw with hw | rfl
      · exact hgframe.literals w hw
      · exact heval (by simp [Stmt.literals]) he
    | onTrue he => exact fun v hv => hhead v (by simp [Stmt.literals, hv])
    | onFalse he => exact fun v hv => hhead v (by simp [Stmt.literals, hv])
    | loop =>
      -- a loop that is unrolled has its guard and its body twice
      intro v hv
      refine hhead v ?_
      simp only [Stmt.literals, List.mem_append, Stmt.mem_literals_append] at hv ⊢
      grind

/-- Carrying out an effect leaves values with the property only. -/
theorem AllValues.perform (hP : Admissible P) {m : Machine} {f : Frame} {below : List Frame}
    (h : m.AllValues P) (hm : m.stack = f :: below) {e : Effect} (he : e.AllValues (P m.heap)) :
    ((m.running below).perform f f.stmt.tail? e).AllValues P := by
  have hf : f.AllValues (P m.heap) := h.frames f (hm ▸ List.mem_cons_self)
  have hmono : ∀ v, P m.heap v → P (e.heapAfter m.heap) v :=
    fun v => hP.mono (e.grows_heapAfter m.heap)
  have hrest : ∀ v ∈ Stmt.literalsOf f.stmt.tail?, P m.heap v :=
    fun v hv => hf.literals v (Stmt.mem_literals_head_tail.2 (.inr hv))
  have hframes : ∀ k ∈ ((m.running below).perform f f.stmt.tail? e).stack,
      k.AllValues (P (e.heapAfter m.heap)) := by
    intro k hk
    cases mem_perform hk with
    | kept hk => exact (h.frames k (hm ▸ List.mem_cons_of_mem f hk)).imp hmono
    | running hr hl hs =>
      have hnext := he.next hP h.fields hrest
      rw [show e.next m.heap f.stmt.tail? = some k.stmt from hs] at hnext
      exact ⟨hr.owner ▸ hmono _ hf.owner, hl ▸ (he.locals hf.locals).imp hmono, hnext⟩
    | spawned ho hl hs =>
      obtain ⟨-, hcallee, hbody, hlocals⟩ := he
      exact ⟨ho ▸ hcallee, hl ▸ hlocals, hs ▸ hbody⟩
    | resumed hr hl hs =>
      obtain ⟨hg, hnext⟩ := he
      exact ⟨hr.owner ▸ hg.owner, hl ▸ hg.locals, hs ▸ hnext⟩
  refine ⟨?_, ?_, ?_⟩
  · rw [perform_heap]
    exact hframes
  · rw [perform_heap]
    exact he.fields hP h.fields
  · rw [perform_heap, perform_classes]
    exact h.methods.imp hmono

/-- No step brings in a value without the property. -/
theorem AllValues.step (hP : Admissible P) {m : Machine} (h : m.AllValues P) (s : σ) :
    (m.step kb s).machine.AllValues P := by
  rcases step_cases kb m s with hstep | ⟨f, below, hm, hstep | ⟨e, s', -, henacts, hstep⟩⟩
  · rw [hstep]
    exact h
  · rw [hstep]
    exact ⟨fun k hk => h.frames k (hm ▸ List.mem_cons_of_mem f hk), h.fields, h.methods⟩
  · rw [hstep]
    exact h.perform hP hm (henacts.allValues hP h hm)

/-- Starting a program brings in its literals and a new object. -/
theorem AllValues.start (hP : Admissible P) {m m' : Machine} (h : m.AllValues P) {main : Stmt}
    (hmain : ∀ v ∈ main.literals, P m.heap v) {f : Frame} (hstart : m.start main = .ok (f, m')) :
    m'.AllValues P := by
  rw [m.start_eq main] at hstart
  obtain ⟨-, rfl⟩ : _ = f ∧ _ = m' := by simpa using hstart
  have hmono : ∀ v, P m.heap v → P (m.heap.create entryClass ∅).2 v :=
    fun v => hP.mono (m.heap.grows_create entryClass ∅)
  have howner : P (m.heap.create entryClass ∅).2 (.object (m.heap.create entryClass ∅).1) :=
    hP.object (m.heap.contains_create_self entryClass ∅)
  refine ⟨fun k hk => ?_, h.fields.create hP .empty, h.methods.imp hmono⟩
  rcases List.mem_cons.1 hk with rfl | hk
  · exact ⟨howner, SortedMap.All.empty.insert "this" howner, fun v hv => hmono v (hmain v hv)⟩
  · exact (h.frames k hk).imp hmono

/-- A forked machine holds no values but those of the heap. -/
theorem AllValues.fork {m : Machine} (h : m.AllValues P) : m.fork.AllValues P :=
  ⟨fun _ hk => absurd hk List.not_mem_nil, h.fields, h.methods⟩

end Machine

end ObjectMachine
