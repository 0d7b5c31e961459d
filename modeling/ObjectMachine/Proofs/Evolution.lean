import ObjectMachine.Proofs.Activations
import ObjectMachine.Proofs.Shapes

namespace ObjectMachine

/-!
# What a step changes

A step writes to one place at most: a variable of the running frame, a field of an object, or new
places on the heap. This file says so for every step that can be reached from an empty heap:

* `Heap.Fits`, `Heap.Counted` — the number of objects, and the references that were handed out;
* `Heap.Adds` — one heap has new objects that another one has not;
* `Chain` — the nodes of a list of answers;
* `Machine.Evolves` — the changes that a step can make to the heap and the variables;
* `Machine.LocalsKept` — the variables of all other frames are as they were, also after the frames
  have left the stack;
* `heap_evolution_is_local` — every step makes one of these changes, and no other.
-/

/-! ### The number of objects -/

namespace Heap

/-- The number of objects is a 64-bit integer, as it is in every heap that there is room for. -/
def Fits (h : Heap) : Prop :=
  (h.size : Int) ≤ Text.maxInt

instance (h : Heap) : Decidable h.Fits :=
  inferInstanceAs (Decidable ((h.size : Int) ≤ Text.maxInt))

/-- After `n` references were handed out there is an object for each of them, as long as their names
    do not come back. -/
structure Counted (n : Nat) (h : Heap) : Prop extends h.Numbered n where
  size : min n Text.modulus ≤ h.size

variable {n : Nat} {h : Heap}

theorem Numbered.contains_alloc (hn : h.Numbered n) (hlt : n < Text.modulus) (cls : String) :
    h.contains (.object (h.alloc cls).1) = false := by
  by_cases hr : h.contains (.object (h.alloc cls).1) = true
  · exact absurd (hn.alloc_name cls) (hn.name_ne hlt hr)
  · simpa using hr

namespace Counted

theorem create (hc : h.Counted n) (cls : String) (fields : Memory) :
    (h.create cls fields).2.Counted (n + 1) := by
  refine ⟨hc.toNumbered.create cls fields, ?_⟩
  show min (n + 1) Text.modulus ≤ (h.objects.insert (h.alloc cls).1 fields).size
  have hsize : min n Text.modulus ≤ h.objects.size := hc.size
  by_cases hlt : n < Text.modulus
  · -- the name is a new one, so there is one more object
    have hnone : h.objects.get? (h.alloc cls).1 = none := by
      simpa [contains, lookup] using hc.toNumbered.contains_alloc hlt cls
    rw [SortedMap.size_insert_of_none hnone]
    omega
  · have hle := h.objects.le_size_insert (h.alloc cls).1 fields
    omega

theorem setField (hc : h.Counted n) (r : Ref) (name : String) (v : Value) :
    (h.setField r name v).Counted n := by
  refine ⟨hc.toNumbered.setField r name v, Nat.le_trans hc.size ?_⟩
  unfold Heap.setField
  split
  · exact Nat.le_refl _
  · exact h.objects.le_size_insert r _

theorem counts : Counts fun n h => h.Counted n :=
  ⟨create, setField⟩

theorem addList (hc : h.Counted n) (front : Value) (vs : List Value) :
    (h.addList front vs).2.Counted (n + vs.length) :=
  counts.addList hc front vs

/-- If the number of objects is a 64-bit integer, names have not come back. -/
theorem lt_modulus (hc : h.Counted n) (hfits : h.Fits) : n < Text.modulus := by
  have hsize : min n Text.modulus ≤ h.size := hc.size
  have hle : (h.size : Int) ≤ Text.maxInt := hfits
  have hmodulus : Text.modulus = 18446744073709551616 := rfl
  have hmax : Text.maxInt = 9223372036854775807 := rfl
  omega

end Counted

end Heap

namespace Machine

variable {σ : Type} {kb : Option (KnowledgeBase σ)}

theorem counted_step {n : Nat} {m : Machine} (hc : m.heap.Counted n) (s : σ) :
    (m.step kb s).machine.heap.Counted (n + m.handedOut kb (.step s)) :=
  Heap.Counted.counts.step hc s

/-- Every heap that can be reached from an empty one has an object for each reference. -/
theorem exists_counted (classes : ClassTable) (maxSteps : Nat) (ops : List (Operation σ)) :
    ∃ n, ((new classes ∅ maxSteps).operateAll kb ops).heap.Counted n := by
  refine operateAll_preserves (fun _ => True) (P := fun m => ∃ n, m.heap.Counted n) ?_
    ⟨0, Heap.numbered_empty, Nat.zero_le _⟩ fun _ _ => trivial
  rintro m op ⟨n, hc⟩ -
  exact ⟨_, Heap.Counted.counts.operate hc op⟩

end Machine

/-! ### New objects -/

/-- The heap `h'` has the objects of `h` and the new ones, whose references are different from each
    other and from those of `h`. -/
structure Heap.Adds (h : Heap) (new : List (Ref × Memory)) (h' : Heap) : Prop where
  objects : h'.objects = new.foldl (fun objects e => objects.insert e.1 e.2) h.objects
  distinct : h'.Fits → (new.map Prod.fst).Nodup
  fresh : h'.Fits → ∀ e ∈ new, h.contains (.object e.1) = false

/-- The nodes of a list: each one holds its content, and the node before it is next. -/
inductive Chain : Value → List Value → List (Ref × Memory) → Prop where
  | nil (front : Value) : Chain front [] []
  | cons {front v : Value} {vs : List Value} {r : Ref} {nodes : List (Ref × Memory)}
      (hcls : r.cls = listClass) (h : Chain (.object r) vs nodes) :
      Chain front (v :: vs) ((r, .ofList [("content", v), ("next", front)]) :: nodes)

namespace Heap

variable {n : Nat} {h h' : Heap} {new : List (Ref × Memory)}

/-- Objects are not changed by new ones. -/
theorem Adds.get? (ha : h.Adds new h') (hfits : h'.Fits) {r : Ref} {own : Memory}
    (hr : h.objects.get? r = some own) : h'.objects.get? r = some own := by
  have hnot : r ∉ new.map Prod.fst := by
    intro hin
    obtain ⟨e, he, rfl⟩ := List.mem_map.1 hin
    have hfresh : (h.objects.get? e.1).isSome = false := ha.fresh hfits e he
    rw [hr] at hfresh
    exact absurd hfresh (by simp)
  rw [ha.objects, SortedMap.get?_foldl_insert_of_notMem hnot]
  exact hr

/-- An object that is created is new. -/
theorem Counted.adds_create (hc : h.Counted n) (cls : String) (own : Memory) :
    h.Adds [((h.alloc cls).1, own)] (h.create cls own).2 where
  objects := rfl
  distinct _ := List.nodup_cons.2 ⟨List.not_mem_nil, List.nodup_nil⟩
  fresh hfits e he := by
    obtain rfl := List.mem_singleton.1 he
    have hlt : n + 1 < Text.modulus := (hc.create cls own).lt_modulus hfits
    exact hc.toNumbered.contains_alloc (by omega) cls

/-- The nodes that a list of answers is made of. -/
def newNodes (h : Heap) (front : Value) : List Value → List (Ref × Memory)
  | [] => []
  | v :: vs =>
    let own : Memory := .ofList [("content", v), ("next", front)]
    ((h.alloc listClass).1, own) ::
      (h.create listClass own).2.newNodes (.object (h.alloc listClass).1) vs

theorem chain_newNodes (h : Heap) (front : Value) (vs : List Value) :
    Chain front vs (h.newNodes front vs) := by
  induction vs generalizing h front with
  | nil => exact .nil front
  | cons v vs ih => exact .cons rfl (ih _ _)

theorem objects_addList (h : Heap) (front : Value) (vs : List Value) :
    (h.addList front vs).2.objects =
      (h.newNodes front vs).foldl (fun objects e => objects.insert e.1 e.2) h.objects := by
  induction vs generalizing h front with
  | nil => rfl
  | cons v vs ih => exact ih _ _

/-- The nodes have different references, none of which was there before. -/
theorem Numbered.newNodes (hn : h.Numbered n) (front : Value) {vs : List Value}
    (hle : n + vs.length ≤ Text.modulus) :
    ((h.newNodes front vs).map Prod.fst).Nodup ∧
      ∀ e ∈ h.newNodes front vs, h.contains (.object e.1) = false := by
  induction vs generalizing n h front with
  | nil => exact ⟨List.nodup_nil, fun e he => absurd he List.not_mem_nil⟩
  | cons v vs ih =>
    rw [List.length_cons] at hle
    let own : Memory := .ofList [("content", v), ("next", front)]
    let created : Heap := (h.create listClass own).2
    have hcreated : created.Numbered (n + 1) := hn.create listClass own
    obtain ⟨hnodup, hfresh⟩ :=
      ih hcreated (.object (h.alloc listClass).1) (by omega : n + 1 + vs.length ≤ Text.modulus)
    -- the first node is on the heap when the others are made
    have hfirst : created.contains (.object (h.alloc listClass).1) = true :=
      h.contains_create_self listClass own
    constructor
    · refine List.nodup_cons.2 ⟨fun hin => ?_, hnodup⟩
      obtain ⟨e, he, heq⟩ := List.mem_map.1 hin
      have hno := hfresh e he
      rw [heq, hfirst] at hno
      exact absurd hno (by simp)
    · intro e he
      rcases List.mem_cons.1 he with rfl | he
      · exact hn.contains_alloc (by omega) listClass
      · have hno := hfresh e he
        by_cases hin : h.contains (.object e.1) = true
        · have hyes := h.grows_create listClass own _ hin
          rw [hyes] at hno
          exact absurd hno (by simp)
        · simpa using hin

theorem Counted.adds_addList (hc : h.Counted n) (vs : List Value) :
    h.Adds (h.newNodes .null vs) (h.addList .null vs).2 := by
  have hle : (h.addList .null vs).2.Fits → n + vs.length ≤ Text.modulus :=
    fun hfits => Nat.le_of_lt ((hc.addList .null vs).lt_modulus hfits)
  exact ⟨h.objects_addList .null vs, fun hfits => (hc.toNumbered.newNodes .null (hle hfits)).1,
    fun hfits => (hc.toNumbered.newNodes .null (hle hfits)).2⟩

end Heap

/-! ### The changes of a step -/

namespace Machine

variable {σ : Type} {kb : Option (KnowledgeBase σ)}

/-- What a step of the frame `f` can make of the heap and of the variables of `f`. -/
inductive Evolves (kb : Option (KnowledgeBase σ)) (m : Machine) (s : σ) (f : Frame) :
    Heap → Memory → Prop where
  /-- Nothing is changed. -/
  | still : Evolves kb m s f m.heap f.locals
  /-- A variable is set. -/
  | setVar {name : String} {e : Expr} {v : Value} (hs : f.stmt.head = .assign (.var name) e)
      (he : e.eval (m.scopeOf f) = .ok v) : Evolves kb m s f m.heap (f.locals.insert name v)
  /-- A declared field of an object is set. -/
  | setField {target : Location} {e : Expr} {v : Value} {r : Ref} {own : Memory} {name : String}
      (hs : f.stmt.head = .assign target e) (he : e.eval (m.scopeOf f) = .ok v)
      (hr : m.heap.objects.get? r = some own) (hdecl : m.classes.hasField r.cls name = true) :
      Evolves kb m s f (m.heap.insert r (own.insert name v)) f.locals
  /-- An object is created. Its fields are those that its class declares, bound to the arguments in
      order. -/
  | create {target : Location} {cls : String} {args : List Expr} {fields : List String}
      {vs : List Value} {r : Ref} {own : Memory} {heap : Heap}
      (hs : f.stmt.head = .create target cls args) (hf : m.classes.fields? cls = some fields)
      (hargs : Expr.evalAll (m.scopeOf f) args = .ok vs) (hlen : fields.length = vs.length)
      (hcls : r.cls = cls) (hown : ∀ name v, own.get? name = some v ↔ (name, v) ∈ fields.zip vs)
      (hnew : m.heap.Adds [(r, own)] heap) : Evolves kb m s f heap f.locals
  /-- The answers of a knowledge base become a list. -/
  | enlist {caller : Caller} {r : Request} {target : Location} {base : KnowledgeBase σ}
      {ids : List String} {contents : List Value} {s' : σ} {nodes : List (Ref × Memory)}
      {heap : Heap} (hs : f.stmt.head.Wants m.classes (m.scopeOf f) caller (.ask r target))
      (hkb : kb = some base) (hask : base.ask m.heap r s = (.ok ids, s'))
      (hids : m.heap.classifyAll ids = .ok contents) (hchain : Chain .null contents nodes)
      (hnew : m.heap.Adds nodes heap) : Evolves kb m s f heap f.locals

/-- Setting a field changes the object that it is a field of. -/
theorem Evolves.of_writable {m : Machine} {s : σ} {f : Frame} {target : Location} {e : Expr}
    {b v : Value} {r : Ref} {name : String} (hs : f.stmt.head = .assign target e)
    (he : e.eval (m.scopeOf f) = .ok v) (hw : Writable m.classes m.heap b r name) :
    Evolves kb m s f (m.heap.setField r name v) f.locals := by
  obtain ⟨rfl, hon, hdecl⟩ := hw
  obtain ⟨own, hown⟩ := Option.isSome_iff_exists.1 hon
  have hget : m.heap.objects.get? r = some own := hown
  have hset : m.heap.setField r name v = m.heap.insert r (own.insert name v) := by
    rw [Heap.setField, hget]
  rw [hset]
  exact .setField hs he hget hdecl

/-- Every effect changes heap and variables in one of the ways of `Evolves`. -/
theorem Enacts.evolves {m : Machine} {f : Frame} {below : List Frame} {s s' : σ} {e : Effect}
    (h : Enacts kb m f below s e s') {n : Nat} (hc : m.heap.Counted n)
    (hnodup : ∀ cls fields, m.classes.fields? cls = some fields → fields.Nodup) :
    Evolves kb m s f (e.heapAfter m.heap) (e.localsAfter f.locals) := by
  -- only assignments, creations and answers change anything
  cases h with
  | ask hw hkb hlist hask hids =>
    exact .enlist hw hkb hask hids (m.heap.chain_newNodes .null _) (hc.adds_addList _)
  | act hw =>
    generalize hs : f.stmt.head = a at hw
    cases hw with
    | setVar he => exact .setVar hs he
    | setOwn he hw => exact .of_writable hs he hw
    | setField he hb hw => exact .of_writable hs he hw
    | @create target cls args fields vs hf hlen hargs =>
      have hlen' : fields.length = vs.length := by rw [hlen, Expr.length_evalAll hargs]
      refine .create hs hf hargs hlen' rfl (fun name v => ?_) (hc.adds_create cls _)
      -- no field is declared twice, so no argument is lost
      have hkeys : ((fields.zip vs).map Prod.fst).Nodup := by
        rw [List.map_fst_zip (Nat.le_of_eq hlen')]
        exact hnodup cls fields hf
      constructor
      · intro hget
        exact SortedMap.mem_ofList (SortedMap.mem_of_get? hget)
      · intro hmem
        exact SortedMap.get?_ofList hkeys hmem
    | _ => exact .still

/-- No change removes a field of an object. -/
theorem Evolves.isSome_get? {m : Machine} {s : σ} {f : Frame} {heap : Heap} {locals : Memory}
    (h : Evolves kb m s f heap locals) (hfits : heap.Fits) {r : Ref} {own : Memory}
    (hr : m.heap.objects.get? r = some own) :
    ∃ own', heap.objects.get? r = some own' ∧
      ∀ name, (own.get? name).isSome = true → (own'.get? name).isSome = true := by
  -- only an object that a field is set of becomes another one, and it becomes larger
  cases h with
  | still => exact ⟨own, hr, fun _ hname => hname⟩
  | setVar => exact ⟨own, hr, fun _ hname => hname⟩
  | @setField target e v r' own' field hs he hr' hdecl =>
    by_cases heq : r = r'
    · subst heq
      obtain rfl : own = own' := Option.some.inj (hr.symm.trans hr')
      exact ⟨own.insert field v, SortedMap.get?_insert_self _ _ _,
        fun name hname => SortedMap.isSome_get?_insert hname⟩
    · refine ⟨own, ?_, fun _ hname => hname⟩
      show (m.heap.objects.insert r' (own'.insert field v)).get? r = some own
      rw [SortedMap.get?_insert_of_ne _ heq]
      exact hr
  | create _ _ _ _ _ _ hnew => exact ⟨own, hnew.get? hfits hr, fun _ hname => hname⟩
  | enlist _ _ _ _ _ hnew => exact ⟨own, hnew.get? hfits hr, fun _ hname => hname⟩

/-! ### The variables of other frames -/

/-- The machine `m'` knows the variables of all frames that `m` knows. Those of the frame `f` are
    `locals` now, those of all others are as they were. -/
structure LocalsKept (m : Machine) (f : Frame) (locals : Memory) (m' : Machine) : Prop where
  running : m'.locals? f.id = some locals
  others : ∀ id own, id ≠ f.id → m.locals? id = some own → m'.locals? id = some own

/-- The ids of the frames that are scheduled or have left the stack were handed out. -/
structure Tidy (m : Machine) : Prop where
  disciplined : m.Disciplined
  retired : ∀ e ∈ m.retired, e.1 ≤ m.lastFrame

section Locals

variable {m m' : Machine} {f : Frame} {below : List Frame} {id : Nat}

theorem locals?_congr (hs : m'.stack = m.stack) (hr : m'.retired = m.retired) (id : Nat) :
    m'.locals? id = m.locals? id := by
  simp only [locals?, frame?, hs, hr]

theorem locals?_of_stack (hm : m.stack = f :: below) : m.locals? f.id = some f.locals := by
  simp [locals?, frame?, hm]

theorem locals?_of_ne (hm : m.stack = f :: below) (hid : id ≠ f.id) :
    (m.running below).locals? id = m.locals? id := by
  simp [locals?, frame?, running, hm, hid.symm]

theorem locals?_of_notMem (hid : id ∉ m.stack.map Frame.id) :
    m.locals? id = (m.retired.find? fun e => e.1 = id).map Prod.snd := by
  have hnone : m.frame? id = none := by
    refine List.find?_eq_none.2 fun g hg heq => hid ?_
    have hgid : g.id = id := by simpa using heq
    exact hgid ▸ List.mem_map_of_mem hg
  rw [locals?, hnone]

/-- The variables of a frame that goes on or is retired are known. -/
theorem locals?_proceed_self (hid : f.id ∉ m.stack.map Frame.id) (next : Option Stmt) :
    (m.proceed f next).locals? f.id = some f.locals := by
  cases next with
  | none =>
    have hid' : f.id ∉ (m.retire f).stack.map Frame.id := hid
    show (m.retire f).locals? f.id = some f.locals
    rw [locals?_of_notMem hid']
    simp [retire]
  | some s =>
    exact locals?_of_stack (f := { f with key := m.lastKey + 1, stmt := s }) rfl

theorem locals?_proceed_of_ne (hid : id ≠ f.id) (next : Option Stmt) :
    (m.proceed f next).locals? id = m.locals? id := by
  cases next with
  | none =>
    simp [proceed, retire, locals?, frame?, hid.symm]
  | some s =>
    simp [proceed, rewrite, locals?, frame?, hid.symm]

theorem Tidy.le_of_locals? (h : m.Tidy) {own : Memory} (hid : m.locals? id = some own) :
    id ≤ m.lastFrame := by
  by_cases hmem : id ∈ m.stack.map Frame.id
  · obtain ⟨g, hg, rfl⟩ := List.mem_map.1 hmem
    exact h.disciplined.ids_le g hg
  · rw [locals?_of_notMem hmem] at hid
    obtain ⟨e, he, -⟩ := Option.map_eq_some_iff.1 hid
    have heq : e.1 = id := by simpa using List.find?_some he
    exact heq ▸ h.retired e (List.mem_of_find?_eq_some he)

theorem locals?_spawn_of_ne (hid : id ≠ m.lastFrame + 1) (callee : Ref) (body : Stmt)
    (locals : Memory) : (m.spawn callee body locals).locals? id = m.locals? id := by
  simp [spawn, locals?, frame?, hid.symm]

theorem mem_retired_proceed {next : Option Stmt} {e : Nat × Memory}
    (h : e ∈ (m.proceed f next).retired) : e = (f.id, f.locals) ∨ e ∈ m.retired := by
  cases next with
  | none =>
    rcases List.mem_cons.1 h with rfl | h
    · exact .inl rfl
    · exact .inr h
  | some s => exact .inr h

/-- Going on with the running frame, or retiring it, keeps the variables of all others. -/
theorem Tidy.localsKept_proceed (h : m.Tidy) (hm : m.stack = f :: below) (heap : Heap)
    (locals : Memory) (next : Option Stmt) :
    m.LocalsKept f locals
      (proceed { m.running below with heap := heap } { f with locals := locals } next) := by
  have hdisciplined : ObjectMachine.Disciplined (f :: below) m.lastFrame m.lastKey :=
    hm ▸ h.disciplined
  constructor
  · exact locals?_proceed_self (f := { f with locals := locals }) hdisciplined.id_notMem next
  · intro id own hid hown
    have hproceed := locals?_proceed_of_ne (m := { m.running below with heap := heap })
      (f := { f with locals := locals }) hid next
    have hrunning : (m.running below).locals? id = some own := (locals?_of_ne hm hid).trans hown
    exact hproceed.trans ((locals?_congr rfl rfl id).trans hrunning)

/-- A call leaves all variables as they are; the frame of the method has an id of its own. -/
theorem Tidy.localsKept_invoke (h : m.Tidy) (hm : m.stack = f :: below) (target : Option Location)
    (callee : Ref) (body : Stmt) (locals : Memory) (rest : Option Stmt) :
    m.LocalsKept f f.locals
      ((m.running below).perform f rest (.invoke target callee body locals)) := by
  let waiting : Machine := (m.running below).rewrite f ((Stmt.storeReturn target).andThen rest)
  have hkept : m.LocalsKept f f.locals waiting := h.localsKept_proceed hm m.heap f.locals (some _)
  have hle : f.id ≤ m.lastFrame := h.disciplined.ids_le f (hm ▸ List.mem_cons_self)
  show m.LocalsKept f f.locals (waiting.spawn callee body locals)
  constructor
  · have hne : f.id ≠ waiting.lastFrame + 1 := Nat.ne_of_lt (Nat.lt_succ_of_le hle)
    rw [locals?_spawn_of_ne hne]
    exact hkept.running
  · intro id own hid hown
    have hknown : id ≤ m.lastFrame := h.le_of_locals? hown
    have hne : id ≠ waiting.lastFrame + 1 := Nat.ne_of_lt (Nat.lt_succ_of_le hknown)
    rw [locals?_spawn_of_ne hne]
    exact hkept.others id own hid hown

/-- A return leaves all variables as they are: the caller goes on with its own ones, or is retired
    with them. -/
theorem Tidy.localsKept_resume (h : m.Tidy) (hm : m.stack = f :: below) {g : Frame}
    (hg : f.callerIn below = .waiting g) (next rest : Option Stmt) :
    m.LocalsKept f f.locals ((m.running below).perform f rest (.resume g next)) := by
  have hdisciplined : ObjectMachine.Disciplined (f :: below) m.lastFrame m.lastKey :=
    hm ▸ h.disciplined
  obtain ⟨others, rfl, -, -⟩ := hdisciplined.below_of_callerIn hg
  have hfid : f.id ∉ (g :: others).map Frame.id := hdisciplined.id_notMem
  have hgid : g.id ∉ others.map Frame.id := hdisciplined.tail.id_notMem
  have hne : f.id ≠ g.id := fun heq => hfid (heq ▸ List.mem_cons_self)
  -- the machine after the returning frame and its caller were popped
  let popped : Machine := ((m.running (g :: others)).retire f).unschedule g.key
  have hstack : popped.stack = others := eraseP_key_cons g others
  have hpopped : ∀ id, id ≠ f.id → id ≠ g.id → popped.locals? id = m.locals? id := by
    intro id hidf hidg
    simp [locals?, frame?, hm, hidf.symm, hidg.symm, popped, unschedule, retire, running]
  show m.LocalsKept f f.locals (popped.proceed g next)
  constructor
  · have hnot : f.id ∉ popped.stack.map Frame.id := by
      rw [hstack]
      exact fun hin => hfid (List.mem_cons_of_mem _ hin)
    rw [locals?_proceed_of_ne hne next, locals?_of_notMem hnot]
    simp [popped, unschedule, retire]
  · intro id own hid hown
    by_cases hidg : id = g.id
    · subst hidg
      have hsame : m.locals? g.id = some g.locals := by
        rw [← locals?_of_ne hm hid]
        exact locals?_of_stack rfl
      rw [← hown, hsame]
      exact locals?_proceed_self (by rw [hstack]; exact hgid) next
    · rw [locals?_proceed_of_ne hidg next, hpopped id hid hidg]
      exact hown

end Locals

/-- Every effect changes the variables of the running frame only. -/
theorem Tidy.localsKept_perform {m : Machine} (h : m.Tidy) {f : Frame} {below : List Frame}
    (hm : m.stack = f :: below) {s s' : σ} {e : Effect} (he : Enacts kb m f below s e s') :
    m.LocalsKept f (e.localsAfter f.locals) ((m.running below).perform f f.stmt.tail? e) := by
  cases e with
  | invoke target callee body locals => exact h.localsKept_invoke hm target callee body locals _
  | resume g next => exact h.localsKept_resume hm he.callerIn_of_resume next _
  | _ =>
    rw [perform_of_stays rfl]
    exact h.localsKept_proceed hm _ _ _

/-- Only the running frame and its caller can leave the stack. -/
theorem Tidy.retired_perform {m : Machine} (h : m.Tidy) {f : Frame} {below : List Frame}
    (hm : m.stack = f :: below) {s s' : σ} {e : Effect} (he : Enacts kb m f below s e s') :
    ∀ entry ∈ ((m.running below).perform f f.stmt.tail? e).retired, entry.1 ≤ m.lastFrame := by
  have hids : ∀ g ∈ m.stack, g.id ≤ m.lastFrame := h.disciplined.ids_le
  have hf : f.id ≤ m.lastFrame := hids f (hm ▸ List.mem_cons_self)
  intro entry hentry
  cases e with
  | invoke target callee body locals => exact h.retired entry hentry
  | resume g next =>
    have hg : g ∈ below := Frame.mem_of_callerIn he.callerIn_of_resume
    rcases mem_retired_proceed hentry with rfl | hentry
    · exact hids g (hm ▸ List.mem_cons_of_mem f hg)
    · rcases List.mem_cons.1 hentry with rfl | hentry
      · exact hf
      · exact h.retired entry hentry
  | _ =>
    rw [perform_of_stays rfl] at hentry
    rcases mem_retired_proceed hentry with rfl | hentry
    · exact hf
    · exact h.retired entry hentry

theorem Tidy.step {m : Machine} (h : m.Tidy) (s : σ) : (m.step kb s).machine.Tidy := by
  have hmoves : m.Moves (m.step kb s).machine := moves_step m s
  have hle : m.lastFrame ≤ (m.step kb s).machine.lastFrame :=
    (Descends.of_moves h.disciplined hmoves).lastFrame_le
  refine ⟨h.disciplined.of_moves hmoves, fun entry hentry => Nat.le_trans ?_ hle⟩
  rcases step_cases kb m s with hstep | ⟨f, below, hm, hstep | ⟨e, s', -, henacts, hstep⟩⟩
  · rw [hstep] at hentry
    exact h.retired entry hentry
  · rw [hstep] at hentry
    rcases List.mem_cons.1 hentry with rfl | hentry
    · exact h.disciplined.ids_le f (hm ▸ List.mem_cons_self)
    · exact h.retired entry hentry
  · rw [hstep] at hentry
    exact h.retired_perform hm henacts entry hentry

theorem Tidy.operate {m : Machine} (h : m.Tidy) (op : Operation σ) : (m.operate kb op).Tidy := by
  have hdisciplined : (m.operate kb op).Disciplined := h.disciplined.of_moves (moves_operate m op)
  cases op with
  | start main =>
    refine ⟨hdisciplined, ?_⟩
    rw [Machine.operate, m.start_eq main]
    exact fun e he => Nat.le_succ_of_le (h.retired e he)
  | push stmt owner locals =>
    refine ⟨hdisciplined, ?_⟩
    rcases m.operate_push_cases stmt owner locals with hpush | ⟨-, hpush⟩
    · rw [hpush]
      exact h.retired
    · rw [hpush]
      exact fun e he => Nat.le_succ_of_le (h.retired e he)
  | step s => exact h.step s
  | fork => exact ⟨hdisciplined, fun e he => absurd he List.not_mem_nil⟩

/-- A step changes nothing, or it is a step of the top frame and makes one of the changes of
    `Evolves`. -/
theorem Tidy.evolves_step {m : Machine} (h : m.Tidy) {n : Nat} (hc : m.heap.Counted n)
    (hnodup : ∀ cls fields, m.classes.fields? cls = some fields → fields.Nodup) (s : σ) :
    (m.step kb s).machine = m ∨
      ∃ f below locals, m.stack = f :: below ∧
        Evolves kb m s f (m.step kb s).machine.heap locals ∧
        m.LocalsKept f locals (m.step kb s).machine := by
  rcases step_cases kb m s with hstep | ⟨f, below, hm, hstep | ⟨e, s', -, henacts, hstep⟩⟩
  · exact .inl hstep
  · -- a frame that fails is retired with its variables
    refine .inr ⟨f, below, f.locals, hm, ?_, ?_⟩
    · rw [hstep]
      exact .still
    · rw [hstep]
      exact h.localsKept_proceed hm m.heap f.locals none
  · refine .inr ⟨f, below, e.localsAfter f.locals, hm, ?_, ?_⟩
    · rw [hstep, perform_heap]
      exact henacts.evolves hc hnodup
    · rw [hstep]
      exact h.localsKept_perform hm henacts

end Machine

/-- Operations are performed in any order on a machine that starts with an empty heap, with classes
    that were declared. Objects have declared fields only, and

    * a step changes nothing, or it sets one variable of the running frame, sets one declared field
      of one object, creates one object with exactly the fields of its class, or puts the nodes of
      one list of answers on the heap; the variables of all other frames are kept;
    * it removes no object;
    * it removes no field, and no object gets another class, as long as the number of objects is a
      64-bit integer. -/
theorem heap_evolution_is_local {σ : Type} (kb : Option (KnowledgeBase σ)) {decls : List ClassDecl}
    {classes : ClassTable} (hdecls : ClassTable.ofDecls decls = .ok classes) (maxSteps : Nat)
    (ops : List (Operation σ)) :
    let m := (Machine.new classes ∅ maxSteps).operateAll kb ops
    (∀ r own name, m.heap.objects.get? r = some own → (own.get? name).isSome = true →
      classes.hasField r.cls name = true) ∧
    ∀ s : σ, let m' := (m.step kb s).machine
      (m' = m ∨ ∃ f below locals, m.stack = f :: below ∧ m.Evolves kb s f m'.heap locals ∧
        m.LocalsKept f locals m') ∧
      (∀ v, m.heap.contains v = true → m'.heap.contains v = true) ∧
      (m'.heap.Fits →
        (∀ r own, m.heap.objects.get? r = some own → ∃ own', m'.heap.objects.get? r = some own' ∧
          ∀ name, (own.get? name).isSome = true → (own'.get? name).isSome = true) ∧
        ∀ r r', m.heap.contains (.object r) = true → m'.heap.contains (.object r') = true →
          r.name = r'.name → r = r') := by
  intro m
  have htidy : m.Tidy := Machine.operateAll_preserves (fun _ => True) (fun _ op h _ => h.operate op)
    ⟨Machine.disciplined_new classes ∅ maxSteps, fun e he => absurd he List.not_mem_nil⟩
    fun _ _ => trivial
  obtain ⟨n, hc⟩ : ∃ n, m.heap.Counted n := Machine.exists_counted classes maxSteps ops
  have hclasses : m.classes = classes := Machine.operateAll_classes _ ops
  have hnodup : ∀ cls fields, m.classes.fields? cls = some fields → fields.Nodup := by
    intro cls fields hf
    rw [hclasses] at hf
    exact ClassTable.nodup_of_ofDecls hdecls hf
  refine ⟨fun r own name hr => (shape_declared classes).operateAll maxSteps ops r own hr name, ?_⟩
  intro s m'
  have hevolves : m' = m ∨ ∃ f below locals, m.stack = f :: below ∧
      m.Evolves kb s f m'.heap locals ∧ m.LocalsKept f locals m' :=
    htidy.evolves_step hc hnodup s
  have hgrows : m.heap.Grows m'.heap := m.grows_step s
  refine ⟨hevolves, hgrows, fun hfits => ⟨fun r own hr => ?_, fun r r' hr hr' hname => ?_⟩⟩
  · rcases hevolves with heq | ⟨f, below, locals, -, hchange, -⟩
    · exact ⟨own, by rw [heq]; exact hr, fun _ hname => hname⟩
    · exact hchange.isSome_get? hfits hr
  · -- names do not come back, so objects with one name are the same
    have hc' : m'.heap.Counted (n + m.handedOut kb (.step s)) := Machine.counted_step hc s
    have hlt : n + m.handedOut kb (.step s) < Text.modulus := hc'.lt_modulus hfits
    exact hc'.distinct (Nat.le_of_lt hlt) r r' (hgrows _ hr) hr' hname

/-- A program creates an object and sets one of its fields. After that the object has both fields
    still, and the program goes on with the same variables. -/
theorem heap_evolution_is_local_of_written_field :
    let decls : List ClassDecl := [⟨"C", ["a", "b"], []⟩]
    let classes : ClassTable := .ofList [("C", ⟨["a", "b"], ∅⟩)]
    let kb : Option (KnowledgeBase Unit) := none
    let main : Stmt := .block
      [.create (.var "x") "C" [.lit (.integer "1"), .lit (.integer "2")],
        .assign (.field (.var "x") "a") (.lit (.integer "5")), .skip]
    let m := (Machine.new classes ∅ 0).operateAll kb [.start main, .step (), .step ()]
    let m' := (m.step kb ()).machine
    let r : Ref := ⟨"obj2", "C"⟩
    ClassTable.ofDecls decls = .ok classes ∧ m'.heap.Fits ∧
      (∃ own own', m.heap.objects.get? r = some own ∧ m'.heap.objects.get? r = some own' ∧
        own.get? "a" = some (.integer "1") ∧ own'.get? "a" = some (.integer "5") ∧
        (own'.get? "b").isSome = true ∧ classes.hasField r.cls "b" = true) ∧
      ∃ f below locals, m.stack = f :: below ∧ m.Evolves kb () f m'.heap locals ∧
        m.LocalsKept f locals m' := by
  intro decls classes kb main m m' r
  have hdecls : ClassTable.ofDecls decls = .ok classes := rfl
  have hfits : m'.heap.Fits := by decide
  have hbefore : m.heap.objects.get? r =
      some (.ofList [("a", .integer "1"), ("b", .integer "2")]) := by decide
  have hafter : (m'.heap.objects.get? r).bind (fun own => own.get? "a") =
      some (.integer "5") := by decide
  obtain ⟨hdeclared, hstep⟩ := heap_evolution_is_local kb hdecls 0 [.start main, .step (), .step ()]
  obtain ⟨hevolves, -, hkept⟩ := hstep ()
  obtain ⟨own', hown', hfields⟩ := (hkept hfits).1 r _ hbefore
  have ha : own'.get? "a" = some (.integer "5") := by
    have hbind := hafter
    rw [hown'] at hbind
    exact hbind
  refine ⟨hdecls, hfits, ⟨_, own', hbefore, hown', by decide, ha, hfields "b" (by decide),
    hdeclared r _ "b" hbefore (by decide)⟩, ?_⟩
  -- the field was changed, so the step was no idle one
  refine hevolves.resolve_left fun heq => ?_
  have hsame : m'.heap.objects.get? r = m.heap.objects.get? r :=
    congrArg (fun k : Machine => k.heap.objects.get? r) heq
  rw [hsame, hbefore] at hafter
  exact absurd hafter (by decide)

end ObjectMachine
