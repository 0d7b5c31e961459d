import ObjectMachine.Proofs.Naming

namespace ObjectMachine

/-!
# Which fields objects have

Objects come from three places: a program that is started has an entry object, an object is created
with the fields of its class, and the answers of a knowledge base become the nodes of a list. After
that, fields are only written. So what holds of these objects and is kept by writing a field holds
of every object there ever is:

* `ClassTable.nodup_of_ofDecls` — a class that is declared has no field twice;
* `Heap.AllObjects` — every object of a heap has a property;
* `Shape` — a property of objects that all new objects have, and that writing a field keeps;
* `Shape.operateAll` — every object that can be reached from an empty heap has it;
* `shape_declared` — objects have fields only that their class declares, which is such a property.
-/

/-! ### Fields of classes -/

theorem nodup_of_firstRepeated? {seen names : List String}
    (h : firstRepeated? seen names = none) : names.Nodup ∧ ∀ name ∈ names, name ∉ seen := by
  induction names generalizing seen with
  | nil => exact ⟨List.nodup_nil, fun _ hname => absurd hname List.not_mem_nil⟩
  | cons name rest ih =>
    rw [firstRepeated?] at h
    split at h
    · simp at h
    · rename_i hname
      obtain ⟨hnodup, hseen⟩ := ih h
      refine ⟨List.nodup_cons.2 ⟨fun hin => hseen name hin List.mem_cons_self, hnodup⟩, ?_⟩
      intro x hx
      rcases List.mem_cons.1 hx with rfl | hx
      · exact hname
      · exact fun hin => hseen x hx (List.mem_cons_of_mem _ hin)

namespace ClassTable

/-- A declaration that is accepted adds a class without repeated fields. -/
theorem declare_eq_ok {table table' : ClassTable} {c : ClassDecl}
    (h : table.declare c = .ok table') :
    ∃ methods, methodsOf c.name c.methods = .ok methods ∧
      table' = table.insert c.name ⟨c.fields, methods⟩ ∧ c.fields.Nodup := by
  rw [declare] at h
  split at h
  · simp at h
  · split at h
    · simp at h
    · split at h
      · simp at h
      · rename_i hnone
        obtain ⟨methods, hmethods, h⟩ := bind_eq_ok.1 h
        exact ⟨methods, hmethods, (pure_eq_ok.1 h).symm, (nodup_of_firstRepeated? hnone).1⟩

/-- What holds of every class that a declaration can add holds of every class of a table that was
    built. -/
theorem all_of_ofDecls {P : ClassInfo → Prop} {decls : List ClassDecl} {classes : ClassTable}
    (hP : ∀ c ∈ decls, ∀ methods, methodsOf c.name c.methods = .ok methods → c.fields.Nodup →
      P ⟨c.fields, methods⟩)
    (h : ofDecls decls = .ok classes) : classes.All P := by
  have hfold : ∀ table : ClassTable, table.All P → decls.foldlM declare table = .ok classes →
      classes.All P := by
    clear h
    induction decls with
    | nil =>
      intro table htable h
      obtain rfl : table = classes := by simpa using h
      exact htable
    | cons c rest ih =>
      intro table htable h
      rw [List.foldlM_cons] at h
      obtain ⟨table', hdeclare, h⟩ := bind_eq_ok.1 h
      obtain ⟨methods, hmethods, rfl, hnodup⟩ := declare_eq_ok hdeclare
      have hnew : P ⟨c.fields, methods⟩ := hP c (by simp) methods hmethods hnodup
      exact ih (fun c' hc' => hP c' (by simp [hc'])) _ (htable.insert c.name hnew) h
  exact hfold ∅ .empty h

/-- No class of an accepted table declares a field twice. -/
theorem nodup_of_ofDecls {decls : List ClassDecl} {classes : ClassTable}
    (h : ofDecls decls = .ok classes) {cls : String} {fields : List String}
    (hf : classes.fields? cls = some fields) : fields.Nodup := by
  have hall : classes.All fun info => info.fields.Nodup :=
    all_of_ofDecls (fun _ _ _ _ hnodup => hnodup) h
  rw [fields?] at hf
  obtain ⟨info, hinfo, rfl⟩ := Option.map_eq_some_iff.1 hf
  exact hall.get? hinfo

theorem hasField_iff {classes : ClassTable} {cls name : String} :
    classes.hasField cls name = true ↔
      ∃ fields, classes.fields? cls = some fields ∧ name ∈ fields := by
  rw [hasField]
  split
  · rename_i hnone
    simp [hnone]
  · rename_i fields hsome
    simp [hsome]

end ClassTable

/-! ### Properties of objects -/

namespace SortedMap

variable {κ ν : Type} [Ord κ] [Std.TransOrd κ] [Std.LawfulEqOrd κ]

/-- A key of a map that was made from a list is a key of the list. -/
theorem mem_of_isSome_get?_ofList {es : List (κ × ν)} {k : κ}
    (h : ((ofList es).get? k).isSome = true) : k ∈ es.map Prod.fst := by
  obtain ⟨v, hv⟩ := Option.isSome_iff_exists.1 h
  exact List.mem_map.2 ⟨(k, v), mem_ofList (mem_of_get? hv), rfl⟩

/-- After an insertion a key is the one that was inserted, or it was there. -/
theorem isSome_get?_insert_iff {m : SortedMap κ ν} {k k' : κ} {v : ν} :
    ((m.insert k v).get? k').isSome = true ↔ k' = k ∨ (m.get? k').isSome = true := by
  by_cases hk : k' = k
  · rw [hk, get?_insert_self]
    simp
  · rw [get?_insert_of_ne m hk]
    simp [hk]

/-- Every key of a list is a key of the map that is made from it. -/
theorem isSome_get?_ofList {es : List (κ × ν)} {k : κ} (h : k ∈ es.map Prod.fst) :
    ((ofList es).get? k).isSome = true := by
  have hfold : ∀ (es : List (κ × ν)) (m : SortedMap κ ν),
      k ∈ es.map Prod.fst ∨ (m.get? k).isSome = true →
        ((es.foldl (fun m e => m.insert e.1 e.2) m).get? k).isSome = true := by
    intro es
    induction es with
    | nil =>
      intro m h
      exact h.resolve_left List.not_mem_nil
    | cons e rest ih =>
      intro m h
      refine ih _ ?_
      rcases h with h | h
      · rcases List.mem_cons.1 h with rfl | h
        · exact .inr (isSome_get?_insert_iff.2 (.inl rfl))
        · exact .inl h
      · exact .inr (isSome_get?_insert h)
  exact hfold es ∅ (.inl h)

end SortedMap

/-- Every object of a heap has a property, which may depend on its reference. -/
def Heap.AllObjects (P : Ref → Memory → Prop) (h : Heap) : Prop :=
  ∀ r own, h.objects.get? r = some own → P r own

/-- A property of objects that holds of entry objects, of new objects with the fields of their class
    and of the nodes of lists, and that is kept by writing a declared field. -/
structure Shape (classes : ClassTable) (P : Ref → Memory → Prop) : Prop where
  entry (name : String) : P ⟨name, entryClass⟩ ∅
  create {r : Ref} {fields : List String} {vs : List Value}
    (hf : classes.fields? r.cls = some fields) (hlen : fields.length = vs.length) :
    P r (.ofList (fields.zip vs))
  node (name : String) (v front : Value) (hlist : Machine.hasListClass classes = true) :
    P ⟨name, listClass⟩ (.ofList [("content", v), ("next", front)])
  write {r : Ref} {own : Memory} {name : String} (v : Value) (h : P r own)
    (hdecl : classes.hasField r.cls name = true) : P r (own.insert name v)

namespace Heap.AllObjects

variable {P : Ref → Memory → Prop} {h : Heap}

theorem empty : (∅ : Heap).AllObjects P :=
  fun _ _ hr => absurd hr (by intro hr; cases hr)

theorem insert (hP : h.AllObjects P) {r : Ref} {own : Memory} (hnew : P r own) :
    (h.insert r own).AllObjects P := by
  intro r' own' hr'
  have hget : (h.objects.insert r own).get? r' = some own' := hr'
  by_cases hrr : r' = r
  · rw [hrr, SortedMap.get?_insert_self] at hget
    obtain rfl := Option.some.inj hget
    rw [hrr]
    exact hnew
  · rw [SortedMap.get?_insert_of_ne _ hrr] at hget
    exact hP r' own' hget

theorem create (hP : h.AllObjects P) {cls : String} {own : Memory}
    (hnew : ∀ r : Ref, r.cls = cls → P r own) : (h.create cls own).2.AllObjects P := by
  have halloc : (h.alloc cls).2.AllObjects P := hP
  exact halloc.insert (hnew (h.alloc cls).1 rfl)

theorem setField (hP : h.AllObjects P) {r : Ref} {name : String} {v : Value}
    (hwrite : ∀ own, P r own → P r (own.insert name v)) : (h.setField r name v).AllObjects P := by
  unfold Heap.setField
  split
  · exact hP
  · rename_i own hget
    exact hP.insert (hwrite own (hP r own hget))

theorem addList (hP : h.AllObjects P) {front : Value} {vs : List Value}
    (hnode : ∀ (r : Ref) (v front : Value), r.cls = listClass →
      P r (.ofList [("content", v), ("next", front)])) : (h.addList front vs).2.AllObjects P := by
  induction vs generalizing h front with
  | nil => exact hP
  | cons v vs ih => exact ih (hP.create fun r hr => hnode r v front hr)

end Heap.AllObjects

/-- No operation changes the classes. -/
theorem Machine.operate_classes {σ : Type} {kb : Option (KnowledgeBase σ)} (m : Machine)
    (op : Operation σ) : (m.operate kb op).classes = m.classes := by
  cases op with
  | start main => rw [operate, m.start_eq main]
  | push stmt owner locals =>
    rcases m.operate_push_cases stmt owner locals with h | ⟨-, h⟩
    · rw [h]
    · rw [h]
  | step s => exact step_classes m s
  | fork => rfl

theorem Machine.operateAll_classes {σ : Type} {kb : Option (KnowledgeBase σ)} (m : Machine)
    (ops : List (Operation σ)) : (m.operateAll kb ops).classes = m.classes :=
  operateAll_preserves (fun _ => True) (P := fun m' => m'.classes = m.classes)
    (fun m' op h _ => (m'.operate_classes op).trans h) rfl fun _ _ => trivial

namespace Shape

variable {classes : ClassTable} {P : Ref → Memory → Prop} {σ : Type}
  {kb : Option (KnowledgeBase σ)}

/-- A step keeps what holds of all objects. -/
theorem step (hP : Shape classes P) {m : Machine} (hclasses : m.classes = classes)
    (h : m.heap.AllObjects P) (s : σ) : (m.step kb s).machine.heap.AllObjects P := by
  subst hclasses
  rcases Machine.step_cases kb m s with hstep | ⟨f, below, -, hstep | ⟨e, s', -, henacts, hstep⟩⟩
  · rw [hstep]
    exact h
  · rw [hstep]
    exact h
  · rw [hstep, Machine.perform_heap]
    show (e.heapAfter m.heap).AllObjects P
    cases henacts with
    | ask _ _ hlist =>
      -- a request is put only if the class for lists declares both fields of a node
      refine h.addList fun r v front hr => ?_
      obtain ⟨name, cls⟩ := r
      obtain rfl : cls = listClass := hr
      exact hP.node name v front hlist
    | act hw =>
      generalize f.stmt.head = a at hw
      cases hw with
      -- a field is written only if it is declared
      | setOwn _ hw => exact h.setField fun own hown => hP.write _ hown hw.declared
      | setField _ _ hw => exact h.setField fun own hown => hP.write _ hown hw.declared
      | create hf hlen hargs =>
        refine h.create fun r hr => hP.create (hr ▸ hf) ?_
        rw [Expr.length_evalAll hargs, hlen]
      | _ => exact h

theorem operate (hP : Shape classes P) {m : Machine} (hclasses : m.classes = classes)
    (h : m.heap.AllObjects P) (op : Operation σ) : (m.operate kb op).heap.AllObjects P := by
  cases op with
  | start main =>
    rw [Machine.operate, m.start_eq main]
    refine h.create fun r hr => ?_
    obtain ⟨name, cls⟩ := r
    obtain rfl : cls = entryClass := hr
    exact hP.entry name
  | push stmt owner locals =>
    rw [Machine.operate_push_heap]
    exact h
  | step s => exact hP.step hclasses h s
  | fork => exact h

/-- Every object that can be reached from an empty heap has the property. -/
theorem operateAll (hP : Shape classes P) (maxSteps : Nat) (ops : List (Operation σ)) :
    ((Machine.new classes ∅ maxSteps).operateAll kb ops).heap.AllObjects P := by
  -- the induction needs to know that the classes stay the same
  have hall : ((Machine.new classes ∅ maxSteps).operateAll kb ops).classes = classes ∧
      ((Machine.new classes ∅ maxSteps).operateAll kb ops).heap.AllObjects P := by
    refine Machine.operateAll_preserves (fun _ => True)
      (P := fun m => m.classes = classes ∧ m.heap.AllObjects P) ?_ ⟨rfl, .empty⟩ fun _ _ => trivial
    rintro m op ⟨hclasses, h⟩ -
    exact ⟨(m.operate_classes op).trans hclasses, hP.operate hclasses h op⟩
  exact hall.2

end Shape

/-- Objects have fields only that their class declares. -/
theorem shape_declared (classes : ClassTable) :
    Shape classes fun r own => ∀ name, (own.get? name).isSome = true →
      classes.hasField r.cls name = true where
  entry _ _ hname := Bool.noConfusion hname
  create {r fields vs} hf _ name hname := by
    obtain ⟨p, hp, rfl⟩ := List.mem_map.1 (SortedMap.mem_of_isSome_get?_ofList hname)
    exact ClassTable.hasField_iff.2 ⟨fields, hf, (List.of_mem_zip hp).1⟩
  node _ _ _ hlist name hname := by
    obtain ⟨hcontent, hnext⟩ : classes.hasField listClass "content" = true ∧
        classes.hasField listClass "next" = true := by
      simpa [Machine.hasListClass] using hlist
    have hkeys := SortedMap.mem_of_isSome_get?_ofList hname
    rcases List.mem_cons.1 hkeys with rfl | hkeys
    · exact hcontent
    · obtain rfl := List.mem_singleton.1 hkeys
      exact hnext
  write {r own name} v h hdecl name' hname' := by
    rcases SortedMap.isSome_get?_insert_iff.1 hname' with rfl | hname'
    · exact hdecl
    · exact h name' hname'

end ObjectMachine
