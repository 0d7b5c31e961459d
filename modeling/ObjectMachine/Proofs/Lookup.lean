import ObjectMachine.Knowledge.Basic

namespace ObjectMachine

/-!
# Looking things up

What a map holds after an insertion, and what a heap holds after an object was created or
changed:

* `SortedMap.get?_insert_self`, `SortedMap.get?_insert_of_ne` — a look-up after an insertion;
* `SortedMap.get?_eq_some_iff` — look-ups and entries say the same;
* `SortedMap.ext_get?` — a map is known by its look-ups;
* `SortedMap.ofList_entries`, `SortedMap.foldl_insert_perm` — a map is made from its entries, in any
  order;
* `SortedMap.mapValues` — a function applied to all values; `SortedMap.mapEntries` — to the keys
  too;
* `Heap.Grows` — one heap has all the objects of another one; creating objects and writing
  fields lets a heap grow.
-/

/-! ### Maps -/

variable {κ ν : Type} [Ord κ]

theorem findValue?_insertEntry_self [Std.LawfulEqOrd κ] (k : κ) (v : ν) (es : List (κ × ν)) :
    findValue? k (insertEntry k v es) = some v := by
  induction es with
  | nil => simp [insertEntry, findValue?]
  | cons e rest ih =>
    rw [insertEntry]
    split
    · simp [findValue?]
    · simp [findValue?]
    · rename_i hgt
      simp [findValue?, hgt, ih]

theorem findValue?_insertEntry_of_ne [Std.LawfulEqOrd κ] {k k' : κ} (h : k' ≠ k) (v : ν)
    (es : List (κ × ν)) : findValue? k' (insertEntry k v es) = findValue? k' es := by
  have hne : compare k' k ≠ .eq := by simpa using h
  induction es with
  | nil => simp [insertEntry, findValue?, hne]
  | cons e rest ih =>
    rw [insertEntry]
    split
    · rw [findValue?, if_neg hne]
    · -- the entry that is replaced has the inserted key, so it is not the one looked for
      rename_i heq
      obtain rfl := Std.LawfulEqCmp.eq_of_compare heq
      rw [findValue?, if_neg hne, findValue?, if_neg hne]
    · rw [findValue?, findValue?, ih]

theorem findValue?_eq_some [Std.LawfulEqOrd κ] {k : κ} {v : ν} {es : List (κ × ν)}
    (h : findValue? k es = some v) : (k, v) ∈ es := by
  induction es with
  | nil => simp [findValue?] at h
  | cons e rest ih =>
    rw [findValue?] at h
    split at h
    · rename_i heq
      obtain rfl := Std.LawfulEqCmp.eq_of_compare heq
      obtain rfl := Option.some.inj h
      exact List.mem_cons_self
    · exact List.mem_cons_of_mem _ (ih h)

namespace SortedMap

variable [Std.LawfulEqOrd κ]

theorem mem_of_get? {m : SortedMap κ ν} {k : κ} {v : ν} (h : m.get? k = some v) :
    (k, v) ∈ m.entries :=
  findValue?_eq_some h

/-- A key is bound to a value exactly if there is an entry that says so. -/
theorem get?_eq_some_iff {m : SortedMap κ ν} {k : κ} {v : ν} :
    m.get? k = some v ↔ (k, v) ∈ m.entries := by
  refine ⟨mem_of_get?, fun h => ?_⟩
  obtain ⟨es, hordered⟩ := m
  show findValue? k es = some v
  induction es with
  | nil => simp at h
  | cons e rest ih =>
    obtain ⟨hhead, htail⟩ := List.pairwise_cons.1 hordered
    rw [findValue?]
    rcases List.mem_cons.1 h with rfl | h
    · simp
    · -- a later entry has a greater key than the first one
      have hlt : compare e.1 k = .lt := hhead (k, v) h
      have hne : compare k e.1 ≠ .eq := by
        intro heq
        rw [Std.LawfulEqCmp.eq_of_compare heq] at hlt
        simp at hlt
      rw [if_neg hne]
      exact ih htail h

/-- Applies a function to the values of a map. -/
def mapValues {μ : Type} (f : ν → μ) (m : SortedMap κ ν) : SortedMap κ μ where
  entries := m.entries.map fun e => (e.1, f e.2)
  ordered := List.pairwise_map.2 m.ordered

omit [Std.LawfulEqOrd κ] in
@[simp] theorem get?_mapValues {μ : Type} (f : ν → μ) (m : SortedMap κ ν) (k : κ) :
    (m.mapValues f).get? k = (m.get? k).map f := by
  obtain ⟨es, hordered⟩ := m
  show findValue? k (es.map fun e => (e.1, f e.2)) = (findValue? k es).map f
  clear hordered
  induction es with
  | nil => rfl
  | cons e rest ih =>
    rw [List.map_cons, findValue?, findValue?]
    split
    · rfl
    · exact ih

variable [Std.TransOrd κ]

/-- In a list that is in strictly ascending key order the first entry is the least one, so two
    such lists with the same entries start with the same one. -/
private theorem entries_eq {es es' : List (κ × ν)}
    (h : es.Pairwise fun a b => compare a.1 b.1 = .lt)
    (h' : es'.Pairwise fun a b => compare a.1 b.1 = .lt) (hmem : ∀ e, e ∈ es ↔ e ∈ es') :
    es = es' := by
  have hirrefl : ∀ e : κ × ν, compare e.1 e.1 ≠ .lt := by simp
  induction es generalizing es' with
  | nil =>
    cases es' with
    | nil => rfl
    | cons e' rest' => exact absurd ((hmem e').2 List.mem_cons_self) List.not_mem_nil
  | cons e rest ih =>
    cases es' with
    | nil => exact absurd ((hmem e).1 List.mem_cons_self) List.not_mem_nil
    | cons e' rest' =>
      obtain ⟨hhead, htail⟩ := List.pairwise_cons.1 h
      obtain ⟨hhead', htail'⟩ := List.pairwise_cons.1 h'
      have hee' : e = e' := by
        rcases List.mem_cons.1 ((hmem e).1 List.mem_cons_self) with heq | hin
        · exact heq
        · rcases List.mem_cons.1 ((hmem e').2 List.mem_cons_self) with heq | hin'
          · exact heq.symm
          · exact absurd (Std.TransCmp.lt_trans (hhead e' hin') (hhead' e hin)) (hirrefl e)
      subst hee'
      refine congrArg (e :: ·) (ih htail htail' fun x => ⟨fun hx => ?_, fun hx => ?_⟩)
      · rcases List.mem_cons.1 ((hmem x).1 (List.mem_cons_of_mem e hx)) with rfl | hx'
        · exact absurd (hhead x hx) (hirrefl x)
        · exact hx'
      · rcases List.mem_cons.1 ((hmem x).2 (List.mem_cons_of_mem e hx)) with rfl | hx'
        · exact absurd (hhead' x hx) (hirrefl x)
        · exact hx'

/-- A map is known by what is found in it. -/
theorem ext_get? {m n : SortedMap κ ν} (h : ∀ k, m.get? k = n.get? k) : m = n := by
  refine SortedMap.ext (entries_eq m.ordered n.ordered fun e => ?_)
  rw [← get?_eq_some_iff (m := m), ← get?_eq_some_iff (m := n), h]

@[simp] theorem get?_insert_self (m : SortedMap κ ν) (k : κ) (v : ν) :
    (m.insert k v).get? k = some v :=
  findValue?_insertEntry_self k v m.entries

theorem get?_insert_of_ne (m : SortedMap κ ν) {k k' : κ} (h : k' ≠ k) (v : ν) :
    (m.insert k v).get? k' = m.get? k' :=
  findValue?_insertEntry_of_ne h v m.entries

theorem mem_insert {m : SortedMap κ ν} {k : κ} {v : ν} {e : κ × ν}
    (h : e ∈ (m.insert k v).entries) : e = (k, v) ∨ e ∈ m.entries :=
  mem_insertEntry h

theorem isSome_get?_insert {m : SortedMap κ ν} {k k' : κ} {v : ν} (h : (m.get? k').isSome) :
    ((m.insert k v).get? k').isSome := by
  by_cases hk : compare k' k = .eq
  · rw [Std.LawfulEqCmp.eq_of_compare hk, get?_insert_self]
    rfl
  · rw [get?_insert_of_ne m (by simpa using hk)]
    exact h

/-- The entries of a map that was made from a list are entries of the list. -/
theorem mem_ofList {es : List (κ × ν)} {e : κ × ν} (h : e ∈ (ofList es).entries) : e ∈ es := by
  have hfold : ∀ (es : List (κ × ν)) (m : SortedMap κ ν),
      e ∈ (es.foldl (fun m e => m.insert e.1 e.2) m).entries → e ∈ es ∨ e ∈ m.entries := by
    intro es
    induction es with
    | nil => exact fun m h => .inr h
    | cons d rest ih =>
      intro m h
      rcases ih _ h with h | h
      · exact .inl (List.mem_cons_of_mem _ h)
      · rcases mem_insert h with rfl | h
        · exact .inl List.mem_cons_self
        · exact .inr h
  exact (hfold es ∅ h).resolve_right List.not_mem_nil

omit [Std.LawfulEqOrd κ] in
theorem insertEntry_eq_append {k : κ} {v : ν} {es : List (κ × ν)}
    (h : ∀ e ∈ es, compare e.1 k = .lt) : insertEntry k v es = es ++ [(k, v)] := by
  induction es with
  | nil => rfl
  | cons e rest ih =>
    have hgt : compare k e.1 = .gt := Std.OrientedCmp.gt_of_lt (h e List.mem_cons_self)
    simp only [insertEntry, hgt, List.cons_append]
    rw [ih fun e' he' => h e' (List.mem_cons_of_mem e he')]

/-- A map is made from its entries in order. -/
theorem ofList_entries (m : SortedMap κ ν) : ofList m.entries = m := by
  -- entries are inserted behind those that are there already
  have hfold : ∀ (es : List (κ × ν)) (n : SortedMap κ ν),
      (n.entries ++ es).Pairwise (fun a b => compare a.1 b.1 = .lt) →
        (es.foldl (fun m e => m.insert e.1 e.2) n).entries = n.entries ++ es := by
    intro es
    induction es with
    | nil => exact fun n _ => (List.append_nil _).symm
    | cons e rest ih =>
      intro n hordered
      have hlast : ∀ d ∈ n.entries, compare d.1 e.1 = .lt := fun d hd =>
        (List.pairwise_append.1 hordered).2.2 d hd e List.mem_cons_self
      have hinsert : (n.insert e.1 e.2).entries = n.entries ++ [e] := insertEntry_eq_append hlast
      rw [List.foldl_cons, ih, hinsert, List.append_assoc]
      · rfl
      · rw [hinsert, List.append_assoc]
        exact hordered
  exact SortedMap.ext (hfold m.entries ∅ m.ordered)

/-- Inserting entries does not change what is found under other keys. -/
theorem get?_foldl_insert_of_notMem {k : κ} {es : List (κ × ν)} (h : k ∉ es.map Prod.fst)
    (m : SortedMap κ ν) : (es.foldl (fun m e => m.insert e.1 e.2) m).get? k = m.get? k := by
  induction es generalizing m with
  | nil => rfl
  | cons e rest ih =>
    have hne : k ≠ e.1 := fun heq => h (heq ▸ List.mem_cons_self)
    rw [List.foldl_cons, ih fun hin => h (List.mem_cons_of_mem _ hin)]
    exact get?_insert_of_ne m hne e.2

/-- Inserting entries with different keys binds each of them. -/
theorem get?_foldl_insert_of_mem {es : List (κ × ν)} (h : (es.map Prod.fst).Nodup) {e : κ × ν}
    (he : e ∈ es) (m : SortedMap κ ν) :
    (es.foldl (fun m e => m.insert e.1 e.2) m).get? e.1 = some e.2 := by
  induction es generalizing m with
  | nil => exact absurd he List.not_mem_nil
  | cons d rest ih =>
    obtain ⟨hd, hrest⟩ := List.nodup_cons.1 h
    rw [List.foldl_cons]
    rcases List.mem_cons.1 he with rfl | he
    · rw [get?_foldl_insert_of_notMem hd]
      exact get?_insert_self m e.1 e.2
    · exact ih hrest he _

/-- A map that was made from a list with one entry for each key has all these entries. -/
theorem get?_ofList {es : List (κ × ν)} (h : (es.map Prod.fst).Nodup) {e : κ × ν} (he : e ∈ es) :
    (ofList es).get? e.1 = some e.2 :=
  get?_foldl_insert_of_mem h he ∅

/-- A map that was made from a list has its first entry, if no later one has the same key. -/
theorem get?_ofList_cons {k : κ} {v : ν} {es : List (κ × ν)} (h : k ∉ es.map Prod.fst) :
    (ofList ((k, v) :: es)).get? k = some v := by
  rw [ofList, List.foldl_cons, get?_foldl_insert_of_notMem h]
  exact get?_insert_self _ k v

/-- The order in which entries with different keys are inserted does not matter. -/
theorem foldl_insert_perm {es es' : List (κ × ν)} (h : es.Perm es')
    (hnodup : (es.map Prod.fst).Nodup) (m : SortedMap κ ν) :
    es.foldl (fun m e => m.insert e.1 e.2) m = es'.foldl (fun m e => m.insert e.1 e.2) m := by
  have hkeys : (es.map Prod.fst).Perm (es'.map Prod.fst) := h.map Prod.fst
  refine ext_get? fun k => ?_
  by_cases hk : k ∈ es.map Prod.fst
  · obtain ⟨e, he, rfl⟩ := List.mem_map.1 hk
    rw [get?_foldl_insert_of_mem hnodup he,
      get?_foldl_insert_of_mem (hkeys.nodup hnodup) (h.mem_iff.1 he)]
  · rw [get?_foldl_insert_of_notMem hk,
      get?_foldl_insert_of_notMem fun hk' => hk (hkeys.mem_iff.2 hk')]

theorem ofList_eq_of_perm {es es' : List (κ × ν)} (h : es.Perm es')
    (hnodup : (es.map Prod.fst).Nodup) : ofList es = ofList es' :=
  foldl_insert_perm h hnodup ∅

omit [Std.TransOrd κ] in
/-- The keys of a map are different from each other. -/
theorem nodup_keys (m : SortedMap κ ν) : m.keys.Nodup := by
  refine List.pairwise_map.2 (m.ordered.imp fun {a b} hlt heq => ?_)
  rw [heq] at hlt
  simp at hlt

theorem mapValues_insert {μ : Type} (f : ν → μ) (m : SortedMap κ ν) (k : κ) (v : ν) :
    (m.insert k v).mapValues f = (m.mapValues f).insert k (f v) := by
  refine ext_get? fun k' => ?_
  rw [get?_mapValues]
  by_cases hk : k' = k
  · rw [hk, get?_insert_self, get?_insert_self, Option.map_some]
  · rw [get?_insert_of_ne _ hk, get?_insert_of_ne _ hk, get?_mapValues]

theorem mapValues_ofList {μ : Type} (f : ν → μ) (es : List (κ × ν)) :
    (ofList es).mapValues f = ofList (es.map fun e => (e.1, f e.2)) := by
  have hfold : ∀ (es : List (κ × ν)) (m : SortedMap κ ν),
      (es.foldl (fun m e => m.insert e.1 e.2) m).mapValues f =
        (es.map fun e => (e.1, f e.2)).foldl (fun m e => m.insert e.1 e.2) (m.mapValues f) := by
    intro es
    induction es with
    | nil => exact fun m => rfl
    | cons e rest ih =>
      intro m
      rw [List.foldl_cons, ih, mapValues_insert]
      rfl
  exact hfold es ∅

section MapEntries

variable {κ' ν' : Type} [Ord κ'] [Std.LawfulEqOrd κ'] [Std.TransOrd κ'] {f : κ → κ'}
  {g : ν → ν'}

/-- Applies functions to the keys and to the values of a map. -/
def mapEntries (f : κ → κ') (g : ν → ν') (m : SortedMap κ ν) : SortedMap κ' ν' :=
  ofList (m.entries.map fun e => (f e.1, g e.2))

omit [Std.TransOrd κ] in
/-- If different keys stay different, what was found under a key is found under its image. -/
theorem get?_mapEntries (hf : ∀ k k', f k = f k' → k = k') (m : SortedMap κ ν) (k : κ) :
    (m.mapEntries f g).get? (f k) = (m.get? k).map g := by
  have hkeys : ((m.entries.map fun e => (f e.1, g e.2)).map Prod.fst).Nodup := by
    rw [List.map_map]
    have hnodup : (m.keys.map f).Nodup :=
      List.pairwise_map.2 (m.nodup_keys.imp fun hne heq => hne (hf _ _ heq))
    rw [keys, List.map_map] at hnodup
    exact hnodup
  cases hget : m.get? k with
  | some v =>
    have hmem : (f k, g v) ∈ m.entries.map fun e => (f e.1, g e.2) :=
      List.mem_map.2 ⟨(k, v), mem_of_get? hget, rfl⟩
    exact get?_ofList hkeys hmem
  | none =>
    -- an entry for the image could only come from an entry for the key
    cases himage : (m.mapEntries f g).get? (f k) with
    | none => rfl
    | some w =>
      obtain ⟨e, he, heq⟩ := List.mem_map.1 (mem_ofList (mem_of_get? himage))
      obtain ⟨hkey, -⟩ := Prod.mk.inj heq
      have hfound : m.get? k = some e.2 := get?_eq_some_iff.2 (hf _ _ hkey ▸ he)
      rw [hget] at hfound
      exact absurd hfound (by simp)

theorem mapEntries_insert (hf : ∀ k k', f k = f k' → k = k') (hsurj : ∀ k', ∃ k, f k = k')
    (m : SortedMap κ ν) (k : κ) (v : ν) :
    (m.insert k v).mapEntries f g = (m.mapEntries f g).insert (f k) (g v) := by
  refine ext_get? fun k' => ?_
  obtain ⟨k', rfl⟩ := hsurj k'
  rw [get?_mapEntries hf]
  by_cases hk : k' = k
  · rw [hk, get?_insert_self, get?_insert_self, Option.map_some]
  · rw [get?_insert_of_ne _ hk, get?_insert_of_ne _ fun heq => hk (hf _ _ heq),
      get?_mapEntries hf]

end MapEntries

theorem size_insert_le (m : SortedMap κ ν) (k : κ) (v : ν) : (m.insert k v).size ≤ m.size + 1 := by
  have hlist : ∀ es : List (κ × ν), (insertEntry k v es).length ≤ es.length + 1 := by
    intro es
    induction es with
    | nil => simp [insertEntry]
    | cons e rest ih =>
      rw [insertEntry]
      split
      · simp
      · simp
      · simpa using ih
  exact hlist m.entries

theorem le_size_insert (m : SortedMap κ ν) (k : κ) (v : ν) : m.size ≤ (m.insert k v).size := by
  have hlist : ∀ es : List (κ × ν), es.length ≤ (insertEntry k v es).length := by
    intro es
    induction es with
    | nil => simp
    | cons e rest ih =>
      rw [insertEntry]
      split
      · simp
      · simp
      · simpa using ih
  exact hlist m.entries

/-- A new key makes a map larger by one. -/
theorem size_insert_of_none {m : SortedMap κ ν} {k : κ} (h : m.get? k = none) (v : ν) :
    (m.insert k v).size = m.size + 1 := by
  have hlist : ∀ es : List (κ × ν), findValue? k es = none →
      (insertEntry k v es).length = es.length + 1 := by
    intro es
    induction es with
    | nil => simp [insertEntry]
    | cons e rest ih =>
      intro hnone
      rw [findValue?] at hnone
      split at hnone
      · simp at hnone
      · rename_i hne
        rw [insertEntry]
        split
        · simp
        · rename_i heq
          exact absurd heq hne
        · simpa using ih hnone
  exact hlist m.entries h

end SortedMap

/-! ### Heaps -/

namespace Heap

/-- Every object of `h` is one of `h'`. -/
def Grows (h h' : Heap) : Prop :=
  ∀ v, h.contains v = true → h'.contains v = true

theorem Grows.refl (h : Heap) : h.Grows h :=
  fun _ hv => hv

theorem Grows.trans {h₁ h₂ h₃ : Heap} (h : h₁.Grows h₂) (h' : h₂.Grows h₃) : h₁.Grows h₃ :=
  fun v hv => h' v (h v hv)

/-- Only references are on a heap. -/
theorem contains_eq_true {h : Heap} {v : Value} (hv : h.contains v = true) :
    ∃ r fields, v = .object r ∧ h.objects.get? r = some fields := by
  cases v
  case object r =>
    obtain ⟨fields, hf⟩ := Option.isSome_iff_exists.1 hv
    exact ⟨r, fields, rfl, hf⟩
  all_goals exact absurd hv (by simp [contains, lookup])

/-- The keys of a heap are the references to its objects. -/
theorem mem_keys_iff {h : Heap} {r : Ref} :
    r ∈ h.objects.keys ↔ h.contains (.object r) = true := by
  constructor
  · intro hr
    obtain ⟨e, he, rfl⟩ := List.mem_map.1 hr
    exact Option.isSome_iff_exists.2 ⟨e.2, SortedMap.get?_eq_some_iff.2 he⟩
  · intro hr
    obtain ⟨own, hown⟩ := Option.isSome_iff_exists.1 hr
    exact List.mem_map_of_mem (SortedMap.mem_of_get? hown)

/-- Objects are stored one after the other without a look at the counter. -/
theorem foldl_insert (h : Heap) (os : List (Ref × Memory)) :
    os.foldl (fun h o => h.insert o.1 o.2) h =
      ⟨h.counter, os.foldl (fun m o => m.insert o.1 o.2) h.objects⟩ := by
  induction os generalizing h with
  | nil => rfl
  | cons o os ih => exact ih (h.insert o.1 o.2)

theorem grows_insert (h : Heap) (r : Ref) (fields : Memory) : h.Grows (h.insert r fields) := by
  intro v hv
  obtain ⟨r', fields', rfl, hf⟩ := contains_eq_true hv
  exact SortedMap.isSome_get?_insert (by rw [hf]; rfl)

theorem contains_insert_self (h : Heap) (r : Ref) (fields : Memory) :
    (h.insert r fields).contains (.object r) = true := by
  show (((h.objects.insert r fields).get? r)).isSome = true
  rw [SortedMap.get?_insert_self]
  rfl

theorem grows_create (h : Heap) (cls : String) (fields : Memory) :
    h.Grows (h.create cls fields).2 := by
  intro v hv
  obtain ⟨r, fields', rfl, hf⟩ := contains_eq_true hv
  exact SortedMap.isSome_get?_insert (by rw [hf]; rfl)

theorem contains_create_self (h : Heap) (cls : String) (fields : Memory) :
    (h.create cls fields).2.contains (.object (h.create cls fields).1) = true :=
  contains_insert_self (h.alloc cls).2 (h.alloc cls).1 fields

theorem grows_setField (h : Heap) (r : Ref) (name : String) (v : Value) :
    h.Grows (h.setField r name v) := by
  rw [setField]
  split
  · exact .refl h
  · exact grows_insert h r _

theorem grows_addList (h : Heap) (front : Value) (vs : List Value) :
    h.Grows (h.addList front vs).2 := by
  induction vs generalizing h front with
  | nil => exact .refl h
  | cons v vs ih => exact (grows_create h _ _).trans (ih _ _)

end Heap

end ObjectMachine
