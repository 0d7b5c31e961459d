import ObjectMachine.Knowledge.Store
import ObjectMachine.Proofs.Listing

namespace ObjectMachine

/-!
# Instances of class expressions

The triple store keeps the class of an object and the fields of an object in one table, and tells
them apart by the predicate. A field whose name is that predicate looks like a class, so an answer
can have too many objects in it. This file says which objects are derived:

* `ClassExpr.holds` — whether a class expression holds of an object;
* `Heap.instancesOf` — the names of the objects of which it holds, in the order of the heap;
* `Ref.looksLike` — the classes that the rows of an object state; `Heap.Mimics`, `Heap.Misleads` —
  objects for which this is not their class alone;
* `Heap.Named` — names are different, and are ordered alike by the heap and by the store;
* `ClassExpr.mem_members`, `ClassExpr.nodup_members` — what is selected from the table;
* `ClassExpr.instances_eq_iff` — the answer is right exactly if the heap does not mislead;
* `Heap.Mimics.name_of_loaded` — what can be mistaken for a class in a reachable heap;
* `class_expressions_derive_their_instances` — both of them for the heaps of loaded programs;
* `class_expression_derives_another_object` — a field that looks like a class.
-/

/-! ### Class expressions -/

/-- What a connective makes of two truth values. -/
def Connective.holds : Connective → Bool → Bool → Bool
  | .and, a, b => a && b
  | .or, a, b => a || b

namespace ClassExpr

/-- Whether a class expression holds of an object that belongs to the given classes. The connectives
    are applied from left to right. -/
def holds (e : ClassExpr) (belongs : String → Bool) : Bool :=
  e.rest.foldl (fun b j => j.1.holds b (belongs j.2)) (belongs e.first)

/-- The class names of a class expression. -/
def names (e : ClassExpr) : List String :=
  e.first :: e.rest.map Prod.snd

/-- A class expression depends on the classes only that it names. -/
theorem holds_congr {e : ClassExpr} {belongs belongs' : String → Bool}
    (h : ∀ cls ∈ e.names, belongs cls = belongs' cls) : e.holds belongs = e.holds belongs' := by
  have hfold : ∀ (js : List (Connective × String)) (b : Bool),
      (∀ j ∈ js, belongs j.2 = belongs' j.2) →
        js.foldl (fun b j => j.1.holds b (belongs j.2)) b =
          js.foldl (fun b j => j.1.holds b (belongs' j.2)) b := by
    intro js
    induction js with
    | nil => exact fun b _ => rfl
    | cons j js ih =>
      intro b hjs
      rw [List.foldl_cons, List.foldl_cons, hjs j List.mem_cons_self]
      exact ih _ fun j' hj' => hjs j' (List.mem_cons_of_mem _ hj')
  rw [holds, holds, h e.first List.mem_cons_self]
  exact hfold e.rest _ fun j hj => h j.2 (List.mem_cons_of_mem _ (List.mem_map_of_mem hj))

theorem isClassName_of_readRest {text : String} {words : List String}
    {rest : List (Connective × String)} (h : readRest text words = .ok rest) :
    ∀ j ∈ rest, isClassName j.2 = true := by
  fun_induction readRest text words generalizing rest with
  | case1 =>
    obtain rfl : [] = rest := Except.ok.inj h
    exact fun j hj => absurd hj List.not_mem_nil
  | case4 joiner name words c hc hname ih =>
    obtain ⟨rest', hrest', h⟩ := bind_eq_ok.1 h
    obtain rfl := pure_eq_ok.1 h
    exact List.forall_mem_cons.2 ⟨hname, ih hrest'⟩
  | _ => simp at h

/-- The words of a class expression that are no connectives are class names. -/
theorem isClassName_of_read {text : String} {e : ClassExpr} (h : read text = .ok e) :
    ∀ cls ∈ e.names, isClassName cls = true := by
  rw [read] at h
  split at h
  · simp at h
  · split at h
    · simp at h
    · split at h
      · rename_i hfirst
        obtain ⟨rest, hrest, h⟩ := bind_eq_ok.1 h
        obtain rfl := pure_eq_ok.1 h
        refine List.forall_mem_cons.2 ⟨hfirst, List.forall_mem_map.2 ?_⟩
        exact isClassName_of_readRest hrest
      · simp at h

end ClassExpr

/-! ### Names of objects -/

/-- What the rows of an object state its classes to be: its own class, and what is stored for a
    field that is called like the predicate of classes. -/
def Ref.looksLike (r : Ref) (own : Memory) (cls : String) : Bool :=
  r.cls = cls || (own.get? typePredicate).any fun v => v.identifier = cls

theorem Ref.looksLike_iff {r : Ref} {own : Memory} {cls : String} :
    r.looksLike own cls = true ↔
      r.cls = cls ∨ ∃ v, own.get? typePredicate = some v ∧ v.identifier = cls := by
  simp [looksLike, Option.any_eq_true]

namespace Heap

/-- The names of the objects that are chosen, in the order of the heap. -/
def namesOf (h : Heap) (chosen : Ref → Memory → Bool) : List String :=
  (h.objects.entries.filter fun o => chosen o.1 o.2).map fun o => o.1.name

/-- The names of the objects of which a class expression holds, in the order of the heap. -/
def instancesOf (h : Heap) (e : ClassExpr) : List String :=
  h.namesOf fun r _ => e.holds fun cls => r.cls = cls

/-- An object looks like an instance of a class, because it has a field that is called like the
    predicate of classes. -/
def Mimics (h : Heap) (cls : String) : Prop :=
  ∃ r own v, h.objects.get? r = some own ∧ own.get? typePredicate = some v ∧ v.identifier = cls

theorem mimics_iff {h : Heap} {cls : String} : h.Mimics cls ↔
    ∃ o ∈ h.objects.entries, (o.2.get? typePredicate).any (fun v => v.identifier = cls) = true := by
  simp [Mimics, SortedMap.get?_eq_some_iff, Option.any_eq_true]

instance (h : Heap) (cls : String) : Decidable (h.Mimics cls) :=
  decidable_of_iff _ mimics_iff.symm

/-- A class expression is not answered by its instances. A single class is not, if any object looks
    like an instance because of a field, since even an instance would be derived twice then; and if
    there are connectives, it matters whether an object satisfies the expression for what it looks
    like. -/
def Misleads (h : Heap) (e : ClassExpr) : Prop :=
  if e.rest = [] then h.Mimics e.first
  else ∃ r own, h.objects.get? r = some own ∧
    e.holds (r.looksLike own) ≠ e.holds fun cls => r.cls = cls

/-- A class expression is answered right, if none of its names is mimicked. -/
theorem not_misleads {h : Heap} {e : ClassExpr} (hnone : ∀ cls ∈ e.names, ¬h.Mimics cls) :
    ¬h.Misleads e := by
  unfold Misleads
  split
  · exact hnone e.first List.mem_cons_self
  · rintro ⟨r, own, hr, hne⟩
    refine hne (ClassExpr.holds_congr fun cls hcls => ?_)
    have hfield : ((own.get? typePredicate).any fun v => v.identifier = cls) = false := by
      rw [Option.any_eq_false]
      intro v hv
      simpa using fun heq => hnone cls hcls ⟨r, own, v, hr, hv, heq⟩
    rw [Ref.looksLike, hfield, Bool.or_false]

/-- Objects have different names, and each character of a name takes one byte. -/
structure Named (h : Heap) : Prop where
  distinct : ∀ r r', h.contains (.object r) = true → h.contains (.object r') = true →
    r.name = r'.name → r = r'
  plain : ∀ r, h.contains (.object r) = true → r.name.utf8ByteSize = r.name.length

/-- The characters of names are letters, digits and minus signs. -/
theorem utf8ByteSize_refName (k : Nat) : (refName k).utf8ByteSize = (refName k).length := by
  rw [refName, String.utf8ByteSize_append, String.length_append, Text.utf8ByteSize_showInt]
  rfl

/-- As long as names do not come back, they are fit for being ordered. -/
theorem Counted.named {n : Nat} {h : Heap} (hc : h.Counted n) (hfits : h.Fits) : h.Named where
  distinct := hc.distinct (Nat.le_of_lt (hc.lt_modulus hfits))
  plain r hr := by
    obtain ⟨k, -, -, hname⟩ := hc.keys r hr
    rw [hname]
    exact utf8ByteSize_refName k

end Heap

/-! ### The order of names -/

namespace ClassExpr

theorem before_iff {a b : String} :
    before a b = true ↔ a.length < b.length ∨ a.length = b.length ∧ a ≤ b := by
  simp [before]

theorem before_trans (a b c : String) (hab : before a b = true) (hbc : before b c = true) :
    before a c = true := by
  rw [before_iff] at hab hbc ⊢
  rcases hab with hab | ⟨hab, hle⟩ <;> rcases hbc with hbc | ⟨hbc, hle'⟩
  · exact .inl (by omega)
  · exact .inl (by omega)
  · exact .inl (by omega)
  · exact .inr ⟨by omega, String.le_trans hle hle'⟩

theorem before_total (a b : String) : (before a b || before b a) = true := by
  rw [Bool.or_eq_true, before_iff, before_iff]
  rcases Nat.lt_trichotomy a.length b.length with hlt | heq | hgt
  · exact .inl (.inl hlt)
  · rcases String.le_total a b with hle | hle
    · exact .inl (.inr ⟨heq, hle⟩)
    · exact .inr (.inr ⟨heq.symm, hle⟩)
  · exact .inr (.inl hgt)

theorem before_antisymm {a b : String} (hab : before a b = true) (hba : before b a = true) :
    a = b := by
  rw [before_iff] at hab hba
  rcases hab with hab | ⟨hab, hle⟩ <;> rcases hba with hba | ⟨hba, hle'⟩
  · omega
  · omega
  · omega
  · exact String.le_antisymm hle hle'

end ClassExpr

/-- What the heap puts first has the name that the store puts first. -/
theorem Ref.before_of_compare {r r' : Ref} (hr : r.name.utf8ByteSize = r.name.length)
    (hr' : r'.name.utf8ByteSize = r'.name.length) (h : compare r r' = .lt) :
    ClassExpr.before r.name r'.name = true := by
  rw [ClassExpr.before_iff, ← hr, ← hr']
  rcases Ref.order_eq_lt_iff.1 h with (hsize | ⟨hsize, hlt⟩) | ⟨hname, -⟩
  · exact .inl hsize
  · exact .inr ⟨hsize, Std.le_of_lt hlt⟩
  · exact .inr ⟨by rw [hname], hname ▸ String.le_refl r.name⟩

/-! ### The rows that state a class -/

namespace ClassExpr

/-- An object is stated to belong to its own class, and to what its field states. -/
theorem ofClass_triples_ref (r : Ref) (own : Memory) (cls : String) :
    ofClass (r.triples own) cls = (if r.cls = cls then [r.name] else []) ++
      (own.entries.filter fun f => f.1 = typePredicate && f.2.identifier = cls).map
        fun _ => r.name := by
  have hfields : ofClass (own.entries.map fun f => ⟨r.name, f.1, f.2.identifier⟩) cls =
      (own.entries.filter fun f => f.1 = typePredicate && f.2.identifier = cls).map
        fun _ => r.name := by
    simp only [ofClass, List.filter_map, List.map_map]
    rfl
  rw [← hfields]
  by_cases hcls : r.cls = cls
  · simp [Ref.triples, ofClass, hcls]
  · simp [Ref.triples, ofClass, hcls]

theorem ofClass_triples (h : Heap) (cls : String) :
    ofClass h.triples cls = h.objects.entries.flatMap fun o => ofClass (o.1.triples o.2) cls := by
  simp only [ofClass, Heap.triples, List.filter_flatMap, List.map_flatMap]

theorem mem_ofClass_ref {r : Ref} {own : Memory} {cls name : String} :
    name ∈ ofClass (r.triples own) cls ↔ r.looksLike own cls = true ∧ r.name = name := by
  rw [ofClass_triples_ref, List.mem_append, Ref.looksLike_iff]
  constructor
  · rintro (hname | hname)
    · split at hname
      · rename_i hcls
        exact ⟨.inl hcls, (List.mem_singleton.1 hname).symm⟩
      · exact absurd hname List.not_mem_nil
    · obtain ⟨f, hf, rfl⟩ := List.mem_map.1 hname
      obtain ⟨hmem, hf⟩ := List.mem_filter.1 hf
      obtain ⟨hfield, hcls⟩ : f.1 = typePredicate ∧ f.2.identifier = cls := by simpa using hf
      exact ⟨.inr ⟨f.2, SortedMap.get?_eq_some_iff.2 (hfield ▸ hmem), hcls⟩, rfl⟩
  · rintro ⟨hcls | ⟨v, hv, hcls⟩, rfl⟩
    · left
      simp [hcls]
    · right
      refine List.mem_map.2 ⟨(typePredicate, v), List.mem_filter.2 ⟨?_, by simp [hcls]⟩, rfl⟩
      exact SortedMap.mem_of_get? hv

end ClassExpr

namespace Heap

variable {h : Heap} {chosen chosen' : Ref → Memory → Bool} {name : String}

theorem mem_namesOf : name ∈ h.namesOf chosen ↔
    ∃ r own, h.objects.get? r = some own ∧ chosen r own = true ∧ r.name = name := by
  simp only [namesOf, List.mem_map, List.mem_filter, SortedMap.get?_eq_some_iff, Prod.exists,
    and_assoc]

theorem mem_ofClass {cls : String} :
    name ∈ ClassExpr.ofClass h.triples cls ↔ name ∈ h.namesOf fun r own => r.looksLike own cls := by
  rw [ClassExpr.ofClass_triples, List.mem_flatMap, mem_namesOf]
  constructor
  · rintro ⟨o, ho, hname⟩
    obtain ⟨hlike, rfl⟩ := ClassExpr.mem_ofClass_ref.1 hname
    exact ⟨o.1, o.2, SortedMap.get?_eq_some_iff.2 ho, hlike, rfl⟩
  · rintro ⟨r, own, hr, hlike, rfl⟩
    exact ⟨(r, own), SortedMap.mem_of_get? hr, ClassExpr.mem_ofClass_ref.2 ⟨hlike, rfl⟩⟩

namespace Named

/-- An object is known by its name. -/
theorem eq_of_name (hn : h.Named) {r r' : Ref} {own own' : Memory}
    (hr : h.objects.get? r = some own) (hr' : h.objects.get? r' = some own')
    (hname : r.name = r'.name) : r = r' ∧ own = own' := by
  have hon : ∀ {r own}, h.objects.get? r = some own → h.contains (.object r) = true :=
    fun {r own} hr => Option.isSome_iff_exists.2 ⟨own, hr⟩
  obtain rfl := hn.distinct r r' (hon hr) (hon hr') hname
  exact ⟨rfl, Option.some.inj (hr.symm.trans hr')⟩

/-- Whether an object is chosen can be told from its name. -/
theorem mem_namesOf_iff (hn : h.Named) {r : Ref} {own : Memory}
    (hr : h.objects.get? r = some own) : r.name ∈ h.namesOf chosen ↔ chosen r own = true := by
  rw [mem_namesOf]
  constructor
  · rintro ⟨r', own', hr', hc, hname⟩
    obtain ⟨rfl, rfl⟩ := hn.eq_of_name hr' hr hname
    exact hc
  · exact fun hc => ⟨r, own, hr, hc, rfl⟩

/-- A connective can be applied to the objects, or to the names of those that are chosen. -/
theorem mem_namesOf_holds (hn : h.Named) (c : Connective) :
    (name ∈ h.namesOf fun r own => c.holds (chosen r own) (chosen' r own)) ↔
      c.holds (decide (name ∈ h.namesOf chosen)) (decide (name ∈ h.namesOf chosen')) = true := by
  by_cases hname : ∃ r own, h.objects.get? r = some own ∧ r.name = name
  · obtain ⟨r, own, hr, rfl⟩ := hname
    simp only [hn.mem_namesOf_iff hr, Bool.decide_eq_true]
  · -- what is no name of an object is not among those that are chosen
    have hnone : ∀ chosen, name ∉ h.namesOf chosen := by
      intro chosen hmem
      obtain ⟨r, own, hr, -, heq⟩ := mem_namesOf.1 hmem
      exact hname ⟨r, own, hr, heq⟩
    cases c <;> simp [hnone, Connective.holds]

/-- The names of objects are in the order of the store. -/
theorem pairwise_namesOf (hn : h.Named) (chosen : Ref → Memory → Bool) :
    (h.namesOf chosen).Pairwise fun a b => ClassExpr.before a b = true := by
  have hplain : ∀ o ∈ h.objects.entries, o.1.name.utf8ByteSize = o.1.name.length := fun o ho =>
    hn.plain o.1 (Option.isSome_iff_exists.2 ⟨o.2, SortedMap.get?_eq_some_iff.2 ho⟩)
  refine List.pairwise_map.2 ((h.objects.ordered.imp_of_mem ?_).filter _)
  intro o o' ho ho' hlt
  exact Ref.before_of_compare (hplain o ho) (hplain o' ho') hlt

theorem nodup_namesOf (hn : h.Named) (chosen : Ref → Memory → Bool) :
    (h.namesOf chosen).Nodup := by
  refine List.pairwise_map.2 ((h.objects.ordered.imp_of_mem ?_).filter _)
  intro o o' ho ho' hlt hname
  obtain ⟨heq, -⟩ := hn.eq_of_name (SortedMap.get?_eq_some_iff.2 ho)
    (SortedMap.get?_eq_some_iff.2 ho') hname
  rw [heq] at hlt
  simp at hlt

/-- The same names are chosen only if the same objects are. -/
theorem namesOf_eq_iff (hn : h.Named) :
    h.namesOf chosen = h.namesOf chosen' ↔
      ∀ r own, h.objects.get? r = some own → chosen r own = chosen' r own := by
  constructor
  · intro heq r own hr
    rw [Bool.eq_iff_iff, ← hn.mem_namesOf_iff hr, ← hn.mem_namesOf_iff hr, heq]
  · intro hsame
    refine congrArg (List.map _) (List.filter_congr fun o ho => ?_)
    exact hsame o.1 o.2 (SortedMap.get?_eq_some_iff.2 ho)

end Named

end Heap

/-! ### What is selected from the table -/

theorem nodup_eraseDups {α : Type} [BEq α] [LawfulBEq α] (as : List α) : as.eraseDups.Nodup := by
  induction hlen : as.length using Nat.strongRecOn generalizing as with
  | ind n ih =>
    cases as with
    | nil => simp
    | cons a as =>
      rw [List.eraseDups_cons, List.nodup_cons]
      refine ⟨by simp [List.mem_eraseDups], ih _ ?_ _ rfl⟩
      have hle := List.length_filter_le (fun b => !b == a) as
      rw [List.length_cons] at hlen
      omega

namespace ClassExpr

variable {h : Heap} {e : ClassExpr} {name : String}

theorem members_of_rest_nil {table : List Triple} (hrest : e.rest = []) :
    e.members table = ofClass table e.first := by
  rw [members, hrest, List.foldl_nil]

theorem mem_join {c : Connective} {members others : List String} :
    name ∈ join c members others ↔
      c.holds (decide (name ∈ members)) (decide (name ∈ others)) = true := by
  cases c with
  | and => simp [join, Connective.holds, List.mem_eraseDups]
  | or => simp [join, Connective.holds, List.mem_eraseDups]

theorem nodup_join (c : Connective) (members others : List String) :
    (join c members others).Nodup := by
  cases c with
  | and => exact nodup_eraseDups _
  | or => exact nodup_eraseDups _

/-- An expression with a connective selects nothing twice. -/
theorem nodup_members (table : List Triple) (hrest : e.rest ≠ []) : (e.members table).Nodup := by
  obtain ⟨first, _ | ⟨j, js⟩⟩ := e
  · exact absurd rfl hrest
  · exact List.foldlRecOn js _ (nodup_join j.1 _ _) fun ms _ j' _ => nodup_join j'.1 _ _

/-- What is selected are the objects of which the expression holds for what they look like. -/
theorem mem_members (hn : h.Named) :
    name ∈ e.members h.triples ↔ name ∈ h.namesOf fun r own => e.holds (r.looksLike own) := by
  -- the connectives are applied to what was selected and to what was chosen so far
  have hfold : ∀ (js : List (Connective × String)) (ms : List String)
      (chosen : Ref → Memory → Bool), (name ∈ ms ↔ name ∈ h.namesOf chosen) →
        (name ∈ js.foldl (fun ms j => join j.1 ms (ofClass h.triples j.2)) ms ↔
          name ∈ h.namesOf fun r own =>
            js.foldl (fun b j => j.1.holds b (r.looksLike own j.2)) (chosen r own)) := by
    intro js
    induction js with
    | nil => exact fun ms chosen hms => hms
    | cons j js ih =>
      intro ms chosen hms
      refine ih _ (fun r own => j.1.holds (chosen r own) (r.looksLike own j.2)) ?_
      rw [mem_join, hn.mem_namesOf_holds, decide_eq_decide.2 hms,
        decide_eq_decide.2 Heap.mem_ofClass]
  exact hfold e.rest _ _ Heap.mem_ofClass

/-- The answer is in the order of the heap. -/
theorem instances_eq (hn : h.Named) {chosen : Ref → Memory → Bool}
    (hnodup : (e.members h.triples).Nodup)
    (hmem : ∀ name, name ∈ e.members h.triples ↔ name ∈ h.namesOf chosen) :
    e.instances h.triples = h.namesOf chosen := by
  have hperm : (e.members h.triples).Perm (h.namesOf chosen) :=
    (List.perm_ext_iff_of_nodup hnodup (hn.nodup_namesOf chosen)).2 hmem
  have hsorted : (e.instances h.triples).Pairwise fun a b => before a b = true :=
    List.pairwise_mergeSort before_trans before_total _
  exact List.Perm.eq_of_pairwise (fun a b _ _ => before_antisymm) hsorted
    (hn.pairwise_namesOf chosen) ((List.mergeSort_perm _ _).trans hperm)

/-- If a class is not mimicked, the rows that state it are those of its instances. -/
theorem ofClass_of_not_mimics {cls : String} (hnone : ¬h.Mimics cls) :
    ofClass h.triples cls = h.namesOf fun r _ => r.cls = cls := by
  have hlist : ∀ es : List (Ref × Memory),
      (∀ o ∈ es, ofClass (o.1.triples o.2) cls = if o.1.cls = cls then [o.1.name] else []) →
        (es.flatMap fun o => ofClass (o.1.triples o.2) cls) =
          (es.filter fun o => o.1.cls = cls).map fun o => o.1.name := by
    intro es hes
    induction es with
    | nil => rfl
    | cons o es ih =>
      obtain ⟨ho, hes⟩ := List.forall_mem_cons.1 hes
      rw [List.flatMap_cons, ih hes, ho, List.filter_cons]
      by_cases hcls : o.1.cls = cls
      · simp [hcls]
      · simp [hcls]
  rw [ofClass_triples]
  refine hlist h.objects.entries fun o ho => ?_
  -- no field states the class, so at most the row of the class itself is left
  have hfields :
      (o.2.entries.filter fun f => f.1 = typePredicate && f.2.identifier = cls) = [] := by
    refine List.filter_eq_nil_iff.2 fun f hf hcls => hnone ?_
    obtain ⟨hfield, hcls⟩ : f.1 = typePredicate ∧ f.2.identifier = cls := by simpa using hcls
    exact ⟨o.1, o.2, f.2, SortedMap.get?_eq_some_iff.2 ho,
      SortedMap.get?_eq_some_iff.2 (hfield ▸ hf), hcls⟩
  rw [ofClass_triples_ref, hfields]
  exact List.append_nil _

/-- The instances of a mimicked class are not what is selected: something else is, or an instance is
    selected twice. -/
theorem not_mimics_of_ofClass (hn : h.Named) {cls : String}
    (hnodup : (ofClass h.triples cls).Nodup)
    (hmem : ∀ name, name ∈ ofClass h.triples cls ↔ name ∈ h.namesOf fun r _ => r.cls = cls) :
    ¬h.Mimics cls := by
  rintro ⟨r, own, v, hr, hv, hvcls⟩
  have hlike : r.looksLike own cls = true := Ref.looksLike_iff.2 (.inr ⟨v, hv, hvcls⟩)
  have hname : r.name ∈ ofClass h.triples cls :=
    Heap.mem_ofClass.2 ((hn.mem_namesOf_iff hr).2 hlike)
  have hcls : r.cls = cls := by simpa using (hn.mem_namesOf_iff hr).1 ((hmem r.name).1 hname)
  -- so the object is an instance, and the row of its field states its class once more
  rw [ofClass_triples] at hnodup
  have hrows : (ofClass (r.triples own) cls).Nodup :=
    (List.pairwise_flatMap.1 hnodup).1 (r, own) (SortedMap.mem_of_get? hr)
  rw [ofClass_triples_ref, if_pos hcls] at hrows
  refine (List.nodup_cons.1 hrows).1 ?_
  exact List.mem_map.2 ⟨(typePredicate, v),
    List.mem_filter.2 ⟨SortedMap.mem_of_get? hv, by simp [hvcls]⟩, rfl⟩

/-- The answer are the instances exactly if the heap does not mislead. -/
theorem instances_eq_iff (hn : h.Named) :
    e.instances h.triples = h.instancesOf e ↔ ¬h.Misleads e := by
  by_cases hrest : e.rest = []
  · have hmembers : e.members h.triples = ofClass h.triples e.first := members_of_rest_nil hrest
    have hinstances : h.instancesOf e = h.namesOf fun r _ => r.cls = e.first := by
      simp only [Heap.instancesOf, holds, hrest, List.foldl_nil]
    rw [Heap.Misleads, if_pos hrest, hinstances]
    constructor
    · intro heq
      have hperm : (ofClass h.triples e.first).Perm (h.namesOf fun r _ => r.cls = e.first) := by
        rw [← hmembers, ← heq]
        exact (List.mergeSort_perm _ _).symm
      exact not_mimics_of_ofClass hn (hperm.nodup_iff.2 (hn.nodup_namesOf _))
        fun name => hperm.mem_iff
    · intro hnone
      have hrows := hmembers.trans (ofClass_of_not_mimics hnone)
      refine instances_eq hn ?_ fun name => by rw [hrows]
      rw [hrows]
      exact hn.nodup_namesOf _
  · have heq : e.instances h.triples = h.namesOf fun r own => e.holds (r.looksLike own) :=
      instances_eq hn (nodup_members _ hrest) fun name => mem_members hn
    rw [Heap.Misleads, if_neg hrest, heq, Heap.instancesOf, hn.namesOf_eq_iff]
    simp only [not_exists, not_and, ne_eq, Decidable.not_not]

end ClassExpr

/-- A store that is open answers with the names that are derived from the heap it is shown. -/
theorem Store.ask_derive {s : Store} (hs : s.closed = false) (h : Heap) {expr : String}
    {e : ClassExpr} (he : ClassExpr.read expr = .ok e) :
    (Store.base.ask h (.derive expr) s).1 = .ok (e.instances h.triples) := by
  simp [KnowledgeBase.ask, KnowledgeBase.put, Store.base, Store.dump, Store.derive, hs, he]

/-! ### What looks like a class -/

/-- A class name does not start like a quoted text or a numeral. -/
theorem isClassName_eq_false_of_toList {s : String} {c : Char} {cs : List Char}
    (hs : s.toList = c :: cs) (hc : isNameChar c = false ∨ Text.isDigit c = true) :
    isClassName s = false := by
  unfold isClassName
  rcases hc with hc | hc
  · simp [hs, hc]
  · simp [hs, hc]

theorem Text.Canonical.isClassName_eq_false {s : String} (h : Canonical s) :
    isClassName s = false := by
  rcases h.plain with rfl | ⟨c, cs, hdigit, -, hs | hs⟩
  · rfl
  · exact isClassName_eq_false_of_toList hs (.inr hdigit)
  · exact isClassName_eq_false_of_toList hs (.inl rfl)

/-- What can be mistaken for a class: null, the truth values and the names of objects. -/
theorem Value.name_of_identifier {h : Heap} {v : Value} (hv : v.Canonical) (hon : h.Holds v)
    (hcls : isClassName v.identifier = true) :
    v.identifier ∈ ["null", "True", "False"] ∨
      ∃ r, h.contains (.object r) = true ∧ r.name = v.identifier := by
  cases v with
  | null => exact .inl (by simp [identifier, literal])
  | integer numeral =>
    have hnot : isClassName numeral = false := (hv numeral rfl).isClassName_eq_false
    exact absurd hcls (by simp [identifier, literal, hnot])
  | boolean b => cases b <;> exact .inl (by simp [identifier, literal])
  | string s =>
    have hnot : isClassName (identifier (.string s)) = false :=
      isClassName_eq_false_of_toList (c := '"') (by simp [identifier]; rfl) (.inl rfl)
    exact absurd hcls (by simp [hnot])
  | object r => exact .inr ⟨r, hon rfl, rfl⟩

theorem Value.Written.isObject {v : Value} (h : v.Written) : v.isObject = false := by
  cases h <;> rfl

/-- Loaded programs are without references. -/
theorem Operation.Loaded.refFree {σ : Type} {op : Operation σ} (h : op.Loaded) : op.RefFree := by
  cases op with
  | start main =>
    obtain ⟨text, p, hload, rfl⟩ := h
    exact fun v hv => ((Program.written_of_load hload).main v hv).isObject
  | push stmt owner locals => exact h
  | step s => trivial
  | fork => trivial

/-- In every heap that loaded programs reach, the integers in fields are canonical, and the
    references lead to objects. -/
theorem Heap.fields_of_loaded {σ : Type} {kb : Option (KnowledgeBase σ)} {text : String}
    {p : Program} (hload : Program.load text = .ok p) {maxSteps : Nat} {ops : List (Operation σ)}
    (hops : ∀ op ∈ ops, op.Loaded) :
    ((Machine.new p.classes ∅ maxSteps).operateAll kb ops).heap.AllFields
      fun h v => v.Canonical ∧ h.Holds v := by
  have hp : p.Written := Program.written_of_load hload
  have hsettled : ((Machine.new p.classes ∅ maxSteps).operateAll kb ops).Settled :=
    Machine.operateAll_preserves Operation.Loaded (fun m op hm hop => hm.operate hop)
      (Machine.settled_new hp maxSteps) hops
  have hgrounded : ((Machine.new p.classes ∅ maxSteps).operateAll kb ops).Grounded :=
    Machine.operateAll_preserves Operation.RefFree (fun m op hm hop => hm.operate hop)
      (Machine.grounded_new (hp.classes.imp fun v hv => hv.isObject) maxSteps)
      fun op hop => (hops op hop).refFree
  exact fun o ho f hf =>
    ⟨hsettled.values.fields o ho f hf, hgrounded.noDangling.fields o ho f hf⟩

/-- In every heap that loaded programs reach, only null, the truth values and the names of objects
    can be mimicked, and only by objects of a class with a field for it. -/
theorem Heap.Mimics.name_of_loaded {σ : Type} {kb : Option (KnowledgeBase σ)} {text : String}
    {p : Program} (hload : Program.load text = .ok p) {maxSteps : Nat} {ops : List (Operation σ)}
    (hops : ∀ op ∈ ops, op.Loaded) {cls : String} (hcls : isClassName cls = true)
    (h : ((Machine.new p.classes ∅ maxSteps).operateAll kb ops).heap.Mimics cls) :
    (cls ∈ ["null", "True", "False"] ∨
      ∃ r, ((Machine.new p.classes ∅ maxSteps).operateAll kb ops).heap.contains (.object r) = true ∧
        r.name = cls) ∧
    ∃ owner, p.classes.hasField owner typePredicate = true := by
  -- the value of the field is canonical if it is an integer, and on the heap if it is a reference
  obtain ⟨r, own, v, hr, hv, rfl⟩ := h
  obtain ⟨hcanonical, hholds⟩ : v.Canonical ∧ Heap.Holds _ v :=
    Heap.fields_of_loaded hload hops (r, own) (SortedMap.mem_of_get? hr) (typePredicate, v)
      (SortedMap.mem_of_get? hv)
  refine ⟨Value.name_of_identifier hcanonical hholds hcls, r.cls, ?_⟩
  refine (shape_declared p.classes).operateAll maxSteps ops r own hr typePredicate ?_
  rw [hv]
  rfl

/-- However loaded programs are started, stepped and forked on the empty heap, with the classes of
    a loaded program: if the store is shown the heap and asked for a class expression, it answers
    with the objects of which the expression holds, each one once and in the order of the heap,
    exactly if the heap does not mislead. For that a class of the program has to declare a field
    that is called like the predicate of classes, and the expression has to name what is stored for
    such a field: null, a truth value, or the name of an object. -/
theorem class_expressions_derive_their_instances {σ : Type} (kb : Option (KnowledgeBase σ))
    {text : String} {p : Program} (hload : Program.load text = .ok p) (maxSteps : Nat)
    {ops : List (Operation σ)} (hops : ∀ op ∈ ops, op.Loaded) :
    let h := ((Machine.new p.classes ∅ maxSteps).operateAll kb ops).heap
    h.Fits → ∀ s : Store, s.closed = false → ∀ expr e, ClassExpr.read expr = .ok e →
      (h.instancesOf e).Nodup ∧
      ((Store.base.ask h (.derive expr) s).1 = .ok (h.instancesOf e) ↔ ¬h.Misleads e) ∧
      (h.Misleads e → ∃ cls ∈ e.names, h.Mimics cls ∧
        (cls ∈ ["null", "True", "False"] ∨
          ∃ r, h.contains (.object r) = true ∧ r.name = cls) ∧
        ∃ owner, p.classes.hasField owner typePredicate = true) := by
  intro h hfits s hs expr e he
  obtain ⟨n, hc⟩ : ∃ n, h.Counted n := Machine.exists_counted p.classes maxSteps ops
  have hnamed : h.Named := hc.named hfits
  refine ⟨hnamed.nodup_namesOf _, ?_, ?_⟩
  · rw [Store.ask_derive hs h he, Except.ok.injEq]
    exact ClassExpr.instances_eq_iff hnamed
  · intro hmisleads
    obtain ⟨cls, hcls, hmimics⟩ : ∃ cls ∈ e.names, h.Mimics cls :=
      Classical.byContradiction fun hnone =>
        Heap.not_misleads (fun cls hcls hm => hnone ⟨cls, hcls, hm⟩) hmisleads
    have hname : isClassName cls = true := ClassExpr.isClassName_of_read he cls hcls
    exact ⟨cls, hcls, hmimics, Heap.Mimics.name_of_loaded hload hops hname hmimics⟩

/-- A successful computation, if its result was checked. -/
theorem exists_ok_of_any {ε α : Type} {x : Except ε α} {check : α → Bool}
    (h : x.toOption.any check = true) : ∃ a, x = .ok a ∧ check a = true := by
  cases x with
  | error cause => exact absurd h (by simp [Except.toOption])
  | ok a => exact ⟨a, rfl, h⟩

/-- A flag has a field that looks like the class `True`, which is not asked for. -/
theorem class_expressions_derive_their_instances_of_flag :
    let text := "classes:\n  - \x7bname: Flag, fields: [a]\x7d\nmain:\n" ++
      "  new: \x7btarget: \x7blocal: x\x7d, class: Flag, args: [\x7bbool: true\x7d]\x7d"
    ∃ p, Program.load text = .ok p ∧
      let ops : List (Operation Unit) := [.start p.main, .step ()]
      let h := ((Machine.new p.classes ∅ 0).operateAll none ops).heap
      (∀ op ∈ ops, op.Loaded) ∧ h.Fits ∧ h.Mimics "True" ∧ Store.empty.closed = false ∧
        ClassExpr.read "Flag or _Entry_" = .ok ⟨"Flag", [(.or, "_Entry_")]⟩ ∧
        (Store.base.ask h (.derive "Flag or _Entry_") .empty).1 = .ok ["obj1", "obj2"] := by
  intro text
  let e : ClassExpr := ⟨"Flag", [(.or, "_Entry_")]⟩
  have hstate : (Program.load text).toOption.any (fun p =>
      let ops : List (Operation Unit) := [.start p.main, .step ()]
      let h := ((Machine.new p.classes ∅ 0).operateAll none ops).heap
      h.Fits ∧ h.Mimics "True" ∧ (∀ cls ∈ e.names, ¬h.Mimics cls) ∧
        h.instancesOf e = ["obj1", "obj2"]) = true := by
    decide +kernel
  have hread : ClassExpr.read "Flag or _Entry_" = .ok e := by rfl
  obtain ⟨p, hload, hstate⟩ := exists_ok_of_any hstate
  obtain ⟨hfits, hmimics, hnone, hinstances⟩ := of_decide_eq_true hstate
  refine ⟨p, hload, ?_⟩
  intro ops h
  have hops : ∀ op ∈ ops, op.Loaded := by
    simpa [ops, Operation.Loaded] using ⟨text, p, hload, rfl⟩
  obtain ⟨-, hanswer, -⟩ :=
    class_expressions_derive_their_instances none hload 0 hops hfits .empty rfl _ e hread
  rw [hinstances] at hanswer
  exact ⟨hops, hfits, hmimics, rfl, hread, hanswer.2 (Heap.not_misleads hnone)⟩

/-- The flag is derived for the class `True`, although there is no such class. -/
theorem class_expression_derives_another_object :
    let text := "classes:\n  - \x7bname: Flag, fields: [a]\x7d\nmain:\n" ++
      "  new: \x7btarget: \x7blocal: x\x7d, class: Flag, args: [\x7bbool: true\x7d]\x7d"
    ∃ p, Program.load text = .ok p ∧
      let ops : List (Operation Unit) := [.start p.main, .step ()]
      let h := ((Machine.new p.classes ∅ 0).operateAll none ops).heap
      (∀ op ∈ ops, op.Loaded) ∧
        h.objects.keys = [⟨"obj1", entryClass⟩, ⟨"obj2", "Flag"⟩] ∧
        ClassExpr.read "True" = .ok ⟨"True", []⟩ ∧ h.instancesOf ⟨"True", []⟩ = [] ∧
        (Store.base.ask h (.derive "True") .empty).1 = .ok ["obj2"] := by
  intro text
  have hstate : (Program.load text).toOption.any (fun p =>
      let ops : List (Operation Unit) := [.start p.main, .step ()]
      let h := ((Machine.new p.classes ∅ 0).operateAll none ops).heap
      h.objects.keys = [⟨"obj1", entryClass⟩, ⟨"obj2", "Flag"⟩] ∧
        h.instancesOf ⟨"True", []⟩ = [] ∧
        ClassExpr.ofClass h.triples "True" = ["obj2"]) = true := by
    decide +kernel
  have hread : ClassExpr.read "True" = .ok ⟨"True", []⟩ := by rfl
  obtain ⟨p, hload, hstate⟩ := exists_ok_of_any hstate
  obtain ⟨hkeys, hinstances, hrows⟩ := of_decide_eq_true hstate
  refine ⟨p, hload, ?_⟩
  intro ops h
  have hops : ∀ op ∈ ops, op.Loaded := by
    simpa [ops, Operation.Loaded] using ⟨text, p, hload, rfl⟩
  have hanswer : ClassExpr.instances h.triples ⟨"True", []⟩ = ["obj2"] := by
    rw [ClassExpr.instances, ClassExpr.members_of_rest_nil rfl, hrows, List.mergeSort_singleton]
  refine ⟨hops, hkeys, hread, hinstances, ?_⟩
  rw [Store.ask_derive rfl h hread, hanswer]

end ObjectMachine
