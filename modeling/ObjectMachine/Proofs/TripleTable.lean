import Mathlib.Data.List.SplitBy
import ObjectMachine.Proofs.Identifiers

namespace ObjectMachine

/-!
# Heaps from their triples

A row of the triple store is three texts. It has no place for the kind of a value or for the class
of the object that a value refers to, and a field may be called like the predicate of classes. All
the same, a heap that loaded programs have made can be read back from its rows:

* `SortedMap.Lists`, `Ref.Rows`, `Heap.Rows` — the rows of an object, and those of a heap;
* `Heap.value?` — the value that an identifier was stored for;
* `Heap.Legible` — the invariants of heaps that can be read back, `Heap.Legible.value?_identifier` —
  each value is told from its identifier;
* `Heap.Named.splitBy_triples` — the rows of an object are those next to each other with its name;
* `Heap.restore` — what is read back from a table, with `Legible.restore_triples`;
* `Heap.legible_of_loaded` — heaps of loaded programs are legible;
* `triples_determine_the_heap` — different objects have different rows.
-/

/-! ### The rows of a heap -/

/-- The entries of a map are listed, each one once and in the order of the keys. -/
structure SortedMap.Lists {κ ν : Type} [Ord κ] (m : SortedMap κ ν) (es : List (κ × ν)) : Prop where
  ordered : es.Pairwise fun e e' => compare e.1 e'.1 = .lt
  mem : ∀ k v, (k, v) ∈ es ↔ m.get? k = some v

theorem SortedMap.lists_entries {κ ν : Type} [Ord κ] [Std.LawfulEqOrd κ] (m : SortedMap κ ν) :
    m.Lists m.entries :=
  ⟨m.ordered, fun _ _ => get?_eq_some_iff.symm⟩

/-- The rows of an object: the one of its class, and then one for each field in the order of the
    names. -/
def Ref.Rows (r : Ref) (own : Memory) (rows : List Triple) : Prop :=
  ∃ fields : List (String × Value), own.Lists fields ∧
    rows = ⟨r.name, "a", r.cls⟩ :: fields.map fun f => ⟨r.name, f.1, f.2.identifier⟩

/-- The rows of a heap: those of one object after another, in the order of the heap. -/
def Heap.Rows (h : Heap) (table : List Triple) : Prop :=
  ∃ (objects : List (Ref × Memory)) (blocks : List (List Triple)), h.objects.Lists objects ∧
    List.Forall₂ (fun o rows => o.1.Rows o.2 rows) objects blocks ∧ table = blocks.flatten

theorem Ref.rows_triples (r : Ref) (own : Memory) : r.Rows own (r.triples own) :=
  ⟨own.entries, own.lists_entries, rfl⟩

theorem Heap.triples_eq_flatten (h : Heap) :
    h.triples = (h.objects.entries.map fun o => o.1.triples o.2).flatten :=
  List.flatMap_def

theorem Heap.rows_triples (h : Heap) : h.Rows h.triples := by
  refine ⟨h.objects.entries, h.objects.entries.map fun o => o.1.triples o.2,
    h.objects.lists_entries, ?_, h.triples_eq_flatten⟩
  rw [List.forall₂_map_right_iff, List.forall₂_same]
  exact fun o _ => o.1.rows_triples o.2

/-- A store that is open is filled with the rows of the heap, whatever it held. -/
theorem Store.dump_eq {s : Store} (hs : s.closed = false) (h : Heap) :
    s.dump h = (.ok (), { s with table := h.triples }) := by
  simp [dump, hs]

/-! ### Values from identifiers -/

namespace Heap

variable {h : Heap} {id : String} {v : Value}

/-- The value that an identifier was stored for. Null and the truth values are told by their words,
    which stand for nothing in an answer; everything else is classified as an answer is. -/
def value? (h : Heap) (id : String) : Option Value :=
  if id = "null" then some .null
  else if id = "True" then some (.boolean true)
  else if id = "False" then some (.boolean false)
  else (h.classify id).toOption

/-- The words of null and of the truth values are told from other identifiers by their first
    characters. -/
theorem value?_of_head? {c : Char} (hid : id.toList.head? = some c) (hc : c ∉ ['n', 'T', 'F']) :
    h.value? id = (h.classify id).toOption := by
  have hne : ∀ {word : String} {d : Char}, word.toList.head? = some d → d ∈ ['n', 'T', 'F'] →
      id ≠ word := by
    rintro word d hword hd rfl
    exact hc (Option.some.inj (hid.symm.trans hword) ▸ hd)
  rw [value?, if_neg (hne (d := 'n') rfl (by decide)), if_neg (hne (d := 'T') rfl (by decide)),
    if_neg (hne (d := 'F') rfl (by decide))]

theorem value?_of_classify {c : Char} (hid : id.toList.head? = some c) (hc : c ∉ ['n', 'T', 'F'])
    (hv : h.classify id = .ok v) : h.value? id = some v := by
  rw [value?_of_head? hid hc, hv]
  rfl

/-- Names are different and are those that are handed out, integers are canonical, and references
    lead to objects. -/
structure Legible (h : Heap) : Prop extends h.Named where
  names : ∀ r, h.contains (.object r) = true → ∃ k, r.name = refName k
  fields : h.AllFields fun h v => v.Canonical ∧ h.Holds v

namespace Legible

/-- A value is told from what is stored for it. -/
theorem value?_identifier (hl : h.Legible) (hv : v.Canonical) (hon : h.Holds v) :
    h.value? v.identifier = some v := by
  cases v with
  | null => rfl
  | boolean b => cases b <;> rfl
  | integer numeral =>
    obtain ⟨c, hid, hc⟩ := (hv numeral rfl).head?
    have hne : ∀ d, ¬(Text.isDigit d = true ∨ d = '-') → c ≠ d := fun d hd heq => hd (heq ▸ hc)
    have hword : c ∉ ['n', 'T', 'F'] := by
      simp [hne 'n' (by decide), hne 'T' (by decide), hne 'F' (by decide)]
    exact value?_of_classify hid hword (classify_integer hl.names (hv numeral rfl))
  | string s =>
    have hid : ("\"" ++ s ++ "\"").toList.head? = some '"' := by
      rw [toList_quoted]
      rfl
    exact value?_of_classify hid (by decide) (classify_text hl.names s)
  | object r =>
    have hr : h.contains (.object r) = true := hon rfl
    obtain ⟨k, hname⟩ := hl.names r hr
    have hid : r.name.toList.head? = some 'o' := by rw [hname, head?_refName]
    exact value?_of_classify hid (by decide) (classify_object hl.distinct hr)

end Legible

end Heap

/-! ### The rows of one object -/

/-- Whether two rows are about the same object. -/
def Triple.sameSubject (t u : Triple) : Bool :=
  t.subject = u.subject

theorem Ref.triples_ne_nil (r : Ref) (own : Memory) : r.triples own ≠ [] :=
  List.cons_ne_nil _ _

theorem Ref.subject_of_mem_triples {r : Ref} {own : Memory} {t : Triple}
    (ht : t ∈ r.triples own) : t.subject = r.name := by
  rcases List.mem_cons.1 ht with rfl | ht
  · rfl
  · obtain ⟨f, -, rfl⟩ := List.mem_map.1 ht
    rfl

/-- The rows next to each other with one name are those of one object, if names are different. -/
theorem Heap.Named.splitBy_triples {h : Heap} (hn : h.Named) :
    h.triples.splitBy Triple.sameSubject = h.objects.entries.map fun o => o.1.triples o.2 := by
  rw [h.triples_eq_flatten]
  refine List.splitBy_flatten ?_ ?_ ?_
  · simp [Ref.triples]
  · intro block hblock
    obtain ⟨o, -, rfl⟩ := List.mem_map.1 hblock
    have hsubject : ∀ t ∈ o.1.triples o.2, t.subject = o.1.name :=
      fun t ht => Ref.subject_of_mem_triples ht
    refine List.Pairwise.isChain (List.pairwise_of_forall_mem_list fun t ht u hu => ?_)
    exact decide_eq_true ((hsubject t ht).trans (hsubject u hu).symm)
  · rw [List.isChain_map]
    refine List.Pairwise.isChain (h.objects.ordered.imp_of_mem fun {o o'} ho ho' hlt => ?_)
    have hne : o.1.name ≠ o'.1.name := by
      intro hname
      obtain ⟨hsame, -⟩ := hn.eq_of_name (SortedMap.get?_eq_some_iff.2 ho)
        (SortedMap.get?_eq_some_iff.2 ho') hname
      rw [hsame] at hlt
      simp at hlt
    refine ⟨o.1.triples_ne_nil o.2, o'.1.triples_ne_nil o'.2, decide_eq_false ?_⟩
    rw [Ref.subject_of_mem_triples (List.getLast_mem _),
      Ref.subject_of_mem_triples (List.head_mem _)]
    exact hne

/-! ### Reading back -/

/-- The object that some rows are about, and the identifiers in its fields. The first row is the one
    of the class. -/
def readRows? : List Triple → Option (Ref × List (String × String))
  | [] => none
  | t :: rows => some (⟨t.subject, t.object⟩, rows.map fun u => (u.predicate, u.object))

/-- A heap with the given objects, all of them without fields. -/
def Heap.ofRefs (refs : List Ref) : Heap :=
  ⟨0, .ofList (refs.map fun r => (r, ∅))⟩

/-- What is read back from a table: the objects and their fields. The identifiers of other objects
    can be told once all objects are known. -/
def Heap.restore (table : List Triple) : List (Ref × List (String × Option Value)) :=
  let blocks := (table.splitBy Triple.sameSubject).filterMap readRows?
  let heap := Heap.ofRefs (blocks.map Prod.fst)
  blocks.map fun b => (b.1, b.2.map fun f => (f.1, heap.value? f.2))

theorem readRows?_triples (r : Ref) (own : Memory) :
    readRows? (r.triples own) = some (r, own.entries.map fun f => (f.1, f.2.identifier)) := by
  simp [readRows?, Ref.triples]

namespace Heap

theorem keys_ofRefs (h : Heap) : (ofRefs h.objects.keys).objects.keys = h.objects.keys := by
  have hentries : (h.objects.keys.map fun r => (r, (∅ : Memory))) =
      (h.objects.mapValues fun _ => ∅).entries := by
    simp [SortedMap.keys, SortedMap.mapValues]
  rw [ofRefs, hentries, SortedMap.ofList_entries]
  simp [SortedMap.keys, SortedMap.mapValues]

/-- Which value an identifier was stored for depends on the references to objects only. -/
theorem value?_congr {h h' : Heap} (hkeys : h.objects.keys = h'.objects.keys) (id : String) :
    h.value? id = h'.value? id := by
  simp only [value?, classify, find?, hkeys]

/-- All objects and all values are read back. -/
theorem Legible.restore_triples {h : Heap} (hl : h.Legible) :
    restore h.triples =
      h.objects.entries.map fun o => (o.1, o.2.entries.map fun f => (f.1, some f.2)) := by
  have hblocks : (h.triples.splitBy Triple.sameSubject).filterMap readRows? =
      h.objects.entries.map fun o => (o.1, o.2.entries.map fun f => (f.1, f.2.identifier)) := by
    rw [hl.toNamed.splitBy_triples, List.filterMap_map, ← List.filterMap_eq_map]
    exact List.filterMap_congr fun o _ => readRows?_triples o.1 o.2
  have hkeys : ((h.objects.entries.map fun o =>
      (o.1, o.2.entries.map fun f => (f.1, f.2.identifier))).map Prod.fst) = h.objects.keys := by
    simp [SortedMap.keys]
  have hvalue : ∀ o ∈ h.objects.entries, ∀ f ∈ o.2.entries,
      (ofRefs h.objects.keys).value? f.2.identifier = some f.2 := by
    intro o ho f hf
    obtain ⟨hcanonical, hholds⟩ := hl.fields o ho f hf
    rw [value?_congr h.keys_ofRefs]
    exact hl.value?_identifier hcanonical hholds
  simp only [restore, hblocks, hkeys, List.map_map]
  refine List.map_congr_left fun o ho => congrArg (Prod.mk o.1) ?_
  rw [List.map_map]
  exact List.map_congr_left fun f hf => congrArg (Prod.mk f.1) (hvalue o ho f hf)

/-- Heaps with the same rows have the same objects. -/
theorem Legible.objects_eq {h h' : Heap} (hl : h.Legible) (hl' : h'.Legible)
    (htriples : h.triples = h'.triples) : h.objects = h'.objects := by
  have hrestore := congrArg restore htriples
  rw [hl.restore_triples, hl'.restore_triples] at hrestore
  have hfields : Function.Injective fun f : String × Value => (f.1, some f.2) := by
    rintro ⟨name, v⟩ ⟨name', v'⟩ heq
    simpa using heq
  refine SortedMap.ext (List.map_injective_iff.2 ?_ hrestore)
  intro o o' heq
  obtain ⟨href, hown⟩ := Prod.mk.inj heq
  exact Prod.ext href (SortedMap.ext (List.map_injective_iff.2 hfields hown))

/-- In every heap that loaded programs reach, names do not come back as long as the number of
    objects is a 64-bit integer, and then the heap can be read back from its rows. -/
theorem legible_of_loaded {σ : Type} {kb : Option (KnowledgeBase σ)} {text : String}
    {p : Program} (hload : Program.load text = .ok p) {maxSteps : Nat} {ops : List (Operation σ)}
    (hops : ∀ op ∈ ops, op.Loaded)
    (hfits : ((Machine.new p.classes ∅ maxSteps).operateAll kb ops).heap.Fits) :
    ((Machine.new p.classes ∅ maxSteps).operateAll kb ops).heap.Legible := by
  obtain ⟨n, hc⟩ : ∃ n, ((Machine.new p.classes ∅ maxSteps).operateAll kb ops).heap.Counted n :=
    Machine.exists_counted p.classes maxSteps ops
  refine ⟨hc.named hfits, fun r hr => ?_, fields_of_loaded hload hops⟩
  obtain ⟨k, -, -, hname⟩ := hc.keys r hr
  exact ⟨k, hname⟩

end Heap

/-- However loaded programs are started, stepped and forked on the empty heap, with the classes of
    loaded programs: a store that is open is filled with the rows of the heap it is shown, whatever
    it held before. Two such heaps have the same rows exactly if they have the same objects, of the
    same classes, with the same fields and with the same values in them, kinds and references
    included. The number of objects is a 64-bit integer there, so that no two are called alike. -/
theorem triples_determine_the_heap {σ σ' : Type} (kb : Option (KnowledgeBase σ))
    (kb' : Option (KnowledgeBase σ')) {text text' : String} {p p' : Program}
    (hload : Program.load text = .ok p) (hload' : Program.load text' = .ok p')
    (maxSteps maxSteps' : Nat) {ops : List (Operation σ)} {ops' : List (Operation σ')}
    (hops : ∀ op ∈ ops, op.Loaded) (hops' : ∀ op ∈ ops', op.Loaded) :
    let h := ((Machine.new p.classes ∅ maxSteps).operateAll kb ops).heap
    let h' := ((Machine.new p'.classes ∅ maxSteps').operateAll kb' ops').heap
    ∀ s s' : Store, s.closed = false → s'.closed = false → ∃ rows rows',
      (s.dump h = (.ok (), { s with table := rows }) ∧ h.Rows rows) ∧
      (s'.dump h' = (.ok (), { s' with table := rows' }) ∧ h'.Rows rows') ∧
      (h.Fits → h'.Fits → (rows = rows' ↔ h.objects = h'.objects)) := by
  intro h h' s s' hs hs'
  refine ⟨h.triples, h'.triples, ⟨Store.dump_eq hs h, h.rows_triples⟩,
    ⟨Store.dump_eq hs' h', h'.rows_triples⟩, fun hfits hfits' => ⟨fun hrows => ?_, fun hsame => ?_⟩⟩
  · have hl : h.Legible := Heap.legible_of_loaded hload hops hfits
    have hl' : h'.Legible := Heap.legible_of_loaded hload' hops' hfits'
    exact hl.objects_eq hl' hrows
  · rw [Heap.triples, Heap.triples, hsame]

/-- One flag holds a truth value and another one holds its text. Their rows are told apart by the
    double quotes. -/
theorem triples_determine_the_heap_of_flags :
    let flag (value : String) :=
      "classes:\n  - \x7bname: Flag, fields: [a]\x7d\nmain:\n" ++
        "  new: \x7btarget: \x7blocal: x\x7d, class: Flag, args: [" ++ value ++ "]\x7d"
    let s : Store := ⟨[⟨"obj1", "a", "Former"⟩], false⟩
    ∃ p p', Program.load (flag "\x7bbool: true\x7d") = .ok p ∧
      Program.load (flag "\x7bstr: True\x7d") = .ok p' ∧
      let ops : List (Operation Unit) := [.start p.main, .step ()]
      let ops' : List (Operation Unit) := [.start p'.main, .step ()]
      let h := ((Machine.new p.classes ∅ 0).operateAll none ops).heap
      let h' := ((Machine.new p'.classes ∅ 0).operateAll none ops').heap
      (∀ op ∈ ops, op.Loaded) ∧ (∀ op ∈ ops', op.Loaded) ∧ h.Fits ∧ h'.Fits ∧
        s.closed = false ∧ h.objects.keys = h'.objects.keys ∧
        (s.dump h).2.table ≠ (s.dump h').2.table := by
  intro flag s
  let keys : List Ref := [⟨"obj1", entryClass⟩, ⟨"obj2", "Flag"⟩]
  have hstate : (Program.load (flag "\x7bbool: true\x7d")).toOption.any (fun p =>
      let ops : List (Operation Unit) := [.start p.main, .step ()]
      let h := ((Machine.new p.classes ∅ 0).operateAll none ops).heap
      h.Fits ∧ h.objects.keys = keys ∧
        h.objects.get? ⟨"obj2", "Flag"⟩ = some (.ofList [("a", .boolean true)])) = true := by
    decide +kernel
  have hstate' : (Program.load (flag "\x7bstr: True\x7d")).toOption.any (fun p =>
      let ops : List (Operation Unit) := [.start p.main, .step ()]
      let h := ((Machine.new p.classes ∅ 0).operateAll none ops).heap
      h.Fits ∧ h.objects.keys = keys ∧
        h.objects.get? ⟨"obj2", "Flag"⟩ = some (.ofList [("a", .string "True")])) = true := by
    decide +kernel
  obtain ⟨p, hload, hstate⟩ := exists_ok_of_any hstate
  obtain ⟨hfits, hkeys, hflag⟩ := of_decide_eq_true hstate
  obtain ⟨p', hload', hstate'⟩ := exists_ok_of_any hstate'
  obtain ⟨hfits', hkeys', hflag'⟩ := of_decide_eq_true hstate'
  refine ⟨p, p', hload, hload', ?_⟩
  intro ops ops' h h'
  have hops : ∀ op ∈ ops, op.Loaded := by
    simpa [ops, Operation.Loaded] using ⟨_, p, hload, rfl⟩
  have hops' : ∀ op ∈ ops', op.Loaded := by
    simpa [ops', Operation.Loaded] using ⟨_, p', hload', rfl⟩
  obtain ⟨rows, rows', ⟨hdump, -⟩, ⟨hdump', -⟩, hiff⟩ :=
    triples_determine_the_heap none none hload hload' 0 0 hops hops' s s rfl rfl
  refine ⟨hops, hops', hfits, hfits', rfl, hkeys.trans hkeys'.symm, ?_⟩
  rw [hdump, hdump']
  intro hrows
  -- then both flags would hold the same value
  have hsame : h.objects = h'.objects := (hiff hfits hfits').1 hrows
  rw [← hsame] at hflag'
  exact absurd (hflag.symm.trans hflag') (by decide)

end ObjectMachine
