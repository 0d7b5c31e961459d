import ObjectMachine.Proofs.CborBounds
import ObjectMachine.Proofs.SnapshotRecords

namespace ObjectMachine

open Cbor

/-!
# Snapshots are lossless and canonical

* `Snapshot.decode_encode_eq_ok` — whatever a snapshot is restored to, it is the heap it was taken
  of;
* `Snapshot.decode_encode` — a valid heap within the bounds of the reader is restored;
* `Snapshot.encode_inj` — different heaps have different snapshots;
* `Snapshot.valid_of_decode` — what any bytes are restored to is valid;
* `snapshots_are_lossless_and_canonical` — all this for heaps with lengths that are 64-bit integers.
-/

namespace Snapshot

variable {n k : Nat}

/-- From the snapshot of a heap its own records are read, if they are within the bounds of the
    reader. -/
theorem decode_encode_eq (hn : n < headLimit) (hk : k < headLimit) {h : Heap}
    (hcounter : Text.fits h.counter = true) (hsized : h.Sized n k) :
    decode (encode h) =
      if (ofHeap h).fits maxNesting then
        checkObjects ⟨h.counter, ∅⟩ (h.objects.entries.map .of)
      else .error .malformed := by
  have hitem := (plain_ofHeap hn hk hcounter hsized).decode?_encode
  unfold decode encode
  rw [hitem]
  by_cases hfits : (ofHeap h).fits maxNesting = true
  · simp only [hfits, if_true, Option.bind_eq_bind, Option.bind_some, toHeap?_ofHeap hcounter]
    rfl
  · simp [hfits]

/-- If a snapshot can be restored, it is restored to the heap it was taken of, which is valid. -/
theorem decode_encode_eq_ok (hn : n < headLimit) (hk : k < headLimit) {h h' : Heap}
    (hcounter : Text.fits h.counter = true) (hsized : h.Sized n k)
    (hdecode : decode (encode h) = .ok h') : h.Valid ∧ h' = h := by
  rw [decode_encode_eq hn hk hcounter hsized] at hdecode
  split at hdecode
  · exact (checkObjects_entries hcounter).1 hdecode
  · simp at hdecode

/-- A valid heap within the bounds of the reader is restored from its snapshot. -/
theorem decode_encode (hn : n < headLimit) {h : Heap} (hvalid : h.Valid)
    (hsized : h.Sized n maxLength) : decode (encode h) = .ok h := by
  rw [decode_encode_eq hn (by decide) hvalid.counter hsized, if_pos (fits_ofHeap hsized)]
  exact (checkObjects_entries hvalid.counter).2 ⟨hvalid, rfl⟩

/-- Valid heaps with the same snapshot are the same. There is no bound on the number of objects here
    but that it has a head. -/
theorem encode_inj (hn : n < headLimit) (hk : k < headLimit) {h h' : Heap} (hvalid : h.Valid)
    (hvalid' : h'.Valid) (hsized : h.Sized n k) (hsized' : h'.Sized n k)
    (heq : encode h = encode h') : h = h' := by
  -- the records, and from these the heap, can be told from the item
  have hitem : ofHeap h = ofHeap h' :=
    (plain_ofHeap hn hk hvalid.counter hsized).encode_inj
      (plain_ofHeap hn hk hvalid'.counter hsized') heq
  have hrecord : HeapRecord.of h = HeapRecord.of h' := by
    have hread := congrArg toHeap? hitem
    rw [toHeap?_ofHeap hvalid.counter, toHeap?_ofHeap hvalid'.counter] at hread
    exact Option.some.inj hread
  obtain ⟨hcounter, hobjects⟩ := HeapRecord.mk.inj hrecord
  have hchecked := (checkObjects_entries hvalid.counter).2 ⟨hvalid, rfl⟩
  rw [hcounter, hobjects] at hchecked
  exact ((checkObjects_entries hvalid'.counter).1 hchecked).2

/-! ### What is restored from any bytes -/

/-- Literal and class of a stored value have at most `n` bytes. -/
def ValueRecord.Sized (n : Nat) (r : ValueRecord) : Prop :=
  r.literal.utf8ByteSize ≤ n ∧ r.cls.utf8ByteSize ≤ n

/-- A stored field with bounded texts. -/
def FieldRecord.Sized (n : Nat) (r : FieldRecord) : Prop :=
  r.name.utf8ByteSize ≤ n ∧ r.value.Sized n

/-- A stored object with bounded texts and not too many fields. -/
def ObjectRecord.Sized (n : Nat) (r : ObjectRecord) : Prop :=
  r.ref.Sized n ∧ r.fields.length ≤ maxLength ∧ ∀ f ∈ r.fields, f.Sized n

theorem sized_of_toValue? {i : Item} (hi : i.Within n) {r : ValueRecord}
    (h : toValue? i = some r) : r.Sized n := by
  simp only [toValue?, Option.bind_eq_bind, Option.pure_def, Option.bind_eq_some_iff] at h
  obtain ⟨pairs, hpairs, kind, -, literal, hliteral, cls, hcls, heq⟩ := h
  obtain rfl := Option.some.inj heq
  exact ⟨(hi.toRecord? hpairs 2).toText? hliteral, (hi.toRecord? hpairs 3).toText? hcls⟩

theorem sized_of_toField? {i : Item} (hi : i.Within n) {r : FieldRecord}
    (h : toField? i = some r) : r.Sized n := by
  simp only [toField?, Option.bind_eq_bind, Option.pure_def, Option.bind_eq_some_iff] at h
  obtain ⟨pairs, hpairs, name, hname, value, hvalue, heq⟩ := h
  obtain rfl := Option.some.inj heq
  exact ⟨(hi.toRecord? hpairs 1).toText? hname, sized_of_toValue? (hi.toRecord? hpairs 2) hvalue⟩

/-- Reading a list item by item gives as many results, each from one of the items. -/
theorem mapM_eq_some {α β : Type} {f : α → Option β} {as : List α} {bs : List β}
    (h : as.mapM f = some bs) :
    bs.length = as.length ∧ ∀ b ∈ bs, ∃ a ∈ as, f a = some b := by
  induction as generalizing bs with
  | nil =>
    obtain rfl : [] = bs := by simpa using h
    simp
  | cons a as ih =>
    simp only [List.mapM_cons, Option.bind_eq_bind, Option.pure_def, Option.bind_eq_some_iff] at h
    obtain ⟨b, hb, bs', hbs', heq⟩ := h
    obtain rfl := Option.some.inj heq
    obtain ⟨hlength, hfrom⟩ := ih hbs'
    refine ⟨by simp [hlength], List.forall_mem_cons.2 ⟨⟨a, by simp, hb⟩, fun c hc => ?_⟩⟩
    obtain ⟨a', ha', hc'⟩ := hfrom c hc
    exact ⟨a', by simp [ha'], hc'⟩

theorem sized_of_toObject? {i : Item} (hi : i.Within n) {r : ObjectRecord}
    (h : toObject? i = some r) : r.Sized n := by
  simp only [toObject?, Option.bind_eq_bind, Option.pure_def, Option.bind_eq_some_iff] at h
  obtain ⟨pairs, hpairs, ref, href, items, hitems, fields, hfields, heq⟩ := h
  obtain rfl := Option.some.inj heq
  obtain ⟨hlength, hwithin⟩ := (hi.toRecord? hpairs 2).toList? hitems
  obtain ⟨hsame, hfrom⟩ := mapM_eq_some hfields
  refine ⟨sized_of_toValue? (hi.toRecord? hpairs 1) href, by rw [hsame]; exact hlength, ?_⟩
  intro f hf
  obtain ⟨j, hj, hread⟩ := hfrom f hf
  exact sized_of_toField? (hwithin j hj) hread

theorem le_of_toNat? {i : Item} {max m : Nat} (h : i.toNat? max = some m) : m ≤ max := by
  unfold Item.toNat? at h
  split at h
  · split at h
    · rename_i hle
      obtain rfl := Option.some.inj h
      exact hle
    · simp at h
  · split at h
    · obtain rfl := Option.some.inj h
      exact Nat.zero_le max
    split at h
    · simp at h
    split at h
    · rename_i hle
      obtain rfl := Option.some.inj h
      exact hle
    · simp at h
  · simp at h

/-- An integer that was read fits in 64 bits. -/
theorem fits_of_toInt? {i : Item} {c : Int} (h : i.toInt? = some c) : Text.fits c = true := by
  have hmax : Text.maxInt.toNat = 9223372036854775807 := rfl
  have hbounds : Text.minInt ≤ c ∧ c ≤ Text.maxInt := by
    show -9223372036854775808 ≤ c ∧ c ≤ 9223372036854775807
    unfold Item.toInt? at h
    split at h
    · split at h
      · obtain rfl := Option.some.inj h
        omega
      · simp at h
    · obtain ⟨m, hm, rfl⟩ := Option.map_eq_some_iff.1 h
      have hle := le_of_toNat? hm
      simp only [Int.ofNat_eq_natCast]
      omega
  simpa [Text.fits] using hbounds

theorem sized_of_toHeap? {i : Item} (hi : i.Within n) {r : HeapRecord} (h : toHeap? i = some r) :
    Text.fits r.counter = true ∧ r.objects.length ≤ maxLength ∧ ∀ o ∈ r.objects, o.Sized n := by
  simp only [toHeap?, Option.bind_eq_bind, Option.pure_def, Option.bind_eq_some_iff] at h
  obtain ⟨pairs, hpairs, counter, hcounter, items, hitems, objects, hobjects, heq⟩ := h
  obtain rfl := Option.some.inj heq
  obtain ⟨hlength, hwithin⟩ := (hi.toRecord? hpairs 2).toList? hitems
  obtain ⟨hsame, hfrom⟩ := mapM_eq_some hobjects
  refine ⟨fits_of_toInt? hcounter, by rw [hsame]; exact hlength, ?_⟩
  intro o ho
  obtain ⟨j, hj, hread⟩ := hfrom o ho
  exact sized_of_toObject? (hwithin j hj) hread

/-- A value is no longer than the parts it was made from, but that null has a literal of its own. -/
theorem sized_of_ofParts {kind : Nat} {literal cls : String} {v : Value}
    (hliteral : literal.utf8ByteSize ≤ n) (hcls : cls.utf8ByteSize ≤ n)
    (h : Value.ofParts kind literal cls = .ok v) : v.Sized (n + 4) := by
  have hliteral : literal.utf8ByteSize ≤ n + 4 := Nat.le_add_right_of_le hliteral
  have hcls : cls.utf8ByteSize ≤ n + 4 := Nat.le_add_right_of_le hcls
  have hnone : "".utf8ByteSize ≤ n + 4 := Nat.zero_le _
  match kind, h with
  | 0, h =>
    obtain rfl := Except.ok.inj h
    exact ⟨Nat.le_add_left 4 n, hnone⟩
  | 1, h =>
    obtain ⟨-, rfl⟩ := Value.ofParts_integer.1 h
    exact ⟨hliteral, hnone⟩
  | 2, h =>
    obtain ⟨b, rfl, rfl⟩ := Value.ofParts_boolean h
    exact ⟨hliteral, hnone⟩
  | 3, h =>
    obtain rfl := Except.ok.inj h
    exact ⟨hliteral, hnone⟩
  | 4, h =>
    obtain ⟨-, rfl⟩ := Value.ofParts_object.1 h
    exact ⟨hliteral, hcls⟩
  | kind + 5, h => simp [Value.ofParts] at h

/-- A stored value that is accepted is valid. -/
theorem sized_of_check {r : ValueRecord} (hr : r.Sized n) {v : Value} (h : r.check = .ok v) :
    v.Valid ∧ v.Sized (n + 4) :=
  ⟨⟨r.kind, r.literal, r.cls, h⟩, sized_of_ofParts hr.1 hr.2 h⟩

/-- Every field that is restored was there or was stored. -/
theorem mem_of_checkFields {owner : Value} {m m' : Memory} {fs : List FieldRecord}
    (h : checkFields owner m fs = .ok m') :
    m'.size ≤ m.size + fs.length ∧ ∀ e ∈ m'.entries,
      e ∈ m.entries ∨ ∃ f ∈ fs, f.name = e.1 ∧ f.value.check = .ok e.2 := by
  induction fs generalizing m with
  | nil =>
    obtain rfl := Except.ok.inj h
    exact ⟨Nat.le_refl _, fun e he => .inl he⟩
  | cons f fs ih =>
    rw [checkFields] at h
    split at h
    · simp at h
    · rename_i v hcheck
      obtain ⟨hsize, hfrom⟩ := ih h
      have hinsert := m.size_insert_le f.name v
      constructor
      · rw [List.length_cons]
        omega
      · intro e he
        rcases hfrom e he with hold | ⟨g, hg, hstored⟩
        · rcases SortedMap.mem_insert hold with rfl | hold
          · exact .inr ⟨f, List.mem_cons_self, rfl, hcheck⟩
          · exact .inl hold
        · exact .inr ⟨g, List.mem_cons_of_mem f hg, hstored⟩

/-- Every object that is restored was there or was stored. -/
theorem mem_of_checkObjects {g g' : Heap} {rs : List ObjectRecord}
    (h : checkObjects g rs = .ok g') :
    g'.counter = g.counter ∧ g'.objects.size ≤ g.objects.size + rs.length ∧
      ∀ o ∈ g'.objects.entries, o ∈ g.objects.entries ∨
        ∃ r ∈ rs, r.ref.check = .ok (.object o.1) ∧
          checkFields (.object o.1) ∅ r.fields = .ok o.2 := by
  induction rs generalizing g with
  | nil =>
    obtain rfl := Except.ok.inj h
    exact ⟨rfl, Nat.le_refl _, fun o ho => .inl ho⟩
  | cons r rs ih =>
    rw [checkObjects] at h
    split at h
    · simp at h
    rename_i owner hcheck
    split at h
    · simp at h
    rename_i fields hfields
    split at h
    · rename_i ref
      obtain ⟨hcounter, hsize, hfrom⟩ := ih h
      have hinsert := g.objects.size_insert_le ref fields
      refine ⟨hcounter, ?_, fun o ho => ?_⟩
      · rw [List.length_cons]
        simp only [Heap.insert] at hsize
        omega
      · rcases hfrom o ho with hold | ⟨r', hr', hstored⟩
        · rcases SortedMap.mem_insert hold with rfl | hold
          · exact .inr ⟨r, List.mem_cons_self, hcheck, hfields⟩
          · exact .inl hold
        · exact .inr ⟨r', List.mem_cons_of_mem r hr', hstored⟩
    · simp at h

/-- Whatever bytes a heap is restored from, it is valid and no larger than they are. -/
theorem valid_of_decode {bs : Bytes} {h : Heap} (hdecode : decode bs = .ok h) :
    h.Valid ∧ h.Sized (bs.length + 4) maxLength := by
  unfold decode at hdecode
  split at hdecode
  · simp at hdecode
  rename_i r hread
  obtain ⟨i, hi, hrecord⟩ := Option.bind_eq_some_iff.1 hread
  obtain ⟨hfits, hlength, hsized⟩ := sized_of_toHeap? (Item.within_of_decode? hi) hrecord
  obtain ⟨hcounter, hsize, hfrom⟩ := mem_of_checkObjects hdecode
  have hstored : ∀ o ∈ h.objects.entries,
      ((Value.object o.1).Valid ∧ (Value.object o.1).Sized (bs.length + 4)) ∧
        o.2.size ≤ maxLength ∧
        ∀ f ∈ o.2.entries, f.1.utf8ByteSize ≤ bs.length + 4 ∧ f.2.Valid ∧
          f.2.Sized (bs.length + 4) := by
    intro o ho
    obtain ⟨s, hs, hcheck, hfields⟩ := (hfrom o ho).resolve_left List.not_mem_nil
    obtain ⟨href, hcount, hfs⟩ := hsized s hs
    obtain ⟨hsize', hfrom'⟩ := mem_of_checkFields hfields
    have hempty : (∅ : Memory).size = 0 := rfl
    refine ⟨sized_of_check href hcheck, by omega, fun f hf => ?_⟩
    obtain ⟨t, ht, hname, hvalue⟩ := (hfrom' f hf).resolve_left List.not_mem_nil
    obtain ⟨hn, hv⟩ := hfs t ht
    rw [← hname]
    exact ⟨by omega, sized_of_check hv hvalue⟩
  have hsize : h.objects.size ≤ 0 + r.objects.length := hsize
  constructor
  · exact ⟨hcounter ▸ hfits, fun o ho => Value.valid_object.1 (hstored o ho).1.1,
      fun o ho f hf => ((hstored o ho).2.2 f hf).2.1⟩
  · exact ⟨by omega, fun o ho => (hstored o ho).1.2, fun o ho => (hstored o ho).2.1,
      fun o ho f hf => ((hstored o ho).2.2 f hf).1, fun o ho f hf => ((hstored o ho).2.2 f hf).2.2⟩

/-- A heap that was restored is restored again from its own snapshot. -/
theorem decode_encode_of_decode {bs : Bytes} (hbs : bs.length ≤ Text.maxInt.toNat) {h : Heap}
    (hdecode : decode bs = .ok h) : decode (encode h) = .ok h := by
  obtain ⟨hvalid, hsized⟩ := valid_of_decode hdecode
  have hlimit : bs.length + 4 < headLimit := by
    have hmax : Text.maxInt.toNat = 9223372036854775807 := rfl
    have hmodulus : headLimit = 18446744073709551616 := rfl
    omega
  exact decode_encode hlimit hvalid hsized

end Snapshot

/-- Heaps with the same counter in which the same objects are found, with the same values in their
    fields, are the same. -/
theorem Heap.ext_lookup {h h' : Heap} (hcounter : h.counter = h'.counter)
    (hlookup : ∀ v, (h.lookup v).map SortedMap.get? = (h'.lookup v).map SortedMap.get?) :
    h = h' := by
  have hobjects : h.objects = h'.objects := by
    refine SortedMap.ext_get? fun r => ?_
    have hinj : ∀ m m' : Memory, m.get? = m'.get? → m = m' := fun m m' heq =>
      SortedMap.ext_get? fun name => congrFun heq name
    exact Option.map_injective hinj (hlookup (.object r))
  cases h
  cases h'
  simp_all

/-- A valid heap within the bounds of the reader is restored from its snapshot, counter included.
    Two valid heaps have the same snapshot exactly if they have the same counter and the same
    objects with the same fields, and it does not matter in which order objects and fields were
    inserted. Whatever bytes a heap was restored from, it is valid, and restored once more from its
    own snapshot. Lengths are 64-bit integers throughout. -/
theorem snapshots_are_lossless_and_canonical :
    (∀ h : Heap, h.Valid → h.Sized Text.maxInt.toNat maxLength →
      Snapshot.decode (Snapshot.encode h) = .ok h) ∧
    (∀ h h' : Heap, h.Valid → h'.Valid → h.Sized Text.maxInt.toNat Text.maxInt.toNat →
      h'.Sized Text.maxInt.toNat Text.maxInt.toNat →
      (Snapshot.encode h = Snapshot.encode h' ↔ h.counter = h'.counter ∧
        ∀ v, (h.lookup v).map SortedMap.get? = (h'.lookup v).map SortedMap.get?)) ∧
    (∀ (c : Int) (os os' : List (Ref × Memory)), os.Perm os' → (os.map Prod.fst).Nodup →
      Snapshot.encode ⟨c, .ofList os⟩ = Snapshot.encode ⟨c, .ofList os'⟩) ∧
    (∀ (h : Heap) (r : Ref) (fs fs' : List (String × Value)), fs.Perm fs' →
      (fs.map Prod.fst).Nodup →
      Snapshot.encode (h.insert r (.ofList fs)) = Snapshot.encode (h.insert r (.ofList fs'))) ∧
    (∀ (bs : Bytes) (h : Heap), bs.length ≤ Text.maxInt.toNat → Snapshot.decode bs = .ok h →
      h.Valid ∧ Snapshot.decode (Snapshot.encode h) = .ok h) := by
  have hlimit : Text.maxInt.toNat < headLimit := by decide
  refine ⟨?_, ?_, ?_, ?_, ?_⟩
  · intro h hvalid hsized
    exact Snapshot.decode_encode hlimit hvalid hsized
  · intro h h' hvalid hvalid' hsized hsized'
    constructor
    · intro heq
      obtain rfl := Snapshot.encode_inj hlimit hlimit hvalid hvalid' hsized hsized' heq
      exact ⟨rfl, fun v => rfl⟩
    · rintro ⟨hcounter, hlookup⟩
      rw [Heap.ext_lookup hcounter hlookup]
  · intro c os os' hperm hnodup
    rw [SortedMap.ofList_eq_of_perm hperm hnodup]
  · intro h r fs fs' hperm hnodup
    rw [SortedMap.ofList_eq_of_perm hperm hnodup]
  · intro bs h hbs hdecode
    exact ⟨(Snapshot.valid_of_decode hdecode).1, Snapshot.decode_encode_of_decode hbs hdecode⟩

/-- Two objects with fields of every kind, inserted in either order; and the bytes of an empty
    record, which are restored to the empty heap without being its snapshot. -/
theorem snapshots_are_lossless_and_canonical_of_two_objects :
    let node : Ref := ⟨"obj1", "Node"⟩
    let leaf : Ref := ⟨"obj10", "Leaf"⟩
    let fields : Memory := .ofList [("next", .object leaf), ("size", .integer "+5"), ("top", .null),
      ("on", .boolean true), ("é", .string "")]
    let heap : Heap := ⟨10, .ofList [(leaf, ∅), (node, fields)]⟩
    let bytes : Bytes := [0xa0]
    (heap.Valid ∧ heap.Sized Text.maxInt.toNat maxLength) ∧
      Snapshot.decode (Snapshot.encode heap) = .ok heap ∧
      Snapshot.encode heap = Snapshot.encode ⟨10, .ofList [(node, fields), (leaf, ∅)]⟩ ∧
      Snapshot.encode heap ≠ Snapshot.encode { heap with counter := 11 } ∧
      Snapshot.decode bytes = .ok ∅ ∧ Heap.Valid ∅ ∧
      Snapshot.decode (Snapshot.encode ∅) = .ok ∅ := by
  intro node leaf fields heap bytes
  have hvalid : heap.Valid := by decide
  have hsized : heap.Sized Text.maxInt.toNat maxLength := by decide
  have hvalid' : Heap.Valid { heap with counter := 11 } := by decide
  have hsized' : heap.Sized Text.maxInt.toNat Text.maxInt.toNat := by decide
  have hread : Item.decode? bytes = some (.map []) := by
    simp [bytes, Item.decode?, readItem, readHead, argWidth?, takeBytes?, readPairs, maxNesting,
      maxLength]
  have hdecode : Snapshot.decode bytes = .ok ∅ := by
    unfold Snapshot.decode
    rw [hread]
    rfl
  obtain ⟨hlossless, hcanonical, horder, -, hany⟩ := snapshots_are_lossless_and_canonical
  have hdiffer : Snapshot.encode heap ≠ Snapshot.encode { heap with counter := 11 } := by
    intro heq
    have hcounter := (hcanonical heap { heap with counter := 11 } hvalid hvalid' hsized'
      ⟨hsized'.objects, hsized'.keys, hsized'.fields, hsized'.names, hsized'.values⟩).1 heq
    exact absurd hcounter.1 (by decide)
  exact ⟨⟨hvalid, hsized⟩, hlossless heap hvalid hsized, horder 10 _ _ (.swap ..) (by decide),
    hdiffer, hdecode, hany bytes ∅ (by decide) hdecode⟩

end ObjectMachine
