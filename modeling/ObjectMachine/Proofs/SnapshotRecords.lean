import ObjectMachine.Proofs.CborCodec
import ObjectMachine.Proofs.Lookup
import ObjectMachine.Snapshot

namespace ObjectMachine

open Cbor

/-!
# Heaps as records

A heap is written as an item, which is read back as records, from which the heap is built again.
What is not a proper value is found out on the way.

* `Value.Valid`, `Heap.Valid` — values that can be made from their parts, and heaps of these;
* `Heap.Sized` — bounds for the texts and lists of a heap;
* `Snapshot.toHeap?_ofHeap` — the item of a heap holds the records of this heap;
* `Snapshot.checkObjects_entries` — the records of a heap make up this heap if it is valid, and none
  otherwise;
* `Snapshot.plain_ofHeap`, `Snapshot.fits_ofHeap` — the item of a heap can be written and read.
-/

/-! ### Valid heaps -/

/-- A value that can be made from a kind, a literal and a class. -/
def Value.Valid (v : Value) : Prop :=
  ∃ kind literal cls, Value.ofParts kind literal cls = .ok v

/-- A heap with a 64-bit counter, in which every key has a name and a class, and every field has a
    valid value. -/
structure Heap.Valid (h : Heap) : Prop where
  counter : Text.fits h.counter = true
  keys : ∀ o ∈ h.objects.entries, o.1.name ≠ "" ∧ o.1.cls ≠ ""
  fields : ∀ o ∈ h.objects.entries, ∀ f ∈ o.2.entries, f.2.Valid

/-- Literal and class of a value have at most `n` bytes. -/
def Value.Sized (n : Nat) (v : Value) : Prop :=
  v.literal.utf8ByteSize ≤ n ∧ v.className.utf8ByteSize ≤ n

/-- The texts of a heap have at most `n` bytes; there are at most `k` objects, each with at most `k`
    fields. -/
structure Heap.Sized (n k : Nat) (h : Heap) : Prop where
  objects : h.objects.size ≤ k
  keys : ∀ o ∈ h.objects.entries, (Value.object o.1).Sized n
  fields : ∀ o ∈ h.objects.entries, o.2.size ≤ k
  names : ∀ o ∈ h.objects.entries, ∀ f ∈ o.2.entries, f.1.utf8ByteSize ≤ n
  values : ∀ o ∈ h.objects.entries, ∀ f ∈ o.2.entries, f.2.Sized n

namespace Value

theorem ofParts_integer {numeral cls : String} {v : Value} :
    ofParts 1 numeral cls = .ok v ↔
      (Text.readInt? numeral).isSome = true ∧ v = .integer numeral := by
  simp only [ofParts]
  by_cases h : (Text.readInt? numeral).isSome = true
  · simp [h, eq_comm]
  · simp [h]

theorem ofParts_boolean {s cls : String} {v : Value} (h : ofParts 2 s cls = .ok v) :
    ∃ b, v = .boolean b ∧ s = (Value.boolean b).literal := by
  simp only [ofParts] at h
  split at h
  · rename_i htrue
    exact ⟨true, (Except.ok.inj h).symm, htrue⟩
  split at h
  · rename_i hfalse
    exact ⟨false, (Except.ok.inj h).symm, hfalse⟩
  · simp at h

theorem ofParts_object {name cls : String} {v : Value} :
    ofParts 4 name cls = .ok v ↔ (name ≠ "" ∧ cls ≠ "") ∧ v = .object ⟨name, cls⟩ := by
  simp only [ofParts]
  by_cases h : name = "" ∨ cls = ""
  · simp only [Bool.or_eq_true, decide_eq_true_eq, if_pos h]
    rcases h with rfl | rfl <;> simp
  · obtain ⟨hname, hcls⟩ := not_or.1 h
    simp [hname, hcls, eq_comm]

/-- The parts of a valid value make up this value, and those of another one make up none. -/
theorem ofParts_parts {v v' : Value} :
    ofParts v.kindCode v.literal v.className = .ok v' ↔ v.Valid ∧ v' = v := by
  constructor
  · intro h
    have heq : v' = v := by
      cases v with
      | null => exact (Except.ok.inj h).symm
      | integer numeral => exact (ofParts_integer.1 h).2
      | boolean b => cases b <;> exact (Except.ok.inj h).symm
      | string s => exact (Except.ok.inj h).symm
      | object r => exact (ofParts_object.1 h).2
    subst heq
    exact ⟨⟨_, _, _, h⟩, rfl⟩
  · rintro ⟨⟨kind, literal, cls, h⟩, rfl⟩
    match kind, h with
    | 0, h =>
      obtain rfl := Except.ok.inj h
      rfl
    | 1, h =>
      obtain ⟨hread, rfl⟩ := ofParts_integer.1 h
      exact ofParts_integer.2 ⟨hread, rfl⟩
    | 2, h =>
      obtain ⟨b, rfl, -⟩ := ofParts_boolean h
      cases b <;> rfl
    | 3, h =>
      obtain rfl := Except.ok.inj h
      rfl
    | 4, h =>
      obtain ⟨hparts, rfl⟩ := ofParts_object.1 h
      exact ofParts_object.2 ⟨hparts, rfl⟩
    | kind + 5, h => simp [ofParts] at h

theorem valid_object {r : Ref} : (Value.object r).Valid ↔ r.name ≠ "" ∧ r.cls ≠ "" := by
  constructor
  · intro h
    exact (ofParts_object.1 (ofParts_parts.2 ⟨h, rfl⟩)).1
  · intro h
    exact ⟨4, r.name, r.cls, ofParts_object.2 ⟨h, rfl⟩⟩

end Value

/-! Whether a heap is valid, and whether it is within bounds, can be computed. -/

instance : DecidablePred Value.Valid := fun v =>
  decidable_of_iff ((Value.ofParts v.kindCode v.literal v.className).toOption = some v) (by
    have hparts : Value.ofParts v.kindCode v.literal v.className = .ok v ↔ v.Valid ∧ v = v :=
      Value.ofParts_parts
    cases h : Value.ofParts v.kindCode v.literal v.className with
    | error cause => simpa [h, Except.toOption] using hparts
    | ok v' => simpa [h, Except.toOption] using hparts)

instance (n : Nat) : DecidablePred (Value.Sized n) := fun v =>
  inferInstanceAs (Decidable (v.literal.utf8ByteSize ≤ n ∧ v.className.utf8ByteSize ≤ n))

instance : DecidablePred Heap.Valid := fun h =>
  decidable_of_iff
    (Text.fits h.counter = true ∧ (∀ o ∈ h.objects.entries, o.1.name ≠ "" ∧ o.1.cls ≠ "") ∧
      ∀ o ∈ h.objects.entries, ∀ f ∈ o.2.entries, f.2.Valid)
    ⟨fun ⟨hcounter, hkeys, hfields⟩ => ⟨hcounter, hkeys, hfields⟩,
      fun h => ⟨h.counter, h.keys, h.fields⟩⟩

instance (n k : Nat) : DecidablePred (Heap.Sized n k) := fun h =>
  decidable_of_iff
    (h.objects.size ≤ k ∧ (∀ o ∈ h.objects.entries, (Value.object o.1).Sized n) ∧
      (∀ o ∈ h.objects.entries, o.2.size ≤ k) ∧
      (∀ o ∈ h.objects.entries, ∀ f ∈ o.2.entries, f.1.utf8ByteSize ≤ n) ∧
      ∀ o ∈ h.objects.entries, ∀ f ∈ o.2.entries, f.2.Sized n)
    ⟨fun ⟨hobjects, hkeys, hfields, hnames, hvalues⟩ => ⟨hobjects, hkeys, hfields, hnames, hvalues⟩,
      fun h => ⟨h.objects, h.keys, h.fields, h.names, h.values⟩⟩

/-! ### Texts -/

theorem toList_byteArray (bs : ByteArray) : bs.toList = bs.data.toList := by
  have hloop : ∀ (k i : Nat) (acc : List UInt8), bs.size - i = k →
      ByteArray.toList.loop bs i acc = acc.reverse ++ bs.data.toList.drop i := by
    intro k
    induction k with
    | zero =>
      intro i acc hk
      have hge : ¬ i < bs.size := by omega
      have hdrop : bs.data.toList.drop i = [] := List.drop_eq_nil_of_le (Nat.not_lt.1 hge)
      rw [ByteArray.toList.loop, if_neg hge, hdrop, List.append_nil]
    | succ k ih =>
      intro i acc hk
      have hlt : i < bs.size := by omega
      have hlt' : i < bs.data.toList.length := hlt
      have hget : bs.get! i = bs.data.toList[i] := by
        show bs.data[i]! = bs.data.toList[i]
        rw [getElem!_pos bs.data i hlt]
        rfl
      rw [ByteArray.toList.loop, if_pos hlt, ih (i + 1) _ (by omega), List.reverse_cons,
        List.append_assoc, List.drop_eq_getElem_cons hlt', hget]
      rfl
  exact hloop bs.size 0 [] rfl

@[simp] theorem length_toByteArray (s : String) :
    s.toByteArray.toList.length = s.utf8ByteSize := by
  rw [toList_byteArray]
  rfl

@[simp] theorem toText?_ofString (s : String) : (Item.ofString s).toText? = some s := by
  have hchunk : Item.chunkText? s.toByteArray.toList = some s := by
    unfold Item.chunkText? String.fromUTF8?
    rw [toList_byteArray]
    exact dif_pos s.isValidUTF8
  simp [Item.ofString, Item.toText?, Item.untag?, Item.chunksText?, hchunk]

namespace Snapshot

/-! ### The records of a heap -/

/-- A value as it is stored. -/
def ValueRecord.of (v : Value) : ValueRecord :=
  ⟨v.kindCode, v.literal, v.className⟩

/-- A field as it is stored. -/
def FieldRecord.of (f : String × Value) : FieldRecord :=
  ⟨f.1, .of f.2⟩

/-- An object as it is stored. -/
def ObjectRecord.of (o : Ref × Memory) : ObjectRecord :=
  ⟨.of (.object o.1), o.2.entries.map .of⟩

/-- A heap as it is stored. -/
def HeapRecord.of (h : Heap) : HeapRecord :=
  ⟨h.counter, h.objects.entries.map .of⟩

@[simp] theorem toRecord?_map (pairs : List (Item × Item)) :
    (Item.map pairs).toRecord? = if pairs.all fun p => p.1.isKey then some pairs else none :=
  rfl

@[simp] theorem toList?_ofList (items : List Item) : (ofList items).toList? = some items := by
  cases items <;> rfl

@[simp] theorem toText?_null : Item.null.toText? = some "" := rfl

theorem kindCode_le (v : Value) : v.kindCode ≤ 4 := by
  cases v <;> simp [Value.kindCode]

@[simp] theorem toNat?_kindCode (v : Value) :
    (Item.unsigned v.kindCode).toNat? 255 = some v.kindCode := by
  have hle := kindCode_le v
  simp only [Item.toNat?, Item.untag?]
  exact if_pos (by omega)

theorem toInt?_ofInt {n : Int} (h : Text.fits n = true) : (Item.ofInt n).toInt? = some n := by
  have hbounds : Text.minInt ≤ n ∧ n ≤ Text.maxInt := by simpa [Text.fits] using h
  simp only [Text.minInt, Text.maxInt] at hbounds
  cases n with
  | ofNat k =>
    simp only [Int.ofNat_eq_natCast] at hbounds
    have hk : k ≤ Text.maxInt.toNat := by
      simp only [Text.maxInt]
      omega
    simp [Item.ofInt, Item.toInt?, Item.toNat?, Item.untag?, hk]
  | negSucc k =>
    have hk : k ≤ Text.maxInt.toNat := by
      simp only [Text.maxInt]
      omega
    simp [Item.ofInt, Item.toInt?, Item.untag?, hk]
    omega

theorem toValue?_ofValue (v : Value) : toValue? (ofValue v) = some (.of v) := by
  by_cases hcls : v.className = ""
  · simp [toValue?, ofValue, hcls, Item.isKey, Record.get, ValueRecord.of]
  · simp [toValue?, ofValue, hcls, Item.isKey, Record.get, ValueRecord.of]

theorem toField?_ofField (f : String × Value) : toField? (ofField f) = some (.of f) := by
  simp [toField?, ofField, Item.isKey, Record.get, toValue?_ofValue, FieldRecord.of]

/-- Records that are read back one by one are read back together. -/
theorem mapM_map {α β γ : Type} {f : α → β} {read : β → Option γ} {g : α → γ}
    (h : ∀ a, read (f a) = some (g a)) (as : List α) :
    (as.map f).mapM read = some (as.map g) := by
  induction as with
  | nil => rfl
  | cons a as ih => simp [List.mapM_cons, h a, ih]

theorem toObject?_ofObject (o : Ref × Memory) : toObject? (ofObject o) = some (.of o) := by
  simp [toObject?, ofObject, Item.isKey, Record.get, toValue?_ofValue, ObjectRecord.of,
    mapM_map toField?_ofField]

/-- The item of a heap holds the records of this heap. -/
theorem toHeap?_ofHeap {h : Heap} (hcounter : Text.fits h.counter = true) :
    toHeap? (ofHeap h) = some (.of h) := by
  simp [toHeap?, ofHeap, Item.isKey, Record.get, toInt?_ofInt hcounter, HeapRecord.of,
    mapM_map toObject?_ofObject]

/-! ### From records to heaps -/

/-- A check that accepts only under a condition fails where the condition does not hold. -/
theorem exists_error {ε α : Type} {x : Except ε α} {p : Prop} {a : α}
    (h : ∀ a', x = .ok a' ↔ p ∧ a' = a) (hp : ¬ p) : ∃ e, x = .error e := by
  cases x with
  | error e => exact ⟨e, rfl⟩
  | ok a' => exact absurd ((h a').1 rfl).1 hp

/-- A stored value is accepted exactly if it is valid. -/
theorem check_of {v v' : Value} : (ValueRecord.of v).check = .ok v' ↔ v.Valid ∧ v' = v :=
  Value.ofParts_parts

/-- Fields are accepted exactly if their values are valid, and are inserted in order. -/
theorem checkFields_of {owner : Value} {m m' : Memory} {fs : List (String × Value)} :
    checkFields owner m (fs.map .of) = .ok m' ↔
      (∀ f ∈ fs, f.2.Valid) ∧ m' = fs.foldl (fun m f => m.insert f.1 f.2) m := by
  induction fs generalizing m with
  | nil => simp [checkFields, eq_comm]
  | cons f fs ih =>
    rw [List.map_cons, checkFields]
    by_cases hvalid : f.2.Valid
    · have hcheck : (FieldRecord.of f).value.check = .ok f.2 := check_of.2 ⟨hvalid, rfl⟩
      simp only [hcheck, List.forall_mem_cons, List.foldl_cons, hvalid, true_and]
      exact ih
    · obtain ⟨cause, hcheck⟩ := exists_error (fun _ => check_of) hvalid
      have hcheck : (FieldRecord.of f).value.check = .error cause := hcheck
      simp [hcheck, hvalid]

/-- The fields of an object are accepted exactly if their values are valid, and then they are the
    fields of the object again. -/
theorem checkFields_entries {owner : Value} {m m' : Memory} :
    checkFields owner ∅ (m.entries.map .of) = .ok m' ↔
      (∀ f ∈ m.entries, f.2.Valid) ∧ m' = m := by
  have hentries : m.entries.foldl (fun m f => m.insert f.1 f.2) ∅ = m := SortedMap.ofList_entries m
  rw [checkFields_of, hentries]

/-- Objects are accepted exactly if their references and values are valid, and are stored in
    order. -/
theorem checkObjects_of {h h' : Heap} {os : List (Ref × Memory)} :
    checkObjects h (os.map .of) = .ok h' ↔
      (∀ o ∈ os, (Value.object o.1).Valid ∧ ∀ f ∈ o.2.entries, f.2.Valid) ∧
        h' = os.foldl (fun h o => h.insert o.1 o.2) h := by
  induction os generalizing h with
  | nil => simp [checkObjects, eq_comm]
  | cons o os ih =>
    rw [List.map_cons, checkObjects]
    by_cases hvalid : (Value.object o.1).Valid
    · have hcheck : (ObjectRecord.of o).ref.check = .ok (.object o.1) := check_of.2 ⟨hvalid, rfl⟩
      by_cases hfs : ∀ f ∈ o.2.entries, f.2.Valid
      · have hfields : checkFields (.object o.1) ∅ (ObjectRecord.of o).fields = .ok o.2 :=
          checkFields_entries.2 ⟨hfs, rfl⟩
        simp only [hcheck, hfields, List.forall_mem_cons, List.foldl_cons, ih]
        constructor
        · rintro ⟨hos, heq⟩
          exact ⟨⟨⟨hvalid, hfs⟩, hos⟩, heq⟩
        · rintro ⟨⟨-, hos⟩, heq⟩
          exact ⟨hos, heq⟩
      · obtain ⟨fault, hfields⟩ := exists_error (fun _ => checkFields_entries) hfs
        have hfields : checkFields (.object o.1) ∅ (ObjectRecord.of o).fields = .error fault :=
          hfields
        simp only [hcheck, hfields]
        constructor
        · intro hok
          simp at hok
        · rintro ⟨hos, -⟩
          exact absurd (hos o List.mem_cons_self).2 hfs
    · obtain ⟨cause, hcheck⟩ := exists_error (fun _ => check_of) hvalid
      have hcheck : (ObjectRecord.of o).ref.check = .error cause := hcheck
      simp [hcheck, hvalid]

/-- The records of a heap make up this heap if it is valid, and no heap if not. -/
theorem checkObjects_entries {h h' : Heap} (hcounter : Text.fits h.counter = true) :
    checkObjects ⟨h.counter, ∅⟩ (h.objects.entries.map .of) = .ok h' ↔ h.Valid ∧ h' = h := by
  have hobjects : h.objects.entries.foldl (fun m o => m.insert o.1 o.2) ∅ = h.objects :=
    SortedMap.ofList_entries h.objects
  rw [checkObjects_of, Heap.foldl_insert, hobjects]
  constructor
  · rintro ⟨hvalid, heq⟩
    refine ⟨⟨hcounter, fun o ho => ?_, fun o ho => (hvalid o ho).2⟩, heq⟩
    exact Value.valid_object.1 (hvalid o ho).1
  · rintro ⟨hvalid, heq⟩
    exact ⟨fun o ho => ⟨Value.valid_object.2 (hvalid.keys o ho), hvalid.fields o ho⟩, heq⟩

/-! ### Items of heaps are written and read -/

theorem plain_ofString {s : String} (h : s.utf8ByteSize < headLimit) : (Item.ofString s).Plain :=
  .text (by simpa using h)

theorem plain_ofInt {n : Int} (h : Text.fits n = true) : (Item.ofInt n).Plain := by
  have hbounds : Text.minInt ≤ n ∧ n ≤ Text.maxInt := by simpa [Text.fits] using h
  simp only [Text.minInt, Text.maxInt] at hbounds
  have hlimit : headLimit = 18446744073709551616 := rfl
  cases n with
  | ofNat k =>
    simp only [Int.ofNat_eq_natCast] at hbounds
    exact .unsigned (by omega)
  | negSucc k => exact .negative (by omega)

theorem plain_ofList {items : List Item} (hlength : items.length < headLimit)
    (h : ∀ i ∈ items, i.Plain) : (ofList items).Plain := by
  unfold ofList
  split
  · exact .null
  · exact .array hlength h

/-- A map is plain if its keys are small numbers and its values are plain. -/
theorem plain_map {pairs : List (Item × Item)} (hlength : pairs.length ≤ 3)
    (h : ∀ p ∈ pairs, (∃ k ≤ 3, p.1 = .unsigned k) ∧ p.2.Plain) : (Item.map pairs).Plain := by
  have hlimit : headLimit = 18446744073709551616 := rfl
  refine .map (by omega) (fun p hp => ?_) fun p hp => (h p hp).2
  obtain ⟨⟨k, hk, heq⟩, -⟩ := h p hp
  rw [heq]
  exact .unsigned (by omega)

theorem plain_ofValue {n : Nat} (hn : n < headLimit) {v : Value} (h : v.Sized n) :
    (ofValue v).Plain := by
  have hkind : (Item.unsigned v.kindCode).Plain :=
    .unsigned (Nat.lt_of_le_of_lt (kindCode_le v) (by decide))
  have hliteral : (Item.ofString v.literal).Plain := plain_ofString (Nat.lt_of_le_of_lt h.1 hn)
  have hclass : (Item.ofString v.className).Plain := plain_ofString (Nat.lt_of_le_of_lt h.2 hn)
  by_cases hcls : v.className = ""
  · simp only [ofValue, hcls, if_true]
    exact plain_map (by simp) (by simp [hkind, hliteral])
  · simp only [ofValue, hcls, if_false]
    exact plain_map (by simp) (by simp [hkind, hliteral, hclass])

theorem plain_ofField {n : Nat} (hn : n < headLimit) {f : String × Value}
    (hname : f.1.utf8ByteSize ≤ n) (hvalue : f.2.Sized n) : (ofField f).Plain := by
  have hplain : (Item.ofString f.1).Plain := plain_ofString (Nat.lt_of_le_of_lt hname hn)
  exact plain_map (by simp) (by simp [hplain, plain_ofValue hn hvalue])

theorem plain_ofEntries {α : Type} {f : α → Item} {as : List α} {k : Nat} (hk : k < headLimit)
    (hlength : as.length ≤ k) (h : ∀ a ∈ as, (f a).Plain) : (ofList (as.map f)).Plain := by
  refine plain_ofList ?_ ?_
  · rw [List.length_map]
    omega
  · exact List.forall_mem_map.2 h

/-- The item of a heap whose texts and lists have a head is written so that it can be read. -/
theorem plain_ofHeap {n k : Nat} (hn : n < headLimit) (hk : k < headLimit) {h : Heap}
    (hcounter : Text.fits h.counter = true) (hsized : h.Sized n k) : (ofHeap h).Plain := by
  have hobject : ∀ o ∈ h.objects.entries, (ofObject o).Plain := by
    intro o ho
    have hfields : (ofList (o.2.entries.map ofField)).Plain :=
      plain_ofEntries hk (hsized.fields o ho) fun f hf =>
        plain_ofField hn (hsized.names o ho f hf) (hsized.values o ho f hf)
    exact plain_map (by simp) (by simp [plain_ofValue hn (hsized.keys o ho), hfields])
  have hobjects : (ofList (h.objects.entries.map ofObject)).Plain :=
    plain_ofEntries hk hsized.objects hobject
  exact plain_map (by simp) (by simp [plain_ofInt hcounter, hobjects])

/-! ### Items of heaps are within the bounds of the reader -/

theorem allFit_eq_true {depth : Nat} {items : List Item} :
    Item.allFit depth items = true ↔ ∀ i ∈ items, i.fits depth = true := by
  induction items with
  | nil => simp [Item.allFit]
  | cons i items ih => simp [Item.allFit, ih]

/-- Levels of nesting that are not used do no harm. -/
theorem fits_ofValue {depth : Nat} (v : Value) : (ofValue v).fits (depth + 1) = true := by
  by_cases hcls : v.className = ""
  · simp [ofValue, hcls, Item.fits, Item.allPairsFit, Item.ofString, maxLength]
  · simp [ofValue, hcls, Item.fits, Item.allPairsFit, Item.ofString, maxLength]

theorem fits_ofField {depth : Nat} (f : String × Value) : (ofField f).fits (depth + 2) = true := by
  simp [ofField, Item.fits, Item.allPairsFit, Item.ofString, maxLength, fits_ofValue]

theorem fits_ofEntries {α : Type} {f : α → Item} {as : List α} {depth : Nat}
    (hlength : as.length ≤ maxLength) (h : ∀ a ∈ as, (f a).fits depth = true) :
    (ofList (as.map f)).fits (depth + 1) = true := by
  unfold ofList
  split
  · rfl
  · have hall : Item.allFit depth (as.map f) = true := allFit_eq_true.2 (List.forall_mem_map.2 h)
    simp [Item.fits, hlength, hall]

theorem fits_ofHeap {n : Nat} {h : Heap} (hsized : h.Sized n maxLength) :
    (ofHeap h).fits maxNesting = true := by
  have hobject : ∀ o ∈ h.objects.entries, (ofObject o).fits 30 = true := by
    intro o ho
    have hfields : (ofList (o.2.entries.map ofField)).fits 29 = true :=
      fits_ofEntries (hsized.fields o ho) fun f _ => fits_ofField f
    simp [ofObject, Item.fits, Item.allPairsFit, maxLength, fits_ofValue, hfields]
  have hobjects : (ofList (h.objects.entries.map ofObject)).fits 31 = true :=
    fits_ofEntries hsized.objects hobject
  have hcounter : (Item.ofInt h.counter).fits 31 = true := by
    cases h.counter <;> rfl
  simp [ofHeap, Item.fits, Item.allPairsFit, maxLength, maxNesting, hcounter, hobjects]

end Snapshot

end ObjectMachine
