import ObjectMachine.Proofs.Integers
import ObjectMachine.Snapshot
import Mathlib.Data.List.Basic

namespace ObjectMachine

/-!
# Listing a heap

A heap lists its objects in the order of their references: shorter names first, names of one length
as texts, and objects of one name by class. References are named after a counter, and for numerals
without a sign this is the order of the numbers they denote, so objects are listed in the order in
which their references were handed out:

* `Text.Precedes` — the order of names, `Text.precedes_repr_iff` — on numerals;
* `Ref.order_eq_lt_iff` — the order of references in terms of it;
* `SortedMap.entries_eq_mergeSort` — the entries of a map are what sorting them gives, in whichever
  order they are met;
* `Heap.Enumerates`, `Heap.ListsBefore` — what is listed, and where;
* `Heap.refOf`, `Heap.Allocated` — references by number; `Heap.listsBefore_refOf_of_nonneg`,
  `Heap.listsBefore_refOf_of_neg`, `Heap.listsBefore_refOf_of_nonneg_of_neg` — their order;
* `Heap.Numbered.pairwise_keys` — objects are listed as they were created;
* `objects_are_listed_in_order` — the listing of every heap;
* `wrapped_numbers_are_listed_backwards` — numbers with a sign come in another order.
-/

/-! ### The order of numerals -/

namespace Text

/-- The order of names: shorter ones first, those of one length as texts. -/
def Precedes (s t : String) : Prop :=
  s.utf8ByteSize < t.utf8ByteSize ∨ s.utf8ByteSize = t.utf8ByteSize ∧ s < t

theorem append_lt_append_iff {p s t : String} : p ++ s < p ++ t ↔ s < t := by
  rw [String.lt_iff, String.lt_iff, String.toList_append, String.toList_append]
  induction p.toList with
  | nil => rfl
  | cons c cs ih => rw [List.cons_append, List.cons_append, List.cons_lt_cons_self, ih]

/-- What both names start with does not matter. -/
theorem precedes_append_iff {p s t : String} : Precedes (p ++ s) (p ++ t) ↔ Precedes s t := by
  simp only [Precedes, String.utf8ByteSize_append, append_lt_append_iff, Nat.add_lt_add_iff_left,
    Nat.add_left_cancel_iff]

/-- A last character only decides between texts of one length that are equal before it. -/
theorem concat_lt_concat_iff {cs ds : List Char} {c d : Char} (h : cs.length = ds.length) :
    cs ++ [c] < ds ++ [d] ↔ cs < ds ∨ cs = ds ∧ c < d := by
  induction cs generalizing ds with
  | nil =>
    obtain rfl := List.length_eq_zero_iff.1 h.symm
    simp [List.cons_lt_cons_iff]
  | cons a cs ih =>
    cases ds with
    | nil => simp at h
    | cons b ds =>
      have hlen : cs.length = ds.length := by simpa using h
      simp only [List.cons_append, List.cons_lt_cons_iff, ih hlen, List.cons.injEq]
      -- the first characters decide, or are equal on both sides
      grind

theorem digitChar_lt_iff {m n : Nat} (hm : m < 10) (hn : n < 10) :
    m.digitChar < n.digitChar ↔ m < n := by
  rw [Char.lt_def, UInt32.lt_iff_toNat_lt]
  show m.digitChar.toNat < n.digitChar.toNat ↔ m < n
  rw [Nat.toNat_digitChar_of_lt_ten hm, Nat.toNat_digitChar_of_lt_ten hn]
  omega

theorem toDigits_inj {m n : Nat} : Nat.toDigits 10 m = Nat.toDigits 10 n ↔ m = n := by
  refine ⟨fun h => repr_inj ?_, congrArg _⟩
  rw [← String.toList_inj, Nat.toList_repr, Nat.toList_repr, h]

/-- A number with more digits is greater. -/
theorem lt_of_length_toDigits_lt {m n : Nat}
    (h : (Nat.toDigits 10 m).length < (Nat.toDigits 10 n).length) : m < n := by
  have hpos : 0 < (Nat.toDigits 10 m).length := Nat.length_toDigits_pos
  have hm : m < 10 ^ (Nat.toDigits 10 m).length :=
    (Nat.length_toDigits_le_iff (by decide) hpos).1 (Nat.le_refl _)
  have hn : ¬ n < 10 ^ (Nat.toDigits 10 m).length := fun hlt =>
    Nat.not_le.2 h ((Nat.length_toDigits_le_iff (by decide) hpos).2 hlt)
  omega

/-- Numbers with equally many digits are compared by their digits from left to right. -/
theorem toDigits_lt_toDigits_iff {m n : Nat}
    (h : (Nat.toDigits 10 m).length = (Nat.toDigits 10 n).length) :
    Nat.toDigits 10 m < Nat.toDigits 10 n ↔ m < n := by
  -- digits are split off at the end, where the last one counts least
  induction n using Nat.strongRecOn generalizing m with
  | ind n ih =>
    have hone : ∀ k, (Nat.toDigits 10 k).length ≤ 1 ↔ k < 10 := fun k =>
      Nat.length_toDigits_le_iff (by decide) (by decide)
    have hiff : m < 10 ↔ n < 10 := by rw [← hone, ← hone, h]
    by_cases hn : n < 10
    · have hm : m < 10 := hiff.2 hn
      rw [Nat.toDigits_of_lt_base hm, Nat.toDigits_of_lt_base hn, List.cons_lt_cons_iff,
        digitChar_lt_iff hm hn]
      simp
    · have hm : 10 ≤ m := Nat.not_lt.1 fun hm => hn (hiff.1 hm)
      rw [Nat.toDigits_of_base_le (by decide) hm,
        Nat.toDigits_of_base_le (by decide) (Nat.not_lt.1 hn)] at h ⊢
      have hlen : (Nat.toDigits 10 (m / 10)).length = (Nat.toDigits 10 (n / 10)).length := by
        simpa using h
      rw [concat_lt_concat_iff hlen, ih (n / 10) (by omega) hlen, toDigits_inj,
        digitChar_lt_iff (by omega) (by omega)]
      omega

/-- A text has one byte for each character, if it has only characters of one byte. -/
theorem utf8ByteSize_eq_length {s : String} (h : ∀ c ∈ s.toList, c.val ≤ 127) :
    s.utf8ByteSize = s.length := by
  have hlist : ∀ cs : List Char, (∀ c ∈ cs, c.val ≤ 127) →
      (String.ofList cs).utf8ByteSize = cs.length := by
    intro cs
    induction cs with
    | nil => exact fun _ => rfl
    | cons c cs ih =>
      intro hcs
      obtain ⟨hc, hcs⟩ := List.forall_mem_cons.1 hcs
      have hsize : c.utf8Size = 1 := Char.utf8Size_eq_one_iff.2 hc
      rw [String.ofList_cons, String.utf8ByteSize_append, String.utf8ByteSize_singleton, hsize,
        ih hcs, List.length_cons, Nat.add_comm]
  rw [← String.ofList_toList (s := s), hlist s.toList h, String.length_ofList]

/-- Digits take one byte each. -/
theorem utf8ByteSize_repr (n : Nat) : (Nat.repr n).utf8ByteSize = (Nat.repr n).length := by
  refine utf8ByteSize_eq_length fun c hc => ?_
  have hrange := isDigit_iff.1 (isDigit_of_mem_repr hc)
  show c.toNat ≤ 127
  omega

theorem utf8ByteSize_showInt (i : Int) : (showInt i).utf8ByteSize = (showInt i).length := by
  unfold showInt
  split
  · rw [String.utf8ByteSize_append, String.length_append, utf8ByteSize_repr]
    rfl
  · exact utf8ByteSize_repr _

theorem length_repr (n : Nat) : (Nat.repr n).length = (Nat.toDigits 10 n).length := by
  rw [← String.length_toList, Nat.toList_repr]

/-- The order of names is the order of numbers, for numerals of any length. -/
theorem precedes_repr_iff {m n : Nat} : Precedes (Nat.repr m) (Nat.repr n) ↔ m < n := by
  rw [Precedes, utf8ByteSize_repr, utf8ByteSize_repr, length_repr, length_repr, String.lt_iff,
    Nat.toList_repr, Nat.toList_repr]
  constructor
  · rintro (hlt | ⟨heq, hlt⟩)
    · exact lt_of_length_toDigits_lt hlt
    · exact (toDigits_lt_toDigits_iff heq).1 hlt
  · -- the lesser number has fewer digits or as many, and not more
    intro hlt
    rcases Nat.lt_trichotomy (Nat.toDigits 10 m).length (Nat.toDigits 10 n).length with h | h | h
    · exact .inl h
    · exact .inr ⟨h, (toDigits_lt_toDigits_iff h).2 hlt⟩
    · exact absurd (lt_of_length_toDigits_lt h) (Nat.lt_asymm hlt)

/-- A digit is greater than the minus sign. -/
theorem not_repr_lt_minus (n : Nat) (s : String) : ¬ Nat.repr n < "-" ++ s := by
  obtain ⟨c, cs, hcs⟩ := List.exists_cons_of_ne_nil (Nat.toDigits_ne_nil (n := n) (b := 10))
  have hdigit : 48 ≤ c.toNat ∧ c.toNat ≤ 57 :=
    isDigit_iff.1 (isDigit_of_mem_repr (n := n) (by simp [hcs]))
  have hminus : ('-').toNat = 45 := rfl
  rw [String.lt_iff, String.toList_append, Nat.toList_repr, hcs]
  show ¬ c :: cs < '-' :: s.toList
  rw [List.cons_lt_cons_iff, Char.lt_def, UInt32.lt_iff_toNat_lt]
  rintro (hlt | ⟨rfl, -⟩)
  · have hlt : c.toNat < ('-').toNat := hlt
    omega
  · omega

/-- A numeral comes before one with a sign if it is shorter, that is if it has at most as many
    digits. -/
theorem precedes_repr_minus_iff {m n : Nat} :
    Precedes (Nat.repr m) ("-" ++ Nat.repr n) ↔ (Nat.repr m).length ≤ (Nat.repr n).length := by
  have hsize : ("-" ++ Nat.repr n).utf8ByteSize = (Nat.repr n).length + 1 := by
    rw [String.utf8ByteSize_append, utf8ByteSize_repr, Nat.add_comm]
    rfl
  rw [Precedes, hsize, utf8ByteSize_repr]
  constructor
  · rintro (hlt | ⟨-, hlt⟩)
    · omega
    · exact absurd hlt (not_repr_lt_minus m _)
  · intro hle
    exact .inl (by omega)

theorem showInt_of_nonneg {i : Int} (h : 0 ≤ i) : showInt i = Nat.repr i.natAbs :=
  if_neg (Int.not_lt.2 h)

theorem showInt_of_neg {i : Int} (h : i < 0) : showInt i = "-" ++ Nat.repr i.natAbs :=
  if_pos h

end Text

/-! ### The order of references -/

/-- References are compared by name, and by class if they have one name. -/
theorem Ref.order_eq_lt_iff {r r' : Ref} :
    Ref.order r r' = .lt ↔ Text.Precedes r.name r'.name ∨ r.name = r'.name ∧ r.cls < r'.cls := by
  have horder : Ref.order r r' = (compare r.name.utf8ByteSize r'.name.utf8ByteSize).then
      ((compare r.name r'.name).then (compare r.cls r'.cls)) := rfl
  have htext : ∀ s t : String, compare s t = .lt ↔ s < t := fun s t => compareOfLessAndEq_eq_lt
  rw [horder, Ordering.then_eq_lt, Ordering.then_eq_lt, htext, htext, Nat.compare_eq_lt,
    Nat.compare_eq_eq, Std.compare_eq_iff_eq, Text.Precedes]
  -- classes are only looked at if the names are equal, and then so are their sizes
  grind

theorem Ref.order_irrefl (r : Ref) : Ref.order r r ≠ .lt := by
  show compare r r ≠ .lt
  simp

theorem Ref.order_trans {r s t : Ref} (h : Ref.order r s = .lt) (h' : Ref.order s t = .lt) :
    Ref.order r t = .lt := by
  show compare r t = .lt
  exact Std.TransCmp.lt_trans (show compare r s = .lt from h) h'

/-- Of two different references one comes before the other one. -/
theorem Ref.order_total (r r' : Ref) : Ref.order r r' = .lt ∨ r = r' ∨ Ref.order r' r = .lt := by
  show compare r r' = .lt ∨ r = r' ∨ compare r' r = .lt
  cases h : compare r r' with
  | lt => exact .inl rfl
  | eq => exact .inr (.inl (Std.LawfulEqOrd.eq_of_compare h))
  | gt => exact .inr (.inr (Std.OrientedCmp.lt_of_gt h))

/-! ### The entries of a map -/

namespace SortedMap

variable {κ ν : Type} [Ord κ] [Std.TransOrd κ] [Std.LawfulEqOrd κ]

/-- The keys of a map are in order. -/
theorem idxOf_lt_idxOf_iff [BEq κ] [LawfulBEq κ] {m : SortedMap κ ν} {k k' : κ} (hk : k ∈ m.keys)
    (hk' : k' ∈ m.keys) : m.keys.idxOf k < m.keys.idxOf k' ↔ compare k k' = .lt := by
  have hordered : m.keys.Pairwise fun k k' => compare k k' = .lt := List.pairwise_map.2 m.ordered
  have hbefore : ∀ {k k' : κ}, k ∈ m.keys → k' ∈ m.keys → m.keys.idxOf k < m.keys.idxOf k' →
      compare k k' = .lt := by
    intro k k' hk hk' hlt
    have hget := List.pairwise_iff_getElem.1 hordered _ _ (List.idxOf_lt_length_of_mem hk)
      (List.idxOf_lt_length_of_mem hk') hlt
    rwa [List.getElem_idxOf, List.getElem_idxOf] at hget
  -- the other way round, each other position would contradict the order of the keys
  refine ⟨hbefore hk hk', fun hlt => ?_⟩
  rcases Nat.lt_trichotomy (m.keys.idxOf k) (m.keys.idxOf k') with h | h | h
  · exact h
  · obtain rfl := (List.idxOf_inj hk).1 h
    simp at hlt
  · rw [Std.OrientedOrd.eq_swap, hbefore hk' hk h] at hlt
    simp at hlt

omit [Std.TransOrd κ] in
theorem nodup_entries (m : SortedMap κ ν) : m.entries.Nodup :=
  List.Pairwise.of_map Prod.fst (fun _ _ hne heq => hne (congrArg Prod.fst heq)) m.nodup_keys

/-- In whichever order the entries of a map are met, sorting them by their keys gives the entries
    in order. -/
theorem entries_eq_mergeSort {m : SortedMap κ ν} {es : List (κ × ν)} (h : es.Perm m.entries) :
    m.entries = es.mergeSort fun a b => (compare a.1 b.1).isLE := by
  have hordered : m.entries.Pairwise fun a b => (compare a.1 b.1).isLE = true :=
    m.ordered.imp fun hlt => by rw [hlt]; rfl
  have hsorted : (es.mergeSort fun a b => (compare a.1 b.1).isLE).Pairwise
      fun a b => (compare a.1 b.1).isLE = true := by
    refine List.pairwise_mergeSort (fun a b c hab hbc => ?_) (fun a b => ?_) es
    · exact Std.TransOrd.isLE_trans hab hbc
    · rw [Bool.or_eq_true, ← Std.OrientedCmp.isGE_iff_isLE (a := a.1)]
      cases compare a.1 b.1 <;> simp
  have hperm : (es.mergeSort fun a b => (compare a.1 b.1).isLE).Perm m.entries :=
    (List.mergeSort_perm es _).trans h
  -- entries that are not told apart have one key, and so one value
  refine hperm.symm.eq_of_pairwise (fun a b ha hb hab hba => ?_) hordered hsorted
  have hkey : a.1 = b.1 := Std.LawfulEqOrd.eq_of_compare (Std.OrientedCmp.isLE_antisymm hab hba)
  have hget : m.get? a.1 = some a.2 := get?_eq_some_iff.2 ha
  have hget' : m.get? b.1 = some b.2 := get?_eq_some_iff.2 (hperm.mem_iff.1 hb)
  rw [hkey, hget'] at hget
  exact Prod.ext hkey (Option.some.inj hget).symm

end SortedMap

/-! ### What is listed -/

namespace Heap

/-- The list has the objects of the heap, each of them once. -/
structure Enumerates (h : Heap) (os : List (Ref × Memory)) : Prop where
  nodup : os.Nodup
  mem : ∀ r fields, (r, fields) ∈ os ↔ h.lookup (.object r) = some fields

/-- The heap lists the object `r` before the object `r'`. -/
def ListsBefore (h : Heap) (r r' : Ref) : Prop :=
  h.objects.keys.idxOf r < h.objects.keys.idxOf r'

instance (h : Heap) (r r' : Ref) : Decidable (h.ListsBefore r r') :=
  inferInstanceAs (Decidable (_ < _))

/-- Stores objects one after the other. -/
def insertAll (h : Heap) (os : List (Ref × Memory)) : Heap :=
  os.foldl (fun h o => h.insert o.1 o.2) h

variable {h : Heap}

theorem enumerates_entries (h : Heap) : h.Enumerates h.objects.entries :=
  ⟨h.objects.nodup_entries, fun _ _ => SortedMap.get?_eq_some_iff.symm⟩

/-- What has every object once is the listing up to order. -/
theorem enumerates_iff {os : List (Ref × Memory)} :
    h.Enumerates os ↔ os.Perm h.objects.entries := by
  constructor
  · intro hos
    refine (List.perm_ext_iff_of_nodup hos.nodup h.objects.nodup_entries).2 fun o => ?_
    rw [hos.mem, h.enumerates_entries.mem]
  · intro hperm
    refine ⟨hperm.symm.nodup h.objects.nodup_entries, fun r fields => ?_⟩
    rw [hperm.mem_iff, h.enumerates_entries.mem]

theorem pairwise_keys (h : Heap) : h.objects.keys.Pairwise fun r r' => Ref.order r r' = .lt :=
  List.pairwise_map.2 h.objects.ordered

/-- However the objects of a heap are enumerated, sorting them gives the listing. -/
theorem Enumerates.entries_eq {os : List (Ref × Memory)} (hos : h.Enumerates os) :
    h.objects.entries = os.mergeSort fun a b => (Ref.order a.1 b.1).isLE :=
  SortedMap.entries_eq_mergeSort (enumerates_iff.1 hos)

/-- The order in which objects are stored does not matter. -/
theorem insertAll_perm {os os' : List (Ref × Memory)} (hperm : os.Perm os')
    (hnodup : (os.map Prod.fst).Nodup) (h : Heap) : h.insertAll os = h.insertAll os' := by
  rw [insertAll, insertAll, foldl_insert, foldl_insert,
    SortedMap.foldl_insert_perm hperm hnodup]

theorem listsBefore_iff {r r' : Ref} (hr : r ∈ h.objects.keys) (hr' : r' ∈ h.objects.keys) :
    h.ListsBefore r r' ↔ Text.Precedes r.name r'.name ∨ r.name = r'.name ∧ r.cls < r'.cls := by
  rw [← Ref.order_eq_lt_iff]
  exact SortedMap.idxOf_lt_idxOf_iff hr hr'

/-! ### References by number -/

/-- The reference of class `cls` that is named after the number `i`. -/
def refOf (i : Int) (cls : String) : Ref :=
  ⟨"obj" ++ Text.showInt i, cls⟩

/-- Every object of the heap has a reference that was handed out, by this heap or by another. -/
def Allocated (h : Heap) : Prop :=
  ∀ r ∈ h.objects.keys, ∃ (source : Heap) (cls : String), r = (source.alloc cls).1

/-- References are named after 64-bit numbers. -/
theorem Allocated.exists_refOf (ha : h.Allocated) {r : Ref} (hr : r ∈ h.objects.keys) :
    ∃ i, Text.fits i = true ∧ r = refOf i r.cls := by
  obtain ⟨source, cls, rfl⟩ := ha r hr
  exact ⟨_, Text.fits_wrap _, rfl⟩

section Numbers

variable {i j : Int} {cls cls' : String} (hi : refOf i cls ∈ h.objects.keys)
  (hj : refOf j cls' ∈ h.objects.keys)

include hi hj

theorem listsBefore_refOf_iff : h.ListsBefore (refOf i cls) (refOf j cls') ↔
    Text.Precedes (Text.showInt i) (Text.showInt j) ∨ i = j ∧ cls < cls' := by
  have hname : (refOf i cls).name = (refOf j cls').name ↔ i = j := by
    refine ⟨fun heq => Text.showInt_inj ((String.append_right_inj "obj").1 heq), ?_⟩
    rintro rfl
    rfl
  rw [listsBefore_iff hi hj, hname]
  exact or_congr_left Text.precedes_append_iff

/-- Numbers without a sign are listed in their order. -/
theorem listsBefore_refOf_of_nonneg (hi₀ : 0 ≤ i) (hj₀ : 0 ≤ j) :
    h.ListsBefore (refOf i cls) (refOf j cls') ↔ i < j ∨ i = j ∧ cls < cls' := by
  have hlt : i.natAbs < j.natAbs ↔ i < j := by omega
  rw [listsBefore_refOf_iff hi hj, Text.showInt_of_nonneg hi₀, Text.showInt_of_nonneg hj₀,
    Text.precedes_repr_iff, hlt]

/-- Numbers with a sign are listed backwards. -/
theorem listsBefore_refOf_of_neg (hi₀ : i < 0) (hj₀ : j < 0) :
    h.ListsBefore (refOf i cls) (refOf j cls') ↔ j < i ∨ i = j ∧ cls < cls' := by
  have hlt : i.natAbs < j.natAbs ↔ j < i := by omega
  rw [listsBefore_refOf_iff hi hj, Text.showInt_of_neg hi₀, Text.showInt_of_neg hj₀,
    Text.precedes_append_iff, Text.precedes_repr_iff, hlt]

/-- A number without a sign is listed before one with a sign if it has at most as many digits. -/
theorem listsBefore_refOf_of_nonneg_of_neg (hi₀ : 0 ≤ i) (hj₀ : j < 0) :
    h.ListsBefore (refOf i cls) (refOf j cls') ↔
      (Nat.repr i.natAbs).length ≤ (Nat.repr j.natAbs).length := by
  have hne : ¬ (i = j ∧ cls < cls') := by omega
  rw [listsBefore_refOf_iff hi hj, or_iff_left hne, Text.showInt_of_nonneg hi₀,
    Text.showInt_of_neg hj₀, Text.precedes_repr_minus_iff]

end Numbers

/-- While the counter has not wrapped around, the objects are listed in the order in which their
    references were handed out. -/
theorem Numbered.pairwise_keys {n : Nat} (hn : h.Numbered n) (hfits : (n : Int) ≤ Text.maxInt) :
    h.objects.keys.Pairwise fun r r' =>
      ∃ j k, j < k ∧ k ≤ n ∧ r.name = refName j ∧ r'.name = refName k := by
  have hle : n ≤ Text.modulus := by
    have hmax : Text.maxInt = 9223372036854775807 := rfl
    have hmodulus : Text.modulus = 18446744073709551616 := rfl
    omega
  have hname : ∀ k, k ≤ n → refName k = "obj" ++ Nat.repr k := by
    intro k hk
    rw [refName, Text.wrap_of_le (by omega), Text.showInt_of_nonneg (by omega), Int.natAbs_natCast]
  refine h.pairwise_keys.imp_of_mem fun {r r'} hr hr' hlt => ?_
  rw [mem_keys_iff] at hr hr'
  obtain ⟨j, -, hj, hrj⟩ := hn.keys r hr
  obtain ⟨k, -, hk, hrk⟩ := hn.keys r' hr'
  refine ⟨j, k, ?_, hk, hrj, hrk⟩
  rcases Ref.order_eq_lt_iff.1 hlt with hprecedes | ⟨heq, hcls⟩
  · rw [hrj, hrk, hname j hj, hname k hk, Text.precedes_append_iff] at hprecedes
    exact Text.precedes_repr_iff.1 hprecedes
  · -- objects of one name are one object, and its class is not less than itself
    rw [hn.distinct hle r r' hr hr' heq] at hcls
    exact absurd hcls (String.lt_irrefl _)

end Heap

/-- Every heap lists its objects in the order of their references:

    * this order is a strict total order;
    * the listing has every object once and is strictly ascending, and it is what sorting gives,
      in whichever order the objects are met;
    * it is the same one in whichever order objects are stored under different references;
    * where all references were handed out, they are named after 64-bit numbers. Numbers without a
      sign are listed in their order, whatever the number of their digits, those with a sign
      backwards, and one without a sign comes before one with a sign if it has at most as many
      digits; objects of one number are listed by class;
    * so the objects of a machine that was reached from an empty heap after `n` references are
      listed in the order in which these were handed out, while `n` fits in 64 bits. -/
theorem objects_are_listed_in_order :
    (∀ r s t : Ref, Ref.order r r ≠ .lt ∧
      (Ref.order r s = .lt → Ref.order s t = .lt → Ref.order r t = .lt) ∧
      (Ref.order r s = .lt ∨ r = s ∨ Ref.order s r = .lt)) ∧
    (∀ h : Heap, h.Enumerates h.objects.entries ∧
      h.objects.keys.Pairwise (fun r s => Ref.order r s = .lt) ∧
      ∀ os, h.Enumerates os →
        h.objects.entries = os.mergeSort fun a b => (Ref.order a.1 b.1).isLE) ∧
    (∀ (h : Heap) (os os' : List (Ref × Memory)), (os.map Prod.fst).Nodup → os.Perm os' →
      (h.insertAll os).objects.entries = (h.insertAll os').objects.entries) ∧
    (∀ h : Heap, h.Allocated →
      (∀ r ∈ h.objects.keys, ∃ i, Text.fits i = true ∧ r = Heap.refOf i r.cls) ∧
      ∀ i j cls cls', Heap.refOf i cls ∈ h.objects.keys → Heap.refOf j cls' ∈ h.objects.keys →
        (0 ≤ i → 0 ≤ j → (h.ListsBefore (Heap.refOf i cls) (Heap.refOf j cls') ↔
          i < j ∨ i = j ∧ cls < cls')) ∧
        (i < 0 → j < 0 → (h.ListsBefore (Heap.refOf i cls) (Heap.refOf j cls') ↔
          j < i ∨ i = j ∧ cls < cls')) ∧
        (0 ≤ i → j < 0 → (h.ListsBefore (Heap.refOf i cls) (Heap.refOf j cls') ↔
          (Nat.repr i.natAbs).length ≤ (Nat.repr j.natAbs).length))) ∧
    ∀ (classes : ClassTable) (maxSteps n : Nat) (m : Machine),
      Machine.Reached classes maxSteps n m → (n : Int) ≤ Text.maxInt →
        m.heap.objects.keys.Pairwise fun r s =>
          ∃ j k, j < k ∧ k ≤ n ∧ r.name = Heap.refName j ∧ s.name = Heap.refName k := by
  refine ⟨fun r s t => ⟨r.order_irrefl, Ref.order_trans, r.order_total s⟩, fun h => ?_,
    fun h os os' hnodup hperm => ?_, fun h ha => ?_, fun classes maxSteps n m hm hfits => ?_⟩
  · exact ⟨h.enumerates_entries, h.pairwise_keys, fun os hos => hos.entries_eq⟩
  · rw [Heap.insertAll_perm hperm hnodup]
  · refine ⟨fun r hr => ha.exists_refOf hr, fun i j cls cls' hi hj => ?_⟩
    exact ⟨Heap.listsBefore_refOf_of_nonneg hi hj, Heap.listsBefore_refOf_of_neg hi hj,
      Heap.listsBefore_refOf_of_nonneg_of_neg hi hj⟩
  · exact hm.numbered.pairwise_keys hfits

/-- Four objects that are stored in one order and in the other, two of them with numbers that have
    a sign; and a machine on which two programs were started. -/
theorem objects_are_listed_in_order_of_four :
    let os : List (Ref × Memory) := [(Heap.refOf 10 "C", ∅), (Heap.refOf (-3) "C", ∅),
      (Heap.refOf 2 "C", ∅), (Heap.refOf (-12) "C", ∅)]
    let h : Heap := (∅ : Heap).insertAll os
    let kb : Option (KnowledgeBase Unit) := none
    let m : Machine := ((Machine.new ∅ ∅ 0).operate kb (.start .skip)).operate kb (.start .skip)
    (os.map Prod.fst).Nodup ∧ os.Perm os.reverse ∧ h.Enumerates os ∧ h.Allocated ∧
      h.objects.entries = ((∅ : Heap).insertAll os.reverse).objects.entries ∧
      h.objects.entries = os.mergeSort (fun a b => (Ref.order a.1 b.1).isLE) ∧
      h.ListsBefore (Heap.refOf 2 "C") (Heap.refOf 10 "C") ∧
      h.ListsBefore (Heap.refOf (-3) "C") (Heap.refOf (-12) "C") ∧
      h.ListsBefore (Heap.refOf 2 "C") (Heap.refOf (-3) "C") ∧
      Machine.Reached ∅ 0 2 m ∧ m.heap.size = 2 ∧
      m.heap.objects.keys.Pairwise fun r s =>
        ∃ j k, j < k ∧ k ≤ 2 ∧ r.name = Heap.refName j ∧ s.name = Heap.refName k := by
  intro os h kb m
  obtain ⟨-, hlisting, hstored, hallocated, hreached⟩ := objects_are_listed_in_order
  have hnodup : (os.map Prod.fst).Nodup := by decide
  have hperm : os.Perm os.reverse := (List.reverse_perm os).symm
  have hes : h.Enumerates os := Heap.enumerates_iff.2 (by decide)
  have hkeys : h.objects.keys = [Heap.refOf 2 "C", Heap.refOf (-3) "C", Heap.refOf 10 "C",
      Heap.refOf (-12) "C"] := by decide
  have ha : h.Allocated := by
    intro r hr
    rw [hkeys] at hr
    obtain rfl | rfl | rfl | rfl : r = Heap.refOf 2 "C" ∨ r = Heap.refOf (-3) "C" ∨
        r = Heap.refOf 10 "C" ∨ r = Heap.refOf (-12) "C" := by simpa using hr
    · exact ⟨⟨1, ∅⟩, "C", by decide⟩
    · exact ⟨⟨-4, ∅⟩, "C", by decide⟩
    · exact ⟨⟨9, ∅⟩, "C", by decide⟩
    · exact ⟨⟨-13, ∅⟩, "C", by decide⟩
  have hbefore := (hallocated h ha).2
  have hm : Machine.Reached ∅ 0 2 m :=
    (Machine.Reached.new.operate kb (.start .skip)).operate kb (.start .skip)
  refine ⟨hnodup, hperm, hes, ha, hstored ∅ os os.reverse hnodup hperm, (hlisting h).2.2 os hes,
    ?_, ?_, ?_, hm, by decide, hreached ∅ 0 2 m hm (by decide)⟩
  · exact ((hbefore 2 10 "C" "C" (by simp [hkeys]) (by simp [hkeys])).1 (by decide)
      (by decide)).2 (.inl (by decide))
  · exact ((hbefore (-3) (-12) "C" "C" (by simp [hkeys]) (by simp [hkeys])).2.1 (by decide)
      (by decide)).2 (.inl (by decide))
  · exact ((hbefore 2 (-3) "C" "C" (by simp [hkeys]) (by simp [hkeys])).2.2 (by decide)
      (by decide)).2 (by decide)

/-- A heap without objects is restored from a snapshot with the greatest counter, and two programs
    are started on it. The counter wraps around, so the first entry object has the lesser number and
    is listed after the second one. -/
theorem wrapped_numbers_are_listed_backwards :
    let restored : Heap := ⟨9223372036854775807, ∅⟩
    let once : Heap := (restored.create entryClass ∅).2
    let twice : Heap := (once.create entryClass ∅).2
    let first : Ref := Heap.refOf (-9223372036854775808) entryClass
    let second : Ref := Heap.refOf (-9223372036854775807) entryClass
    Snapshot.decode
        [0xa2, 0x01, 0x1b, 0x7f, 0xff, 0xff, 0xff, 0xff, 0xff, 0xff, 0xff, 0x02, 0xf6] =
          .ok restored ∧
      (restored.alloc entryClass).1 = first ∧ (once.alloc entryClass).1 = second ∧
      twice.Allocated ∧ twice.objects.keys = [second, first] ∧
      ¬ (twice.ListsBefore first second ↔ (-9223372036854775808 : Int) < -9223372036854775807) := by
  intro restored once twice first second
  have hfirst : (restored.alloc entryClass).1 = first := by decide
  have hsecond : (once.alloc entryClass).1 = second := by decide
  have hkeys : twice.objects.keys = [second, first] := by decide
  refine ⟨by decide +kernel, hfirst, hsecond, fun r hr => ?_, hkeys, by decide⟩
  obtain rfl | rfl : r = second ∨ r = first := by simpa [hkeys] using hr
  · exact ⟨once, entryClass, hsecond.symm⟩
  · exact ⟨restored, entryClass, hfirst.symm⟩

end ObjectMachine
