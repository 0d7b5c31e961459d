namespace ObjectMachine

/-!
# Finite maps kept in key order

A finite map is the list of its entries in strictly ascending key order. The order is part of
the type, so two maps are equal exactly when they hold the same entries, and listing a map needs
no sorting.

* `SortedMap.insert` — binds a key, replacing its former value;
* `SortedMap.get?` — the value bound to a key;
* `SortedMap.ofList` — inserts entries one after the other, so that the last one wins.
-/

variable {κ ν : Type} [Ord κ]

/-- Inserts an entry into an ordered list of entries. -/
def insertEntry (k : κ) (v : ν) : List (κ × ν) → List (κ × ν)
  | [] => [(k, v)]
  | e :: rest =>
    match compare k e.1 with
    | .lt => (k, v) :: e :: rest
    | .eq => (k, v) :: rest
    | .gt => e :: insertEntry k v rest

/-- The value of the first entry with key `k`. -/
def findValue? (k : κ) : List (κ × ν) → Option ν
  | [] => none
  | e :: rest => if compare k e.1 = .eq then some e.2 else findValue? k rest

theorem mem_insertEntry {k : κ} {v : ν} {e : κ × ν} {es : List (κ × ν)}
    (h : e ∈ insertEntry k v es) : e = (k, v) ∨ e ∈ es := by
  induction es with
  | nil => simpa [insertEntry] using h
  | cons e' rest ih =>
    rw [insertEntry] at h
    split at h
    · simpa using h
    · rcases List.mem_cons.1 h with rfl | h
      · exact .inl rfl
      · exact .inr (List.mem_cons_of_mem _ h)
    · rcases List.mem_cons.1 h with rfl | h
      · exact .inr List.mem_cons_self
      · exact (ih h).imp_right (List.mem_cons_of_mem _)

/-- Insertion keeps the entries in strictly ascending key order. -/
theorem pairwise_insertEntry [Std.TransOrd κ] [Std.LawfulEqOrd κ] (k : κ) (v : ν)
    {es : List (κ × ν)} (h : es.Pairwise fun a b => compare a.1 b.1 = .lt) :
    (insertEntry k v es).Pairwise fun a b => compare a.1 b.1 = .lt := by
  induction es with
  | nil => simp [insertEntry]
  | cons e rest ih =>
    obtain ⟨hhead, htail⟩ := List.pairwise_cons.1 h
    rw [insertEntry]
    split
    · rename_i hlt
      refine List.pairwise_cons.2 ⟨fun b hb => ?_, h⟩
      rcases List.mem_cons.1 hb with rfl | hb
      · exact hlt
      · exact Std.TransCmp.lt_trans hlt (hhead b hb)
    · rename_i heq
      refine List.pairwise_cons.2 ⟨fun b hb => ?_, htail⟩
      rw [Std.LawfulEqCmp.eq_of_compare heq]
      exact hhead b hb
    · rename_i hgt
      refine List.pairwise_cons.2 ⟨fun b hb => ?_, ih htail⟩
      rcases mem_insertEntry hb with rfl | hb
      · exact Std.OrientedCmp.lt_of_gt hgt
      · exact hhead b hb

/-- A finite map from `κ` to `ν`, its entries in strictly ascending key order. -/
structure SortedMap (κ ν : Type) [Ord κ] where
  entries : List (κ × ν)
  ordered : entries.Pairwise fun a b => compare a.1 b.1 = .lt := by simp

namespace SortedMap

@[ext] theorem ext {m n : SortedMap κ ν} (h : m.entries = n.entries) : m = n := by
  cases m
  cases n
  cases h
  rfl

instance [DecidableEq κ] [DecidableEq ν] : DecidableEq (SortedMap κ ν) := fun m n =>
  if h : m.entries = n.entries then isTrue (SortedMap.ext h)
  else isFalse fun he => h (he ▸ rfl)

/-- The map without entries. -/
def empty : SortedMap κ ν := ⟨[], List.Pairwise.nil⟩

instance : EmptyCollection (SortedMap κ ν) := ⟨empty⟩

instance : Inhabited (SortedMap κ ν) := ⟨∅⟩

/-- The value bound to `k`. -/
def get? (m : SortedMap κ ν) (k : κ) : Option ν :=
  findValue? k m.entries

/-- Whether `k` is bound. -/
def contains (m : SortedMap κ ν) (k : κ) : Bool :=
  (m.get? k).isSome

/-- Binds `k` to `v`; a former value of `k` is replaced. -/
def insert [Std.TransOrd κ] [Std.LawfulEqOrd κ] (m : SortedMap κ ν) (k : κ) (v : ν) :
    SortedMap κ ν :=
  ⟨insertEntry k v m.entries, pairwise_insertEntry k v m.ordered⟩

/-- The map of a list of entries; of two entries with one key the later wins. -/
def ofList [Std.TransOrd κ] [Std.LawfulEqOrd κ] (es : List (κ × ν)) : SortedMap κ ν :=
  es.foldl (fun m e => m.insert e.1 e.2) ∅

/-- The keys in ascending order. -/
def keys (m : SortedMap κ ν) : List κ :=
  m.entries.map Prod.fst

/-- The number of entries. -/
def size (m : SortedMap κ ν) : Nat :=
  m.entries.length

end SortedMap

end ObjectMachine
