import ObjectMachine.Proofs.Aftermath
import ObjectMachine.Proofs.Snapshots
import ObjectMachine.Proofs.Values

namespace ObjectMachine

/-!
# Names of objects

Objects are named after a counter of references. The counter is a 64-bit integer that wraps around,
so names come back after `2 ^ 64` references, and not before:

* `Text.showInt_inj` — different integers have different numerals;
* `Heap.refName_inj` — the first `2 ^ 64` names are different;
* `Heap.Counts` — what is kept while references are counted, by effects, steps and operations;
* `Heap.Numbered` — the invariant: the counter and the keys after `n` references were handed out;
* `Machine.effect?` — the effect of a step; `Machine.handedOut` — how many references it takes;
* `Machine.Reached` — what can be reached from an empty heap, with the number of references;
* `names_are_not_reused` — names in terms of this number;
* `names_wrap_around` — the bounds are needed.
-/

/-! ### Numerals -/

namespace Text

theorem repr_inj {m n : Nat} (h : Nat.repr m = Nat.repr n) : m = n := by
  have hdigits : Nat.toDigits 10 m = Nat.toDigits 10 n := by
    rw [← Nat.toList_repr, ← Nat.toList_repr, h]
  rw [← @Nat.ofDigitChars_ten_toDigits m, hdigits, Nat.ofDigitChars_ten_toDigits]

/-- A numeral without a sign does not start with one. -/
theorem repr_ne_minus (n : Nat) (s : String) : Nat.repr n ≠ "-" ++ s := by
  intro h
  have hmem : '-' ∈ Nat.toDigits 10 n := by
    rw [← Nat.toList_repr, h]
    simp
  exact absurd (Nat.isDigit_of_mem_toDigits (by decide) (by decide) hmem) (by decide)

/-- Different integers have different numerals. -/
theorem showInt_inj {m n : Int} (h : showInt m = showInt n) : m = n := by
  unfold showInt at h
  split at h
  · split at h
    · have habs := repr_inj ((String.append_right_inj "-").1 h)
      omega
    · exact absurd h.symm (repr_ne_minus _ _)
  · split at h
    · exact absurd h (repr_ne_minus _ _)
    · have habs := repr_inj h
      omega

theorem wrap_add_one (n : Int) : wrap (wrap n + 1) = wrap (n + 1) :=
  Int.bmod_add_bmod

/-- Counting on from any number, the first `2 ^ 64` numbers are told apart by their
    representatives. -/
theorem wrap_add_inj {n : Int} {j k : Nat} (hj : 1 ≤ j ∧ j ≤ modulus) (hk : 1 ≤ k ∧ k ≤ modulus)
    (h : wrap (n + j) = wrap (n + k)) : j = k := by
  have hmod : (n + j) % (modulus : Int) = (n + k) % (modulus : Int) := by
    have hj' : wrap (n + j) % (modulus : Int) = (n + j) % (modulus : Int) := Int.bmod_emod
    have hk' : wrap (n + k) % (modulus : Int) = (n + k) % (modulus : Int) := Int.bmod_emod
    rw [← hj', ← hk', h]
  have hmodulus : modulus = 18446744073709551616 := rfl
  rw [hmodulus] at hmod hj hk
  omega

/-- The numbers that fit are their own representatives. -/
theorem wrap_of_le {n : Nat} (h : (n : Int) ≤ maxInt) : wrap n = n := by
  have hmodulus : (modulus : Int) = 18446744073709551616 := rfl
  have hmax : maxInt = 9223372036854775807 := rfl
  unfold wrap
  rw [Int.bmod_def, hmodulus]
  split <;> omega

end Text

/-! ### The keys of a heap -/

namespace Heap

variable {n : Nat} {h : Heap} {P : Nat → Heap → Prop}

/-- What holds of a heap after a number of references is kept by each object that is created, which
    takes one reference more, and by each field that is set. -/
structure Counts (P : Nat → Heap → Prop) : Prop where
  create {n : Nat} {h : Heap} (hn : P n h) (cls : String) (fields : Memory) :
    P (n + 1) (h.create cls fields).2
  setField {n : Nat} {h : Heap} (hn : P n h) (r : Ref) (name : String) (v : Value) :
    P n (h.setField r name v)

/-- A list takes a reference for each of its nodes. -/
theorem Counts.addList (hP : Counts P) (hn : P n h) (front : Value) (vs : List Value) :
    P (n + vs.length) (h.addList front vs).2 := by
  induction vs generalizing n h front with
  | nil => exact hn
  | cons v vs ih =>
    have hothers : P (n + 1 + vs.length) (h.addList front (v :: vs)).2 :=
      ih (hP.create hn listClass _) _
    rw [List.length_cons, Nat.add_comm vs.length, ← Nat.add_assoc]
    exact hothers

/-- The name of the object with the `k`-th reference. -/
def refName (k : Nat) : String :=
  "obj" ++ Text.showInt (Text.wrap k)

theorem refName_inj {j k : Nat} (hj : 1 ≤ j ∧ j ≤ Text.modulus) (hk : 1 ≤ k ∧ k ≤ Text.modulus)
    (h : refName j = refName k) : j = k := by
  have hwrap : Text.wrap j = Text.wrap k :=
    Text.showInt_inj ((String.append_right_inj "obj").1 h)
  rw [← Int.zero_add (j : Int), ← Int.zero_add (k : Int)] at hwrap
  exact Text.wrap_add_inj hj hk hwrap

/-- What holds of a heap after `n` references were handed out. -/
structure Numbered (n : Nat) (h : Heap) : Prop where
  counter : h.counter = Text.wrap n
  keys : ∀ r, h.contains (.object r) = true → ∃ k, 1 ≤ k ∧ k ≤ n ∧ r.name = refName k
  distinct : n ≤ Text.modulus → ∀ r r', h.contains (.object r) = true →
    h.contains (.object r') = true → r.name = r'.name → r = r'

theorem numbered_empty : Numbered 0 ∅ := by
  have hnone : ∀ r, (∅ : Heap).contains (.object r) = false := fun r => rfl
  exact ⟨rfl, fun r hr => absurd hr (by simp [hnone]), fun _ r _ hr => absurd hr (by simp [hnone])⟩

namespace Numbered

theorem alloc_name (hn : h.Numbered n) (cls : String) : (h.alloc cls).1.name = refName (n + 1) := by
  show "obj" ++ Text.showInt (Text.wrap (h.counter + 1)) = refName (n + 1)
  rw [hn.counter, Text.wrap_add_one]
  rfl

theorem alloc_counter (hn : h.Numbered n) (cls : String) :
    (h.alloc cls).2.counter = Text.wrap (n + 1 : Nat) := by
  show Text.wrap (h.counter + 1) = Text.wrap (n + 1 : Nat)
  rw [hn.counter, Text.wrap_add_one]
  rfl

/-- A name that is handed out next is not yet the name of an object. -/
theorem name_ne (hn : h.Numbered n) (hlt : n < Text.modulus) {r : Ref}
    (hr : h.contains (.object r) = true) : r.name ≠ refName (n + 1) := by
  obtain ⟨k, hk₁, hkn, hname⟩ := hn.keys r hr
  rw [hname]
  intro heq
  have hk : k = n + 1 := refName_inj ⟨hk₁, by omega⟩ ⟨by omega, by omega⟩ heq
  omega

/-- A reference that is handed out without an object. -/
theorem alloc (hn : h.Numbered n) (cls : String) : (h.alloc cls).2.Numbered (n + 1) where
  counter := hn.alloc_counter cls
  keys r hr := by
    obtain ⟨k, hk₁, hkn, hname⟩ := hn.keys r hr
    exact ⟨k, hk₁, by omega, hname⟩
  distinct hle := hn.distinct (by omega)

end Numbered

theorem contains_insert {r r' : Ref} {fields : Memory} :
    (h.insert r fields).contains (.object r') = true ↔
      r' = r ∨ h.contains (.object r') = true := by
  show ((h.objects.insert r fields).get? r').isSome = true ↔
    r' = r ∨ (h.objects.get? r').isSome = true
  by_cases heq : r' = r
  · subst heq
    simp
  · rw [SortedMap.get?_insert_of_ne _ heq]
    simp [heq]

/-- Writing to a field adds no key. -/
theorem contains_setField {r r' : Ref} {name : String} {v : Value} :
    (h.setField r name v).contains (.object r') = true ↔ h.contains (.object r') = true := by
  unfold Heap.setField
  split
  · rfl
  · rename_i fields hget
    have hr : h.contains (.object r) = true := by
      show (h.objects.get? r).isSome = true
      rw [hget]
      rfl
    rw [contains_insert, or_iff_right_iff_imp]
    rintro rfl
    exact hr

theorem counter_setField (h : Heap) (r : Ref) (name : String) (v : Value) :
    (h.setField r name v).counter = h.counter := by
  unfold Heap.setField
  split <;> rfl

namespace Numbered

/-- A new object. -/
theorem create (hn : h.Numbered n) (cls : String) (fields : Memory) :
    (h.create cls fields).2.Numbered (n + 1) := by
  have hkeys : ∀ r, (h.create cls fields).2.contains (.object r) = true →
      r = (h.alloc cls).1 ∨ h.contains (.object r) = true :=
    fun r hr => contains_insert.1 hr
  refine ⟨hn.alloc_counter cls, fun r hr => ?_, fun hle r r' hr hr' hname => ?_⟩
  · rcases hkeys r hr with rfl | hr
    · exact ⟨n + 1, by omega, by omega, hn.alloc_name cls⟩
    · obtain ⟨k, hk₁, hkn, hname⟩ := hn.keys r hr
      exact ⟨k, hk₁, by omega, hname⟩
  · -- the new name is not that of an object that was there
    have hfresh : ∀ r, h.contains (.object r) = true → r.name ≠ (h.alloc cls).1.name := by
      intro r hr
      rw [hn.alloc_name cls]
      exact hn.name_ne (by omega) hr
    rcases hkeys r hr with rfl | hr
    · rcases hkeys r' hr' with rfl | hr'
      · rfl
      · exact absurd hname.symm (hfresh r' hr')
    · rcases hkeys r' hr' with rfl | hr'
      · exact absurd hname (hfresh r hr)
      · exact hn.distinct (by omega) r r' hr hr' hname

/-- The keys stay as they are while a field is set. -/
theorem setField (hn : h.Numbered n) (r : Ref) (name : String) (v : Value) :
    (h.setField r name v).Numbered n where
  counter := (h.counter_setField r name v).trans hn.counter
  keys r' hr' := hn.keys r' (contains_setField.1 hr')
  distinct hle r₁ r₂ h₁ h₂ :=
    hn.distinct hle r₁ r₂ (contains_setField.1 h₁) (contains_setField.1 h₂)

theorem counts : Counts fun n h => h.Numbered n :=
  ⟨create, setField⟩

/-- An object stays as it is while another one is created. -/
theorem lookup_create (hn : h.Numbered n) (hlt : n < Text.modulus) (cls : String) (fields : Memory)
    {v : Value} (hv : h.contains v = true) :
    (h.create cls fields).2.lookup v = h.lookup v := by
  obtain ⟨r, m, rfl, -⟩ := contains_eq_true hv
  have hne : r ≠ (h.alloc cls).1 := by
    intro heq
    refine hn.name_ne hlt hv ?_
    rw [heq]
    exact hn.alloc_name cls
  exact SortedMap.get?_insert_of_ne h.objects hne fields

/-- An object stays as it is while a list is created. -/
theorem lookup_addList (hn : h.Numbered n) (front : Value) (vs : List Value)
    (hle : n + vs.length ≤ Text.modulus) {v : Value} (hv : h.contains v = true) :
    (h.addList front vs).2.lookup v = h.lookup v := by
  induction vs generalizing n h front with
  | nil => rfl
  | cons w vs ih =>
    rw [List.length_cons] at hle
    let fields : Memory := .ofList [("content", w), ("next", front)]
    have hothers : (h.addList front (w :: vs)).2.lookup v =
        (h.create listClass fields).2.lookup v :=
      ih (hn.create listClass fields) _ (by omega) (h.grows_create listClass fields v hv)
    exact hothers.trans (hn.lookup_create (by omega) listClass fields hv)

/-- An object is found by its name. -/
theorem find?_name (hn : h.Numbered n) (hle : n ≤ Text.modulus) {r : Ref}
    (hr : h.contains (.object r) = true) : h.find? r.name = some r := by
  have hfound : (h.find? r.name).isSome = true :=
    List.find?_isSome.2 ⟨r, mem_keys_iff.2 hr, by simp⟩
  obtain ⟨r', hfind⟩ := Option.isSome_iff_exists.1 hfound
  have hname : r'.name = r.name := by simpa using List.find?_some hfind
  rw [hfind, hn.distinct hle r' r (contains_of_find? hfind) hr hname]

end Numbered

end Heap

/-! ### References that a machine hands out -/

/-- How many references an effect takes from the heap. -/
def Effect.handedOut : Effect → Nat
  | create _ _ _ => 1
  | enlist _ contents => contents.length
  | _ => 0

theorem Heap.Counts.heapAfter {P : Nat → Heap → Prop} (hP : Heap.Counts P) {n : Nat} {h : Heap}
    (hn : P n h) (e : Effect) : P (n + e.handedOut) (e.heapAfter h) := by
  cases e with
  | setField r name v => exact hP.setField hn r name v
  | create target cls fields => exact hP.create hn cls fields
  | enlist target contents => exact hP.addList hn .null contents
  | _ => exact hn

/-- Whether a statement makes new objects. -/
def Stmt.makesObjects : Stmt → Bool
  | create _ _ _ | query _ _ _ | derive _ _ => true
  | _ => false

namespace Machine

variable {σ : Type} {kb : Option (KnowledgeBase σ)}

/-- The effect of the next step, if it has one. -/
def effect? (kb : Option (KnowledgeBase σ)) (m : Machine) (s : σ) : Option Effect :=
  match m.stack with
  | [] => none
  | f :: below => if m.limitReached then none else (m.effectOf kb f below s).1.toOption

theorem effectOf_of_effect? {m : Machine} {f : Frame} {below : List Frame}
    (hm : m.stack = f :: below) {s : σ} {e : Effect} (he : m.effect? kb s = some e) :
    ∃ s', m.effectOf kb f below s = (.ok e, s') := by
  rw [effect?, hm] at he
  cases heffect : m.effectOf kb f below s with
  | mk r s' =>
    cases r with
    | error fault => simp [heffect, Except.toOption] at he
    | ok e' =>
      obtain ⟨-, rfl⟩ : m.limitReached = false ∧ e' = e := by
        simpa [heffect, Except.toOption] using he
      exact ⟨s', rfl⟩

/-- A step changes the heap by its effect only. -/
theorem step_heap (m : Machine) (s : σ) :
    (m.step kb s).machine.heap = (m.effect? kb s).elim m.heap fun e => e.heapAfter m.heap := by
  cases hm : m.stack with
  | nil =>
    rw [step_nil hm]
    simp [effect?, hm]
  | cons f below =>
    by_cases hl : m.limitReached = true
    · rw [step_of_limitReached hm hl]
      simp [effect?, hm, hl]
    · rw [step_eq hm (by simpa using hl)]
      cases he : m.effectOf kb f below s with
      | mk r s' =>
        cases r with
        | error fault => simp [effect?, hm, hl, he, Except.toOption, running, retire]
        | ok e => simp [effect?, hm, hl, he, Except.toOption, running]

/-- How many references an operation takes from the heap. -/
def handedOut (kb : Option (KnowledgeBase σ)) (m : Machine) : Operation σ → Nat
  | .start _ => 1
  | .step s => (m.effect? kb s).elim 0 Effect.handedOut
  | .push _ _ _ | .fork => 0

/-- Scheduling a statement leaves the heap as it is. -/
theorem operate_push_heap (m : Machine) (stmt : Stmt) (owner : Value) (locals : Memory) :
    (m.operate kb (.push stmt owner locals)).heap = m.heap := by
  rcases m.operate_push_cases stmt owner locals with h | ⟨-, h⟩
  · rw [h]
  · rw [h]

end Machine

/-- A step takes the references of its effect. -/
theorem Heap.Counts.step {σ : Type} {kb : Option (KnowledgeBase σ)} {P : Nat → Heap → Prop}
    (hP : Heap.Counts P) {n : Nat} {m : Machine} (hn : P n m.heap) (s : σ) :
    P (n + m.handedOut kb (.step s)) (m.step kb s).machine.heap := by
  rw [Machine.step_heap, Machine.handedOut]
  cases m.effect? kb s with
  | none => exact hn
  | some e => exact hP.heapAfter hn e

/-- So does every operation; starting a program takes a reference for the entry object. -/
theorem Heap.Counts.operate {σ : Type} {kb : Option (KnowledgeBase σ)} {P : Nat → Heap → Prop}
    (hP : Heap.Counts P) {n : Nat} {m : Machine} (hn : P n m.heap) (op : Operation σ) :
    P (n + m.handedOut kb op) (m.operate kb op).heap := by
  cases op with
  | start main =>
    rw [Machine.operate, m.start_eq main]
    exact hP.create hn entryClass ∅
  | push stmt owner locals =>
    rw [Machine.operate_push_heap]
    exact hn
  | step s => exact hP.step hn s
  | fork => exact hn

namespace Machine

variable {σ : Type} {kb : Option (KnowledgeBase σ)}

/-- What a statement that makes objects does to the objects that are there: nothing. -/
theorem lookup_step {n : Nat} {m : Machine} (hn : m.heap.Numbered n) {f : Frame}
    {below : List Frame} (hm : m.stack = f :: below) (hf : f.stmt.head.makesObjects = true) (s : σ)
    (hle : n + m.handedOut kb (.step s) ≤ Text.modulus) {v : Value}
    (hv : m.heap.contains v = true) :
    (m.step kb s).machine.heap.lookup v = m.heap.lookup v := by
  rw [handedOut] at hle
  rw [step_heap]
  cases he : m.effect? kb s with
  | none => rfl
  | some e =>
    rw [he] at hle
    obtain ⟨s', heffect⟩ := effectOf_of_effect? hm he
    obtain ⟨-, henacts⟩ := enacts_of_effectOf heffect
    cases henacts with
    | act hw =>
      generalize f.stmt.head = x at hw hf
      cases hw with
      | create hfields hlen hargs => exact hn.lookup_create hle _ _ hv
      | _ => exact absurd hf (by simp [Stmt.makesObjects])
    | ask hw hkb hlist hask hids => exact hn.lookup_addList .null _ hle hv

/-- A machine that is reached from an empty heap after `n` references were handed out: by
    operations, each with any knowledge base or none, by taking references from the heap, and by
    replacing the heap with what its snapshot is restored to. The lengths of a heap are 64-bit
    integers. -/
inductive Reached (classes : ClassTable) (maxSteps : Nat) : Nat → Machine → Prop where
  | new : Reached classes maxSteps 0 (Machine.new classes ∅ maxSteps)
  | operate {n : Nat} {m : Machine} {σ : Type} (kb : Option (KnowledgeBase σ)) (op : Operation σ)
      (h : Reached classes maxSteps n m) :
      Reached classes maxSteps (n + m.handedOut kb op) (m.operate kb op)
  | alloc {n : Nat} {m : Machine} (cls : String) (h : Reached classes maxSteps n m) :
      Reached classes maxSteps (n + 1) { m with heap := (m.heap.alloc cls).2 }
  | restore {n : Nat} {m : Machine} {heap : Heap} (h : Reached classes maxSteps n m)
      (hsized : m.heap.Sized Text.maxInt.toNat Text.maxInt.toNat)
      (hdecode : Snapshot.decode (Snapshot.encode m.heap) = .ok heap) :
      Reached classes maxSteps n { m with heap := heap }

theorem Reached.numbered {classes : ClassTable} {maxSteps n : Nat} {m : Machine}
    (h : Reached classes maxSteps n m) : m.heap.Numbered n := by
  induction h with
  | new => exact Heap.numbered_empty
  | operate kb op _ ih => exact Heap.Numbered.counts.operate ih op
  | alloc cls _ ih => exact ih.alloc cls
  | @restore n m heap _ hsized hdecode ih =>
    have hcounter : Text.fits m.heap.counter = true := by
      rw [ih.counter]
      exact Text.fits_wrap n
    have hlimit : Text.maxInt.toNat < Cbor.headLimit := by decide
    obtain ⟨-, rfl⟩ := Snapshot.decode_encode_eq_ok hlimit hlimit hcounter hsized hdecode
    exact ih

end Machine

/-- In a machine that was reached from an empty heap after `n` references were handed out:

    * while `n` fits in 64 bits it is the counter, and the objects are called `objK` with `K` from
      one up to the counter;
    * while `n` is at most `2 ^ 64`, no two objects have one name, whatever their classes, so the
      object that is found by a name is the only one;
    * while `n` is less than `2 ^ 64`, the next reference has a new name, and starting a program
      changes no object; neither does a step that creates an object or asks a knowledge base, if it
      stays within the `2 ^ 64` references. -/
theorem names_are_not_reused {classes : ClassTable} {maxSteps n : Nat} {m : Machine}
    (h : Machine.Reached classes maxSteps n m) :
    ((n : Int) ≤ Text.maxInt → m.heap.counter = n ∧
      ∀ r, m.heap.contains (.object r) = true →
        ∃ k : Nat, 1 ≤ k ∧ (k : Int) ≤ m.heap.counter ∧ r.name = "obj" ++ Nat.repr k) ∧
    (n ≤ Text.modulus →
      (∀ r r', m.heap.contains (.object r) = true → m.heap.contains (.object r') = true →
        r.name = r'.name → r = r') ∧
      ∀ r, m.heap.contains (.object r) = true → m.heap.find? r.name = some r) ∧
    (n < Text.modulus →
      (∀ cls r, m.heap.contains (.object r) = true → r.name ≠ (m.heap.alloc cls).1.name) ∧
      ∀ main f m', m.start main = .ok (f, m') →
        ∀ v, m.heap.contains v = true → m'.heap.lookup v = m.heap.lookup v) ∧
    ∀ {σ : Type} (kb : Option (KnowledgeBase σ)) (s : σ) (f : Frame) (below : List Frame),
      m.stack = f :: below → f.stmt.head.makesObjects = true →
      n + m.handedOut kb (.step s) ≤ Text.modulus →
      ∀ v, m.heap.contains v = true → (m.step kb s).machine.heap.lookup v = m.heap.lookup v := by
  have hn : m.heap.Numbered n := h.numbered
  refine ⟨fun hfits => ?_, fun hle => ?_, fun hlt => ?_, ?_⟩
  · have hcounter : m.heap.counter = n := hn.counter.trans (Text.wrap_of_le hfits)
    refine ⟨hcounter, fun r hr => ?_⟩
    obtain ⟨k, hk₁, hkn, hname⟩ := hn.keys r hr
    refine ⟨k, hk₁, by omega, ?_⟩
    rw [hname, Heap.refName, Text.wrap_of_le (by omega), Text.showInt]
    simp
  · exact ⟨hn.distinct hle, fun r hr => hn.find?_name hle hr⟩
  · refine ⟨fun cls r hr => ?_, fun main f m' hstart v hv => ?_⟩
    · rw [hn.alloc_name cls]
      exact hn.name_ne hlt hr
    · rw [m.start_eq main] at hstart
      obtain ⟨-, rfl⟩ := Prod.mk.inj (Except.ok.inj hstart)
      exact hn.lookup_create hlt entryClass ∅ hv
  · intro σ kb s f below hm hf hle v hv
    exact Machine.lookup_step hn hm hf s hle hv

/-- The names of a program that was started on a heap, after the heap was restored from its snapshot
    and a reference was taken from it; then the program creates an object. -/
theorem names_are_not_reused_of_restored_heap :
    let classes : ClassTable := ⟨[("D", ⟨[], ∅⟩)], List.pairwise_singleton ..⟩
    let kb : Option (KnowledgeBase Unit) := none
    let entry : Ref := ⟨"obj1", entryClass⟩
    let started : Machine :=
      (Machine.new classes ∅ 0).operate kb (.start (.create (.var "x") "D" []))
    let m : Machine := { started with heap := (started.heap.alloc "C").2 }
    Machine.Reached classes 0 2 m ∧ m.heap.contains (.object entry) = true ∧
      m.heap.counter = 2 ∧ m.heap.find? "obj1" = some entry ∧
      (∀ cls, entry.name ≠ (m.heap.alloc cls).1.name) ∧ m.handedOut kb (.step ()) = 1 ∧
      (m.step kb ()).machine.heap.lookup (.object entry) = m.heap.lookup (.object entry) := by
  intro classes kb entry started m
  have hstarted : Machine.Reached classes 0 1 started := .operate kb (.start _) .new
  have hsized : started.heap.Sized Text.maxInt.toNat Cbor.maxLength := by decide
  have hlimit : Text.maxInt.toNat < Cbor.headLimit := by decide
  have hdecode : Snapshot.decode (Snapshot.encode started.heap) = .ok started.heap :=
    Snapshot.decode_encode hlimit (by decide) hsized
  have hsized' : started.heap.Sized Text.maxInt.toNat Text.maxInt.toNat := by decide
  have hreached : Machine.Reached classes 0 2 m := (hstarted.restore hsized' hdecode).alloc "C"
  have hentry : m.heap.contains (.object entry) = true := by decide
  have hone : m.handedOut kb (.step ()) = 1 := by decide
  obtain ⟨hcounter, hnames, hfresh, hstep⟩ := names_are_not_reused hreached
  have hstack : ∃ f, m.stack = [f] ∧ f.stmt.head.makesObjects = true := by
    have hstart := (Machine.new classes ∅ 0).start_eq (.create (.var "x") "D" [])
    simp only [m, started, Machine.operate, hstart]
    exact ⟨_, rfl, rfl⟩
  obtain ⟨f, hstack, hf⟩ := hstack
  have hkept := hstep kb () f [] hstack hf (by rw [hone]; decide) (.object entry) hentry
  exact ⟨hreached, hentry, (hcounter (by decide)).1, (hnames (by decide)).2 entry hentry,
    fun cls => (hfresh (by decide)).1 cls entry hentry, hone, hkept⟩

/-- Any number of references can be taken from a heap without an object being stored. -/
theorem Machine.Reached.allocs {classes : ClassTable} {maxSteps n : Nat} {m : Machine}
    (h : Machine.Reached classes maxSteps n m) (k : Nat) :
    ∃ m', Machine.Reached classes maxSteps (n + k) m' ∧ m'.heap.objects = m.heap.objects := by
  induction k with
  | zero => exact ⟨m, h, rfl⟩
  | succ k ih =>
    obtain ⟨m', hreached, hobjects⟩ := ih
    exact ⟨_, hreached.alloc entryClass, hobjects⟩

/-- After `2 ^ 63 - 1` references a program is started on behalf of an object that is not called
    `objK` with a `K` from one up to the counter. After `2 ^ 64` references the next one has the
    name of the first. -/
theorem names_wrap_around :
    (∃ m, Machine.Reached ∅ 0 9223372036854775808 m ∧ ∃ r, m.heap.contains (.object r) = true ∧
      ¬ ∃ k : Nat, 1 ≤ k ∧ (k : Int) ≤ m.heap.counter ∧ r.name = "obj" ++ Nat.repr k) ∧
    ∃ m, Machine.Reached ∅ 0 18446744073709551616 m ∧ ∃ r cls,
      m.heap.contains (.object r) = true ∧ r.name = (m.heap.alloc cls).1.name := by
  let kb : Option (KnowledgeBase Unit) := none
  have hnew : Machine.Reached ∅ 0 0 (Machine.new ∅ ∅ 0) := .new
  constructor
  · obtain ⟨m, hm, -⟩ := hnew.allocs 9223372036854775807
    have hstarted : Machine.Reached ∅ 0 9223372036854775808 (m.operate kb (.start .skip)) :=
      hm.operate kb (.start .skip)
    have hcounter : (m.operate kb (.start .skip)).heap.counter = -9223372036854775808 :=
      hstarted.numbered.counter
    refine ⟨_, hstarted, (m.heap.create entryClass ∅).1, ?_, ?_⟩
    · rw [Machine.operate, m.start_eq .skip]
      exact m.heap.contains_create_self entryClass ∅
    · rintro ⟨k, hk₁, hk, -⟩
      rw [hcounter] at hk
      omega
  · have hstarted : Machine.Reached ∅ 0 1 ((Machine.new ∅ ∅ 0).operate kb (.start .skip)) :=
      hnew.operate kb (.start .skip)
    obtain ⟨m, hm, hobjects⟩ := hstarted.allocs 18446744073709551615
    refine ⟨m, hm, ⟨"obj1", entryClass⟩, entryClass, ?_, ?_⟩
    · show (m.heap.objects.get? ⟨"obj1", entryClass⟩).isSome = true
      rw [hobjects]
      decide
    · rw [hm.numbered.alloc_name entryClass]
      decide

end ObjectMachine
