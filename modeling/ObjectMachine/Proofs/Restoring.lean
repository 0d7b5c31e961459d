import Mathlib.Data.List.Nodup
import ObjectMachine.Console.Launch
import ObjectMachine.Proofs.Instances

namespace ObjectMachine

/-!
# Names after a restored heap

A snapshot has a counter and objects, and nothing ties the one to the others: it may have objects
that are called like the references that come next. What a run on the restored heap does to them
depends on these names only:

* `Heap.nextName` — the names of the references that come next, `Heap.nextName_inj` — the first
  `2 ^ 64` of them are different;
* `Heap.Resumes` — the invariant: the counter and the keys after `n` references were handed out;
* `Machine.newRefs` — the references that an operation hands out, `Machine.Makes` — the operations
  that do so;
* `Machine.names_newRefs` — they have the names that come next;
* `Machine.contains_newRefs_iff` — one of them is a key exactly if the restored heap has it;
* `restored_objects_are_kept` — nothing is overwritten as long as this is not so;
* `restored_object_is_overwritten` — it may be so.
-/

namespace Heap

variable {base h : Heap} {n : Nat}

/-! ### The names that come next -/

/-- The name of the `k`-th reference that is handed out from now on. -/
def nextName (h : Heap) (k : Nat) : String :=
  "obj" ++ Text.showInt (Text.wrap (h.counter + k))

/-- The first `2 ^ 64` names are different, whatever the counter is. -/
theorem nextName_inj {j k : Nat} (hj : 1 ≤ j ∧ j ≤ Text.modulus) (hk : 1 ≤ k ∧ k ≤ Text.modulus)
    (heq : h.nextName j = h.nextName k) : j = k :=
  Text.wrap_add_inj hj hk (Text.showInt_inj ((String.append_right_inj "obj").1 heq))

/-- No object is called like one of the `n` references that come next. -/
def Spares (h : Heap) (n : Nat) : Prop :=
  ∀ k, 1 ≤ k → k ≤ n → ∀ r, h.contains (.object r) = true → r.name ≠ h.nextName k

/-- What holds of a heap after `n` references were handed out, the first one by `base`: every object
    was there or is called like one of these references. -/
structure Resumes (base : Heap) (n : Nat) (h : Heap) : Prop where
  counter : h.counter = Text.wrap (base.counter + n)
  keys : ∀ r, h.contains (.object r) = true →
    base.contains (.object r) = true ∨ ∃ k, 1 ≤ k ∧ k ≤ n ∧ r.name = base.nextName k
  grows : base.Grows h

namespace Resumes

theorem refl (hfits : Text.fits base.counter = true) : base.Resumes 0 base where
  counter := by
    rw [Int.natCast_zero, Int.add_zero]
    exact (Text.wrap_of_fits hfits).symm
  keys _ hr := .inl hr
  grows := .refl base

theorem alloc_counter (hr : base.Resumes n h) (cls : String) :
    (h.alloc cls).2.counter = Text.wrap (base.counter + (n + 1 : Nat)) := by
  show Text.wrap (h.counter + 1) = Text.wrap (base.counter + (n + 1 : Nat))
  rw [hr.counter, Text.wrap_add_one, Int.natCast_succ, Int.add_assoc]

theorem alloc_name (hr : base.Resumes n h) (cls : String) :
    (h.alloc cls).1.name = base.nextName (n + 1) :=
  congrArg (fun c => "obj" ++ Text.showInt c) (hr.alloc_counter cls)

theorem create (hr : base.Resumes n h) (cls : String) (fields : Memory) :
    base.Resumes (n + 1) (h.create cls fields).2 where
  counter := hr.alloc_counter cls
  keys r hin := by
    rcases contains_insert.1 hin with rfl | hin
    · exact .inr ⟨n + 1, by omega, by omega, hr.alloc_name cls⟩
    · rcases hr.keys r hin with hbase | ⟨k, hk₁, hkn, hname⟩
      · exact .inl hbase
      · exact .inr ⟨k, hk₁, by omega, hname⟩
  grows := hr.grows.trans (h.grows_create cls fields)

theorem setField (hr : base.Resumes n h) (r : Ref) (name : String) (v : Value) :
    base.Resumes n (h.setField r name v) where
  counter := (h.counter_setField r name v).trans hr.counter
  keys r' hin := hr.keys r' (contains_setField.1 hin)
  grows := hr.grows.trans (h.grows_setField r name v)

theorem counts (base : Heap) : Counts base.Resumes :=
  ⟨create, setField⟩

/-- The nodes of a list have the names that come next, one after the other. -/
theorem names_newNodes (hr : base.Resumes n h) (front : Value) (vs : List Value) :
    (h.newNodes front vs).map (fun e => e.1.name) =
      (List.range' (n + 1) vs.length).map base.nextName := by
  induction vs generalizing n h front with
  | nil => rfl
  | cons v vs ih =>
    have hothers := ih (hr.create listClass (.ofList [("content", v), ("next", front)]))
      (.object (h.alloc listClass).1)
    rw [newNodes, List.map_cons, List.length_cons, List.range'_succ, List.map_cons, hothers,
      hr.alloc_name]

/-- A name that is handed out next is that of an object only if it was so from the beginning. -/
theorem contains_iff (hr : base.Resumes n h) {k : Nat} (hk : n < k ∧ k ≤ Text.modulus) {r : Ref}
    (hname : r.name = base.nextName k) :
    h.contains (.object r) = true ↔ base.contains (.object r) = true := by
  refine ⟨fun hin => ?_, fun hin => hr.grows _ hin⟩
  rcases hr.keys r hin with hbase | ⟨j, hj₁, hjn, hname'⟩
  · exact hbase
  · have heq : j = k :=
      nextName_inj ⟨hj₁, by omega⟩ ⟨by omega, hk.2⟩ (hname'.symm.trans hname)
    omega

end Resumes

end Heap

/-! ### The references of an operation -/

/-- The references that an effect takes from the heap. -/
def Effect.newRefs (h : Heap) : Effect → List Ref
  | create _ cls _ => [(h.alloc cls).1]
  | enlist _ contents => (h.newNodes .null contents).map Prod.fst
  | _ => []

namespace Machine

variable {σ : Type} {kb : Option (KnowledgeBase σ)} {m : Machine} {base : Heap} {n : Nat}

/-- The references that an operation takes from the heap. -/
def newRefs (kb : Option (KnowledgeBase σ)) (m : Machine) : Operation σ → List Ref
  | .start _ => [(m.heap.alloc entryClass).1]
  | .step s => (m.effect? kb s).elim [] (Effect.newRefs m.heap)
  | .push _ _ _ | .fork => []

/-- How many references some operations take from the heap, one after the other. -/
def handedOutBy (kb : Option (KnowledgeBase σ)) (m : Machine) : List (Operation σ) → Nat
  | [] => 0
  | op :: ops => m.handedOut kb op + (m.operate kb op).handedOutBy kb ops

/-- Whether an operation is there to make objects: it starts a program, or it is the step of a
    statement that makes objects. -/
def Makes (m : Machine) : Operation σ → Prop
  | .start _ => True
  | .step _ => ∃ f below, m.stack = f :: below ∧ f.stmt.head.makesObjects = true
  | .push _ _ _ | .fork => False

theorem makes_of_top (htop : m.stack.head?.any (fun f => f.stmt.head.makesObjects) = true)
    (s : σ) : m.Makes (.step s) := by
  cases hm : m.stack with
  | nil => simp [hm] at htop
  | cons f below => exact ⟨f, below, hm, by simpa [hm] using htop⟩

end Machine

/-- Any number of operations take the references that they take one after the other. -/
theorem Heap.Counts.operateAll {σ : Type} {kb : Option (KnowledgeBase σ)} {P : Nat → Heap → Prop}
    (hP : Heap.Counts P) {n : Nat} {m : Machine} (hn : P n m.heap) (ops : List (Operation σ)) :
    P (n + m.handedOutBy kb ops) (m.operateAll kb ops).heap := by
  induction ops generalizing n m with
  | nil => exact hn
  | cons op ops ih =>
    have hfirst : P (n + m.handedOut kb op) (m.operate kb op).heap := hP.operate hn op
    have hothers := ih hfirst
    rw [Nat.add_assoc] at hothers
    exact hothers

namespace Machine

variable {σ : Type} {kb : Option (KnowledgeBase σ)} {m : Machine} {base : Heap} {n : Nat}
  {op : Operation σ}

/-- The references of an operation have the names that come next. -/
theorem names_newRefs (hr : base.Resumes n m.heap) (op : Operation σ) :
    (m.newRefs kb op).map Ref.name =
      (List.range' (n + 1) (m.handedOut kb op)).map base.nextName := by
  cases op with
  | start main => simp [newRefs, handedOut, hr.alloc_name]
  | push stmt owner locals => rfl
  | fork => rfl
  | step s =>
    rw [newRefs, handedOut]
    cases m.effect? kb s with
    | none => rfl
    | some e =>
      cases e with
      | create target cls fields => simp [Effect.newRefs, Effect.handedOut, hr.alloc_name]
      | enlist target contents =>
        show ((m.heap.newNodes .null contents).map Prod.fst).map Ref.name = _
        rw [List.map_map]
        exact hr.names_newNodes .null contents
      | _ => rfl

theorem exists_name_of_mem_newRefs (hr : base.Resumes n m.heap) {r : Ref}
    (hin : r ∈ m.newRefs kb op) :
    ∃ k, n < k ∧ k ≤ n + m.handedOut kb op ∧ r.name = base.nextName k := by
  have hname : r.name ∈ (m.newRefs kb op).map Ref.name := List.mem_map_of_mem hin
  rw [names_newRefs hr, List.mem_map] at hname
  obtain ⟨k, hk, hname⟩ := hname
  obtain ⟨hlow, hhigh⟩ := List.mem_range'_1.1 hk
  exact ⟨k, by omega, by omega, hname.symm⟩

/-- A reference that an operation takes is a key already exactly if it was one from the
    beginning. -/
theorem contains_newRefs_iff (hr : base.Resumes n m.heap)
    (hle : n + m.handedOut kb op ≤ Text.modulus) {r : Ref} (hin : r ∈ m.newRefs kb op) :
    m.heap.contains (.object r) = true ↔ base.contains (.object r) = true := by
  obtain ⟨k, hlow, hhigh, hname⟩ := exists_name_of_mem_newRefs hr hin
  exact hr.contains_iff ⟨hlow, Nat.le_trans hhigh hle⟩ hname

/-- An operation takes no reference twice. -/
theorem nodup_newRefs (hr : base.Resumes n m.heap) (hle : n + m.handedOut kb op ≤ Text.modulus) :
    (m.newRefs kb op).Nodup := by
  refine List.Nodup.of_map Ref.name ?_
  rw [names_newRefs hr]
  refine List.Nodup.map_on (fun j hj k hk heq => ?_) List.nodup_range'
  obtain ⟨hj₁, hj₂⟩ := List.mem_range'_1.1 hj
  obtain ⟨hk₁, hk₂⟩ := List.mem_range'_1.1 hk
  exact Heap.nextName_inj ⟨by omega, by omega⟩ ⟨by omega, by omega⟩ heq

/-- What an operation that makes objects does to the objects: it inserts new ones, each under one of
    its references. -/
theorem objects_operate (hmakes : m.Makes op) :
    ∃ new : List (Ref × Memory), new.map Prod.fst = m.newRefs kb op ∧
      (m.operate kb op).heap.objects =
        new.foldl (fun objects e => objects.insert e.1 e.2) m.heap.objects := by
  cases op with
  | start main =>
    refine ⟨[((m.heap.alloc entryClass).1, ∅)], rfl, ?_⟩
    rw [operate, m.start_eq main]
    rfl
  | push stmt owner locals => exact hmakes.elim
  | fork => exact hmakes.elim
  | step s =>
    obtain ⟨f, below, hm, hf⟩ := hmakes
    rw [operate, step_heap, newRefs]
    cases he : m.effect? kb s with
    | none => exact ⟨[], rfl, rfl⟩
    | some e =>
      obtain ⟨s', heffect⟩ := effectOf_of_effect? hm he
      obtain ⟨-, henacts⟩ := enacts_of_effectOf heffect
      cases henacts with
      | act hw =>
        generalize f.stmt.head = x at hw hf
        cases hw with
        | create hfields hlen hargs => exact ⟨[(_, _)], rfl, rfl⟩
        | _ => exact absurd hf (by simp [Stmt.makesObjects])
      | ask hw hkb hlist hask hids =>
        exact ⟨m.heap.newNodes .null _, rfl, m.heap.objects_addList .null _⟩

/-- Objects that were not given one of the references are kept. -/
theorem lookup_operate (hmakes : m.Makes op)
    (hfresh : ∀ r ∈ m.newRefs kb op, m.heap.contains (.object r) = false) {v : Value}
    (hv : m.heap.contains v = true) : (m.operate kb op).heap.lookup v = m.heap.lookup v := by
  obtain ⟨new, hnew, hobjects⟩ := @objects_operate σ kb m op hmakes
  obtain ⟨r, own, rfl, -⟩ := Heap.contains_eq_true hv
  have hnot : r ∉ new.map Prod.fst := by
    rw [hnew]
    intro hin
    rw [hfresh r hin] at hv
    exact absurd hv (by simp)
  show (m.operate kb op).heap.objects.get? r = m.heap.objects.get? r
  rw [hobjects, SortedMap.get?_foldl_insert_of_notMem hnot]

end Machine

/-- A letter is the only name on its path. -/
theorem splitOn_letter : "h".splitOn "/" = ["h"] := by
  have hstart : ¬ String.Pos.Raw.atEnd "h" 0 = true := by decide +kernel
  have hletter : ¬ (String.Pos.Raw.get "h" 0 == String.Pos.Raw.get "/" 0) = true := by
    decide +kernel
  have hnext : String.Pos.Raw.next "h" (String.Pos.Raw.unoffsetBy 0 0) = ⟨1⟩ := by decide +kernel
  have hend : String.Pos.Raw.atEnd "h" ⟨1⟩ = true := by decide +kernel
  have hwhole : String.Pos.Raw.extract "h" 0 ⟨1⟩ = "h" := by decide +kernel
  rw [String.splitOn, if_neg (by decide +kernel), String.splitOnAux, if_neg hstart, if_neg hletter,
    hnext, String.splitOnAux, if_pos hend, hwhole]
  rfl

/-- A file is read by its name, if it is the only one and its name is neither a path nor dots. -/
theorem Files.read_only {name : String} (hsplit : name.splitOn "/" = [name])
    (hstart : name.startsWith "/" = false) (hend : name.endsWith "/" = false)
    (hname : name ∉ ["", ".", ".."]) (content : Content) :
    (⟨[([name], content)], []⟩ : Files).read name = .ok content := by
  simp only [List.mem_cons, List.not_mem_nil, or_false, not_or] at hname
  obtain ⟨hempty, hdot, hdots⟩ := hname
  have hlocate : (⟨[([name], content)], []⟩ : Files).locate name = .ok [name] := by
    simp [locate, hsplit, hstart, Path.start, walk, Path.enter, hempty, hdot, hdots]
  have hfile : (⟨[([name], content)], []⟩ : Files).hasDirectory [name] = false := by
    have hroot : name ≠ Path.root := by
      rintro rfl
      exact absurd hend (by decide +kernel)
    simp [hasDirectory, hdots, hroot]
  unfold read
  rw [hlocate]
  simp [bind, Except.bind, hfile, get?, hend]

/-- A heap is restored from a snapshot file if its bytes decode to it and the program declares the
    classes of its objects. -/
theorem Console.restoreHeap_eq_ok {classes : ClassTable} {files : Files} {file : String}
    {h : Heap} : restoreHeap classes files file = .ok h ↔
      ∃ content, files.read file = .ok content ∧ Snapshot.decode content = .ok h ∧
        foreignObject? classes h = none := by
  constructor
  · intro hrestore
    unfold restoreHeap at hrestore
    split at hrestore
    · simp at hrestore
    rename_i content hread
    split at hrestore
    · simp at hrestore
    rename_i heap hdecode
    split at hrestore
    · simp at hrestore
    · rename_i hforeign
      obtain rfl := Except.ok.inj hrestore
      exact ⟨content, hread, hdecode, hforeign⟩
  · rintro ⟨content, hread, hdecode, hforeign⟩
    simp only [restoreHeap, hread, hdecode, hforeign]

/-- A valid heap is restored from the file of its own snapshot. -/
theorem Console.restoreHeap_encode {classes : ClassTable} {files : Files} {file : String}
    {h : Heap} (hvalid : h.Valid) (hsized : h.Sized Text.maxInt.toNat Cbor.maxLength)
    (hread : files.read file = .ok (Snapshot.encode h))
    (hforeign : foreignObject? classes h = none) : restoreHeap classes files file = .ok h := by
  have hlimit : Text.maxInt.toNat < Cbor.headLimit := by decide
  exact restoreHeap_eq_ok.2 ⟨_, hread, Snapshot.decode_encode hlimit hvalid hsized, hforeign⟩

/-- A heap is restored from a snapshot file, and operations are performed on it in any order, with
    the classes that the file was checked against. While at most `2 ^ 64` references are handed out,
    an operation takes different ones, which are called after the counter of the snapshot, and

    * one of them is a key of the heap already exactly if the snapshot has it;
    * if none of them is, then starting a program, creating an object and asking a knowledge base
      change no object;
    * none of them is, if no object of the snapshot is called like one of the references that were
      handed out since. -/
theorem restored_objects_are_kept {classes : ClassTable} {files : Files} {file : String} {h : Heap}
    (hrestore : Console.restoreHeap classes files file = .ok h) {σ : Type}
    (kb : Option (KnowledgeBase σ)) (maxSteps : Nat) (ops : List (Operation σ))
    (op : Operation σ) :
    let restored := Machine.new classes h maxSteps
    let m := restored.operateAll kb ops
    let n := restored.handedOutBy kb ops
    n + m.handedOut kb op ≤ Text.modulus →
      (m.newRefs kb op).Nodup ∧
      (m.newRefs kb op).map Ref.name =
        (List.range' (n + 1) (m.handedOut kb op)).map h.nextName ∧
      (∀ r ∈ m.newRefs kb op,
        (m.heap.contains (.object r) = true ↔ h.contains (.object r) = true)) ∧
      (m.Makes op → (∀ r ∈ m.newRefs kb op, h.contains (.object r) = false) →
        ∀ v, m.heap.contains v = true → (m.operate kb op).heap.lookup v = m.heap.lookup v) ∧
      (h.Spares (n + m.handedOut kb op) →
        ∀ r ∈ m.newRefs kb op, h.contains (.object r) = false) := by
  intro restored m n hle
  obtain ⟨content, -, hdecode, -⟩ := Console.restoreHeap_eq_ok.1 hrestore
  have hfits : Text.fits h.counter = true := (Snapshot.valid_of_decode hdecode).1.counter
  have hresumes : h.Resumes n m.heap := by
    have hstart : h.Resumes 0 restored.heap := .refl hfits
    have hcounts : h.Resumes (0 + n) m.heap := (Heap.Resumes.counts h).operateAll hstart ops
    rwa [Nat.zero_add] at hcounts
  have hkeys : ∀ r ∈ m.newRefs kb op,
      (m.heap.contains (.object r) = true ↔ h.contains (.object r) = true) :=
    fun r hin => Machine.contains_newRefs_iff hresumes hle hin
  refine ⟨Machine.nodup_newRefs hresumes hle, Machine.names_newRefs hresumes op, hkeys,
    fun hmakes hnew v hv => ?_, fun hspares r hin => ?_⟩
  · have hfresh : ∀ r ∈ m.newRefs kb op, m.heap.contains (.object r) = false := by
      intro r hin
      rw [← Bool.not_eq_true, hkeys r hin, hnew r hin]
      simp
    exact Machine.lookup_operate hmakes hfresh hv
  · obtain ⟨k, hlow, hhigh, hname⟩ := Machine.exists_name_of_mem_newRefs hresumes hin
    rw [← Bool.not_eq_true]
    exact fun hold => hspares k (by omega) hhigh r hold hname

/-- A snapshot has an object and a counter that has counted it. The program that is started on it
    creates another object of its class, and the first one is kept. -/
theorem restored_objects_are_kept_behind_counter :
    let text := "classes:\n  - \x7bname: C, fields: [n]\x7d\nmain:\n" ++
      "  new: \x7btarget: \x7blocal: x\x7d, class: C, args: [\x7bint: 5\x7d]\x7d"
    let r : Ref := ⟨"obj2", "C"⟩
    let h : Heap := ⟨2, .ofList [(r, .ofList [("n", .integer "1")])]⟩
    let files : Files := ⟨[(["h"], Snapshot.encode h)], []⟩
    let kb : Option (KnowledgeBase Unit) := none
    ∃ p, Program.load text = .ok p ∧ Console.restoreHeap p.classes files "h" = .ok h ∧
      let restored := Machine.new p.classes h 0
      let m := restored.operateAll kb [.start p.main]
      restored.handedOutBy kb [.start p.main] + m.handedOut kb (.step ()) = 2 ∧
        m.Makes (.step () : Operation Unit) ∧ m.newRefs kb (.step ()) = [⟨"obj4", "C"⟩] ∧
        (∀ r ∈ m.newRefs kb (.step ()), h.contains (.object r) = false) ∧
        m.heap.contains (.object r) = true ∧
        (m.operate kb (.step ())).heap.lookup (.object r) = m.heap.lookup (.object r) := by
  intro text r h files kb
  have hstate : (Program.load text).toOption.any (fun p =>
      let restored := Machine.new p.classes h 0
      let m := restored.operateAll kb [.start p.main]
      Console.foreignObject? p.classes h = none ∧
        restored.handedOutBy kb [.start p.main] + m.handedOut kb (.step ()) = 2 ∧
        m.stack.head?.any (fun f => f.stmt.head.makesObjects) = true ∧
        m.newRefs kb (.step ()) = [⟨"obj4", "C"⟩] ∧ m.heap.contains (.object r) = true) = true := by
    decide +kernel
  obtain ⟨p, hload, hstate⟩ := exists_ok_of_any hstate
  obtain ⟨hforeign, htwo, htop, hnew, hold⟩ := of_decide_eq_true hstate
  have hread : files.read "h" = .ok (Snapshot.encode h) :=
    Files.read_only splitOn_letter (by decide +kernel) (by decide +kernel) (by decide) _
  have hrestore : Console.restoreHeap p.classes files "h" = .ok h :=
    Console.restoreHeap_encode (by decide) (by decide) hread hforeign
  refine ⟨p, hload, hrestore, ?_⟩
  intro restored m
  have hmakes : m.Makes (.step () : Operation Unit) := Machine.makes_of_top htop ()
  have hnone : ∀ r ∈ m.newRefs kb (.step ()), h.contains (.object r) = false := by
    rw [hnew]
    decide
  obtain ⟨-, -, -, hkept, -⟩ := restored_objects_are_kept hrestore kb 0 [.start p.main] (.step ())
    (by rw [htwo]; decide)
  exact ⟨htwo, hmakes, hnew, hnone, hold, hkept hmakes hnone _ hold⟩

/-- A snapshot has an object that is called like the second reference from its counter on. The
    program that is started on it creates another object of its class, and the first one is lost. -/
theorem restored_object_is_overwritten :
    let text := "classes:\n  - \x7bname: C, fields: [n]\x7d\nmain:\n" ++
      "  new: \x7btarget: \x7blocal: x\x7d, class: C, args: [\x7bint: 5\x7d]\x7d"
    let r : Ref := ⟨"obj2", "C"⟩
    let h : Heap := ⟨0, .ofList [(r, .ofList [("n", .integer "1")])]⟩
    let files : Files := ⟨[(["h"], Snapshot.encode h)], []⟩
    let kb : Option (KnowledgeBase Unit) := none
    ∃ p, Program.load text = .ok p ∧ Console.restoreHeap p.classes files "h" = .ok h ∧
      let m := (Machine.new p.classes h 0).operateAll kb [.start p.main]
      m.Makes (.step () : Operation Unit) ∧ m.newRefs kb (.step ()) = [r] ∧
        m.heap.lookup (.object r) = some (.ofList [("n", .integer "1")]) ∧
        (m.operate kb (.step ())).heap.lookup (.object r) =
          some (.ofList [("n", .integer "5")]) := by
  intro text r h files kb
  have hstate : (Program.load text).toOption.any (fun p =>
      let m := (Machine.new p.classes h 0).operateAll kb [.start p.main]
      Console.foreignObject? p.classes h = none ∧
        m.stack.head?.any (fun f => f.stmt.head.makesObjects) = true ∧
        m.newRefs kb (.step ()) = [r] ∧
        m.heap.lookup (.object r) = some (.ofList [("n", .integer "1")]) ∧
        (m.operate kb (.step ())).heap.lookup (.object r) =
          some (.ofList [("n", .integer "5")])) = true := by
    decide +kernel
  obtain ⟨p, hload, hstate⟩ := exists_ok_of_any hstate
  obtain ⟨hforeign, htop, hnew, hold, hlost⟩ := of_decide_eq_true hstate
  have hread : files.read "h" = .ok (Snapshot.encode h) :=
    Files.read_only splitOn_letter (by decide +kernel) (by decide +kernel) (by decide) _
  have hrestore : Console.restoreHeap p.classes files "h" = .ok h :=
    Console.restoreHeap_encode (by decide) (by decide) hread hforeign
  refine ⟨p, hload, hrestore, ?_⟩
  exact ⟨Machine.makes_of_top htop (), hnew, hold, hlost⟩

end ObjectMachine
