import ObjectMachine.Proofs.Answers
import ObjectMachine.Proofs.Instances

namespace ObjectMachine

/-!
# Identifiers are read back

A value is stored by its identifier, and an answer of a knowledge base is such an identifier again.
The three readings of an answer overlap, since any text may be called like an object or an integer;
yet each value of a heap that loaded programs have made is read back as itself:

* `Heap.Denotes.classify_eq_of_alike` — what an identifier stands for is what it is classified as,
  if only one object is called like it;
* `Heap.classify_text`, `Heap.classify_integer`, `Heap.classify_object` — texts, integers and
  references are told from each other by the first character;
* `Heap.classify_word` — null and the truth values have words that stand for nothing;
* `Heap.Stores` — the values of a heap, as keys and in fields;
* `stored_values_are_read_back` — all of them are read back, or refused.
-/

namespace Text

/-- The numeral of an integer is made of its decimal digits. -/
theorem decimal_showInt (n : Int) : Decimal (showInt n).toList n := by
  obtain ⟨hne, hdigits, hvalue⟩ := digits?_eq_some_iff.1 (digits?_repr n.natAbs)
  unfold showInt
  split
  · have hsign : "-".toList = ['-'] := rfl
    have hn : -(digitsValue (Nat.repr n.natAbs).toList : Int) = n := by omega
    have hdecimal := Decimal.negated hne hdigits
    rw [hn] at hdecimal
    rw [String.toList_append, hsign, List.singleton_append]
    exact hdecimal
  · have hn : (digitsValue (Nat.repr n.natAbs).toList : Int) = n := by omega
    have hdecimal := Decimal.natural hne hdigits
    rw [hn] at hdecimal
    exact hdecimal

/-- A canonical numeral starts with a digit or with a minus sign. -/
theorem Canonical.head? {s : String} (h : Canonical s) :
    ∃ c, s.toList.head? = some c ∧ (isDigit c = true ∨ c = '-') := by
  rcases h.plain with rfl | ⟨c, cs, hdigit, -, hs | hs⟩
  · exact ⟨'0', rfl, .inl rfl⟩
  · exact ⟨c, by rw [hs]; rfl, .inl hdigit⟩
  · exact ⟨'-', by rw [hs]; rfl, .inr rfl⟩

end Text

/-! ### Classifying what was stored -/

namespace Heap

variable {h : Heap} {id : String} {v : Value}

theorem head?_refName (k : Nat) : (refName k).toList.head? = some 'o' := by
  have hprefix : "obj".toList = ['o', 'b', 'j'] := rfl
  rw [refName, String.toList_append, hprefix]
  rfl

/-- What an identifier stands for is what it is classified as, if only one object is called like
    it. -/
theorem Denotes.classify_eq_of_alike (hv : h.Denotes id v)
    (halike : ∀ r r', h.contains (.object r) = true → h.contains (.object r') = true →
      r.name = id → r'.name = id → r = r') : h.classify id = .ok v := by
  cases hid : h.classify id with
  | error cause => exact absurd hv ((not_denotes_of_classify hid).2 v)
  | ok w => rw [(denotes_of_classify hid).unique_of_alike hv halike]

/-- No object is called like an identifier that starts with another character than names do. -/
theorem name_ne_of_head? (hnames : ∀ r, h.contains (.object r) = true → ∃ k, r.name = refName k)
    {c : Char} (hid : id.toList.head? = some c) (hc : c ≠ 'o') {r : Ref}
    (hr : h.contains (.object r) = true) : r.name ≠ id := by
  obtain ⟨k, hname⟩ := hnames r hr
  rintro rfl
  rw [hname, head?_refName] at hid
  exact hc (Option.some.inj hid).symm

section Names

variable (hnames : ∀ r, h.contains (.object r) = true → ∃ k, r.name = refName k)
include hnames

/-- A text is read back, whatever it is: its identifier starts with a double quote. -/
theorem classify_text (s : String) :
    h.classify (Value.string s).identifier = .ok (.string s) := by
  have hid : ("\"" ++ s ++ "\"").toList.head? = some '"' := by
    rw [toList_quoted]
    rfl
  have hnone : ∀ r, h.contains (.object r) = true → r.name ≠ "\"" ++ s ++ "\"" :=
    fun r hr => name_ne_of_head? hnames hid (by decide) hr
  have hdenotes : h.Denotes ("\"" ++ s ++ "\"") (.string s) := .text hnone rfl
  exact hdenotes.classify_eq_of_alike fun r _ hr _ hname => absurd hname (hnone r hr)

/-- An integer is read back if it is canonical: its identifier starts with a digit or with a minus
    sign. -/
theorem classify_integer {numeral : String} (hcanonical : Text.Canonical numeral) :
    h.classify (Value.integer numeral).identifier = .ok (.integer numeral) := by
  obtain ⟨c, hid, hc⟩ := hcanonical.head?
  obtain ⟨n, hfits, rfl⟩ := hcanonical.exists_showInt
  have hne : c ≠ 'o' := by
    rintro rfl
    exact absurd hc (by decide)
  have hnone : ∀ r, h.contains (.object r) = true → r.name ≠ Text.showInt n :=
    fun r hr => name_ne_of_head? hnames hid hne hr
  have hdenotes : h.Denotes (Text.showInt n) (.ofInt n) :=
    .integer hnone (Text.decimal_showInt n) (by simpa [Text.fits] using hfits)
  exact hdenotes.classify_eq_of_alike fun r _ hr _ hname => absurd hname (hnone r hr)

/-- Null and the truth values are refused: no object is called like their words, which are neither
    quoted nor numerals. -/
theorem classify_word (hid : id ∈ ["null", "True", "False"]) :
    h.classify id = .error (.unknownIdentifier id) := by
  have hword : id = "null" ∨ id = "True" ∨ id = "False" := by simpa using hid
  obtain ⟨c, hhead, hc⟩ : ∃ c, id.toList.head? = some c ∧ c ≠ 'o' := by
    rcases hword with rfl | rfl | rfl
    · exact ⟨'n', rfl, by decide⟩
    · exact ⟨'T', rfl, by decide⟩
    · exact ⟨'F', rfl, by decide⟩
  have hfind : h.find? id = none := by
    refine List.find?_eq_none.2 fun r hr => ?_
    simpa using name_ne_of_head? hnames hhead hc (mem_keys_iff.1 hr)
  have hbody : quotedBody? id.toList = none := by rcases hword with rfl | rfl | rfl <;> rfl
  have hnumeral : isNumeral id = false := by rcases hword with rfl | rfl | rfl <;> rfl
  simp only [classify, hfind, hbody, hnumeral]
  rfl

end Names

/-- A reference is read back if no other object is called like the one it leads to. -/
theorem classify_object (hdistinct : ∀ r r', h.contains (.object r) = true →
    h.contains (.object r') = true → r.name = r'.name → r = r') {r : Ref}
    (hr : h.contains (.object r) = true) :
    h.classify (Value.object r).identifier = .ok (.object r) := by
  have hdenotes : h.Denotes r.name (.object r) := .object hr rfl
  exact hdenotes.classify_eq_of_alike fun r r' hr hr' hname hname' =>
    hdistinct r r' hr hr' (hname.trans hname'.symm)

/-- A value of a heap: a reference to one of its objects, or what is in one of their fields. -/
inductive Stores (h : Heap) : Value → Prop where
  | key {r : Ref} (hr : h.contains (.object r) = true) : Stores h (.object r)
  | field {r : Ref} {own : Memory} {name : String} {v : Value} (hr : h.objects.get? r = some own)
      (hv : own.get? name = some v) : Stores h v

/-- What holds of the fields of a heap holds of all its values, if it holds of references to
    objects. -/
theorem AllFields.stores {P : Heap → Value → Prop} (hfields : h.AllFields P)
    (hkey : ∀ r, h.contains (.object r) = true → P h (.object r)) (hv : h.Stores v) : P h v := by
  cases hv with
  | key hr => exact hkey _ hr
  | field hr hv => exact hfields _ (SortedMap.mem_of_get? hr) _ (SortedMap.mem_of_get? hv)

end Heap

/-- Whether a value can come back as an answer. -/
def Value.isAnswer : Value → Bool
  | null | boolean _ => false
  | integer _ | string _ | object _ => true

/-- However loaded programs are started, stepped and forked on the empty heap, with the classes of
    a loaded program: a text, an integer or a reference that the heap has, as a key or in a field,
    is classified as itself when its identifier comes back as an answer. Null and the truth values
    are refused, and never taken for another value. For references the number of objects has to be a
    64-bit integer, so that no two are called alike. -/
theorem stored_values_are_read_back {σ : Type} (kb : Option (KnowledgeBase σ)) {text : String}
    {p : Program} (hload : Program.load text = .ok p) (maxSteps : Nat) {ops : List (Operation σ)}
    (hops : ∀ op ∈ ops, op.Loaded) :
    let h := ((Machine.new p.classes ∅ maxSteps).operateAll kb ops).heap
    ∀ v, h.Stores v →
      (v.isAnswer = true → (v.isObject = true → h.Fits) → h.classify v.identifier = .ok v) ∧
      (v.isAnswer = false → ∃ cause, h.classify v.identifier = .error cause ∧
        cause.category? = some .knowledgeContract) := by
  intro h v hv
  obtain ⟨n, hc⟩ : ∃ n, h.Counted n := Machine.exists_counted p.classes maxSteps ops
  have hnames : ∀ r, h.contains (.object r) = true → ∃ k, r.name = Heap.refName k := by
    intro r hr
    obtain ⟨k, -, -, hname⟩ := hc.keys r hr
    exact ⟨k, hname⟩
  obtain ⟨hcanonical, hholds⟩ : v.Canonical ∧ h.Holds v :=
    (Heap.fields_of_loaded hload hops).stores (fun r hr => ⟨nofun, fun _ => hr⟩) hv
  constructor
  · intro hanswer hfits
    cases v with
    | null => simp [Value.isAnswer] at hanswer
    | boolean b => simp [Value.isAnswer] at hanswer
    | integer numeral => exact Heap.classify_integer hnames (hcanonical numeral rfl)
    | string s => exact Heap.classify_text hnames s
    | object r => exact Heap.classify_object (hc.named (hfits rfl)).distinct (hholds rfl)
  · intro hnone
    have hword : v.identifier ∈ ["null", "True", "False"] := by
      cases v with
      | null => simp [Value.identifier, Value.literal]
      | boolean b => cases b <;> simp [Value.identifier, Value.literal]
      | integer numeral => simp [Value.isAnswer] at hnone
      | string s => simp [Value.isAnswer] at hnone
      | object r => simp [Value.isAnswer] at hnone
    exact ⟨_, Heap.classify_word hnames hword, rfl⟩

/-- A cell holds a reference to an object, a text that is the name of this object, and a truth
    value. The first two are told apart, and the third one is refused. -/
theorem stored_values_are_read_back_of_name :
    let text := "classes:\n  - \x7bname: Cell, fields: [owner, label, flag]\x7d\nmain:\n" ++
      "  new: \x7btarget: \x7blocal: x\x7d, class: Cell, " ++
      "args: [\x7blocal: this\x7d, \x7bstr: obj1\x7d, \x7bbool: true\x7d]\x7d"
    let entry : Ref := ⟨"obj1", entryClass⟩
    ∃ p, Program.load text = .ok p ∧
      let ops : List (Operation Unit) := [.start p.main, .step ()]
      let h := ((Machine.new p.classes ∅ 0).operateAll none ops).heap
      (∀ op ∈ ops, op.Loaded) ∧ h.Fits ∧ h.Stores (.object entry) ∧ h.Stores (.string "obj1") ∧
        h.Stores (.boolean true) ∧ h.classify "obj1" = .ok (.object entry) ∧
        h.classify "\"obj1\"" = .ok (.string "obj1") ∧
        ∃ cause, h.classify "True" = .error cause ∧
          cause.category? = some .knowledgeContract := by
  intro text entry
  let own : Memory :=
    .ofList [("owner", .object entry), ("label", .string "obj1"), ("flag", .boolean true)]
  have hstate : (Program.load text).toOption.any (fun p =>
      let ops : List (Operation Unit) := [.start p.main, .step ()]
      let h := ((Machine.new p.classes ∅ 0).operateAll none ops).heap
      h.Fits ∧ h.objects.get? ⟨"obj2", "Cell"⟩ = some own) = true := by
    decide +kernel
  obtain ⟨p, hload, hstate⟩ := exists_ok_of_any hstate
  obtain ⟨hfits, hcell⟩ := of_decide_eq_true hstate
  refine ⟨p, hload, ?_⟩
  intro ops h
  have hops : ∀ op ∈ ops, op.Loaded := by
    simpa [ops, Operation.Loaded] using ⟨text, p, hload, rfl⟩
  have hread : ∀ v, h.Stores v → _ := stored_values_are_read_back none hload 0 hops
  have hget : own.get? "owner" = some (.object entry) ∧
      own.get? "label" = some (.string "obj1") ∧ own.get? "flag" = some (.boolean true) := by
    decide
  have howner : h.Stores (.object entry) := .field hcell hget.1
  have hlabel : h.Stores (.string "obj1") := .field hcell hget.2.1
  have hflag : h.Stores (.boolean true) := .field hcell hget.2.2
  exact ⟨hops, hfits, howner, hlabel, hflag, (hread _ howner).1 rfl fun _ => hfits,
    (hread _ hlabel).1 rfl fun _ => hfits, (hread _ hflag).2 rfl⟩

end ObjectMachine
