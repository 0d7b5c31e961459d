import ObjectMachine.Cbor.Content
import ObjectMachine.Cbor.Reader

namespace ObjectMachine.Cbor

/-!
# The size of what is read

The reader makes nothing up: a text it has read is no longer than the bytes it was given, and an
array has no more members than the bound allows. Tags and records do not add to it either.

* `Ensures` — a condition on what a reader returns, with one rule for each way to build a reader;
* `Item.Within` — texts and arrays anywhere in an item are bounded;
* `ReadsWithin` — the bound for all five readers, by induction on their fuel;
* `Item.Within.toText?`, `Item.Within.toList?`, `Item.Within.toRecord?` — the bound for what an item
  holds.
-/

/-! ### Conditions on readers -/

/-- Whatever is read satisfies `P`, together with the bytes that are left. -/
def Ensures {α : Type} (P : α → Bytes → Prop) (r : Option (α × Bytes)) : Prop :=
  ∀ a rest, r = some (a, rest) → P a rest

namespace Ensures

variable {α β : Type} {P : α → Bytes → Prop} {Q : β → Bytes → Prop}

protected theorem none : Ensures P none :=
  fun _ _ h => nomatch h

protected theorem some {a : α} {rest : Bytes} (h : P a rest) : Ensures P (some (a, rest)) := by
  intro a' rest' heq
  obtain ⟨rfl, rfl⟩ := Prod.mk.inj (Option.some.inj heq)
  exact h

protected theorem bind {r : Option (α × Bytes)} (hr : Ensures P r)
    {f : α × Bytes → Option (β × Bytes)} (hf : ∀ a rest, P a rest → Ensures Q (f (a, rest))) :
    Ensures Q (r >>= f) := by
  intro b rest h
  obtain ⟨⟨a, mid⟩, hread, hnext⟩ := Option.bind_eq_some_iff.1 h
  exact hf a mid (hr a mid hread) b rest hnext

/-- The bytes do not change while something else is found out. -/
theorem given {γ : Type} {x : Option γ} {f : γ → Option (β × Bytes)}
    (hf : ∀ c, x = some c → Ensures Q (f c)) : Ensures Q (x >>= f) := by
  intro b rest h
  obtain ⟨c, hc, hnext⟩ := Option.bind_eq_some_iff.1 h
  exact hf c hc b rest hnext

protected theorem ite {c : Prop} [Decidable c] {r r' : Option (α × Bytes)}
    (h : c → Ensures P r) (h' : ¬ c → Ensures P r') : Ensures P (if c then r else r') := by
  by_cases hc : c
  · rw [if_pos hc]
    exact h hc
  · rw [if_neg hc]
    exact h' hc

/-- What is refused under a condition is read only if the condition does not hold. -/
theorem refuse {c : Prop} [Decidable c] {r : Option (α × Bytes)} (h : ¬ c → Ensures P r) :
    Ensures P (if c then none else r) :=
  .ite (fun _ => .none) h

end Ensures

theorem ensures_takeBytes? (k : Nat) (bs : Bytes) :
    Ensures (fun chunk rest => chunk.length + rest.length = bs.length) (takeBytes? k bs) := by
  unfold takeBytes?
  refine .ite (fun hk => .some ?_) fun _ => .none
  rw [List.length_take, List.length_drop]
  omega

theorem ensures_readHead (bs : Bytes) :
    Ensures (fun _ rest => rest.length < bs.length) (readHead bs) := by
  cases bs with
  | nil => exact .none
  | cons b bs =>
    rw [readHead]
    refine .given fun width _ => (ensures_takeBytes? width bs).bind fun arg rest hlength => .some ?_
    show rest.length < bs.length + 1
    omega

/-- The chunks of a string are part of the bytes. -/
theorem ensures_readChunks (major fuel : Nat) (bs : Bytes) :
    Ensures (fun chunks rest => chunks.flatten.length + rest.length ≤ bs.length)
      (readChunks major fuel bs) := by
  induction fuel generalizing bs with
  | zero => exact .none
  | succ fuel ih =>
    rw [readChunks]
    refine .ite (fun _ => .some ?_) fun _ => ?_
    · simp
    refine (ensures_readHead bs).bind fun h bs₁ h₁ => .refuse fun _ => ?_
    refine (ensures_takeBytes? h.arg bs₁).bind fun chunk bs₂ h₂ => ?_
    refine (ih bs₂).bind fun chunks bs₃ h₃ => .some ?_
    rw [List.flatten_cons, List.length_append]
    omega

theorem ensures_readString (fuel : Nat) (h : Head) (bs : Bytes) :
    Ensures (fun chunks rest => chunks.flatten.length + rest.length ≤ bs.length)
      (readString fuel h bs) := by
  unfold readString
  refine .ite (fun _ => ensures_readChunks h.major fuel bs) fun _ => ?_
  refine (ensures_takeBytes? h.arg bs).bind fun chunk rest hlength => .some ?_
  simp [← hlength]

/-! ### Bounded items -/

/-- No text anywhere in an item is longer than `n` bytes, and no array has more members than the
    reader allows. The keys of maps do not matter. -/
inductive Item.Within (n : Nat) : Item → Prop where
  | unsigned (k : Nat) : Within n (.unsigned k)
  | negative (k : Nat) : Within n (.negative k)
  | bytes (chunks : List Bytes) : Within n (.bytes chunks)
  | text {chunks : List Bytes} (h : chunks.flatten.length ≤ n) : Within n (.text chunks)
  | array {items : List Item} (hlength : items.length ≤ maxLength)
      (h : ∀ i ∈ items, Within n i) : Within n (.array items)
  | map {pairs : List (Item × Item)} (h : ∀ p ∈ pairs, Within n p.2) : Within n (.map pairs)
  | tagged (tag : Nat) {content : Item} (h : Within n content) : Within n (.tagged tag content)
  | simple (k : Nat) : Within n (.simple k)
  | float (width bits : Nat) : Within n (.float width bits)

/-- With the given fuel all readers return bounded items, and never more bytes than they got. -/
structure ReadsWithin (n fuel : Nat) : Prop where
  item : ∀ depth bs, bs.length ≤ n →
    Ensures (fun i rest => i.Within n ∧ rest.length ≤ n) (readItem fuel depth bs)
  items : ∀ depth count bs, bs.length ≤ n →
    Ensures (fun is rest => (is.length ≤ count ∧ ∀ i ∈ is, i.Within n) ∧ rest.length ≤ n)
      (readItems fuel depth count bs)
  toBreak : ∀ depth limit bs, bs.length ≤ n →
    Ensures (fun is rest => (is.length ≤ limit ∧ ∀ i ∈ is, i.Within n) ∧ rest.length ≤ n)
      (readToBreak fuel depth limit bs)
  pairs : ∀ depth count bs, bs.length ≤ n →
    Ensures (fun ps rest => (∀ p ∈ ps, p.2.Within n) ∧ rest.length ≤ n)
      (readPairs fuel depth count bs)
  pairsToBreak : ∀ depth limit bs, bs.length ≤ n →
    Ensures (fun ps rest => (∀ p ∈ ps, p.2.Within n) ∧ rest.length ≤ n)
      (readPairsToBreak fuel depth limit bs)

theorem within_of_readSimple {n : Nat} {h : Head} {i : Item} (hread : readSimple h = some i) :
    i.Within n := by
  unfold readSimple at hread
  split at hread
  · obtain rfl := Option.some.inj hread
    exact .simple _
  split at hread
  · split at hread
    · simp at hread
    · obtain rfl := Option.some.inj hread
      exact .simple _
  split at hread
  · obtain rfl := Option.some.inj hread
    exact .float _ _
  split at hread
  · obtain rfl := Option.some.inj hread
    exact .float _ _
  split at hread
  · obtain rfl := Option.some.inj hread
    exact .float _ _
  · simp at hread

namespace ReadsWithin

variable {n fuel : Nat}

/-- One more item, given what the readers do with less fuel. -/
theorem item_succ (ih : ReadsWithin n fuel) (depth : Nat) (bs : Bytes) (hbs : bs.length ≤ n) :
    Ensures (fun i rest => i.Within n ∧ rest.length ≤ n) (readItem (fuel + 1) depth bs) := by
  rw [readItem]
  refine (ensures_readHead bs).bind fun h bs hlt => ?_
  have hbs : bs.length ≤ n := by omega
  simp only
  split
  · exact .refuse fun _ => .some ⟨.unsigned _, hbs⟩
  · exact .refuse fun _ => .some ⟨.negative _, hbs⟩
  · refine (ensures_readString fuel h bs).bind fun chunks rest hlength => .some ⟨.bytes _, ?_⟩
    show rest.length ≤ n
    omega
  · refine (ensures_readString fuel h bs).bind fun chunks rest hlength => .some ⟨.text ?_, ?_⟩
    · show chunks.flatten.length ≤ n
      omega
    · show rest.length ≤ n
      omega
  · refine .refuse fun _ => .ite (fun _ => ?_) fun _ => .ite (fun hle => ?_) fun _ => .none
    · exact (ih.toBreak _ _ _ hbs).bind fun is rest hread =>
        .some ⟨.array hread.1.1 hread.1.2, hread.2⟩
    · exact (ih.items _ _ _ hbs).bind fun is rest hread =>
        .some ⟨.array (Nat.le_trans hread.1.1 hle) hread.1.2, hread.2⟩
  · refine .refuse fun _ => .ite (fun _ => ?_) fun _ => .ite (fun _ => ?_) fun _ => .none
    · exact (ih.pairsToBreak _ _ _ hbs).bind fun ps rest hread => .some ⟨.map hread.1, hread.2⟩
    · exact (ih.pairs _ _ _ hbs).bind fun ps rest hread => .some ⟨.map hread.1, hread.2⟩
  · refine .refuse fun _ => .ite (fun _ => .refuse fun _ => ?_) fun _ => ?_
    · exact (ih.item _ _ hbs).bind fun i rest hread => .some ⟨.tagged _ hread.1, hread.2⟩
    · exact (ih.item _ _ hbs).bind fun i rest hread => .some ⟨.tagged _ hread.1, hread.2⟩
  · exact .given fun i hread => .some ⟨within_of_readSimple hread, hbs⟩

theorem items_succ (ih : ReadsWithin n fuel) (depth count : Nat) (bs : Bytes)
    (hbs : bs.length ≤ n) :
    Ensures (fun is rest => (is.length ≤ count ∧ ∀ i ∈ is, i.Within n) ∧ rest.length ≤ n)
      (readItems (fuel + 1) depth count bs) := by
  cases count with
  | zero =>
    rw [readItems]
    exact .some ⟨⟨by simp, by simp⟩, hbs⟩
  | succ count =>
    rw [readItems]
    refine (ih.item _ _ hbs).bind fun i bs₁ h₁ => ?_
    refine (ih.items _ _ _ h₁.2).bind fun is bs₂ h₂ => .some ⟨⟨?_, ?_⟩, h₂.2⟩
    · simpa using h₂.1.1
    · exact List.forall_mem_cons.2 ⟨h₁.1, h₂.1.2⟩

theorem toBreak_succ (ih : ReadsWithin n fuel) (depth limit : Nat) (bs : Bytes)
    (hbs : bs.length ≤ n) :
    Ensures (fun is rest => (is.length ≤ limit ∧ ∀ i ∈ is, i.Within n) ∧ rest.length ≤ n)
      (readToBreak (fuel + 1) depth limit bs) := by
  rw [readToBreak]
  refine .ite (fun _ => .some ⟨⟨by simp, by simp⟩, ?_⟩) fun _ => .refuse fun hlimit => ?_
  · rw [List.length_tail]
    omega
  refine (ih.item _ _ hbs).bind fun i bs₁ h₁ => ?_
  refine (ih.toBreak _ _ _ h₁.2).bind fun is bs₂ h₂ => .some ⟨⟨?_, ?_⟩, h₂.2⟩
  · have hlength := h₂.1.1
    rw [List.length_cons]
    omega
  · exact List.forall_mem_cons.2 ⟨h₁.1, h₂.1.2⟩

theorem pairs_succ (ih : ReadsWithin n fuel) (depth count : Nat) (bs : Bytes)
    (hbs : bs.length ≤ n) :
    Ensures (fun ps rest => (∀ p ∈ ps, Item.Within n p.2) ∧ rest.length ≤ n)
      (readPairs (fuel + 1) depth count bs) := by
  cases count with
  | zero =>
    rw [readPairs]
    exact .some ⟨by simp, hbs⟩
  | succ count =>
    rw [readPairs]
    refine (ih.item _ _ hbs).bind fun k bs₁ h₁ => ?_
    refine (ih.item _ _ h₁.2).bind fun v bs₂ h₂ => ?_
    refine (ih.pairs _ _ _ h₂.2).bind fun ps bs₃ h₃ => .some ⟨?_, h₃.2⟩
    exact List.forall_mem_cons.2 ⟨h₂.1, h₃.1⟩

theorem pairsToBreak_succ (ih : ReadsWithin n fuel) (depth limit : Nat) (bs : Bytes)
    (hbs : bs.length ≤ n) :
    Ensures (fun ps rest => (∀ p ∈ ps, Item.Within n p.2) ∧ rest.length ≤ n)
      (readPairsToBreak (fuel + 1) depth limit bs) := by
  rw [readPairsToBreak]
  refine .ite (fun _ => .some ⟨by simp, ?_⟩) fun _ => .refuse fun _ => ?_
  · rw [List.length_tail]
    omega
  refine (ih.item _ _ hbs).bind fun k bs₁ h₁ => ?_
  refine (ih.item _ _ h₁.2).bind fun v bs₂ h₂ => ?_
  refine (ih.pairsToBreak _ _ _ h₂.2).bind fun ps bs₃ h₃ => .some ⟨?_, h₃.2⟩
  exact List.forall_mem_cons.2 ⟨h₂.1, h₃.1⟩

/-- Without fuel nothing is read, but for lists that are empty. -/
theorem zero (n : Nat) : ReadsWithin n 0 where
  item depth bs hbs := by
    rw [readItem]
    exact .none
  items depth count bs hbs := by
    cases count with
    | zero =>
      rw [readItems]
      exact .some ⟨⟨by simp, by simp⟩, hbs⟩
    | succ count =>
      rw [readItems]
      exact .none
  toBreak depth limit bs hbs := by
    rw [readToBreak]
    exact .none
  pairs depth count bs hbs := by
    cases count with
    | zero =>
      rw [readPairs]
      exact .some ⟨by simp, hbs⟩
    | succ count =>
      rw [readPairs]
      exact .none
  pairsToBreak depth limit bs hbs := by
    rw [readPairsToBreak]
    exact .none

theorem all (n fuel : Nat) : ReadsWithin n fuel := by
  induction fuel with
  | zero => exact zero n
  | succ fuel ih =>
    exact ⟨ih.item_succ, ih.items_succ, ih.toBreak_succ, ih.pairs_succ, ih.pairsToBreak_succ⟩

end ReadsWithin

namespace Item

/-- The item in a byte string is bounded by the length of the string. -/
theorem within_of_decode? {bs : Bytes} {i : Item} (h : decode? bs = some i) :
    i.Within bs.length := by
  unfold decode? at h
  split at h
  · rename_i j hread
    obtain rfl := Option.some.inj h
    exact ((ReadsWithin.all bs.length _).item maxNesting bs (Nat.le_refl _) _ _ hread).1
  · simp at h

/-! ### Bounded contents -/

variable {n : Nat}

/-- What is under the tags of a bounded item is bounded. -/
theorem Within.untag? {i j : Item} (hi : i.Within n) (h : i.untag? = some j) : j.Within n := by
  fun_induction Item.untag? i with
  | case1 chunks =>
    obtain rfl := Option.some.inj h
    cases hi with
    | tagged _ hcontent => exact hcontent
  | case3 k =>
    obtain rfl := Option.some.inj h
    exact .unsigned k
  | case4 k =>
    obtain rfl := Option.some.inj h
    exact .negative k
  | case5 width bits =>
    obtain rfl := Option.some.inj h
    exact .float width bits
  | case7 chunks =>
    obtain rfl := Option.some.inj h
    exact .unsigned _
  | case9 chunks =>
    obtain rfl := Option.some.inj h
    exact .negative _
  | case11 tag content _ _ _ _ _ _ _ _ _ _ ih =>
    cases hi with
    | tagged _ hcontent => exact ih hcontent h
  | case12 =>
    obtain rfl := Option.some.inj h
    exact hi
  | _ => simp at h

/-- A text is as long as its bytes. -/
theorem utf8ByteSize_of_chunkText? {chunk : Bytes} {s : String} (h : chunkText? chunk = some s) :
    s.utf8ByteSize = chunk.length := by
  unfold chunkText? String.fromUTF8? at h
  split at h
  · obtain rfl := Option.some.inj h
    rfl
  · simp at h

theorem utf8ByteSize_of_chunksText? {chunks : List Bytes} {s : String}
    (h : chunksText? chunks = some s) : s.utf8ByteSize = chunks.flatten.length := by
  induction chunks generalizing s with
  | nil =>
    obtain rfl := Option.some.inj h
    rfl
  | cons chunk chunks ih =>
    obtain ⟨t, ht, h⟩ := Option.bind_eq_some_iff.1 h
    obtain ⟨u, hu, h⟩ := Option.bind_eq_some_iff.1 h
    obtain rfl := Option.some.inj h
    rw [String.utf8ByteSize_append, utf8ByteSize_of_chunkText? ht, ih hu, List.flatten_cons,
      List.length_append]

/-- The text in a bounded item is bounded. -/
theorem Within.toText? {i : Item} (hi : i.Within n) {s : String} (h : i.toText? = some s) :
    s.utf8ByteSize ≤ n := by
  unfold Item.toText? at h
  split at h
  · rename_i chunks huntag
    cases hi.untag? huntag with
    | text hlength =>
      rw [utf8ByteSize_of_chunksText? h]
      exact hlength
  · split at h
    · obtain rfl := Option.some.inj h
      exact Nat.zero_le n
    · simp at h
  · simp at h

/-- The elements of a bounded item are not too many, and bounded. -/
theorem Within.toList? {i : Item} (hi : i.Within n) {items : List Item}
    (h : i.toList? = some items) : items.length ≤ maxLength ∧ ∀ j ∈ items, j.Within n := by
  unfold Item.toList? at h
  split at h
  · rename_i items' huntag
    obtain rfl := Option.some.inj h
    cases hi.untag? huntag with
    | array hlength hitems => exact ⟨hlength, hitems⟩
  · split at h
    · obtain rfl := Option.some.inj h
      exact ⟨by simp, by simp⟩
    · simp at h
  · simp at h

/-- The values in a bounded record are bounded. -/
theorem Within.toRecord? {i : Item} (hi : i.Within n) {r : Record} (h : i.toRecord? = some r)
    (key : Nat) : (r.get key).Within n := by
  have hvalues : ∀ p ∈ r, p.2.Within n := by
    unfold Item.toRecord? at h
    split at h
    · rename_i pairs huntag
      split at h
      · obtain rfl := Option.some.inj h
        cases hi.untag? huntag with
        | map hpairs => exact hpairs
      · simp at h
    · split at h
      · obtain rfl := Option.some.inj h
        simp
      · simp at h
    · simp at h
  clear h
  fun_induction Record.get key r with
  | case1 => exact .simple 22
  | case2 => exact hvalues _ List.mem_cons_self
  | case3 k v rest hne ih => exact ih fun p hp => hvalues p (List.mem_cons_of_mem _ hp)
  | case4 p rest hkey ih => exact ih fun q hq => hvalues q (List.mem_cons_of_mem _ hq)

end Item

end ObjectMachine.Cbor
