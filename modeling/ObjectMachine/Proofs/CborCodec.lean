import ObjectMachine.Cbor.Content
import ObjectMachine.Cbor.Reader

namespace ObjectMachine.Cbor

/-!
# What is written can be read back

An item is written as a head, which gives its kind and a number, and a body. The head says how much
belongs to the item, so items can be written one after the other and still be told apart:

* `readHead_head` — the head that was written is the head that is read;
* `Item.Plain` — integers, texts in one piece, null, and arrays and maps of these, with lengths that
  have a head;
* `Item.Plain.encode_inj` — different items are written differently, whatever follows them;
* `Item.fits` — nesting and lengths are within the bounds of the reader;
* `Item.Plain.readsBack` — an item that fits is read back, and one that does not is refused;
* `Item.Plain.decode?_encode` — the same for a whole byte string.
-/

/-! ### Heads -/

/-- How many numbers have a head: the argument has at most eight bytes. -/
abbrev headLimit : Nat := Text.modulus

@[simp] theorem length_bigEndian (width n : Nat) : (bigEndian width n).length = width := by
  induction width generalizing n with
  | zero => rfl
  | succ width ih => simp [bigEndian, ih]

theorem ofBigEndian_append (bs : Bytes) (b : UInt8) :
    ofBigEndian (bs ++ [b]) = 256 * ofBigEndian bs + b.toNat := by
  unfold ofBigEndian
  rw [List.foldl_append]
  rfl

/-- The bytes of a number denote its remainder. -/
theorem ofBigEndian_bigEndian (width n : Nat) :
    ofBigEndian (bigEndian width n) = n % Nat.pow 256 width := by
  induction width generalizing n with
  | zero =>
    show 0 = n % 1
    omega
  | succ width ih =>
    have hbyte : (UInt8.ofNat (n % 256)).toNat = n % 256 := by
      rw [UInt8.toNat_ofNat']
      omega
    have hpow : Nat.pow 256 (width + 1) = 256 * Nat.pow 256 width := Nat.mul_comm _ 256
    have hsplit : n % (256 * Nat.pow 256 width) = n % 256 + 256 * (n / 256 % Nat.pow 256 width) :=
      Nat.mod_mul
    rw [bigEndian, ofBigEndian_append, ih, hbyte, hpow, hsplit]
    omega

/-- The additional information in the shortest head with argument `n`. -/
def headInfo (n : Nat) : Nat :=
  if n < 24 then n
  else if n < 256 then 24
  else if n < 65536 then 25
  else if n < 4294967296 then 26
  else 27

/-- How many bytes follow the initial byte of the shortest head with argument `n`. -/
def headWidth (n : Nat) : Nat :=
  if n < 24 then 0
  else if n < 256 then 1
  else if n < 65536 then 2
  else if n < 4294967296 then 4
  else 8

theorem head_eq (major n : Nat) :
    head major n = UInt8.ofNat (major * 32 + headInfo n) :: bigEndian (headWidth n) n := by
  unfold head headInfo headWidth
  split
  · rfl
  split
  · rfl
  split
  · rfl
  split
  · rfl
  · rfl

theorem headInfo_lt (n : Nat) : headInfo n < 28 := by
  unfold headInfo
  split
  · omega
  split
  · omega
  split
  · omega
  split <;> omega

theorem argWidth?_headInfo (n : Nat) : argWidth? (headInfo n) = some (headWidth n) := by
  unfold headInfo headWidth
  split
  · rename_i h
    exact if_pos h
  split
  · rfl
  split
  · rfl
  split
  · rfl
  · rfl

/-- The argument of a head stands in the initial byte or in the bytes after it. -/
theorem argument_eq {n : Nat} (h : n < headLimit) :
    (if headWidth n = 0 then headInfo n else ofBigEndian (bigEndian (headWidth n) n)) = n := by
  rw [ofBigEndian_bigEndian]
  unfold headWidth headInfo
  by_cases h₀ : n < 24
  · simp only [h₀, if_true]
  by_cases h₁ : n < 256
  · simp only [h₀, h₁, if_true, if_false]
    exact Nat.mod_eq_of_lt h₁
  by_cases h₂ : n < 65536
  · simp only [h₀, h₁, h₂, if_true, if_false]
    exact Nat.mod_eq_of_lt h₂
  by_cases h₄ : n < 4294967296
  · simp only [h₀, h₁, h₂, h₄, if_true, if_false]
    exact Nat.mod_eq_of_lt h₄
  · simp only [h₀, h₁, h₂, h₄, if_false]
    exact Nat.mod_eq_of_lt h

theorem takeBytes?_append (bs rest : Bytes) :
    takeBytes? bs.length (bs ++ rest) = some (bs, rest) := by
  unfold takeBytes?
  rw [if_pos (by simp), List.take_left, List.drop_left]

/-- The head that was written is the head that is read. -/
theorem readHead_head {major n : Nat} (hmajor : major < 8) (hn : n < headLimit) (rest : Bytes) :
    readHead (head major n ++ rest) = some (⟨major, headInfo n, n⟩, rest) := by
  have hinfo : headInfo n < 28 := headInfo_lt n
  have hlead : (UInt8.ofNat (major * 32 + headInfo n)).toNat = major * 32 + headInfo n := by
    rw [UInt8.toNat_ofNat']
    omega
  have hdiv : (major * 32 + headInfo n) / 32 = major := by omega
  have hmod : (major * 32 + headInfo n) % 32 = headInfo n := by omega
  have htake : takeBytes? (headWidth n) (bigEndian (headWidth n) n ++ rest) =
      some (bigEndian (headWidth n) n, rest) := by
    have h := takeBytes?_append (bigEndian (headWidth n) n) rest
    rwa [length_bigEndian] at h
  rw [head_eq, List.cons_append, readHead, hlead, hdiv, hmod, argWidth?_headInfo]
  simp only [Option.bind_eq_bind, Option.bind_some, htake, argument_eq hn]

/-- Heads that are written alike are alike, whatever follows them. -/
theorem head_append_inj {major major' n n' : Nat} (hmajor : major < 8) (hmajor' : major' < 8)
    (hn : n < headLimit) (hn' : n' < headLimit) {rest rest' : Bytes}
    (h : head major n ++ rest = head major' n' ++ rest') :
    major = major' ∧ n = n' ∧ rest = rest' := by
  have hread := congrArg readHead h
  rw [readHead_head hmajor hn, readHead_head hmajor' hn'] at hread
  obtain ⟨hhead, hrest⟩ := Prod.mk.inj (Option.some.inj hread)
  obtain ⟨hm, -, ha⟩ := Head.mk.inj hhead
  exact ⟨hm, ha, hrest⟩

/-! ### Items that are read as they were written -/

namespace Item

/-- Integers, texts in one piece, null, and arrays and maps of these, with arguments and lengths
    that have a head. -/
inductive Plain : Item → Prop where
  | unsigned {n : Nat} (hn : n < headLimit) : Plain (.unsigned n)
  | negative {n : Nat} (hn : n < headLimit) : Plain (.negative n)
  | text {chunk : Bytes} (hn : chunk.length < headLimit) : Plain (.text [chunk])
  | array {items : List Item} (hn : items.length < headLimit) (hitems : ∀ i ∈ items, Plain i) :
      Plain (.array items)
  | map {pairs : List (Item × Item)} (hn : pairs.length < headLimit)
      (hkeys : ∀ p ∈ pairs, Plain p.1) (hvalues : ∀ p ∈ pairs, Plain p.2) : Plain (.map pairs)
  | null : Plain .null

/-- The major type of an item. -/
def major : Item → Nat
  | unsigned _ => 0
  | negative _ => 1
  | bytes _ => 2
  | text _ => 3
  | array _ => 4
  | map _ => 5
  | tagged _ _ => 6
  | simple _ | float _ _ => 7

/-- The argument in the head of an item. -/
def argument : Item → Nat
  | unsigned n | negative n | simple n => n
  | bytes chunks | text chunks => chunks.flatten.length
  | array items => items.length
  | map pairs => pairs.length
  | tagged tag _ => tag
  | float _ bits => bits

/-- What follows the head of an item. -/
def body : Item → Bytes
  | bytes chunks | text chunks => chunks.flatten
  | array items => encodeItems items
  | map pairs => encodePairs pairs
  | tagged _ content => content.encode
  | _ => []

/-- A plain item is written as a head and a body. -/
theorem Plain.encode_eq {i : Item} (h : i.Plain) :
    i.encode = head i.major i.argument ++ i.body := by
  cases h with
  | unsigned hn => simp [encode, major, argument, body]
  | negative hn => simp [encode, major, argument, body]
  | text hn => simp [encode, major, argument, body]
  | array hn hitems => simp [encode, major, argument, body]
  | map hn hkeys hvalues => simp [encode, major, argument, body]
  | null => simp [encode, major, argument, body]

theorem major_lt (i : Item) : i.major < 8 := by
  cases i <;> simp [major]

theorem Plain.argument_lt {i : Item} (h : i.Plain) : i.argument < headLimit := by
  cases h with
  | unsigned hn => exact hn
  | negative hn => exact hn
  | text hn => simpa [argument] using hn
  | array hn hitems => exact hn
  | map hn hkeys hvalues => exact hn
  | null => simp [argument, Text.modulus]

theorem Plain.encode_ne_nil {i : Item} (h : i.Plain) : 0 < i.encode.length := by
  rw [h.encode_eq, head_eq]
  simp

/-! ### Different items are written differently -/

/-- Lists of items are told apart if their items are. -/
theorem encodeItems_inj {items items' : List Item}
    (h : ∀ i ∈ items, ∀ j ∈ items', ∀ r r', i.encode ++ r = j.encode ++ r' → i = j ∧ r = r')
    (hlength : items.length = items'.length) {r r' : Bytes}
    (heq : encodeItems items ++ r = encodeItems items' ++ r') : items = items' ∧ r = r' := by
  induction items generalizing items' with
  | nil =>
    obtain rfl : items' = [] := List.eq_nil_of_length_eq_zero hlength.symm
    exact ⟨rfl, heq⟩
  | cons i items ih =>
    cases items' with
    | nil => exact absurd hlength (by simp)
    | cons j items' =>
      rw [encodeItems, encodeItems, List.append_assoc, List.append_assoc] at heq
      obtain ⟨rfl, hrest⟩ := h i (by simp) j (by simp) _ _ heq
      have htail : ∀ i ∈ items, ∀ j ∈ items', ∀ r r',
          i.encode ++ r = j.encode ++ r' → i = j ∧ r = r' :=
        fun i hi j hj => h i (by simp [hi]) j (by simp [hj])
      obtain ⟨rfl, hr⟩ := ih htail (by simpa using hlength) hrest
      exact ⟨rfl, hr⟩

/-- Lists of keys and values are told apart if their keys and values are. -/
theorem encodePairs_inj {pairs pairs' : List (Item × Item)}
    (hk : ∀ p ∈ pairs, ∀ q ∈ pairs', ∀ r r',
      p.1.encode ++ r = q.1.encode ++ r' → p.1 = q.1 ∧ r = r')
    (hv : ∀ p ∈ pairs, ∀ q ∈ pairs', ∀ r r',
      p.2.encode ++ r = q.2.encode ++ r' → p.2 = q.2 ∧ r = r')
    (hlength : pairs.length = pairs'.length) {r r' : Bytes}
    (heq : encodePairs pairs ++ r = encodePairs pairs' ++ r') : pairs = pairs' ∧ r = r' := by
  induction pairs generalizing pairs' with
  | nil =>
    obtain rfl : pairs' = [] := List.eq_nil_of_length_eq_zero hlength.symm
    exact ⟨rfl, heq⟩
  | cons p pairs ih =>
    cases pairs' with
    | nil => exact absurd hlength (by simp)
    | cons q pairs' =>
      obtain ⟨k, v⟩ := p
      obtain ⟨k', v'⟩ := q
      simp only [encodePairs, List.append_assoc] at heq
      obtain ⟨rfl, hvalue⟩ := hk (k, v) (by simp) (k', v') (by simp) _ _ heq
      obtain ⟨rfl, hrest⟩ := hv (k, v) (by simp) (k, v') (by simp) _ _ hvalue
      obtain ⟨rfl, hr⟩ := ih (fun p hp q hq => hk p (by simp [hp]) q (by simp [hq]))
        (fun p hp q hq => hv p (by simp [hp]) q (by simp [hq])) (by simpa using hlength) hrest
      exact ⟨rfl, hr⟩

/-- Plain items that are written alike have the same head, and are alike if their bodies are. -/
theorem Plain.head_eq_of_encode {i j : Item} (hi : i.Plain) (hj : j.Plain) {r r' : Bytes}
    (h : i.encode ++ r = j.encode ++ r') :
    i.major = j.major ∧ i.argument = j.argument ∧ i.body ++ r = j.body ++ r' := by
  rw [hi.encode_eq, hj.encode_eq, List.append_assoc, List.append_assoc] at h
  exact head_append_inj i.major_lt j.major_lt hi.argument_lt hj.argument_lt h

/-- Plain items that are written alike are alike, whatever follows them. -/
theorem Plain.encode_append_inj {i j : Item} (hi : i.Plain) (hj : j.Plain) {r r' : Bytes}
    (h : i.encode ++ r = j.encode ++ r') : i = j ∧ r = r' := by
  induction hi generalizing j r r' with
  | @unsigned n hn =>
    obtain ⟨hmajor, hargument, hbody⟩ := (Plain.unsigned hn).head_eq_of_encode hj h
    cases hj with
    | unsigned hn' => exact ⟨congrArg _ hargument, hbody⟩
    | _ => exact absurd hmajor (by simp [major])
  | @negative n hn =>
    obtain ⟨hmajor, hargument, hbody⟩ := (Plain.negative hn).head_eq_of_encode hj h
    cases hj with
    | negative hn' => exact ⟨congrArg _ hargument, hbody⟩
    | _ => exact absurd hmajor (by simp [major])
  | @text chunk hn =>
    obtain ⟨hmajor, hargument, hbody⟩ := (Plain.text hn).head_eq_of_encode hj h
    cases hj with
    | @text chunk' hn' =>
      -- the bodies have the length that the heads give
      have hlength : chunk.length = chunk'.length := by simpa [argument] using hargument
      have hchunks : chunk ++ r = chunk' ++ r' := by simpa [body] using hbody
      obtain ⟨rfl, hr⟩ := List.append_inj hchunks hlength
      exact ⟨rfl, hr⟩
    | _ => exact absurd hmajor (by simp [major])
  | @array items hn hitems ih =>
    obtain ⟨hmajor, hargument, hbody⟩ := (Plain.array hn hitems).head_eq_of_encode hj h
    cases hj with
    | array hn' hitems' =>
      obtain ⟨rfl, hr⟩ :=
        encodeItems_inj (fun i hi j hj r r' => ih i hi (hitems' j hj)) hargument hbody
      exact ⟨rfl, hr⟩
    | _ => exact absurd hmajor (by simp [major])
  | @map pairs hn hkeys hvalues ihk ihv =>
    obtain ⟨hmajor, hargument, hbody⟩ := (Plain.map hn hkeys hvalues).head_eq_of_encode hj h
    cases hj with
    | map hn' hkeys' hvalues' =>
      obtain ⟨rfl, hr⟩ := encodePairs_inj (fun p hp q hq r r' => ihk p hp (hkeys' q hq))
        (fun p hp q hq r r' => ihv p hp (hvalues' q hq)) hargument hbody
      exact ⟨rfl, hr⟩
    | _ => exact absurd hmajor (by simp [major])
  | null =>
    obtain ⟨hmajor, -, hbody⟩ := Plain.null.head_eq_of_encode hj h
    cases hj with
    | null => exact ⟨rfl, hbody⟩
    | _ => exact absurd hmajor (by simp [major])

/-- Plain items are told apart by how they are written. -/
theorem Plain.encode_inj {i j : Item} (hi : i.Plain) (hj : j.Plain) (h : i.encode = j.encode) :
    i = j := by
  have happend : i.encode ++ [] = j.encode ++ [] := by rw [h]
  exact (hi.encode_append_inj hj happend).1

/-! ### Reading -/

mutual

/-- Whether nesting and lengths of an item are within the bounds of the reader, if `depth` levels of
    nesting are left. -/
def fits (depth : Nat) : Item → Bool
  | array items => decide (depth ≠ 0 ∧ items.length ≤ maxLength) && allFit (depth - 1) items
  | map pairs => decide (depth ≠ 0 ∧ pairs.length ≤ maxLength) && allPairsFit (depth - 1) pairs
  | _ => true

/-- Whether all items of a list fit. -/
def allFit (depth : Nat) : List Item → Bool
  | [] => true
  | i :: items => i.fits depth && allFit depth items

/-- Whether all keys and values of a list fit. -/
def allPairsFit (depth : Nat) : List (Item × Item) → Bool
  | [] => true
  | (k, v) :: pairs => (k.fits depth && v.fits depth) && allPairsFit depth pairs

end

/-- With enough fuel, what was written of an item is read back if it fits, and refused if not. -/
def ReadsBack (i : Item) : Prop :=
  ∀ fuel depth rest, 2 * i.encode.length ≤ fuel + 1 →
    readItem fuel depth (i.encode ++ rest) = if i.fits depth then some (i, rest) else none

theorem readItems_encodeItems {items : List Item} (hplain : ∀ i ∈ items, i.Plain)
    (h : ∀ i ∈ items, i.ReadsBack) (fuel depth : Nat) (rest : Bytes)
    (hfuel : 2 * (encodeItems items).length ≤ fuel) :
    readItems fuel depth items.length (encodeItems items ++ rest) =
      if allFit depth items then some (items, rest) else none := by
  induction items generalizing fuel with
  | nil => simp [readItems, encodeItems, allFit]
  | cons i items ih =>
    rw [encodeItems, List.length_append] at hfuel
    have hpos : 0 < i.encode.length := (hplain i (by simp)).encode_ne_nil
    obtain ⟨fuel, rfl⟩ : ∃ k, fuel = k + 1 := ⟨fuel - 1, by omega⟩
    have hfirst := h i (by simp) fuel depth (encodeItems items ++ rest) (by omega)
    have hothers := ih (fun j hj => hplain j (by simp [hj])) (fun j hj => h j (by simp [hj])) fuel
      (by omega)
    rw [encodeItems, List.append_assoc, List.length_cons, readItems, hfirst, allFit]
    cases i.fits depth with
    | false => rfl
    | true =>
      simp only [if_true, Option.bind_eq_bind, Option.bind_some, hothers, Bool.true_and]
      cases allFit depth items <;> rfl

theorem readPairs_encodePairs {pairs : List (Item × Item)} (hkeys : ∀ p ∈ pairs, p.1.Plain)
    (hvalues : ∀ p ∈ pairs, p.2.Plain) (hk : ∀ p ∈ pairs, p.1.ReadsBack)
    (hv : ∀ p ∈ pairs, p.2.ReadsBack) (fuel depth : Nat) (rest : Bytes)
    (hfuel : 2 * (encodePairs pairs).length ≤ fuel) :
    readPairs fuel depth pairs.length (encodePairs pairs ++ rest) =
      if allPairsFit depth pairs then some (pairs, rest) else none := by
  induction pairs generalizing fuel with
  | nil => simp [readPairs, encodePairs, allPairsFit]
  | cons p pairs ih =>
    obtain ⟨k, v⟩ := p
    simp only [encodePairs, List.length_append] at hfuel
    have hpos : 0 < k.encode.length := (hkeys (k, v) (by simp)).encode_ne_nil
    obtain ⟨fuel, rfl⟩ : ∃ n, fuel = n + 1 := ⟨fuel - 1, by omega⟩
    have hkey := hk (k, v) (by simp) fuel depth (v.encode ++ (encodePairs pairs ++ rest))
      (show 2 * k.encode.length ≤ fuel + 1 by omega)
    have hvalue := hv (k, v) (by simp) fuel depth (encodePairs pairs ++ rest)
      (show 2 * v.encode.length ≤ fuel + 1 by omega)
    have hothers := ih (fun q hq => hkeys q (by simp [hq])) (fun q hq => hvalues q (by simp [hq]))
      (fun q hq => hk q (by simp [hq])) (fun q hq => hv q (by simp [hq])) fuel (by omega)
    simp only [encodePairs, List.append_assoc, List.length_cons, readPairs]
    simp only at hkey hvalue
    rw [hkey, allPairsFit]
    cases k.fits depth with
    | false => rfl
    | true =>
      simp only [if_true, Option.bind_eq_bind, Option.bind_some, hvalue, Bool.true_and]
      cases v.fits depth with
      | false => rfl
      | true =>
        simp only [if_true, Option.bind_some, hothers, Bool.true_and]
        cases allPairsFit depth pairs <;> rfl

/-- The reader first reads the head of a plain item. -/
theorem Plain.readHead_encode {i : Item} (h : i.Plain) (rest : Bytes) :
    readHead (i.encode ++ rest) =
      some (⟨i.major, headInfo i.argument, i.argument⟩, i.body ++ rest) := by
  rw [h.encode_eq, List.append_assoc]
  exact readHead_head i.major_lt h.argument_lt (i.body ++ rest)

/-- The body is shorter than the item. -/
theorem Plain.length_body_lt {i : Item} (h : i.Plain) : i.body.length < i.encode.length := by
  rw [h.encode_eq, head_eq, List.length_append]
  simp

theorem headInfo_ne (n : Nat) : headInfo n ≠ 31 := by
  have h := headInfo_lt n
  omega

/-- Every plain item is read back as far as it fits. -/
theorem Plain.readsBack {i : Item} (h : i.Plain) : i.ReadsBack := by
  induction h with
  | @unsigned n hn =>
    intro fuel depth rest hfuel
    have hplain : (Item.unsigned n).Plain := .unsigned hn
    have hpos := hplain.encode_ne_nil
    obtain ⟨fuel, rfl⟩ : ∃ k, fuel = k + 1 := ⟨fuel - 1, by omega⟩
    rw [readItem, hplain.readHead_encode]
    simp [major, argument, body, fits, headInfo_ne]
  | @negative n hn =>
    intro fuel depth rest hfuel
    have hplain : (Item.negative n).Plain := .negative hn
    have hpos := hplain.encode_ne_nil
    obtain ⟨fuel, rfl⟩ : ∃ k, fuel = k + 1 := ⟨fuel - 1, by omega⟩
    rw [readItem, hplain.readHead_encode]
    simp [major, argument, body, fits, headInfo_ne]
  | @text chunk hn =>
    intro fuel depth rest hfuel
    have hplain : (Item.text [chunk]).Plain := .text hn
    have hpos := hplain.encode_ne_nil
    obtain ⟨fuel, rfl⟩ : ∃ k, fuel = k + 1 := ⟨fuel - 1, by omega⟩
    rw [readItem, hplain.readHead_encode]
    simp [major, argument, body, fits, headInfo_ne, readString, takeBytes?_append]
  | @array items hn hitems ih =>
    intro fuel depth rest hfuel
    have hplain : (Item.array items).Plain := .array hn hitems
    have hbody : (encodeItems items).length < (Item.array items).encode.length :=
      hplain.length_body_lt
    obtain ⟨fuel, rfl⟩ : ∃ k, fuel = k + 1 := ⟨fuel - 1, by omega⟩
    have hread := readItems_encodeItems hitems ih fuel (depth - 1) rest (by omega)
    rw [readItem, hplain.readHead_encode]
    simp only [major, argument, body, fits]
    by_cases hdepth : depth = 0
    · simp [hdepth]
    by_cases hlength : items.length ≤ maxLength
    · by_cases hfit : allFit (depth - 1) items = true
      · simp [hdepth, hlength, hread, hfit, headInfo_ne]
      · simp [hdepth, hlength, hread, hfit, headInfo_ne]
    · simp [hdepth, hlength, headInfo_ne]
  | @map pairs hn hkeys hvalues ihk ihv =>
    intro fuel depth rest hfuel
    have hplain : (Item.map pairs).Plain := .map hn hkeys hvalues
    have hbody : (encodePairs pairs).length < (Item.map pairs).encode.length :=
      hplain.length_body_lt
    obtain ⟨fuel, rfl⟩ : ∃ k, fuel = k + 1 := ⟨fuel - 1, by omega⟩
    have hread := readPairs_encodePairs hkeys hvalues ihk ihv fuel (depth - 1) rest (by omega)
    rw [readItem, hplain.readHead_encode]
    simp only [major, argument, body, fits]
    by_cases hdepth : depth = 0
    · simp [hdepth]
    by_cases hlength : pairs.length ≤ maxLength
    · by_cases hfit : allPairsFit (depth - 1) pairs = true
      · simp [hdepth, hlength, hread, hfit, headInfo_ne]
      · simp [hdepth, hlength, hread, hfit, headInfo_ne]
    · simp [hdepth, hlength, headInfo_ne]
  | null =>
    intro fuel depth rest hfuel
    have hpos := Plain.null.encode_ne_nil
    obtain ⟨fuel, rfl⟩ : ∃ k, fuel = k + 1 := ⟨fuel - 1, by omega⟩
    rw [readItem, Plain.null.readHead_encode]
    simp [major, argument, body, fits, headInfo, readSimple]

/-- The byte string that was written for a plain item denotes this item if it fits, and nothing if
    not. -/
theorem Plain.decode?_encode {i : Item} (h : i.Plain) :
    Item.decode? i.encode = if i.fits maxNesting then some i else none := by
  have hread := h.readsBack (2 * i.encode.length + 2) maxNesting [] (by omega)
  rw [List.append_nil] at hread
  rw [Item.decode?, hread]
  cases i.fits maxNesting <;> rfl

end Item

end ObjectMachine.Cbor
