import ObjectMachine.Cbor.Item
import ObjectMachine.Text.Numeral

namespace ObjectMachine.Cbor

/-!
# What an item holds

Items read as integers, texts, lists and records. Null and undefined stand for the zero of every
type; tags are looked through, except that those for dates and big integers restrict what they
tag.

* `Item.untag?` — the item under its tags;
* `Item.toNat?`, `Item.toInt?`, `Item.toText?`, `Item.toList?` — the contents of an item;
* `Item.toRecord?`, `Record.get` — a map with integer keys, of which the first one counts.
-/

namespace Item

/-- Whether an item stands for the zero of any type. -/
def isNull : Item → Bool
  | simple n => n = 22 || n = 23
  | _ => false

/-- The number in the bytes of a string, the most significant byte first. -/
def magnitude (chunks : List Bytes) : Nat :=
  chunks.flatten.foldl (fun n b => 256 * n + b.toNat) 0

/-- The item under its tags. A date tag needs a text, an epoch tag a number and a big integer tag
a byte string, which counts as an integer. -/
def untag? : Item → Option Item
  | tagged 0 (text chunks) => some (text chunks)
  | tagged 0 _ => none
  | tagged 1 (unsigned n) => some (unsigned n)
  | tagged 1 (negative n) => some (negative n)
  | tagged 1 (float width bits) => some (float width bits)
  | tagged 1 _ => none
  | tagged 2 (bytes chunks) => some (unsigned (magnitude chunks))
  | tagged 2 _ => none
  | tagged 3 (bytes chunks) => some (negative (magnitude chunks))
  | tagged 3 _ => none
  | tagged _ content => content.untag?
  | i => some i

/-- The number in an item, at most `max`. -/
def toNat? (max : Nat) (i : Item) : Option Nat :=
  match i.untag? with
  | some (unsigned n) => if n ≤ max then some n else none
  | some (simple n) =>
    if n = 22 || n = 23 then some 0
    else if n = 20 || n = 21 then none
    else if n ≤ max then some n
    else none
  | _ => none

/-- The 64-bit integer in an item. -/
def toInt? (i : Item) : Option Int :=
  match i.untag? with
  | some (negative n) => if n ≤ Text.maxInt.toNat then some (-1 - (n : Int)) else none
  | _ => (i.toNat? Text.maxInt.toNat).map Int.ofNat

/-- The text of one chunk. -/
def chunkText? (chunk : Bytes) : Option String :=
  String.fromUTF8? ⟨chunk.toArray⟩

/-- The text of a string, every chunk of which has to be valid on its own. -/
def chunksText? : List Bytes → Option String
  | [] => some ""
  | chunk :: rest => do
    let s ← chunkText? chunk
    let t ← chunksText? rest
    some (s ++ t)

/-- The text in an item. -/
def toText? (i : Item) : Option String :=
  match i.untag? with
  | some (text chunks) => chunksText? chunks
  | some i => if i.isNull then some "" else none
  | none => none

/-- The elements of an item. -/
def toList? (i : Item) : Option (List Item) :=
  match i.untag? with
  | some (array items) => some items
  | some i => if i.isNull then some [] else none
  | none => none

end Item

/-- The keys and values of a map. -/
abbrev Record := List (Item × Item)

/-- Whether an item can be a key of a record: an integer, or a text. -/
def Item.isKey : Item → Bool
  | .unsigned _ => true
  | .negative n => n ≤ Text.maxInt.toNat
  | .text chunks => (Item.chunksText? chunks).isSome
  | _ => false

/-- The record in an item. -/
def Item.toRecord? (i : Item) : Option Record :=
  match i.untag? with
  | some (.map pairs) => if pairs.all fun p => p.1.isKey then some pairs else none
  | some i => if i.isNull then some [] else none
  | none => none

/-- The value of the first occurrence of an integer key; null if there is none. -/
def Record.get (key : Nat) : Record → Item
  | [] => .null
  | (.unsigned n, v) :: rest => if n = key then v else Record.get key rest
  | _ :: rest => Record.get key rest

end ObjectMachine.Cbor
