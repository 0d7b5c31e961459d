namespace ObjectMachine.Cbor

/-!
# CBOR data items

* `Item` — a data item; strings keep the chunks they were written in;
* `Item.encode` — the canonical bytes of an item: shortest heads and definite lengths.
-/

/-- A string of bytes. -/
abbrev Bytes := List UInt8

/-- A data item. -/
inductive Item where
  | unsigned (n : Nat)
  /-- The integer `-1 - n`. -/
  | negative (n : Nat)
  | bytes (chunks : List Bytes)
  | text (chunks : List Bytes)
  | array (items : List Item)
  | map (pairs : List (Item × Item))
  | tagged (tag : Nat) (content : Item)
  | simple (n : Nat)
  | float (width : Nat) (bits : Nat)
deriving Repr, Inhabited

/-- The `width` low bytes of a number, the most significant first. -/
def bigEndian : (width : Nat) → (n : Nat) → Bytes
  | 0, _ => []
  | width + 1, n => bigEndian width (n / 256) ++ [UInt8.ofNat (n % 256)]

/-- The shortest head of an item of major type `major` with argument `n`. -/
def head (major n : Nat) : Bytes :=
  let lead (info : Nat) := UInt8.ofNat (major * 32 + info)
  if n < 24 then [lead n]
  else if n < 256 then lead 24 :: bigEndian 1 n
  else if n < 65536 then lead 25 :: bigEndian 2 n
  else if n < 4294967296 then lead 26 :: bigEndian 4 n
  else lead 27 :: bigEndian 8 n

namespace Item

/-- The null item. -/
abbrev null : Item := .simple 22

/-- The item of an integer. -/
def ofInt : Int → Item
  | .ofNat n => unsigned n
  | .negSucc n => negative n

/-- The item of a text. -/
def ofString (s : String) : Item :=
  text [s.toUTF8.toList]

mutual

/-- The bytes of an item, with the shortest heads and definite lengths. -/
def encode : Item → Bytes
  | unsigned n => head 0 n
  | negative n => head 1 n
  | bytes chunks => head 2 chunks.flatten.length ++ chunks.flatten
  | text chunks => head 3 chunks.flatten.length ++ chunks.flatten
  | array items => head 4 items.length ++ encodeItems items
  | map pairs => head 5 pairs.length ++ encodePairs pairs
  | tagged tag content => head 6 tag ++ content.encode
  | simple n => head 7 n
  | float width bits =>
    let info := if width = 2 then 25 else if width = 4 then 26 else 27
    UInt8.ofNat (7 * 32 + info) :: bigEndian width bits

/-- The bytes of items one after the other. -/
def encodeItems : List Item → Bytes
  | [] => []
  | i :: rest => i.encode ++ encodeItems rest

/-- The bytes of the keys and values of a map. -/
def encodePairs : List (Item × Item) → Bytes
  | [] => []
  | (k, v) :: rest => k.encode ++ v.encode ++ encodePairs rest

end

end Item

end ObjectMachine.Cbor
