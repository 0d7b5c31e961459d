import ObjectMachine.Cbor.Item

namespace ObjectMachine.Cbor

/-!
# Reading CBOR

A byte string is one data item exactly: any width of head and indefinite lengths are accepted,
what follows the item is not. Nesting and the size of arrays and maps are bounded.

* `readHead` — major type, additional information and argument;
* `readItem` — one item off the front of the bytes;
* `Item.decode?` — the item that a whole byte string denotes.
-/

/-- How deep arrays and maps may be nested. -/
def maxNesting : Nat := 32

/-- How many elements an array, and how many pairs a map may have. -/
def maxLength : Nat := 131072

/-- The number that bytes denote, the most significant first. -/
def ofBigEndian (bs : Bytes) : Nat :=
  bs.foldl (fun n b => 256 * n + b.toNat) 0

/-- The first `n` bytes and the others; nothing if there are too few. -/
def takeBytes? (n : Nat) (bs : Bytes) : Option (Bytes × Bytes) :=
  if n ≤ bs.length then some (bs.take n, bs.drop n) else none

/-- The head of an item. -/
structure Head where
  major : Nat
  info : Nat
  arg : Nat
deriving Repr

/-- How many bytes of argument follow an initial byte with the given additional information. -/
def argWidth? (info : Nat) : Option Nat :=
  if info < 24 then some 0
  else if info = 24 then some 1
  else if info = 25 then some 2
  else if info = 26 then some 4
  else if info = 27 then some 8
  else if info = 31 then some 0
  else none

/-- The head at the front of the bytes. -/
def readHead : Bytes → Option (Head × Bytes)
  | [] => none
  | b :: bs => do
    let major := b.toNat / 32
    let info := b.toNat % 32
    let width ← argWidth? info
    let (arg, bs) ← takeBytes? width bs
    some (⟨major, info, if width = 0 then info else ofBigEndian arg⟩, bs)

/-- The byte that ends an item of indefinite length. -/
def breakByte : UInt8 := 0xff

/-- The chunks of a string of indefinite length, up to its break. Every chunk has the major type
of the string and a definite length. -/
def readChunks (major : Nat) : (fuel : Nat) → Bytes → Option (List Bytes × Bytes)
  | 0, _ => none
  | fuel + 1, bs => do
    if bs.head? = some breakByte then some ([], bs.tail)
    else
      let (h, bs) ← readHead bs
      if h.major ≠ major || h.info = 31 then none
      else
        let (chunk, bs) ← takeBytes? h.arg bs
        let (chunks, bs) ← readChunks major fuel bs
        some (chunk :: chunks, bs)

/-- The chunks of a string whose head was read. -/
def readString (fuel : Nat) (h : Head) (bs : Bytes) : Option (List Bytes × Bytes) :=
  if h.info = 31 then readChunks h.major fuel bs
  else do
    let (chunk, bs) ← takeBytes? h.arg bs
    some ([chunk], bs)

/-- Whether the next item is a tag. -/
def startsWithTag (bs : Bytes) : Bool :=
  match bs with
  | [] => false
  | b :: _ => b.toNat / 32 = 6

/-- A simple value or a floating point number. -/
def readSimple (h : Head) : Option Item :=
  if h.info < 24 then some (.simple h.arg)
  else if h.info = 24 then if h.arg < 32 then none else some (.simple h.arg)
  else if h.info = 25 then some (.float 2 h.arg)
  else if h.info = 26 then some (.float 4 h.arg)
  else if h.info = 27 then some (.float 8 h.arg)
  else none

mutual

/-- The item at the front of the bytes; `depth` levels of nesting are left. -/
def readItem : (fuel depth : Nat) → Bytes → Option (Item × Bytes)
  | 0, _, _ => none
  | fuel + 1, depth, bs => do
    let (h, bs) ← readHead bs
    match h.major with
    | 0 => if h.info = 31 then none else some (.unsigned h.arg, bs)
    | 1 => if h.info = 31 then none else some (.negative h.arg, bs)
    | 2 =>
      let (chunks, bs) ← readString fuel h bs
      some (.bytes chunks, bs)
    | 3 =>
      let (chunks, bs) ← readString fuel h bs
      some (.text chunks, bs)
    | 4 =>
      if depth = 0 then none
      else
        let (items, bs) ←
          if h.info = 31 then readToBreak fuel (depth - 1) maxLength bs
          else if h.arg ≤ maxLength then readItems fuel (depth - 1) h.arg bs
          else none
        some (.array items, bs)
    | 5 =>
      if depth = 0 then none
      else
        let (pairs, bs) ←
          if h.info = 31 then readPairsToBreak fuel (depth - 1) maxLength bs
          else if h.arg ≤ maxLength then readPairs fuel (depth - 1) h.arg bs
          else none
        some (.map pairs, bs)
    | 6 =>
      if h.info = 31 then none
      else if startsWithTag bs then
        if depth = 0 then none
        else
          let (content, bs) ← readItem fuel (depth - 1) bs
          some (.tagged h.arg content, bs)
      else
        let (content, bs) ← readItem fuel depth bs
        some (.tagged h.arg content, bs)
    | _ =>
      let i ← readSimple h
      some (i, bs)

/-- A given number of items. -/
def readItems : (fuel depth count : Nat) → Bytes → Option (List Item × Bytes)
  | _, _, 0, bs => some ([], bs)
  | 0, _, _ + 1, _ => none
  | fuel + 1, depth, count + 1, bs => do
    let (i, bs) ← readItem fuel depth bs
    let (rest, bs) ← readItems fuel depth count bs
    some (i :: rest, bs)

/-- At most `limit` items, up to a break. -/
def readToBreak : (fuel depth limit : Nat) → Bytes → Option (List Item × Bytes)
  | 0, _, _, _ => none
  | fuel + 1, depth, limit, bs => do
    if bs.head? = some breakByte then some ([], bs.tail)
    else if limit = 0 then none
    else
      let (i, bs) ← readItem fuel depth bs
      let (rest, bs) ← readToBreak fuel depth (limit - 1) bs
      some (i :: rest, bs)

/-- A given number of keys and values. -/
def readPairs : (fuel depth count : Nat) → Bytes → Option (List (Item × Item) × Bytes)
  | _, _, 0, bs => some ([], bs)
  | 0, _, _ + 1, _ => none
  | fuel + 1, depth, count + 1, bs => do
    let (k, bs) ← readItem fuel depth bs
    let (v, bs) ← readItem fuel depth bs
    let (rest, bs) ← readPairs fuel depth count bs
    some ((k, v) :: rest, bs)

/-- At most `limit` keys and values, up to a break. -/
def readPairsToBreak : (fuel depth limit : Nat) → Bytes → Option (List (Item × Item) × Bytes)
  | 0, _, _, _ => none
  | fuel + 1, depth, limit, bs => do
    if bs.head? = some breakByte then some ([], bs.tail)
    else if limit = 0 then none
    else
      let (k, bs) ← readItem fuel depth bs
      let (v, bs) ← readItem fuel depth bs
      let (rest, bs) ← readPairsToBreak fuel depth (limit - 1) bs
      some ((k, v) :: rest, bs)

end

/-- The item that a byte string denotes. Every item takes at least one byte, so twice the number
of bytes is fuel enough. -/
def Item.decode? (bs : Bytes) : Option Item :=
  match readItem (2 * bs.length + 2) maxNesting bs with
  | some (i, []) => some i
  | _ => none

end ObjectMachine.Cbor
