import ObjectMachine.Yaml.Token

namespace ObjectMachine.Yaml

/-!
# Nodes

The tree that the first document of a text denotes. An alias holds the node it refers to, unless
that node is still open around it.

* `Node` — the tree, every node with the line it starts on, counted from one;
* `Node.isNull` — a scalar that stands for nothing;
* `Node.follow?` — what an alias refers to;
* `Node.ofTokens?` — the tree of a list of tokens;
* `Document.read` — the first document of a text.
-/

/-- A node of a document. -/
inductive Node where
  /-- A scalar; `tag` is a tag given to it, and `quoted` tells whether it is not plain. -/
  | scalar (line : Nat) (tag : Option String) (quoted : Bool) (text : String)
  | sequence (line : Nat) (items : List Node)
  | mapping (line : Nat) (entries : List (Node × Node))
  | reference (line : Nat) (name : String) (target : Option Node)
deriving Repr, Inhabited

/-- The tag of null. -/
def nullTag : String := "!!null"

/-- The tag of texts. -/
def textTag : String := "!!str"

/-- Whether a plain scalar stands for nothing. -/
def spellsNull (text : String) : Bool :=
  text = "" || text = "~" || text = "null" || text = "Null" || text = "NULL"

namespace Node

/-- The line on which a node starts. -/
def line : Node → Nat
  | scalar line _ _ _ => line
  | sequence line _ => line
  | mapping line _ => line
  | reference line _ _ => line

/-- The text of a scalar or the name of an alias; empty for collections. -/
def text : Node → String
  | scalar _ _ _ text => text
  | reference _ name _ => name
  | _ => ""

/-- Whether a node is a scalar that stands for nothing. -/
def isNull : Node → Bool
  | scalar _ tag quoted text =>
    match tag with
    | some tag => tag = nullTag
    | none => !quoted && spellsNull text
  | _ => false

mutual

/-- How many levels of nodes there are; an alias has those of what it refers to beneath it. -/
def depth : Node → Nat
  | scalar _ _ _ _ => 1
  | sequence _ items => depthAll items + 1
  | mapping _ entries => depthEntries entries + 1
  | reference _ _ target => depthTarget target + 1

/-- The depth of the deepest node of a list. -/
def depthAll : List Node → Nat
  | [] => 0
  | n :: rest => max n.depth (depthAll rest)

/-- The depth of the deepest key or value. -/
def depthEntries : List (Node × Node) → Nat
  | [] => 0
  | (k, v) :: rest => max (max k.depth v.depth) (depthEntries rest)

/-- The depth of what an alias refers to. -/
def depthTarget : Option Node → Nat
  | none => 0
  | some n => n.depth

end

/-- The node itself, or the one that an alias refers to. -/
def follow? : Node → Option Node
  | reference _ _ target => target
  | n => some n

end Node

/-- The nodes that have a name; a node that is still open has none yet. -/
abbrev Anchors := List (String × Option Node)

/-- What is given to a node in front of it. -/
structure Properties where
  anchor : Option String
  tag : Option String
  line : Option Nat

/-- A tag in its short form, without the one that says nothing. -/
def shortTag? (handle rest : String) : Option (Option String) :=
  let long := "tag:yaml.org,2002:"
  let short (s : String) : String :=
    if s.startsWith long then "!!" ++ (s.drop long.length).toString else s
  if handle = "" then some (if rest = "!" then none else some (short rest))
  else if handle = "!" then some (some ("!" ++ rest))
  else if handle = "!!" then some (some ("!!" ++ rest))
  else none

/-- Notes the name of a node that is about to be read. -/
def Anchors.declare (as : Anchors) : Option String → Anchors
  | none => as
  | some name => (name, none) :: as

/-- Gives a name to a node that was read. -/
def Anchors.define (as : Anchors) (n : Node) : Option String → Anchors
  | none => as
  | some name => (name, some n) :: as

/-- The anchor and the tag in front of a node, in either order. -/
def readProperties? : List Token → Option (Properties × List Token)
  | ⟨.anchor name, line⟩ :: ⟨.tag handle rest, _⟩ :: ts =>
    (shortTag? handle rest).map fun tag => (⟨some name, tag, some line⟩, ts)
  | ⟨.anchor name, line⟩ :: ts => some (⟨some name, none, some line⟩, ts)
  | ⟨.tag handle rest, line⟩ :: ⟨.anchor name, _⟩ :: ts =>
    (shortTag? handle rest).map fun tag => (⟨some name, tag, some line⟩, ts)
  | ⟨.tag handle rest, line⟩ :: ts =>
    (shortTag? handle rest).map fun tag => (⟨none, tag, some line⟩, ts)
  | ts => some (⟨none, none, none⟩, ts)

/-- The scalar that stands where nothing was written. -/
def emptyNode (line : Nat) : Node :=
  .scalar (line + 1) none false ""

/-- What the next token is; the end of all tokens counts as broken. -/
def peek (ts : List Token) : Mark :=
  match ts with
  | [] => .broken
  | t :: _ => t.mark

/-- The line of the next token. -/
def peekLine (ts : List Token) : Nat :=
  match ts with
  | [] => 0
  | t :: _ => t.line

/-- Where a node is read: whether it can be a block collection, and whether that can be a sequence
that is not indented. -/
structure Place where
  block : Bool
  indentless : Bool

mutual

/-- The node at the front of the tokens. -/
def readNode : (fuel : Nat) → Place → Anchors → List Token → Option (Node × Anchors × List Token)
  | 0, _, _, _ => none
  | fuel + 1, place, as, ts =>
    match ts with
    | ⟨.reference name, line⟩ :: rest =>
      match as.find? fun a => a.1 = name with
      | none => none
      | some (_, target) => some (.reference (line + 1) name target, as, rest)
    | ts => do
      let (props, ts) ← readProperties? ts
      let line := props.line.getD (peekLine ts) + 1
      let as := as.declare props.anchor
      let (node, as, ts) ←
        match peek ts with
        | .scalar quoted text => some (.scalar line props.tag quoted text, as, ts.drop 1)
        | .flowSequence => do
          let (items, as, ts) ← readFlowSequence fuel true as (ts.drop 1)
          some (.sequence line items, as, ts)
        | .flowMapping => do
          let (entries, as, ts) ← readFlowMapping fuel true as (ts.drop 1)
          some (.mapping line entries, as, ts)
        | .blockEntry =>
          if place.indentless then do
            let (items, as, ts) ← readIndentless fuel as ts
            some (.sequence line items, as, ts)
          else none
        | .blockSequence =>
          if place.block then do
            let (items, as, ts) ← readBlockSequence fuel as (ts.drop 1)
            some (.sequence line items, as, ts)
          else none
        | .blockMapping =>
          if place.block then do
            let (entries, as, ts) ← readBlockMapping fuel as (ts.drop 1)
            some (.mapping line entries, as, ts)
          else none
        | .broken => none
        | _ =>
          -- an anchor or a tag may stand alone
          if props.line.isSome then some (.scalar line props.tag false "", as, ts) else none
      return (node, as.define node props.anchor, ts)

/-- The entries of a block sequence, up to its end. -/
def readBlockSequence :
    (fuel : Nat) → Anchors → List Token → Option (List Node × Anchors × List Token)
  | 0, _, _ => none
  | fuel + 1, as, ts =>
    match peek ts with
    | .blockEnd => some ([], as, ts.drop 1)
    | .blockEntry => do
      let dash := peekLine ts
      let ts := ts.drop 1
      let (item, as, ts) ←
        match peek ts with
        | .broken => none
        | .blockEntry | .blockEnd => some (emptyNode dash, as, ts)
        | _ => readNode fuel ⟨true, false⟩ as ts
      let (items, as, ts) ← readBlockSequence fuel as ts
      return (item :: items, as, ts)
    | _ => none

/-- The entries of a block sequence that is not indented, up to the first other token. -/
def readIndentless : (fuel : Nat) → Anchors → List Token → Option (List Node × Anchors × List Token)
  | 0, _, _ => none
  | fuel + 1, as, ts =>
    match peek ts with
    | .broken => none
    | .blockEntry => do
      let dash := peekLine ts
      let ts := ts.drop 1
      let (item, as, ts) ←
        match peek ts with
        | .broken => none
        | .blockEntry | .key | .value | .blockEnd => some (emptyNode dash, as, ts)
        | _ => readNode fuel ⟨true, false⟩ as ts
      let (items, as, ts) ← readIndentless fuel as ts
      return (item :: items, as, ts)
    | _ => some ([], as, ts)

/-- The entries of a block mapping, up to its end. -/
def readBlockMapping :
    (fuel : Nat) → Anchors → List Token → Option (List (Node × Node) × Anchors × List Token)
  | 0, _, _ => none
  | fuel + 1, as, ts =>
    match peek ts with
    | .blockEnd => some ([], as, ts.drop 1)
    | .key => do
      let keyLine := peekLine ts
      let ts := ts.drop 1
      let (key, as, ts) ←
        match peek ts with
        | .broken => none
        | .key | .value | .blockEnd => some (emptyNode keyLine, as, ts)
        | _ => readNode fuel ⟨true, true⟩ as ts
      let (value, as, ts) ←
        match peek ts with
        | .broken => none
        | .value =>
          let colon := peekLine ts
          let ts := ts.drop 1
          match peek ts with
          | .broken => none
          | .key | .value | .blockEnd => some (emptyNode colon, as, ts)
          | _ => readNode fuel ⟨true, true⟩ as ts
        | _ => some (emptyNode (peekLine ts), as, ts)
      let (entries, as, ts) ← readBlockMapping fuel as ts
      return ((key, value) :: entries, as, ts)
    | _ => none

/-- The entries of a flow sequence, up to its end. -/
def readFlowSequence :
    (fuel : Nat) → (first : Bool) → Anchors → List Token → Option (List Node × Anchors × List Token)
  | 0, _, _, _ => none
  | fuel + 1, first, as, ts =>
    if peek ts = .flowSequenceEnd then some ([], as, ts.drop 1)
    else do
      let ts ←
        if first then some ts
        else if peek ts = .flowEntry then some (ts.drop 1)
        else none
      match peek ts with
      | .flowSequenceEnd => some ([], as, ts.drop 1)
      | .key =>
        let line := peekLine ts + 1
        let (key, value, as, ts) ← readPair fuel as (ts.drop 1)
        let (items, as, ts) ← readFlowSequence fuel false as ts
        return (.mapping line [(key, value)] :: items, as, ts)
      | _ =>
        let (item, as, ts) ← readNode fuel ⟨false, false⟩ as ts
        let (items, as, ts) ← readFlowSequence fuel false as ts
        return (item :: items, as, ts)

/-- A key and a value that stand in a flow sequence without braces. -/
def readPair : (fuel : Nat) → Anchors → List Token → Option (Node × Node × Anchors × List Token)
  | 0, _, _ => none
  | fuel + 1, as, ts => do
    let (key, as, ts) ←
      match peek ts with
      | .broken => none
      | .value | .flowEntry | .flowSequenceEnd => some (emptyNode (peekLine ts), as, ts.drop 1)
      | _ => readNode fuel ⟨false, false⟩ as ts
    let (value, as, ts) ←
      match peek ts with
      | .broken => none
      | .value =>
        let ts := ts.drop 1
        match peek ts with
        | .broken => none
        | .flowEntry | .flowSequenceEnd => some (emptyNode (peekLine ts), as, ts)
        | _ => readNode fuel ⟨false, false⟩ as ts
      | _ => some (emptyNode (peekLine ts), as, ts)
    return (key, value, as, ts)

/-- The entries of a flow mapping, up to its end. -/
def readFlowMapping :
    (fuel : Nat) → (first : Bool) → Anchors → List Token →
      Option (List (Node × Node) × Anchors × List Token)
  | 0, _, _, _ => none
  | fuel + 1, first, as, ts =>
    if peek ts = .flowMappingEnd then some ([], as, ts.drop 1)
    else do
      let ts ←
        if first then some ts
        else if peek ts = .flowEntry then some (ts.drop 1)
        else none
      match peek ts with
      | .flowMappingEnd => some ([], as, ts.drop 1)
      | .key =>
        let ts := ts.drop 1
        let (key, as, ts) ←
          match peek ts with
          | .broken => none
          | .value | .flowEntry | .flowMappingEnd => some (emptyNode (peekLine ts), as, ts)
          | _ => readNode fuel ⟨false, false⟩ as ts
        let (value, as, ts) ←
          match peek ts with
          | .broken => none
          | .value =>
            let ts := ts.drop 1
            match peek ts with
            | .broken => none
            | .flowEntry | .flowMappingEnd => some (emptyNode (peekLine ts), as, ts)
            | _ => readNode fuel ⟨false, false⟩ as ts
          | _ => some (emptyNode (peekLine ts), as, ts)
        let (entries, as, ts) ← readFlowMapping fuel false as ts
        return ((key, value) :: entries, as, ts)
      | _ =>
        let (key, as, ts) ← readNode fuel ⟨false, false⟩ as ts
        if peek ts = .broken then none
        else
          let value := emptyNode (peekLine ts)
          let (entries, as, ts) ← readFlowMapping fuel false as ts
          return ((key, value) :: entries, as, ts)

end

/-- The first document of a text. -/
inductive Document where
  /-- The text is not well-formed. -/
  | malformed
  /-- There is no document. -/
  | absent
  | root (n : Node)
deriving Repr, Inhabited

namespace Document

/-- The root of a document whose end has to be visible. -/
def ofContent (ts : List Token) : Document :=
  match readNode (4 * ts.length + 4) ⟨true, false⟩ [] ts with
  | none => malformed
  | some (n, _, rest) => if peek rest = .broken then malformed else root n

/-- The document after its first line. -/
def afterStart (ts : List Token) : Document :=
  match peek ts with
  | .documentStart | .documentEnd | .streamEnd | .version _ _ => root (emptyNode (peekLine ts))
  | _ => ofContent ts

/-- The first document of a list of tokens. -/
def ofTokens (ts : List Token) : Document :=
  match ts with
  | ⟨.streamEnd, _⟩ :: _ => absent
  | ⟨.documentStart, _⟩ :: ts => afterStart ts
  | ⟨.version major minor, _⟩ :: ⟨.documentStart, _⟩ :: ts =>
    if major = 1 && minor = 1 then afterStart ts else malformed
  | ⟨.version _ _, _⟩ :: _ => malformed
  | ts => ofContent ts

/-- The first document of a text. -/
def read (text : String) : Document :=
  ofTokens (Token.scan text)

end Document

end ObjectMachine.Yaml
