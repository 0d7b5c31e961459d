import ObjectMachine.Yaml.Kind

namespace ObjectMachine.Program

open ObjectMachine.Yaml (Node Document)

/-!
# Outlines

The upper levels of a program document: its classes, their fields and methods, and the main
program. Bodies stay trees. Keys are fixed on these levels, and each occurs once; the key `<<`
adds the entries of other mappings.

* `Outline`, `ClassOutline`, `MethodOutline` — what a document declares;
* `Reading` — a part of the document, and whether all of it has the expected type;
* `Outline.ofNode` — the outline of a document's root.
-/

/-- A method and the tree of its body. -/
structure MethodOutline where
  params : List String
  body : Option Node

/-- A class and its methods by name. -/
structure ClassOutline where
  name : String
  fields : List String
  methods : List (String × MethodOutline)

/-- The classes of a document and the tree of its main program. -/
structure Outline where
  classes : List ClassOutline
  main : Option Node

/-- What was read of a part: no value if it is null or of another type, and whether everything in
it has the expected type. A part that cannot be read at all has no reading. -/
structure Reading (α : Type) where
  value : Option α
  fits : Bool

namespace Reading

/-- The reading of null. -/
def null {α : Type} : Reading α := ⟨none, true⟩

/-- The reading of a part of another type. -/
def misfit {α : Type} : Reading α := ⟨none, false⟩

/-- The values of a list of readings, those without a value left out. -/
def gather {α : Type} (rs : List (Reading α)) : Reading (List α) :=
  ⟨some (rs.filterMap Reading.value), rs.all Reading.fits⟩

end Reading

/-! ### Texts and lists -/

/-- The reading of a scalar where something else is expected. -/
def readNull {α : Type} (tag : Option String) (quoted : Bool) (text : String) :
    Option (Reading α) :=
  (Yaml.scalarContent? tag quoted text).map fun content =>
    if content.isNone then .null else .misfit

/-- A text. -/
def readText (n : Node) : Option (Reading String) := do
  match ← n.follow? with
  | .scalar _ tag quoted text => (Yaml.scalarContent? tag quoted text).map fun c => ⟨c, true⟩
  | _ => some .misfit

/-- A list whose items `read` reads. -/
def readList {α : Type} (read : Node → Option (Reading α)) (n : Node) :
    Option (Reading (List α)) := do
  match ← n.follow? with
  | .scalar _ tag quoted text => readNull tag quoted text
  | .sequence _ items => return .gather (← items.mapM read)
  | _ => some .misfit

/-! ### Mappings -/

/-- Whether a key stands for the entries of other mappings. -/
def isMergeKey : Node → Bool
  | .scalar _ tag quoted text => text = "<<" && (tag = some "!!merge" || (tag = none && !quoted))
  | _ => false

/-- Whether two keys are written alike. -/
def sameKey : Node → Node → Bool
  | .scalar _ _ _ s, .scalar _ _ _ t => s = t
  | .reference _ s _, .reference _ t _ => s = t
  | .sequence _ _, .sequence _ _ => true
  | .mapping _ _, .mapping _ _ => true
  | _, _ => false

/-- Whether a key occurs twice. -/
def hasRepeatedKey : List (Node × Node) → Bool
  | [] => false
  | (key, _) :: rest => rest.any (fun e => sameKey key e.1) || hasRepeatedKey rest

/-- Whether a name occurs twice. -/
def hasRepeatedName : List (String × Node) → Bool
  | [] => false
  | (name, _) :: rest => rest.any (fun e => e.1 = name) || hasRepeatedName rest

/-- The entries of a mapping by name, keys that are null left out. -/
def named (entries : List (Node × Node)) : Option (Reading (List (String × Node))) := do
  let one (e : Node × Node) : Option (Reading (String × Node)) := do
    let key ← readText e.1
    return ⟨key.value.map fun k => (k, e.2), key.fits⟩
  return .gather (← (entries.filter fun e => !isMergeKey e.1).mapM one)

/-- The mappings that a merge key refers to. -/
def mergedMappings? (n : Node) : Option (List (List (Node × Node))) :=
  let one (n : Node) : Option (List (Node × Node)) := do
    match ← n.follow? with
    | .mapping _ entries => some entries
    | _ => none
  match n with
  | .sequence _ items => items.mapM one
  | n => (one n).map fun entries => [entries]

/-- The entries of a mapping by name, its own before the merged ones; a name counts where it
occurs first. Mappings are merged into each other to a bounded depth. -/
def flatten : (depth : Nat) → List (Node × Node) → Option (Reading (List (String × Node)))
  | 0, _ => none
  | depth + 1, entries =>
    if hasRepeatedKey entries then some .misfit
    else do
      let own ← named entries
      let merged ←
        match entries.find? fun e => isMergeKey e.1 with
        | none => some []
        | some (_, source) => (← mergedMappings? source).mapM (flatten depth)
      let add (known : List (String × Node)) (more : Reading (List (String × Node))) :
          List (String × Node) :=
        known ++ (more.value.getD []).filter fun e => !known.any fun k => k.1 = e.1
      let names := own.value.getD []
      return ⟨some (merged.foldl add names),
        own.fits && !hasRepeatedName names && merged.all Reading.fits⟩

/-- The entries of a mapping by name. -/
def readEntries (n : Node) : Option (Reading (List (String × Node))) := do
  let n ← n.follow?
  match n with
  | .scalar _ tag quoted text => readNull tag quoted text
  | .mapping _ entries => flatten n.depth entries
  | _ => some .misfit

/-- The entries of a mapping that has none but the allowed keys. -/
def readRecord (allowed : List String) (n : Node) : Option (Reading (List (String × Node))) := do
  let r ← readEntries n
  return { r with fits := r.fits && (r.value.getD []).all fun e => e.1 ∈ allowed }

/-- What a key of a record holds, as `read` reads it. -/
def readPart {α : Type} (entries : List (String × Node)) (key : String)
    (read : Node → Option (Reading α)) : Option (Reading α) :=
  match entries.find? fun e => e.1 = key with
  | none => some .null
  | some (_, n) => read n

/-- The tree that a key of a record holds. -/
def rawPart (entries : List (String × Node)) (key : String) : Option Node :=
  (entries.find? fun e => e.1 = key).map Prod.snd

/-! ### Declarations -/

/-- A method; null declares one without parameters and body. -/
def MethodOutline.ofNode (n : Node) : Option (Reading MethodOutline) := do
  let r ← readRecord ["params", "body"] n
  let entries := r.value.getD []
  let params ← readPart entries "params" (readList readText)
  return ⟨some ⟨params.value.getD [], rawPart entries "body"⟩, r.fits && params.fits⟩

/-- The methods of a class by name. -/
def readMethods (n : Node) : Option (Reading (List (String × MethodOutline))) := do
  let r ← readEntries n
  let one (e : String × Node) : Option (Reading (String × MethodOutline)) := do
    let m ← MethodOutline.ofNode e.2
    return ⟨m.value.map fun m => (e.1, m), m.fits⟩
  let methods := Reading.gather (← (r.value.getD []).mapM one)
  return { methods with fits := r.fits && methods.fits }

/-- A class; null declares none. -/
def ClassOutline.ofNode (n : Node) : Option (Reading ClassOutline) := do
  let r ← readRecord ["name", "fields", "methods"] n
  match r.value with
  | none => return ⟨none, r.fits⟩
  | some entries =>
    let name ← readPart entries "name" readText
    let fields ← readPart entries "fields" (readList readText)
    let methods ← readPart entries "methods" readMethods
    return ⟨some ⟨name.value.getD "", fields.value.getD [], methods.value.getD []⟩,
      r.fits && name.fits && fields.fits && methods.fits⟩

/-- The outline of a document; null declares nothing. -/
def Outline.ofNode (n : Node) : Option (Reading Outline) := do
  let r ← readRecord ["classes", "main"] n
  let entries := r.value.getD []
  let classes ← readPart entries "classes" (readList ClassOutline.ofNode)
  return ⟨some ⟨classes.value.getD [], rawPart entries "main"⟩, r.fits && classes.fits⟩

end ObjectMachine.Program
