import ObjectMachine.Text.Prefixed
import ObjectMachine.Yaml.Node

namespace ObjectMachine.Yaml

/-!
# Kinds of scalars

What a scalar stands for by its spelling, and whether a tag given to it agrees with that.

* `spellsTruth`, `spellsInteger`, `spellsFloat` — what a plain text looks like;
* `Node.content?` — the text of a scalar, nothing for null, or a clash with its tag.
-/

/-- Whether a plain text is a truth value. -/
def spellsTruth (text : String) : Bool :=
  text ∈ ["true", "True", "TRUE", "false", "False", "FALSE"]

/-- Whether a plain text is an integer of 64 bits, with or without a sign bit. -/
def spellsInteger (text : String) : Bool :=
  let cs := text.toList.filter (· ≠ '_')
  match Text.signedPrefixed? cs with
  | none => false
  | some n => Text.fits n || (cs.head?.all Text.isDigit && 0 ≤ n && n < Text.modulus)

/-- Whether nothing or an exponent is left. -/
def spellsExponent : List Char → Bool
  | [] => true
  | c :: cs =>
    (c = 'e' || c = 'E') &&
      match cs with
      | s :: ds => (Text.digits? (if s = '+' || s = '-' then ds else cs)).isSome
      | [] => false

/-- Whether a list of characters is a decimal fraction without a sign. -/
def spellsFraction (cs : List Char) : Bool :=
  let whole := cs.takeWhile Text.isDigit
  match cs.dropWhile Text.isDigit with
  | '.' :: rest =>
    let places := rest.takeWhile Text.isDigit
    !(whole.isEmpty && places.isEmpty) && spellsExponent (rest.dropWhile Text.isDigit)
  | rest => !whole.isEmpty && spellsExponent rest

/-- Whether a plain text is a number with a fraction, an infinity or no number. -/
def spellsFloat (text : String) : Bool :=
  let special := ["inf", "Inf", "INF"]
  let unsigned (cs : List Char) : Bool :=
    spellsFraction (cs.filter (· ≠ '_')) || special.any fun s => cs = '.' :: s.toList
  text ∈ [".nan", ".NaN", ".NAN"] ||
    match text.toList with
    | '+' :: cs => unsigned cs
    | '-' :: cs => unsigned cs
    | cs => unsigned cs

/-- Whether a text can have a tag. -/
def agrees (tag text : String) : Bool :=
  match tag with
  | "!!str" => true
  | "!!null" => spellsNull text
  | "!!bool" => spellsTruth text
  | "!!int" => spellsInteger text
  | "!!float" => spellsInteger text || spellsFloat text
  | _ => false

/-- What a scalar holds: its text, or nothing if it is null. There is no answer if its tag does
not fit. -/
def scalarContent? (tag : Option String) (quoted : Bool) (text : String) :
    Option (Option String) :=
  match tag with
  | none => some (if !quoted && spellsNull text then none else some text)
  | some tag =>
    if agrees tag text then some (if tag = nullTag then none else some text) else none

end ObjectMachine.Yaml
