namespace ObjectMachine.Text

/-!
# Replacing text

* `replaceFrom` — replaces every occurrence, scanning from left to right;
* `replaceAll` — the same on texts.
-/

/-- Replaces every occurrence of `old` by `new` from left to right, occurrences not
overlapping. The first `skip` characters belong to an occurrence that is already replaced. -/
def replaceFrom (old new : List Char) (skip : Nat) : List Char → List Char
  | [] => []
  | c :: cs =>
    match skip with
    | skip + 1 => replaceFrom old new skip cs
    | 0 =>
      if old.isPrefixOf (c :: cs) then new ++ replaceFrom old new (old.length - 1) cs
      else c :: replaceFrom old new 0 cs

/-- Replaces every occurrence of the non-empty text `old` by `new`. -/
def replaceAll (s old new : String) : String :=
  String.ofList (replaceFrom old.toList new.toList 0 s.toList)

end ObjectMachine.Text
