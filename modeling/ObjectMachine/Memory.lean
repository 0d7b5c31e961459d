import ObjectMachine.SortedMap
import ObjectMachine.Value

namespace ObjectMachine

/-!
# Memories

The locals of a frame and the fields of an object: values by name, in the order of their names.
-/

/-- Values by name. -/
abbrev Memory := SortedMap String Value

/-- How a memory is shown: its bindings in the order of their names, between braces. -/
def Memory.text (m : Memory) : String :=
  "\x7b" ++ ", ".intercalate (m.entries.map fun e => e.1 ++ "=" ++ e.2.text) ++ "\x7d"

end ObjectMachine
