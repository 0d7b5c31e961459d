import ObjectMachine.Machine.Basic

namespace ObjectMachine

/-!
# Traces

The whole state of a machine as text: the heap in the order of its references, then the stack
from the running frame down.
-/

/-- One object in a trace. -/
def Ref.traceLine (r : Ref) (fields : Memory) : String :=
  "\t" ++ r.text ++ " " ++ fields.text ++ "\n"

/-- One frame in a trace. -/
def Frame.trace (f : Frame) : String :=
  "Prc" ++ Nat.repr f.id ++ "@" ++ f.owner.text ++ ":\n\t" ++ f.locals.text ++
    "\nStatement:\n\t" ++ f.stmt.text ++ "\n"

/-- The state of a machine as text. -/
def Machine.trace (m : Machine) : String :=
  "Global store:\n" ++ String.join (m.heap.objects.entries.map fun e => e.1.traceLine e.2) ++
    "Stack:\n" ++ String.join (m.stack.map Frame.trace)

end ObjectMachine
