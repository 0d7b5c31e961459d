import ObjectMachine.Knowledge.Basic

namespace ObjectMachine

/-!
# A scripted knowledge base

Answers come from a prepared list, one for each request, and every call is logged. Without a
prepared answer the result is empty.
-/

/-- What a scripted knowledge base holds: the answers to come, the message with which showing a
heap fails, and the calls so far. -/
structure Script where
  answers : List (Except String (List String))
  dumpError : Option String
  calls : List String
deriving Inhabited

namespace Script

/-- Logs a call. -/
def log (s : Script) (call : String) : Script :=
  { s with calls := s.calls ++ [call] }

/-- Takes the next answer. -/
def next (s : Script) : Except KnowledgeFault (List String) × Script :=
  match s.answers with
  | [] => (.ok [], s)
  | .ok ids :: rest => (.ok ids, { s with answers := rest })
  | .error message :: rest => (.error (.unavailable message), { s with answers := rest })

/-- The knowledge base that follows its script. -/
def base : KnowledgeBase Script where
  dump h s :=
    let s := s.log ("dump " ++ Nat.repr h.size)
    match s.dumpError with
    | none => (.ok (), s)
    | some message => (.error (.unavailable message), s)
  query text s := (s.log ("query " ++ text)).next
  derive classExpr s := (s.log ("derive " ++ classExpr)).next

end Script

end ObjectMachine
