import ArrayPlan.Kernel

/-!
What can go wrong when a kernel is executed.
-/

namespace ArrayPlan

inductive ExecutionFault where
  | unboundParameter (name : String)
  | wrongInputSize (array : String)
  | notAnElement (target : Expr)
  | unknownArray (array : String)
  | rankMismatch (index : List Int) (lengths : List Nat)
  | outOfBounds (index : List Int) (lengths : List Nat)
  | noDomain (var : String)
  | unbounded (var : String) (domain : Domain)
  | unboundName (name : String)
  | unknownRule (rule : String)
  | arityMismatch (rule : String)
  /-- Calls are nested deeper than the execution follows them. -/
  | nestedTooDeep (rule : String)

namespace ExecutionFault

def bracketed (items : List String) : String :=
  "[" ++ commaList items ++ "]"

def message : ExecutionFault → String
  | unboundParameter name => "unbound parameter " ++ name
  | wrongInputSize array => "input " ++ array ++ " has the wrong size"
  | notAnElement target => "cannot store into " ++ target.text
  | unknownArray array => "unknown array " ++ array
  | rankMismatch index lengths =>
    "rank mismatch: " ++ bracketed (index.map toString) ++ " for " ++ bracketed (lengths.map toString)
  | outOfBounds index lengths =>
    "index " ++ bracketed (index.map toString) ++ " out of bounds for "
      ++ bracketed (lengths.map toString)
  | noDomain var => "no domain bounds " ++ var
  | unbounded var domain => var ++ " is unbounded in " ++ domain.text
  | unboundName name => "unbound " ++ name
  | unknownRule rule => "unknown rule " ++ rule
  | arityMismatch rule => "arity mismatch calling " ++ rule
  | nestedTooDeep rule => "calls nest too deeply at " ++ rule

end ExecutionFault

end ArrayPlan
