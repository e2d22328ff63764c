/-!
Comma lists, the only separator notation of plans and kernels.
-/

namespace ArrayPlan

def commaList : List String → String
  | [] => ""
  | [item] => item
  | item :: next :: rest => item ++ ", " ++ commaList (next :: rest)

def lines : List String → String
  | [] => ""
  | item :: rest => item ++ "\n" ++ lines rest

end ArrayPlan
