import ArrayPlan.Expr

/-!
Walks over expressions: parts in reading order, the rules called and arrays loaded in them, free variables,
and rebuilding from the leaves up.
-/

namespace ArrayPlan.Expr

mutual

def subterms : Expr → List Expr
  | call rule args => call rule args :: subtermsAll args
  | load array index => load array index :: subtermsAll index
  | arith op lhs rhs => arith op lhs rhs :: (subterms lhs ++ subterms rhs)
  | compare op lhs rhs => compare op lhs rhs :: (subterms lhs ++ subterms rhs)
  | sum vars body => sum vars body :: subterms body
  | e => [e]

def subtermsAll : List Expr → List Expr
  | [] => []
  | e :: es => subterms e ++ subtermsAll es

end

def calls (e : Expr) : List String :=
  (e.subterms.filterMap fun
    | call rule _ => some rule
    | _ => none).eraseDups

def loads (e : Expr) : List String :=
  (e.subterms.filterMap fun
    | load array _ => some array
    | _ => none).eraseDups

mutual

/-- Every occurrence of a variable that no enclosing sum and none of the given names binds. -/
def freeOccurrences (bound : List String) : Expr → List String
  | int _ | real _ => []
  | var name => if name ∈ bound then [] else [name]
  | call _ args => freeOccurrencesAll bound args
  | load _ index => freeOccurrencesAll bound index
  | arith _ lhs rhs => freeOccurrences bound lhs ++ freeOccurrences bound rhs
  | compare _ lhs rhs => freeOccurrences bound lhs ++ freeOccurrences bound rhs
  | sum vars body => freeOccurrences (bound ++ vars) body

def freeOccurrencesAll (bound : List String) : List Expr → List String
  | [] => []
  | e :: es => freeOccurrences bound e ++ freeOccurrencesAll bound es

end

def freeVars (e : Expr) : List String :=
  (e.freeOccurrences []).eraseDups

mutual

/-- Rebuilds an expression from the leaves up: parts first, then `f` may replace what they make up. -/
def rebuild (f : Expr → Option Expr) : Expr → Expr
  | call rule args =>
    let e := call rule (rebuildAll f args)
    (f e).getD e
  | load array index =>
    let e := load array (rebuildAll f index)
    (f e).getD e
  | arith op lhs rhs =>
    let e := arith op (rebuild f lhs) (rebuild f rhs)
    (f e).getD e
  | compare op lhs rhs =>
    let e := compare op (rebuild f lhs) (rebuild f rhs)
    (f e).getD e
  | sum vars body =>
    let e := sum vars (rebuild f body)
    (f e).getD e
  | e => (f e).getD e

def rebuildAll (f : Expr → Option Expr) : List Expr → List Expr
  | [] => []
  | e :: es => rebuild f e :: rebuildAll f es

end

mutual

def offered (f : Expr → Option Expr) : Expr → List Expr
  | call rule args => offeredAll f args ++ [call rule (rebuildAll f args)]
  | load array index => offeredAll f index ++ [load array (rebuildAll f index)]
  | arith op lhs rhs => offered f lhs ++ offered f rhs ++ [arith op (rebuild f lhs) (rebuild f rhs)]
  | compare op lhs rhs => offered f lhs ++ offered f rhs ++ [compare op (rebuild f lhs) (rebuild f rhs)]
  | sum vars body => offered f body ++ [sum vars (rebuild f body)]
  | e => [e]

def offeredAll (f : Expr → Option Expr) : List Expr → List Expr
  | [] => []
  | e :: es => offered f e ++ offeredAll f es

end

end ArrayPlan.Expr
