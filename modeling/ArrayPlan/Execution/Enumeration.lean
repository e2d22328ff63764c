import ArrayPlan.Execution.Fault

/-!
Enumeration of index points. The bounds of a variable are read off the constraints of the first domain that
owns it, as far as their other names are bound. A value is kept when no constraint of the domain whose names
are all bound fails, and the variables after it are enumerated under it.
-/

namespace ArrayPlan

/-- Values of index variables and parameters, the latest binding first. -/
structure Env where
  bindings : List (String × Int)
deriving DecidableEq, Repr

namespace Env

def empty : Env :=
  ⟨[]⟩

def value? (env : Env) (name : String) : Option Int :=
  env.bindings.lookup name

def unbind (env : Env) (name : String) : Env :=
  ⟨env.bindings.filter fun b => b.1 ≠ name⟩

def bind (env : Env) (name : String) (value : Int) : Env :=
  ⟨(name, value) :: (env.unbind name).bindings⟩

def bindAll (env : Env) (bindings : List (String × Int)) : Env :=
  bindings.foldl (fun env b => env.bind b.1 b.2) env

end Env

namespace Affine

def rest? (a : Affine) (var : String) (env : Env) : Option Int :=
  sumFrom? env.value? a.constant (a.terms.filter fun t => t.1 ≠ var)

end Affine

/-- The least value of a variable with coefficient `a > 0` in a form of rest `r`, and the greatest one when
`a < 0`. -/
def boundValue (a r : Int) : Int :=
  if 0 < a then -(r / a) else r / -a

def boundsOf (positive : Bool) (constraints : List Constraint) (var : String) (env : Env) : List Int :=
  constraints.filterMap fun c =>
    let a := c.form.coefficient var
    if (if positive then decide (0 < a) else decide (a < 0)) then
      (c.form.rest? var env).map (boundValue a)
    else none

namespace Domain

def bounds (d : Domain) (var : String) (env : Env) : Except ExecutionFault (Int × Int) :=
  match (boundsOf true d.constraints var env).max?, (boundsOf false d.constraints var env).min? with
  | some low, some high => .ok (low, high)
  | _, _ => .error (.unbounded var d)

def admits (d : Domain) (env : Env) : Bool :=
  d.constraints.all fun c => (c.holds? env.value?).getD true

end Domain

/-- Binds a variable to `count` values in turn, from `value` on, and collects the points found under each. The
bindings left over by one value are those that the next one starts with; a failure ends the sweep. -/
def sweep (var : String) (keep : Env → Bool) (inner : Env → Except ExecutionFault (List Env × Env)) :
    Nat → Int → Env → Except ExecutionFault (List Env × Env)
  | 0, _, env => .ok ([], env)
  | count + 1, value, env => do
    let env := env.bind var value
    let (found, env) ← if keep env then inner env else .ok ([], env)
    let (later, env) ← sweep var keep inner count (value + 1) env
    return (found ++ later, env)

def ownerOf (domains : List Domain) (var : String) : Except ExecutionFault Domain :=
  match domains.find? fun d => d.vars.contains var with
  | some d => .ok d
  | none => .error (.noDomain var)

/-- All points over the variables, in lexicographic order, with the bindings left over in the end: a
variable is unbound after its last value, also when it was bound before. -/
def enumerate (domains : List Domain) : List String → Env → Except ExecutionFault (List Env × Env)
  | [], env => .ok ([env], env)
  | var :: vars, env => do
    let d ← ownerOf domains var
    let (low, high) ← d.bounds var env
    let (points, env) ← sweep var d.admits (enumerate domains vars) (high - low + 1).toNat low env
    return (points, env.unbind var)

def pointsOver (domains : List Domain) (vars : List String) (env : Env) :
    Except ExecutionFault (List Env) :=
  (enumerate domains vars env).map Prod.fst

end ArrayPlan
