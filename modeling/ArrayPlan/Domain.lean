import ArrayPlan.Affine
import ArrayPlan.Shape
import ArrayPlan.Word

/-!
Index domains: a group of index variables bounded by a conjunction of affine constraints. Names in the
constraints that are not variables of the domain are its parameters.
-/

namespace ArrayPlan

structure Domain where
  vars : List String
  constraints : List Constraint
deriving DecidableEq, Repr

namespace Domain

def unconstrained (vars : List String) : Domain :=
  ⟨vars, []⟩

def constrain (d : Domain) (c : Constraint) : Domain :=
  if c ∈ d.constraints then d else { d with constraints := d.constraints ++ [c] }

/-- The last position of an axis. At a length of exactly `2 ^ 63` it lies below the signed words, where arithmetic in
words would overflow; here it is the integer. -/
def lastPosition : Extent → Affine
  | .fixed n => Affine.ofConstant (Word.signed n - 1)
  | .symbolic name => (Affine.ofVar name).addConstant (-1)

def between (d : Domain) (low : Int) (var : String) (extent : Extent) : Domain :=
  (d.constrain (.le (.ofConstant low) (.ofVar var))).constrain (.le (.ofVar var) (lastPosition extent))

def box (axes : List (String × Extent)) : Domain :=
  axes.foldl (fun d a => { d with vars := d.vars ++ [a.1] }.between 0 a.1 a.2) (unconstrained [])

/-- The conjunction; variables and constraints of the second domain that are new come last. -/
def meet (d e : Domain) : Domain :=
  let vars := e.vars.foldl (fun vs v => if v ∈ vs then vs else vs ++ [v]) d.vars
  e.constraints.foldl constrain { d with vars }

def parameters (d : Domain) : List String :=
  ((d.constraints.flatMap fun c => c.form.terms.map Prod.fst).filter (· ∉ d.vars)).eraseDups

def contains? (lookup : String → Option Int) (d : Domain) : Option Bool :=
  d.constraints.foldlM (fun all c => (c.holds? lookup).map (all && ·)) true

def text (d : Domain) : String :=
  let parameters := d.parameters
  (if parameters.isEmpty then "" else "[" ++ commaList parameters ++ "] -> ")
    ++ "\x7b [" ++ commaList d.vars ++ "]"
    ++ (if d.constraints.isEmpty then ""
        else " : " ++ " and ".intercalate (d.constraints.map Constraint.text))
    ++ " \x7d"

end Domain

end ArrayPlan
