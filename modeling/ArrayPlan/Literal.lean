import ArrayPlan.Expr
import ArrayPlan.Plan.Error

/-!
Literals given by the caller, and their conversion to the element type of an array.
-/

namespace ArrayPlan

inductive Literal where
  | int (n : Int)
  | real (x : Float)
deriving DecidableEq, Repr

namespace Literal

def toExpr : Literal → Expr
  | int n => .int n
  | real x => .real x

def isWhole : Literal → Bool
  | int _ => true
  | real x => (Double.ofFloat x).isWhole

/-- The literal as an element. Whole doubles become integers in an integer array, saturated at the bounds of
a word, and integers become the nearest double in a real one. -/
def cast (elementType : ElementType) : Literal → Except PlanError Literal
  | int n => .ok (if elementType.isInteger then int n else real (Float.ofInt n))
  | real x =>
    if elementType.isInteger then
      if (real x).isWhole then .ok (int (Double.ofFloat x).truncate)
      else .error (.inexactLiteral x elementType)
    else .ok (real x)

end Literal

end ArrayPlan
