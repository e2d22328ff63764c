/-!
Layouts. A layout says which axis varies fastest when the elements of an array are put in a line; its
strides are the distances in the line between neighbours along each axis.
-/

namespace ArrayPlan

def elementCount : List Nat → Nat
  | [] => 1
  | n :: lengths => n * elementCount lengths

inductive Layout where
  /-- The last axis varies fastest. -/
  | rowMajor
  /-- The first axis varies fastest. -/
  | columnMajor
deriving DecidableEq, Repr

namespace Layout

def rowStrides : List Nat → List Nat
  | [] => []
  | _ :: lengths => elementCount lengths :: rowStrides lengths

def columnStrides (step : Nat) : List Nat → List Nat
  | [] => []
  | n :: lengths => step :: columnStrides (step * n) lengths

def strides : Layout → List Nat → List Nat
  | rowMajor, lengths => rowStrides lengths
  | columnMajor, lengths => columnStrides 1 lengths

end Layout

end ArrayPlan
