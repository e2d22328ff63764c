import ArrayPlan.Layout
import ArrayPlan.Shape
import ArrayPlan.Text.Quoted

/-!
Handles. A handle names a value of a plan by the rule that computes it, with the shape, element type and
layout of the value.
-/

namespace ArrayPlan

structure Handle where
  /-- The plan that the rule is registered in. -/
  plan : Nat
  rule : String
  shape : Shape
  elementType : ElementType
  layout : Layout
deriving DecidableEq, Repr

namespace Handle

def rank (h : Handle) : Nat :=
  h.shape.rank

def text (h : Handle) : String :=
  h.rule ++ ": " ++ h.elementType.text ++ h.shape.text

def extentDetail : Extent → String
  | .fixed n => "Fixed(" ++ toString n ++ ")"
  | .symbolic name => "Param(" ++ quoted name ++ ")"

def elementTypeDetail : ElementType → String
  | .int32 => "Int32"
  | .int64 => "Int64"
  | .float32 => "Float32"
  | .float64 => "Float64"

def layoutDetail : Layout → String
  | .rowMajor => "RowMajor"
  | .columnMajor => "ColumnMajor"

def detailText (h : Handle) : String :=
  "Array \x7b name: " ++ quoted h.rule
    ++ ", shape: Shape([" ++ commaList (h.shape.extents.map extentDetail)
    ++ "]), dtype: " ++ elementTypeDetail h.elementType
    ++ ", order: " ++ layoutDetail h.layout ++ " \x7d"

end Handle

end ArrayPlan
