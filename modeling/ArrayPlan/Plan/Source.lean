import ArrayPlan.Literal
import ArrayPlan.Plan.Build

/-!
Arrays that a computation starts from: fills, ranges of integers, and inputs supplied when the kernel runs.
-/

namespace ArrayPlan.Build

def full (extents : List Extent) (value : Literal) (elementType : ElementType) : Build Handle := do
  let shape ← shapeOf extents
  let value ← ofExcept (value.cast elementType)
  requireOpen
  let vars ← freshIndices shape.rank
  let rule ← define vars value.toExpr
  handle rule shape elementType .rowMajor

def fill (extents : List Extent) (value : Literal) : Build Handle := do
  let p ← get
  full extents value p.settings.elementType

def range (stop : Extent) : Build Handle := do
  let shape ← shapeOf [stop]
  requireOpen
  let var ← fresh .index
  let rule ← define [var] (.var var)
  handle rule shape .int64 .rowMajor

def declareInput (array : String) (shape : Shape) (elementType : ElementType) : Build Handle := do
  let vars ← freshIndices shape.rank
  let rule ← define vars (.load array (vars.map .var))
  declare ⟨array, shape, elementType, .input⟩
  back rule array
  handle rule shape elementType .rowMajor

def input (extents : List Extent) (elementType : ElementType) : Build Handle := do
  let shape ← shapeOf extents
  requireOpen
  let array ← fresh .array
  declareInput array shape elementType

def inputNamed (name : String) (extents : List Extent) (elementType : ElementType) : Build Handle := do
  let shape ← shapeOf extents
  requireOpen
  reserve name
  declareInput name shape elementType

end ArrayPlan.Build
