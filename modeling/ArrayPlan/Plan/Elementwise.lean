import ArrayPlan.Literal
import ArrayPlan.Plan.Build
import ArrayPlan.Shape.Broadcast

/-!
Elementwise operations. Operands of one shape are combined index by index; a scalar operand is read at its
only element; otherwise both operands are first viewed at their common shape.
-/

namespace ArrayPlan

inductive Operator where
  | add
  | sub
  | mul
  | div
  | lt
  | le
  | gt
  | ge
deriving DecidableEq, Repr

namespace Operator

def apply : Operator → Expr → Expr → Expr
  | add => .arith .add
  | sub => .arith .sub
  | mul => .arith .mul
  | div => .arith .div
  | lt => .compare .lt
  | le => .compare .le
  | gt => .compare .gt
  | ge => .compare .ge

def isComparison : Operator → Bool
  | lt | le | gt | ge => true
  | _ => false

def resultType (op : Operator) (left : ElementType) : ElementType :=
  if op.isComparison then .int64 else left

end Operator

inductive Operand (ref : Type) where
  | literal (value : Literal)
  | array (a : ref)

namespace Build

def combineLiteral (op : Operator) (a : Handle) (value : Literal) (literalFirst : Bool) :
    Build Handle := do
  requireOwn a
  requireOpen
  let vars ← freshIndices a.rank
  let element ← invokeAt a.rule vars
  let rule ← define vars
    (if literalFirst then op.apply value.toExpr element else op.apply element value.toExpr)
  handle rule a.shape (op.resultType a.elementType) a.layout

def combineEqual (op : Operator) (a b : Handle) : Build Handle := do
  requireOpen
  let vars ← freshIndices a.rank
  let lhs ← invokeAt a.rule vars
  let rhs ← invokeAt b.rule vars
  let rule ← define vars (op.apply lhs rhs)
  handle rule a.shape (op.resultType a.elementType) a.layout

def combineRightUnit (op : Operator) (a b : Handle) : Build Handle := do
  requireOpen
  let vars ← freshIndices a.rank
  let lhs ← invokeAt a.rule vars
  let rhs ← invokeAtOrigin b.rule
  let rule ← define vars (op.apply lhs rhs)
  handle rule a.shape (op.resultType a.elementType) a.layout

/-- Combines an array with a scalar on its left; shape and layout are those of the array. -/
def combineLeftUnit (op : Operator) (a b : Handle) : Build Handle := do
  requireOpen
  let vars ← freshIndices b.rank
  let lhs ← invokeAtOrigin a.rule
  let rhs ← invokeAt b.rule vars
  let rule ← define vars (op.apply lhs rhs)
  handle rule b.shape (op.resultType a.elementType) b.layout

/-- The index along each axis when an array is read at a larger shape: unit axes stay at their only
position, the others follow the last variables. -/
def spreadIndex : List Extent → List String → List Expr
  | e :: extents, v :: vars => (if e.isUnit then .int 0 else .var v) :: spreadIndex extents vars
  | _, _ => []

def spread (a : Handle) (common : Shape) : Build Handle := do
  if a.shape = common then return a
  requireOpen
  let vars ← freshIndices common.rank
  let body ← invoke a.rule (spreadIndex a.shape.extents (vars.drop (common.rank - a.rank)))
  let rule ← define vars body
  handle rule common a.elementType a.layout

def combineArrays (op : Operator) (a b : Handle) : Build Handle := do
  requireOwn a
  requireOwn b
  if a.shape = b.shape then combineEqual op a b
  else if b.shape.isUnit then combineRightUnit op a b
  else if a.shape.isUnit then combineLeftUnit op a b
  else match Shape.broadcast a.shape b.shape with
    | .error axis => throw (.noCommonShape a.shape b.shape axis)
    | .ok common => do
      let left ← spread a common
      let right ← spread b common
      combineEqual op left right

def combine (op : Operator) (a : Handle) : Operand Handle → Build Handle
  | .literal value => combineLiteral op a value false
  | .array b => combineArrays op a b

end Build

end ArrayPlan
