import ArrayPlan.Expr

/-!
Number operations of an execution. An execution is defined for any type with these operations; the doubles
are the instance that programs run with.
-/

namespace ArrayPlan

class Scalar (α : Type) where
  ofInt : Int → α
  ofReal : Float → α
  add : α → α → α
  sub : α → α → α
  mul : α → α → α
  div : α → α → α
  floorDiv : α → α → α
  rem : α → α → α
  lt : α → α → Bool
  le : α → α → Bool
  toIndex : α → Int

namespace Scalar

variable {α : Type} [Scalar α]

def zero : α :=
  ofInt 0

def arith : ArithOp → α → α → α
  | .add => add
  | .sub => sub
  | .mul => mul
  | .div => div
  | .floorDiv => floorDiv
  | .rem => rem

def holds : CompareOp → α → α → Bool
  | .lt, a, b => lt a b
  | .le, a, b => le a b
  | .gt, a, b => lt b a
  | .ge, a, b => le b a

def compare (op : CompareOp) (a b : α) : α :=
  if holds op a b then ofInt 1 else ofInt 0

end Scalar

/-- The remainder with the sign of the dividend, raised by the divisor's magnitude when it is negative. -/
def nonnegativeRemainder (a b : Float) : Float :=
  let r := (Double.remainder (Double.ofFloat a) (Double.ofFloat b)).toFloat
  if r < 0.0 then r + b.abs else r

instance : Scalar Float where
  ofInt := Float.ofInt
  ofReal x := x
  add := (· + ·)
  sub := (· - ·)
  mul := (· * ·)
  div := (· / ·)
  floorDiv a b := (a / b).floor
  rem := nonnegativeRemainder
  lt a b := decide (a < b)
  le a b := decide (a ≤ b)
  toIndex x := (Double.ofFloat x).nearest

end ArrayPlan
