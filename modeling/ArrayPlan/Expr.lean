import ArrayPlan.Decimal.Style
import ArrayPlan.Text.Listing

/-!
Symbolic expressions. A call invokes a rule, which is a macro; a load reads an element of a concrete array.
Nothing is computed here: expressions are built, written as text and taken apart.
-/

namespace ArrayPlan

inductive ArithOp where
  | add
  | sub
  | mul
  | div
  | floorDiv
  | rem
deriving DecidableEq, Repr

inductive CompareOp where
  | lt
  | le
  | gt
  | ge
deriving DecidableEq, Repr

def ArithOp.symbol : ArithOp → String
  | .add => "+"
  | .sub => "-"
  | .mul => "*"
  | .div => "/"
  | .floorDiv => "//"
  | .rem => "%"

def CompareOp.symbol : CompareOp → String
  | .lt => "<"
  | .le => "<="
  | .gt => ">"
  | .ge => ">="

inductive Expr where
  | int (n : Int)
  | real (x : Float)
  /-- An index variable or the name of a symbolic extent. -/
  | var (name : String)
  | call (rule : String) (args : List Expr)
  | load (array : String) (index : List Expr)
  | arith (op : ArithOp) (lhs rhs : Expr)
  | compare (op : CompareOp) (lhs rhs : Expr)
  | sum (vars : List String) (body : Expr)

namespace Expr

def isConstant : Expr → Bool
  | int _ | real _ => true
  | _ => false

def asCall? : Expr → Option (String × List Expr)
  | call rule args => some (rule, args)
  | _ => none

mutual

def textWith (realText : Float → String) : Expr → String
  | int n => toString n
  | real x => realText x
  | var name => name
  | call rule args => rule ++ "(" ++ commaList (textsWith realText args) ++ ")"
  | load array index => array ++ "[" ++ commaList (textsWith realText index) ++ "]"
  | arith op lhs rhs =>
    "(" ++ textWith realText lhs ++ " " ++ op.symbol ++ " " ++ textWith realText rhs ++ ")"
  | compare op lhs rhs =>
    "(" ++ textWith realText lhs ++ " " ++ op.symbol ++ " " ++ textWith realText rhs ++ ")"
  | sum vars body => "sum([" ++ commaList vars ++ "], " ++ textWith realText body ++ ")"

def textsWith (realText : Float → String) : List Expr → List String
  | [] => []
  | e :: es => textWith realText e :: textsWith realText es

end

def text (e : Expr) : String :=
  e.textWith (Decimal.text Decimal.constantStyle)

mutual

/-- Equality of expressions in which real constants count as numbers. -/
def same : Expr → Expr → Bool
  | int m, int n => m == n
  | real x, real y => sameNumber x y
  | var a, var b => a == b
  | call f as, call g bs => f == g && sameAll as bs
  | load a as, load b bs => a == b && sameAll as bs
  | arith o a b, arith p c d => o == p && same a c && same b d
  | compare o a b, compare p c d => o == p && same a c && same b d
  | sum vs a, sum ws b => vs == ws && same a b
  | _, _ => false

def sameAll : List Expr → List Expr → Bool
  | [], [] => true
  | a :: as, b :: bs => same a b && sameAll as bs
  | _, _ => false

end

end Expr

end ArrayPlan
