import ArrayPlan.Decimal.Style
import ArrayPlan.Shape

/-!
Why a plan refuses an operation. Each cause belongs to a kind, and each has one message.
-/

namespace ArrayPlan

inductive PlanError where
  | invalidShape (fault : ShapeFault)
  | axisOutOfRange (axis : Nat) (shape : Shape)
  | notOneAxis (shape : Shape)
  | unfitValue (value : Shape) (selected : Nat)
  | symbolicReshape
  | reshapeSize (source target : Shape)
  | callArity (rule : String) (params args : Nat)
  /-- An addressed axis has no variable left to run over. -/
  | missingVariable
  | gatherInRead
  | partialSlice
  | indexCount (shape : Shape) (count : Nat)
  | positionOutOfBounds (position axis length : Nat)
  | gatherRank (shape : Shape)
  | gatherType (elementType : ElementType)
  | inexactLiteral (value : Float) (elementType : ElementType)
  | unknownRule (name : String)
  | noCommonShape (left right : Shape) (axis : Nat)
  | finalized
  | foreignHandle (rule : String)
  | nameInUse (name : String)
deriving DecidableEq, Repr

inductive PlanErrorKind where
  | shape
  | index
  | type
  | nameLookup
  | broadcast
  | finalized
  | foreignArray
  | duplicateName
deriving DecidableEq, Repr

namespace PlanError

def kind : PlanError → PlanErrorKind
  | invalidShape _ | axisOutOfRange .. | notOneAxis _ | unfitValue .. | symbolicReshape
  | reshapeSize .. => .shape
  | callArity .. | missingVariable | gatherInRead | partialSlice | indexCount .. | positionOutOfBounds ..
  | gatherRank _ => .index
  | gatherType _ | inexactLiteral .. => .type
  | unknownRule _ => .nameLookup
  | noCommonShape .. => .broadcast
  | finalized => .finalized
  | foreignHandle _ => .foreignArray
  | nameInUse _ => .duplicateName

def detail : PlanError → String
  | invalidShape fault => fault.message
  | axisOutOfRange axis shape => "axis " ++ toString axis ++ " out of range for shape " ++ shape.text
  | notOneAxis shape => "cumulative sum needs a rank-1 array, got shape " ++ shape.text
  | unfitValue value selected =>
    "cannot write a value of shape " ++ value.text ++ " into " ++ toString selected ++ " selected axes"
  | symbolicReshape => "reshape needs statically known extents"
  | reshapeSize source target => "cannot reshape " ++ source.text ++ " into " ++ target.text
  | callArity rule params args =>
    "`" ++ rule ++ "` takes " ++ toString params ++ " indices, got " ++ toString args
  | missingVariable => "index arity"
  | gatherInRead => "array-valued indices are only supported in writes"
  | partialSlice => "only complete slices are supported"
  | indexCount shape count =>
    "expected " ++ toString shape.rank ++ " indices for shape " ++ shape.text ++ ", got "
      ++ toString count
  | positionOutOfBounds position axis length =>
    "index " ++ toString position ++ " is out of bounds for axis " ++ toString axis ++ " with size "
      ++ toString length
  | gatherRank shape => "index arrays must be rank 1, got shape " ++ shape.text
  | gatherType elementType => "index arrays must hold integers, got " ++ elementType.text
  | inexactLiteral value elementType =>
    "cannot store " ++ Decimal.text Decimal.messageStyle value ++ " in an array of "
      ++ elementType.text
  | unknownRule name => "no substitution rule named `" ++ name ++ "` is registered"
  | noCommonShape left right axis =>
    "cannot broadcast shapes " ++ left.text ++ " and " ++ right.text ++ ": axis " ++ toString axis
      ++ " differs"
  | finalized => "the stack has already been finalized"
  | foreignHandle rule => "array `" ++ rule ++ "` belongs to a different stack"
  | nameInUse name => "name `" ++ name ++ "` is already in use"

def message (e : PlanError) : String :=
  match e.kind with
  | .shape => "shape error: " ++ e.detail
  | .index => "index error: " ++ e.detail
  | .type => "type error: " ++ e.detail
  | _ => e.detail

end PlanError

end ArrayPlan
