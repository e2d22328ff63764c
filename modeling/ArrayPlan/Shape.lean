import ArrayPlan.Layout
import ArrayPlan.Text.Listing

/-!
Axis lengths, shapes and element types. A shape has at least one axis, and each axis is a positive number or
a named parameter. The shape with a single axis of length one stands for a scalar.
-/

namespace ArrayPlan

inductive Extent where
  | fixed (length : Nat)
  | symbolic (name : String)
deriving DecidableEq, Repr

inductive ShapeFault where
  | noAxis
  | emptyAxis
  | unnamedAxis
deriving DecidableEq, Repr

def ShapeFault.message : ShapeFault → String
  | .noAxis => "zero-rank shapes are not supported, use (1,)"
  | .emptyAxis => "axis length must be positive"
  | .unnamedAxis => "symbolic axis length needs a name"

namespace Extent

def fault? : Extent → Option ShapeFault
  | fixed n => if n = 0 then some .emptyAxis else none
  | symbolic name => if name = "" then some .unnamedAxis else none

def length? : Extent → Option Nat
  | fixed n => some n
  | symbolic _ => none

def parameter? : Extent → Option String
  | fixed _ => none
  | symbolic name => some name

def isUnit (e : Extent) : Bool :=
  e == fixed 1

def text : Extent → String
  | fixed n => toString n
  | symbolic name => name

end Extent

structure Shape where
  extents : List Extent
  extents_ne_nil : extents ≠ []
  faultless : ∀ e ∈ extents, e.fault? = none
deriving DecidableEq, Repr

namespace Shape

def ofExtents (extents : List Extent) : Except ShapeFault Shape :=
  if h : extents = [] then .error .noAxis
  else match hf : extents.findSome? Extent.fault? with
    | some fault => .error fault
    | none => .ok ⟨extents, h, List.findSome?_eq_none_iff.1 hf⟩

def unit : Shape :=
  ⟨[.fixed 1], by simp, by simp [Extent.fault?]⟩

def rank (s : Shape) : Nat :=
  s.extents.length

def isUnit (s : Shape) : Bool :=
  s == unit

def lengths? (s : Shape) : Option (List Nat) :=
  s.extents.mapM Extent.length?

def size? (s : Shape) : Option Nat :=
  s.lengths?.map elementCount

def parameters (s : Shape) : List String :=
  s.extents.filterMap Extent.parameter?

def text (s : Shape) : String :=
  "(" ++ commaList (s.extents.map Extent.text) ++ (if s.rank = 1 then "," else "") ++ ")"

end Shape

inductive ElementType where
  | int32
  | int64
  | float32
  | float64
deriving DecidableEq, Repr

namespace ElementType

def isInteger : ElementType → Bool
  | int32 | int64 => true
  | float32 | float64 => false

def text : ElementType → String
  | int32 => "int32"
  | int64 => "int64"
  | float32 => "float32"
  | float64 => "float64"

end ElementType

end ArrayPlan
