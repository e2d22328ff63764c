import ArrayPlan.Plan.Build
import ArrayPlan.Word

/-!
Reshaping. The new index is put in a line in the requested layout, and the source is read where the line
meets it in the layout of the source.
-/

namespace ArrayPlan

/-- Index variables weighted by their strides; axes of length one contribute nothing. -/
def linearTerms : List String → List Nat → List Nat → List Expr
  | var :: vars, length :: lengths, stride :: strides =>
    let rest := linearTerms vars lengths strides
    if length = 1 then rest
    else if stride = 1 then .var var :: rest
    else .arith .mul (.var var) (.int (Word.signed stride)) :: rest
  | _, _, _ => []

def linearIndex (vars : List String) (lengths strides : List Nat) : Expr :=
  match linearTerms vars lengths strides with
  | [] => .int 0
  | term :: terms => terms.foldl (.arith .add) term

/-- The position along one axis of the element at a place in the line. -/
def axisPosition (line : Expr) (total length stride : Nat) : Expr :=
  if length = 1 then .int 0
  else
    let outer := if stride = 1 then line else .arith .floorDiv line (.int (Word.signed stride))
    if stride * length = total then outer
    else .arith .rem outer (.int (Word.signed length))

def indexAtLine (line : Expr) (total : Nat) (lengths strides : List Nat) : List Expr :=
  (lengths.zip strides).map fun axis => axisPosition line total axis.1 axis.2

namespace Build

def reshape (a : Handle) (extents : List Extent) (layout : Layout) : Build Handle := do
  requireOwn a
  let shape ← shapeOf extents
  match shape.lengths?, a.shape.lengths? with
  | some lengths, some sourceLengths => do
    let total := elementCount sourceLengths
    if elementCount lengths ≠ total then throw (.reshapeSize a.shape shape)
    requireOpen
    let vars ← freshIndices lengths.length
    let line := linearIndex vars lengths (layout.strides lengths)
    let body ← invoke a.rule (indexAtLine line total sourceLengths (a.layout.strides sourceLengths))
    let rule ← define vars body
    handle rule shape a.elementType layout
  | _, _ => throw .symbolicReshape

end Build

end ArrayPlan
