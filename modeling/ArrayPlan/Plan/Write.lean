import ArrayPlan.Plan.Elementwise
import ArrayPlan.Plan.Selection

/-!
Writes. The first write through a handle gives its value an array: a copy of the current value is queued
before the write, and the handle goes over to a rule that loads from the array. Later writes go to the same
array.
-/

namespace ArrayPlan

inductive WriteAxis where
  | at (position : Nat)
  | along (extent : Extent)
  | gather (positions : Handle)

namespace WriteAxis

def extent? : WriteAxis → Option Extent
  | .at _ => none
  | along extent => some extent
  | gather positions => positions.shape.extents.head?

def region (axes : List WriteAxis) : List Extent :=
  axes.filterMap extent?

end WriteAxis

namespace Build

def requirePositions (positions : Handle) : Build Unit := do
  requireOwn positions
  if positions.rank ≠ 1 then throw (.gatherRank positions.shape)
  if !positions.elementType.isInteger then throw (.gatherType positions.elementType)

def writeAxes (axis : Nat) : List (Index Handle) → List Extent → Build (List WriteAxis)
  | entry :: index, extent :: extents => do
    let first ← match entry with
      | .at position => do
        requirePosition axis position extent
        pure (WriteAxis.at position)
      | .gather positions => do
        requirePositions positions
        pure (WriteAxis.gather positions)
      | entry => if entry.isComplete then pure (WriteAxis.along extent) else throw .partialSlice
    let rest ← writeAxes (axis + 1) index extents
    return first :: rest
  | _, _ => return []

def requireFit (value : Handle) (region : List Extent) : Build Unit :=
  if value.shape.isUnit || (!region.isEmpty && value.shape.extents == region) then return
  else throw (.unfitValue value.shape region.length)

def writeValue (elementType : ElementType) (region : List Extent) :
    Operand Handle → Build (Operand Handle)
  | .literal value => do
    let value ← ofExcept (value.cast elementType)
    return .literal value
  | .array value => do
    requireOwn value
    requireFit value region
    return .array value

/-- Gives the value of a handle a new array and queues the copy. -/
def allocate (h : Handle) : Build String := do
  let array ← fresh .array
  let vars ← freshIndices h.rank
  let copied ← invokeAt h.rule vars
  enqueue ⟨.load array (vars.map .var), copied, vars⟩
  addDomain (.box (vars.zip h.shape.extents))
  declare ⟨array, h.shape, h.elementType, .temporary⟩
  return array

/-- The target index; the axes of the region take the variables in order. -/
def targetIndex : List WriteAxis → List String → Build (List Expr)
  | [], _ => return []
  | .at position :: axes, vars => do
    let rest ← targetIndex axes vars
    return .int (Word.signed position) :: rest
  | .along _ :: axes, var :: vars => do
    let rest ← targetIndex axes vars
    return .var var :: rest
  | .gather positions :: axes, var :: vars => do
    let position ← invokeAt positions.rule [var]
    let rest ← targetIndex axes vars
    return position :: rest
  | _ :: _, [] => throw .missingVariable

def valueAt (vars : List String) : Operand Handle → Build Expr
  | .literal value => return value.toExpr
  | .array value =>
    if value.shape.isUnit || vars.isEmpty then invokeAtOrigin value.rule
    else invokeAt value.rule vars

def enqueueStore (array : String) (axes : List WriteAxis) (value : Operand Handle) : Build Unit := do
  let region := WriteAxis.region axes
  let vars ← freshIndices region.length
  addDomain (.box (vars.zip region))
  let index ← targetIndex axes vars
  let stored ← valueAt vars value
  enqueue ⟨.load array index, stored, vars⟩

/-- Writes a value through an index tuple. The result is the handle that reads the written array. -/
def write (h : Handle) (index : List (Index Handle)) (value : Operand Handle) : Build Handle := do
  requireOwn h
  requireIndexCount h index
  let axes ← writeAxes 0 index h.shape.extents
  let value ← writeValue h.elementType (WriteAxis.region axes) value
  requireOpen
  let p ← get
  match p.backing.array? h.rule with
  | some array => do
    enqueueStore array axes value
    return h
  | none => do
    let array ← allocate h
    enqueueStore array axes value
    let params ← freshIndices h.rank
    let rule ← define params (.load array (params.map .var))
    back rule array
    back h.rule array
    return { h with rule }

end Build

end ArrayPlan
