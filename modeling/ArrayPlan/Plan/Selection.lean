import ArrayPlan.Plan.Build
import ArrayPlan.Word

/-!
Index tuples and reading through them. Each entry is a position, a slice or an array of positions. A read
takes positions and complete slices; the axes of the slices are left.
-/

namespace ArrayPlan

inductive Index (ref : Type) where
  | at (position : Nat)
  | all
  | slice (start stop step : Option Int)
  | gather (positions : ref)

def Index.isComplete {ref : Type} : Index ref → Bool
  | all => true
  | slice start stop step => start.isNone && stop.isNone && step.isNone
  | _ => false

namespace Build

def requireIndexCount (h : Handle) (index : List (Index Handle)) : Build Unit :=
  if index.length = h.rank then return else throw (.indexCount h.shape index.length)

def requirePosition (axis position : Nat) (extent : Extent) : Build Unit :=
  match extent with
  | .fixed length =>
    if length ≤ position then throw (.positionOutOfBounds position axis length) else return
  | .symbolic _ => return

/-- The arguments of a read and the axes it leaves, each with its variable, from axis number `axis` on. -/
def selectAxes (axis : Nat) :
    List (Index Handle) → List Extent → Build (List Expr × List (String × Extent))
  | entry :: index, extent :: extents => do
    match entry with
    | .at position => do
      requirePosition axis position extent
      let (args, kept) ← selectAxes (axis + 1) index extents
      return (.int (Word.signed position) :: args, kept)
    | .gather _ => throw .gatherInRead
    | entry =>
      if entry.isComplete then do
        let var ← fresh .index
        let (args, kept) ← selectAxes (axis + 1) index extents
        return (.var var :: args, (var, extent) :: kept)
      else throw .partialSlice
  | _, _ => return ([], [])

def select (a : Handle) (index : List (Index Handle)) : Build Handle := do
  requireOwn a
  requireIndexCount a index
  requireOpen
  let (args, kept) ← selectAxes 0 index a.shape.extents
  let shape ← shapeOfKept (kept.map Prod.snd)
  let body ← invoke a.rule args
  let rule ← define (kept.map Prod.fst) body
  handle rule shape a.elementType .rowMajor

end Build

end ArrayPlan
