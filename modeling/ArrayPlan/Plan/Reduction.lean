import ArrayPlan.Plan.Build

/-!
Sums over axes and prefix sums. A sum stays a rule. Prefix sums are stored in an array of their own: the
statement that computes them is queued, and the handle loads from the array.
-/

namespace ArrayPlan

/-- The index pairs `i < extent`, `0 ≤ j ≤ i`. -/
def prefixSumDomain (i j : String) (extent : Extent) : Domain :=
  (((Domain.unconstrained [i, j]).between 0 i extent).constrain
    (.le (.ofConstant 0) (.ofVar j))).constrain (.le (.ofVar j) (.ofVar i))

namespace Build

def requireAxes (a : Handle) (axes : Option (List Nat)) : Build Unit :=
  match (axes.getD []).find? fun axis => a.rank ≤ axis with
  | some axis => throw (.axisOutOfRange axis a.shape)
  | none => return

def isReduced (axes : Option (List Nat)) (axis : Nat) : Bool :=
  match axes with
  | none => true
  | some axes => axes.contains axis

def sum (a : Handle) (axes : Option (List Nat)) : Build Handle := do
  requireOwn a
  requireAxes a axes
  requireOpen
  let vars ← freshIndices a.rank
  let bounded := vars.zip a.shape.extents
  addDomain (.box bounded)
  let (reduced, kept) := bounded.zipIdx.partition fun v => isReduced axes v.2
  let element ← invokeAt a.rule vars
  let body := if reduced.isEmpty then element else .sum (reduced.map fun v => v.1.1) element
  let shape ← shapeOfKept (kept.map fun v => v.1.2)
  let rule ← define (kept.map fun v => v.1.1) body
  handle rule shape a.elementType .rowMajor

def prefixSums (a : Handle) : Build Handle := do
  requireOwn a
  match a.shape.extents with
  | [extent] => do
    requireOpen
    let i ← fresh .index
    let j ← fresh .index
    let array ← fresh .array
    let element ← invokeAt a.rule [j]
    enqueue ⟨.load array [.var i], .sum [j] element, [i]⟩
    addDomain (prefixSumDomain i j extent)
    declare ⟨array, a.shape, a.elementType, .temporary⟩
    let t ← fresh .index
    let rule ← define [t] (.load array [.var t])
    back rule array
    handle rule a.shape a.elementType .rowMajor
  | _ => throw (.notOneAxis a.shape)

end Build

end ArrayPlan
