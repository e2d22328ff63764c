import ArrayPlan.Operation
import ArrayPlan.Execution.Scalar
import ArrayPlan.Proofs.Lines

/-!
What operations mean, said of arrays without a plan. A tensor has axis lengths and an element at each index.
Elementwise operations work on broadcast operands, a reshape takes the elements in the order of the layouts,
sums start from zero and run over the indices in lexicographic order, and a write stores one element after the
other.
-/

namespace ArrayPlan

variable {α : Type} [Scalar α]

def Literal.number : Literal → α
  | .int n => Scalar.ofInt n
  | .real x => Scalar.ofReal x

def Literal.numberAs (elementType : ElementType) (value : Literal) : α :=
  match value.cast elementType with
  | .ok v => v.number
  | .error _ => Scalar.zero

def Operator.number : Operator → α → α → α
  | .add => Scalar.add
  | .sub => Scalar.sub
  | .mul => Scalar.mul
  | .div => Scalar.div
  | .lt => Scalar.compare .lt
  | .le => Scalar.compare .le
  | .gt => Scalar.compare .gt
  | .ge => Scalar.compare .ge

structure Tensor (α : Type) where
  lengths : List Nat
  elementType : ElementType
  /-- The order in which a reshape takes the elements. -/
  layout : Layout
  element : List Int → α

def pick {β : Type} (test : Nat → Bool) : Nat → List β → List β
  | _, [] => []
  | place, x :: xs => if test place then x :: pick test (place + 1) xs else pick test (place + 1) xs

/-- The list of a length with given members at the places that pass a test, and others at the rest. -/
def weave (test : Nat → Bool) : Nat → Nat → List Int → List Int → List Int
  | _, 0, _, _ => []
  | place, n + 1, xs, ys =>
    if test place then xs.headD 0 :: weave test (place + 1) n xs.tail ys
    else ys.headD 0 :: weave test (place + 1) n xs ys.tail

def alignTo (rank : Nat) (lengths : List Nat) : List Nat :=
  List.replicate (rank - lengths.length) 1 ++ lengths

def broadcastLengths (a b : List Nat) : List Nat :=
  let rank := max a.length b.length
  List.zipWith (fun m n => if m = 1 then n else m) (alignTo rank a) (alignTo rank b)

/-- The index of the element that is seen at an index; unit axes have one position. -/
def clip : List Nat → List Int → List Int
  | n :: lengths, i :: index => (if n = 1 then 0 else i) :: clip lengths index
  | _, _ => []

def keptLengths (lengths : List Nat) : List Nat :=
  if lengths = [] then [1] else lengths

def storeElements (element : List Int → α) (updates : List (List Int × α)) : List Int → α :=
  updates.foldl (fun element u index => if index = u.1 then u.2 else element index) element

namespace Tensor

def full (lengths : List Nat) (elementType : ElementType) (x : α) : Tensor α :=
  ⟨lengths, elementType, .rowMajor, fun _ => x⟩

def iota (n : Nat) : Tensor α :=
  ⟨[n], .int64, .rowMajor, fun index => Scalar.ofInt (index.headD 0)⟩

def ofData (lengths : List Nat) (elementType : ElementType) (data : Array α) : Tensor α :=
  ⟨lengths, elementType, .rowMajor, fun index => data.getD (Layout.rowMajor.place lengths index) Scalar.zero⟩

/-- The element seen at an index of a shape that the tensor broadcasts to. -/
def spreadAt (t : Tensor α) (index : List Int) : α :=
  t.element (clip t.lengths (index.drop (index.length - t.lengths.length)))

/-- A scalar on the left leaves the layout to the other operand. -/
def combine (op : Operator) (a b : Tensor α) : Tensor α where
  lengths := broadcastLengths a.lengths b.lengths
  elementType := op.resultType a.elementType
  layout := if a.lengths = [1] ∧ b.lengths ≠ [1] then b.layout else a.layout
  element index := op.number (a.spreadAt index) (b.spreadAt index)

def combineLiteral (op : Operator) (a : Tensor α) (x : α) (literalFirst : Bool) : Tensor α :=
  { a with
    elementType := op.resultType a.elementType
    element := fun index => if literalFirst then op.number x (a.element index) else op.number (a.element index) x }

def selectedLengths {ref : Type} : List (Index ref) → List Nat → List Nat
  | .at _ :: entries, _ :: lengths => selectedLengths entries lengths
  | _ :: entries, n :: lengths => n :: selectedLengths entries lengths
  | _, _ => []

def selectedIndex {ref : Type} : List (Index ref) → List Int → List Int
  | .at position :: entries, index => (position : Int) :: selectedIndex entries index
  | _ :: entries, i :: index => i :: selectedIndex entries index
  | _, _ => []

def select {ref : Type} (t : Tensor α) (entries : List (Index ref)) : Tensor α where
  lengths := keptLengths (selectedLengths entries t.lengths)
  elementType := t.elementType
  layout := .rowMajor
  element index := t.element (selectedIndex entries index)

def reshape (t : Tensor α) (lengths : List Nat) (layout : Layout) : Tensor α where
  lengths
  elementType := t.elementType
  layout
  element index := t.element (t.layout.indexAt t.lengths (layout.place lengths index))

/-- The sum over some axes, from zero on in lexicographic order; a sum over no axis is the tensor itself. -/
def sum (t : Tensor α) (axes : Option (List Nat)) : Tensor α where
  lengths := keptLengths (pick (fun axis => !Build.isReduced axes axis) 0 t.lengths)
  elementType := t.elementType
  layout := .rowMajor
  element index :=
    if pick (Build.isReduced axes) 0 t.lengths = [] then t.element index
    else
      (boxPoints (pick (Build.isReduced axes) 0 t.lengths)).foldl
        (fun total point =>
          Scalar.add total (t.element (weave (Build.isReduced axes) 0 t.lengths.length point index)))
        Scalar.zero

def prefixSums (t : Tensor α) : Tensor α :=
  { t with
    layout := .rowMajor
    element := fun index =>
      (List.range ((index.headD 0).toNat + 1)).foldl
        (fun total (j : Nat) => Scalar.add total (t.element [(j : Int)])) Scalar.zero }

def regionLengths : List (Index (Tensor α)) → List Nat → List Nat
  | .at _ :: entries, _ :: lengths => regionLengths entries lengths
  | .gather positions :: entries, _ :: lengths => positions.lengths.headD 0 :: regionLengths entries lengths
  | _ :: entries, n :: lengths => n :: regionLengths entries lengths
  | _, _ => []

def addressed : List (Index (Tensor α)) → List Int → List Int
  | .at position :: entries, point => (position : Int) :: addressed entries point
  | .gather positions :: entries, i :: point =>
    Scalar.toIndex (positions.element [i]) :: addressed entries point
  | _ :: entries, i :: point => i :: addressed entries point
  | _, _ => []

def written (elementType : ElementType) (value : Operand (Tensor α)) (point : List Int) : α :=
  match value with
  | .literal x => x.numberAs elementType
  | .array v => if v.lengths = [1] then v.element [0] else v.element point

def updates (t : Tensor α) (entries : List (Index (Tensor α))) (value : Operand (Tensor α)) :
    List (List Int × α) :=
  (boxPoints (regionLengths entries t.lengths)).map fun point =>
    (addressed entries point, written t.elementType value point)

def store (t : Tensor α) (updates : List (List Int × α)) : Tensor α :=
  { t with element := storeElements t.element updates }

end Tensor

section Lookup

variable {β ref : Type} (find : ref → Option β)

def Index.mapRef? : Index ref → Option (Index β)
  | .at position => some (.at position)
  | .all => some .all
  | .slice start stop step => some (.slice start stop step)
  | .gather positions => (find positions).map .gather

def Operand.mapRef? : Operand ref → Option (Operand β)
  | .literal value => some (.literal value)
  | .array a => (find a).map .array

end Lookup

variable (find : Nat → Option (Tensor α))

def ShapeSource.lengths? : ShapeSource Nat → Option (List Nat)
  | .extents axes => axes.mapM Extent.length?
  | .like a => (find a).map Tensor.lengths

def writeUpdates? (a : Nat) (index : List (Index Nat)) (value : Operand Nat) : Option (List (List Int × α)) := do
  let t ← find a
  let entries ← index.mapM (Index.mapRef? find)
  let value ← value.mapRef? find
  return t.updates entries value

/-- The tensor that an operation stands for, if it is carried out on a plan whose fills are of the given
element type. The data is that of an input. -/
def Operation.tensor? (elementType : ElementType) (data : Array α) : Operation Nat → Option (Tensor α)
  | .full shape value elementType => do
    let lengths ← shape.lengths? find
    return .full lengths elementType (value.numberAs elementType)
  | .fill shape value => do
    let lengths ← shape.lengths? find
    return .full lengths elementType (value.numberAs elementType)
  | .range stop => stop.length?.map .iota
  | .input shape elementType | .inputNamed _ shape elementType => do
    let lengths ← shape.lengths? find
    return .ofData lengths elementType data
  | .combine op a (.literal value) => do
    let t ← find a
    return t.combineLiteral op value.number false
  | .combine op a (.array b) => do
    let t ← find a
    let u ← find b
    return t.combine op u
  | .combineFrom op value a => do
    let t ← find a
    return t.combineLiteral op value.number true
  | .select a index => do
    let t ← find a
    return t.select index
  | .reshape a shape layout => do
    let t ← find a
    let lengths ← shape.lengths? find
    return t.reshape lengths layout
  | .sum a axes => do
    let t ← find a
    return t.sum axes
  | .prefixSums a => do
    let t ← find a
    return t.prefixSums
  | .write a index value => do
    let t ← find a
    let updates ← writeUpdates? find a index value
    return t.store updates

end ArrayPlan
