import ArrayPlan.Plan.Reduction
import ArrayPlan.Plan.Reshape
import ArrayPlan.Plan.Source
import ArrayPlan.Plan.Write

/-!
Operations as data. The arrays that an operation works on are given by references of any kind; resolving the
references gives the operation on handles that is carried out on a plan.
-/

namespace ArrayPlan

inductive ShapeSource (ref : Type) where
  | extents (extents : List Extent)
  | like (a : ref)

inductive Operation (ref : Type) where
  | full (shape : ShapeSource ref) (value : Literal) (elementType : ElementType)
  | fill (shape : ShapeSource ref) (value : Literal)
  | range (stop : Extent)
  | input (shape : ShapeSource ref) (elementType : ElementType)
  | inputNamed (name : String) (shape : ShapeSource ref) (elementType : ElementType)
  | combine (op : Operator) (a : ref) (b : Operand ref)
  /-- The literal stands on the left. -/
  | combineFrom (op : Operator) (value : Literal) (a : ref)
  | select (a : ref) (index : List (Index ref))
  | reshape (a : ref) (shape : ShapeSource ref) (layout : Layout)
  | sum (a : ref) (axes : Option (List Nat))
  | prefixSums (a : ref)
  | write (a : ref) (index : List (Index ref)) (value : Operand ref)

section Resolve

variable {ref ε : Type} (find : ref → Except ε Handle)

def ShapeSource.resolve : ShapeSource ref → Except ε (List Extent)
  | extents es => .ok es
  | like a => (find a).map fun h => h.shape.extents

def Operand.resolve : Operand ref → Except ε (Operand Handle)
  | literal value => .ok (literal value)
  | array a => (find a).map array

def Index.resolve : Index ref → Except ε (Index Handle)
  | .at position => .ok (.at position)
  | all => .ok all
  | slice start stop step => .ok (slice start stop step)
  | gather a => (find a).map gather

def Operation.resolve : Operation ref → Except ε (Operation Handle)
  | full shape value elementType => do
    let shape ← shape.resolve find
    return full (.extents shape) value elementType
  | fill shape value => do
    let shape ← shape.resolve find
    return fill (.extents shape) value
  | range stop => .ok (range stop)
  | input shape elementType => do
    let shape ← shape.resolve find
    return input (.extents shape) elementType
  | inputNamed name shape elementType => do
    let shape ← shape.resolve find
    return inputNamed name (.extents shape) elementType
  | combine op a b => do
    let a ← find a
    let b ← b.resolve find
    return combine op a b
  | combineFrom op value a => do
    let a ← find a
    return combineFrom op value a
  | select a index => do
    let a ← find a
    let index ← index.mapM (Index.resolve find)
    return select a index
  | reshape a shape layout => do
    let a ← find a
    let shape ← shape.resolve find
    return reshape a (.extents shape) layout
  | sum a axes => do
    let a ← find a
    return sum a axes
  | prefixSums a => do
    let a ← find a
    return prefixSums a
  | write a index value => do
    let a ← find a
    let index ← index.mapM (Index.resolve find)
    let value ← value.resolve find
    return write a index value

end Resolve

def ShapeSource.axes : ShapeSource Handle → List Extent
  | extents es => es
  | like h => h.shape.extents

namespace Operation

def subject? {ref : Type} : Operation ref → Option ref
  | full .. | fill .. | range _ | input .. | inputNamed .. => none
  | combine _ a _ | combineFrom _ _ a | select a _ | reshape a _ _ | sum a _ | prefixSums a
  | write a _ _ => some a

/-- Carries out an operation; a write gives back the written handle. -/
def perform : Operation Handle → Build Handle
  | full shape value elementType => Build.full shape.axes value elementType
  | fill shape value => Build.fill shape.axes value
  | range stop => Build.range stop
  | input shape elementType => Build.input shape.axes elementType
  | inputNamed name shape elementType => Build.inputNamed name shape.axes elementType
  | combine op a b => Build.combine op a b
  | combineFrom op value a => Build.combineLiteral op a value true
  | select a index => Build.select a index
  | reshape a shape layout => Build.reshape a shape.axes layout
  | sum a axes => Build.sum a axes
  | prefixSums a => Build.prefixSums a
  | write a index value => Build.write a index value

end Operation

end ArrayPlan
