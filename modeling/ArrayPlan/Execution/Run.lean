import ArrayPlan.Execution.Evaluation

/-!
Execution of kernels. Declared arrays get their buffers in declaration order, inputs keep the data they are
bound to and all others start at zero. Then the statements are executed one after the other, each point by
point over points that are enumerated before the first store.
-/

namespace ArrayPlan

variable {α : Type} [Scalar α]

/-- The length of an axis; a parameter counts as the word that its value is stored as. -/
def Extent.lengthIn (parameters : Env) : Extent → Except ExecutionFault Nat
  | .fixed n => .ok n
  | .symbolic name =>
    match parameters.value? name with
    | some v => .ok (Word.unsigned v)
    | none => .error (.unboundParameter name)

def Memory.declare (parameters : Env) (m : Memory α) (d : Declaration) :
    Except ExecutionFault (Memory α) := do
  let lengths ← d.shape.extents.mapM (Extent.lengthIn parameters)
  match m.buffer? d.name with
  | some b =>
    if b.size = elementCount lengths then .ok (m.set d.name { b with lengths })
    else .error (.wrongInputSize d.name)
  | none => .ok (m.set d.name (Buffer.zeros lengths))

def Memory.ofInputs (inputs : List (String × Array α)) : Memory α :=
  inputs.foldl (fun m i => m.set i.1 (Buffer.ofArray i.2)) Memory.empty

namespace Kernel

def setting (k : Kernel) (parameters : Env) (m : Memory α) : Setting α :=
  ⟨k.domains, k.rules, parameters, m⟩

def storeAt (k : Kernel) (parameters : Env) (s : Statement) (m : Memory α) (point : Env) :
    Except ExecutionFault (Memory α) := do
  let setting := k.setting parameters m
  let value ← setting.value s.value point
  match s.target with
  | .load array index => do
    let position ← setting.position index point
    m.store array position value
  | target => .error (.notAnElement target)

def executeStatement (k : Kernel) (parameters : Env) (m : Memory α) (s : Statement) :
    Except ExecutionFault (Memory α) := do
  let points ← pointsOver k.domains s.within parameters
  points.foldlM (k.storeAt parameters s) m

def execute (k : Kernel) (parameters : Env) (inputs : List (String × Array α)) :
    Except ExecutionFault (Memory α) := do
  let m ← k.arrays.foldlM (Memory.declare parameters) (Memory.ofInputs inputs)
  k.statements.foldlM (k.executeStatement parameters) m

def contents (k : Kernel) (m : Memory α) : List (String × List α) :=
  k.arrays.map fun d => (d.name, ((m.buffer? d.name).map Buffer.elements).getD [])

end Kernel

end ArrayPlan
