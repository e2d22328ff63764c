import ArrayPlan.Execution.Enumeration
import ArrayPlan.Execution.Memory

/-!
Values of expressions in a memory. A call is inlined: the rule's body is evaluated where its parameters are
bound to the argument values and all other bindings are forgotten, the kernel's parameters apart. The walk
over one expression is separate from the descent through calls, which is bounded by a depth.
-/

namespace ArrayPlan

structure Setting (α : Type) where
  domains : List Domain
  rules : List Rule
  parameters : Env
  memory : Memory α

namespace Setting

variable {α : Type} [Scalar α]

def rule (s : Setting α) (name : String) : Except ExecutionFault Rule :=
  match s.rules.find? fun r => r.name = name with
  | some r => .ok r
  | none => .error (.unknownRule name)

mutual

def valueWith (s : Setting α) (inline : Rule → Env → Except ExecutionFault α) :
    Expr → Env → Except ExecutionFault α
  | .int n, _ => .ok (Scalar.ofInt n)
  | .real x, _ => .ok (Scalar.ofReal x)
  | .var name, env =>
    match env.value? name with
    | some v => .ok (Scalar.ofInt v)
    | none => .error (.unboundName name)
  | .call name args, env => do
    let r ← s.rule name
    if r.params.length = args.length then
      let values ← valuesWith s inline args env
      inline r (s.parameters.bindAll (r.params.zip (values.map Scalar.toIndex)))
    else .error (.arityMismatch name)
  | .load array index, env => do
    let values ← valuesWith s inline index env
    let b ← s.memory.buffer array
    b.read (values.map Scalar.toIndex)
  | .arith op lhs rhs, env => do
    let a ← valueWith s inline lhs env
    let b ← valueWith s inline rhs env
    return Scalar.arith op a b
  | .compare op lhs rhs, env => do
    let a ← valueWith s inline lhs env
    let b ← valueWith s inline rhs env
    return Scalar.compare op a b
  | .sum vars body, env => do
    let points ← pointsOver s.domains vars env
    points.foldlM (fun total point => do
      let v ← valueWith s inline body point
      return Scalar.add total v) Scalar.zero

def valuesWith (s : Setting α) (inline : Rule → Env → Except ExecutionFault α) :
    List Expr → Env → Except ExecutionFault (List α)
  | [], _ => .ok []
  | e :: es, env => do
    let v ← valueWith s inline e env
    let vs ← valuesWith s inline es env
    return v :: vs

end

def valueTo (s : Setting α) : Nat → Expr → Env → Except ExecutionFault α
  | 0 => s.valueWith fun r _ => .error (.nestedTooDeep r.name)
  | depth + 1 => s.valueWith fun r env => valueTo s depth r.body env

/-- Extra depth for rules that call themselves over shrinking ranges: more open calls than a machine has
room for. -/
def recursionAllowance : Nat :=
  1000000000

def depth (s : Setting α) : Nat :=
  s.rules.length + recursionAllowance

def value (s : Setting α) (e : Expr) (env : Env) : Except ExecutionFault α :=
  s.valueTo s.depth e env

def position (s : Setting α) (index : List Expr) (env : Env) : Except ExecutionFault (List Int) :=
  index.mapM fun e => (s.value e env).map Scalar.toIndex

end Setting

end ArrayPlan
