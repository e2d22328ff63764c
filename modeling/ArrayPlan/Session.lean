import ArrayPlan.Execution.Run
import ArrayPlan.Operation
import ArrayPlan.Plan.Lowering

/-!
Sessions. A session holds several plans, keeps handles under names of the caller's choice, and remembers the
kernel lowered last. A step that refers to a name without a handle fails before it touches a plan.
-/

namespace ArrayPlan

structure Session where
  /-- Each plan has its place in the list as its identity. -/
  plans : List Plan
  handles : List (String × Handle)
  kernel : Option Kernel

inductive SessionError where
  | refused (cause : PlanError)
  | failed (fault : ExecutionFault)
  | unbound (name : String)

namespace Session

def start (settings : List Settings) : Session :=
  ⟨settings.zipIdx.map fun s => Plan.empty s.2 s.1, [], none⟩

def plan? (s : Session) (id : Nat) : Option Plan :=
  s.plans[id]?

def find (s : Session) (name : String) : Except SessionError Handle :=
  match s.handles.lookup name with
  | some h => .ok h
  | none => .error (.unbound name)

def keep (s : Session) (name : String) (h : Handle) : Session :=
  { s with handles := (name, h) :: s.handles.filter fun e => e.1 ≠ name }

def step {α : Type} (s : Session) (id : Nat) (b : Build α) : Except SessionError α × Session :=
  match s.plan? id with
  | none => (.error (.unbound (toString id)), s)
  | some p =>
    let (outcome, p) := b.runOn p
    (outcome.mapError .refused, { s with plans := s.plans.set id p })

/-- Carries out an operation, on the given plan or on that of the array it works on. -/
def perform (s : Session) (id? : Option Nat) (op : Operation String) :
    Except SessionError Handle × Session :=
  match op.resolve s.find with
  | .error e => (.error e, s)
  | .ok op => s.step (id?.getD ((op.subject?.map Handle.plan).getD 0)) op.perform

def finalize (s : Session) (id : Nat) (outputs : List String) (withStores : Bool) :
    Except SessionError Kernel × Session :=
  match outputs.mapM s.find with
  | .error e => (.error e, s)
  | .ok outputs =>
    match s.step id (Build.finalize outputs withStores) with
    | (.ok kernel, s) => (.ok kernel, { s with kernel := some kernel })
    | (.error e, s) => (.error e, s)

def lowered (s : Session) : Except SessionError Kernel :=
  match s.kernel with
  | some k => .ok k
  | none => .error (.unbound "kernel")

def backingOf? (s : Session) (h : Handle) : Option String :=
  (s.plan? h.plan).bind fun p => p.backing.array? h.rule

def inputData {α : Type} (s : Session) (input : String × Array α) :
    Except SessionError (String × Array α) := do
  let h ← s.find input.1
  match s.backingOf? h with
  | some array => return (array, input.2)
  | none => throw (.unbound input.1)

def run {α : Type} [Scalar α] (s : Session) (parameters : Env) (inputs : List (String × Array α)) :
    Except SessionError (List (String × List α)) := do
  let k ← s.lowered
  let inputs ← inputs.mapM s.inputData
  match k.execute parameters inputs with
  | .ok m => return k.contents m
  | .error fault => throw (.failed fault)

end Session

end ArrayPlan
