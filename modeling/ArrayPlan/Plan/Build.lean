import ArrayPlan.Plan
import ArrayPlan.Plan.Error

/-!
Steps that build a plan. A step changes a plan and may refuse; the plan as changed up to the refusal is kept,
so names drawn from the supply stay drawn. The steps here each append to one part of the plan.
-/

namespace ArrayPlan

abbrev Build := ExceptT PlanError (StateM Plan)

def Build.runOn {α : Type} (step : Build α) (p : Plan) : Except PlanError α × Plan :=
  StateT.run (ExceptT.run step) p

namespace Build

def ofExcept {α : Type} : Except PlanError α → Build α
  | .ok a => return a
  | .error e => throw e

def requireOpen : Build Unit := do
  let p ← get
  if p.finalized then throw .finalized

def requireOwn (h : Handle) : Build Unit := do
  let p ← get
  if h.plan ≠ p.id then throw (.foreignHandle h.rule)

def fresh (kind : NameKind) : Build String :=
  modifyGet fun p =>
    let (name, names) := p.names.fresh kind
    (name, { p with names })

def freshIndices (n : Nat) : Build (List String) :=
  modifyGet fun p =>
    let (vars, names) := p.names.freshList .index n
    (vars, { p with names })

def reserve (name : String) : Build Unit := do
  let p ← get
  match p.names.reserve? name with
  | some names => set { p with names }
  | none => throw (.nameInUse name)

def addDomain (d : Domain) : Build Unit :=
  modify fun p => if d.vars.isEmpty then p else { p with domains := p.domains ++ [d] }

def enqueue (s : Statement) : Build Unit :=
  modify fun p => { p with pending := p.pending ++ [(p.rules.size, s)] }

def declare (d : Declaration) : Build Unit :=
  modify fun p => { p with arrays := p.arrays ++ [d] }

def back (rule array : String) : Build Unit :=
  modify fun p => { p with backing := p.backing.insert rule array p.rules.size }

def register (r : Rule) : Build Unit := do
  let p ← get
  match p.rules.push? r with
  | some rules => set { p with rules }
  | none => throw (.nameInUse r.name)

def define (params : List String) (body : Expr) : Build String := do
  let name ← fresh .rule
  register ⟨name, params, body⟩
  return name

def arityOf (rule : String) : Build Nat := do
  let p ← get
  match p.rules.find? rule with
  | some r => return r.arity
  | none => throw (.unknownRule rule)

/-- A call of a rule. A rule without parameters takes no arguments, whatever is given. -/
def invoke (rule : String) (args : List Expr) : Build Expr := do
  let arity ← arityOf rule
  if arity = 0 then return .call rule []
  else if arity = args.length then return .call rule args
  else throw (.callArity rule arity args.length)

def invokeAt (rule : String) (vars : List String) : Build Expr :=
  invoke rule (vars.map .var)

def invokeAtOrigin (rule : String) : Build Expr := do
  let arity ← arityOf rule
  return .call rule (List.replicate arity (.int 0))

def shapeOf (extents : List Extent) : Build Shape :=
  ofExcept ((Shape.ofExtents extents).mapError .invalidShape)

def shapeOfKept (extents : List Extent) : Build Shape :=
  if extents.isEmpty then return .unit else shapeOf extents

def handle (rule : String) (shape : Shape) (elementType : ElementType) (layout : Layout) :
    Build Handle := do
  let p ← get
  return ⟨p.id, rule, shape, elementType, layout⟩

end Build

end ArrayPlan
