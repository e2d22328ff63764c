import ArrayPlan.Loading
import ArrayPlan.Plan.Build

/-!
Lowering a plan into a kernel. The rules are visited once, in registration order. At each of them the
statements queued there are due first; then the rule is recorded, with calls of rules backed by then turned
into loads; then, if the rule is requested and has no array, a store of its values into a new output array
follows. The array is seen by later rules only.
-/

namespace ArrayPlan

structure Lowering where
  names : NameSupply
  backing : BackingTable
  domains : List Domain
  arrays : List Declaration
  statements : List Statement
  rules : List Rule
  /-- The variables of the store of each rule that got an output array. -/
  stores : List (String × List String)

namespace Lowering

def flush (pending : List (Nat × Statement)) (index : Nat) (l : Lowering) : Lowering :=
  let due := (pending.filter fun s => s.1 = index).map Prod.snd
  { l with statements := l.statements ++ due.map (Statement.loadBacked l.backing index) }

def record (index : Nat) (r : Rule) (l : Lowering) : Lowering :=
  { l with rules := l.rules ++ [r.loadBacked l.backing index] }

def addStore (index : Nat) (r : Rule) (h : Handle) (array : String) (target args : List Expr)
    (vars : List String) (l : Lowering) : Lowering :=
  let store : Statement := ⟨.load array target, .call r.name args, vars⟩
  { l with
    statements := l.statements ++ [store.loadBacked l.backing index]
    arrays := l.arrays ++ [⟨array, h.shape, h.elementType, .output⟩]
    stores := l.stores ++ [(r.name, vars)]
    backing := l.backing.insert r.name array (index + 1) }

def realize (index : Nat) (r : Rule) (h : Handle) (l : Lowering) : Lowering :=
  let (array, names) := l.names.fresh .array
  if h.shape.isUnit then
    { l with names }.addStore index r h array [.int 0] (List.replicate r.arity (.int 0)) []
  else
    let (vars, names) := names.freshList .index h.shape.rank
    { l with names, domains := l.domains ++ [Domain.box (vars.zip h.shape.extents)] }.addStore
      index r h array (vars.map .var) (vars.map .var) vars

def visit (pending : List (Nat × Statement)) (requested : String → Option Handle) (index : Nat)
    (r : Rule) (l : Lowering) : Lowering :=
  let l := (l.flush pending index).record index r
  match requested r.name with
  | some h => l.realize index r h
  | none => l

/-- The walk over the rules from a registration index on, with the statements due after the last. -/
def walk (pending : List (Nat × Statement)) (requested : String → Option Handle) :
    Nat → List Rule → Lowering → Lowering
  | index, [], l => l.flush pending index
  | index, r :: rules, l => walk pending requested (index + 1) rules (l.visit pending requested index r)

end Lowering

namespace Plan

/-- The last of the requested handles that names a rule, when the rule has no array. -/
def requestedIn (p : Plan) (outputs : List Handle) (rule : String) : Option Handle :=
  if p.backing.contains rule then none else outputs.reverse.find? fun h => h.rule = rule

def lowered (p : Plan) (outputs : List Handle) : Lowering :=
  Lowering.walk p.pending (p.requestedIn outputs) 0 p.rules.rules
    ⟨p.names, p.backing, p.domains, p.arrays, [], [], []⟩

def bindingOf (backing : BackingTable) (h : Handle) : Except String Binding :=
  match backing.array? h.rule with
  | some array => .ok ⟨h.rule, array⟩
  | none => .error h.rule

def bindings (backing : BackingTable) (outputs : List Handle) : Except String (List Binding) :=
  (outputs.mapM (bindingOf backing)).map List.eraseDups

end Plan

namespace Build

/-- Lowers the plan for the requested handles. The queue is emptied and names are drawn before it is known whether
each handle has an array; only then is the plan closed. -/
def finalize (outputs : List Handle) (withStores : Bool) : Build Kernel := do
  outputs.forM requireOwn
  requireOpen
  let p ← get
  match outputs.find? fun h => !p.rules.contains h.rule with
  | some h => throw (.unknownRule h.rule)
  | none => do
    let l := p.lowered outputs
    set { p with names := l.names, pending := [] }
    match Plan.bindings l.backing outputs with
    | .error rule => throw (.unknownRule rule)
    | .ok bindings => do
      modify fun p => { p with backing := l.backing, finalized := true }
      return {
        domains := l.domains
        statements := l.statements
        arrays := l.arrays
        rules := l.rules
        outputs := bindings
        stores := if withStores then some l.stores else none }

end Build

end ArrayPlan
