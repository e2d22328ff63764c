import ArrayPlan.Domain
import ArrayPlan.Handle
import ArrayPlan.Rule

/-!
Kernels: what a plan is lowered into. Declared arrays, index domains, rules still to be inlined, and store
statements in execution order, together with the arrays that hold the requested values.
-/

namespace ArrayPlan

/-- Stores the value at the target for every point of the domains of the variables in `within`. -/
structure Statement where
  target : Expr
  value : Expr
  within : List String

def Statement.text (s : Statement) : String :=
  s.target.text ++ " = " ++ s.value.text

inductive Role where
  | input
  | temporary
  | output
deriving DecidableEq, Repr

def Role.text : Role → String
  | .input => "input"
  | .temporary => "temporary"
  | .output => "output"

structure Declaration where
  name : String
  shape : Shape
  elementType : ElementType
  role : Role
deriving DecidableEq, Repr

def Declaration.text (d : Declaration) : String :=
  d.role.text ++ " " ++ d.name ++ ": " ++ d.elementType.text ++ d.shape.text

structure Binding where
  rule : String
  array : String
deriving DecidableEq, Repr

structure Kernel where
  domains : List Domain
  statements : List Statement
  arrays : List Declaration
  rules : List Rule
  outputs : List Binding
  /-- For each rule that got an output array, the variables of its store. -/
  stores : Option (List (String × List String))

namespace Kernel

def rule? (k : Kernel) (name : String) : Option Rule :=
  k.rules.find? fun r => r.name = name

def array? (k : Kernel) (name : String) : Option Declaration :=
  k.arrays.find? fun a => a.name = name

def outputArray? (k : Kernel) (h : Handle) : Option String :=
  (k.outputs.find? fun o => o.rule = h.rule).map Binding.array

def inputs (k : Kernel) : List Declaration :=
  k.arrays.filter fun a => a.role = .input

def parameters (k : Kernel) : List String :=
  (k.domains.flatMap Domain.parameters ++ k.arrays.flatMap fun a => a.shape.parameters).eraseDups

def statementText (s : Statement) : String :=
  "for [" ++ commaList s.within ++ "] " ++ s.text

def text (k : Kernel) : String :=
  "---- ARGUMENTS\n" ++ lines (k.arrays.map Declaration.text)
    ++ "---- DOMAINS\n" ++ lines (k.domains.map Domain.text)
    ++ "---- SUBSTITUTIONS\n" ++ lines (k.rules.map Rule.text)
    ++ "---- INSTRUCTIONS\n" ++ lines (k.statements.map statementText)

end Kernel

end ArrayPlan
