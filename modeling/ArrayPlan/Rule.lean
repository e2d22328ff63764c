import ArrayPlan.Expr

/-!
Rules and their log. A rule names an expression over its parameters, the value of an array at an index that
is not stored anywhere. The log keeps rules in registration order and admits each name once.
-/

namespace ArrayPlan

structure Rule where
  name : String
  params : List String
  body : Expr

namespace Rule

def arity (r : Rule) : Nat :=
  r.params.length

def isScalar (r : Rule) : Bool :=
  r.params.isEmpty

def text (r : Rule) : String :=
  r.name ++ "(" ++ commaList r.params ++ ") := " ++ r.body.text

end Rule

structure RuleLog where
  rules : List Rule

namespace RuleLog

def empty : RuleLog :=
  ⟨[]⟩

def size (l : RuleLog) : Nat :=
  l.rules.length

def find? (l : RuleLog) (name : String) : Option Rule :=
  l.rules.find? fun r => r.name = name

def position? (l : RuleLog) (name : String) : Option Nat :=
  l.rules.findIdx? fun r => r.name = name

def contains (l : RuleLog) (name : String) : Bool :=
  l.rules.any fun r => r.name = name

/-- Appends a rule; `none` when its name is registered. -/
def push? (l : RuleLog) (r : Rule) : Option RuleLog :=
  if l.contains r.name then none else some ⟨l.rules ++ [r]⟩

def text (l : RuleLog) : String :=
  lines (l.rules.map Rule.text)

end RuleLog

end ArrayPlan
