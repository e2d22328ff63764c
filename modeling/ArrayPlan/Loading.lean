import ArrayPlan.BackingTable
import ArrayPlan.Expr.Walk
import ArrayPlan.Kernel

/-!
Loading stored rules. Where a backing table shows an array for a rule, every call of the rule becomes a load
of that array at the arguments of the call; a call without arguments loads the first element.
-/

namespace ArrayPlan

/-- The load that takes the place of a call, when the rule is backed as seen at `index`. -/
def BackingTable.loadFor? (t : BackingTable) (index : Nat) : Expr → Option Expr
  | .call rule args =>
    (t.arrayAt? rule index).map fun array => .load array (if args.isEmpty then [.int 0] else args)
  | _ => none

def Expr.loadBacked (t : BackingTable) (index : Nat) (e : Expr) : Expr :=
  e.rebuild (t.loadFor? index)

def Rule.loadBacked (t : BackingTable) (index : Nat) (r : Rule) : Rule :=
  { r with body := r.body.loadBacked t index }

def Statement.loadBacked (t : BackingTable) (index : Nat) (s : Statement) : Statement :=
  { s with target := s.target.loadBacked t index, value := s.value.loadBacked t index }

end ArrayPlan
