import ArrayPlan.BackingTable
import ArrayPlan.Handle
import ArrayPlan.Kernel
import ArrayPlan.NameSupply

/-!
Plans. A plan is the record of a computation on arrays that has not been carried out: rules in registration
order, domains of index variables, statements queued for writes, declared arrays, and the table of backed
rules. Each queued statement is kept with the number of rules registered before it.
-/

namespace ArrayPlan

structure Settings where
  stems : PerKind String
  /-- The element type of fills that name none. -/
  elementType : ElementType
deriving DecidableEq, Repr

def Settings.default : Settings :=
  ⟨NameSupply.defaultStems, .float64⟩

structure Plan where
  id : Nat
  settings : Settings
  names : NameSupply
  rules : RuleLog
  domains : List Domain
  backing : BackingTable
  pending : List (Nat × Statement)
  arrays : List Declaration
  finalized : Bool

structure PlanStats where
  rules : Nat
  domains : Nat
  pending : Nat
  backed : Nat
  arrays : Nat
deriving DecidableEq, Repr

namespace Plan

def empty (id : Nat) (settings : Settings) : Plan :=
  ⟨id, settings, .ofStems settings.stems, .empty, [], .empty, [], [], false⟩

def stats (p : Plan) : PlanStats :=
  ⟨p.rules.size, p.domains.length, p.pending.length, p.backing.size, p.arrays.length⟩

def detailText (p : Plan) : String :=
  let s := p.stats
  "Stack \x7b stats: StackStats \x7b rules: " ++ toString s.rules
    ++ ", domains: " ++ toString s.domains
    ++ ", implicit_assignments: " ++ toString s.pending
    ++ ", backed: " ++ toString s.backed
    ++ ", arrays: " ++ toString s.arrays ++ " \x7d \x7d"

end Plan

end ArrayPlan
