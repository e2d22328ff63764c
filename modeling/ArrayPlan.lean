import ArrayPlan.Decimal.Reading
import ArrayPlan.Session
import ArrayPlan.Proofs.Enumerating
import ArrayPlan.Proofs.Simultaneous
import ArrayPlan.Proofs.Accounts
import ArrayPlan.Proofs.Additions
import ArrayPlan.Proofs.Denotations
import ArrayPlan.Proofs.Explanations
import ArrayPlan.Proofs.Causality
import ArrayPlan.Proofs.Integrity
import ArrayPlan.Proofs.Stages
import ArrayPlan.Proofs.Readiness
import ArrayPlan.Proofs.Runs
import ArrayPlan.Proofs.Independence
import ArrayPlan.Proofs.Schedule
import ArrayPlan.Proofs.Atomicity
import ArrayPlan.Proofs.Safety
import ArrayPlan.Proofs.Acceptance
import ArrayPlan.Proofs.Draft
import ArrayPlan.Proofs.Requests
import ArrayPlan.Proofs.Extents
import ArrayPlan.Proofs.Naming
import ArrayPlan.Proofs.Reshaping
import ArrayPlan.Proofs.Labels
import ArrayPlan.Proofs.Broadcasting
import ArrayPlan.Proofs.Preconditions
import ArrayPlan.Proofs.OutputArrays
import ArrayPlan.Proofs.ScalarViews
import ArrayPlan.Proofs.LoadingLaws
import ArrayPlan.Proofs.LoadedValues
import ArrayPlan.Proofs.Coverage
import ArrayPlan.Proofs.WordStrides
import ArrayPlan.Proofs.LinearForms
import ArrayPlan.Proofs.Membership
import ArrayPlan.Proofs.Issuing
import ArrayPlan.Proofs.LiteralValues
import ArrayPlan.Proofs.FreeVariables
import ArrayPlan.Proofs.Linearization
import ArrayPlan.Proofs.Readability
