import Std.Data.TreeSet

/-!
Names of one plan. Index variables, rules and arrays are numbered separately behind a stem of their own, and
all names, also those chosen by the caller, share one set of taken names. A generated name that is taken
already is passed over for good: the counter of its kind moves beyond it.
-/

namespace ArrayPlan

inductive NameKind where
  | index
  | rule
  | array
deriving DecidableEq, Repr

structure PerKind (α : Type) where
  index : α
  rule : α
  array : α
deriving DecidableEq, Repr

namespace PerKind

variable {α : Type}

def get (p : PerKind α) : NameKind → α
  | .index => p.index
  | .rule => p.rule
  | .array => p.array

def set (p : PerKind α) (kind : NameKind) (value : α) : PerKind α :=
  match kind with
  | .index => { p with index := value }
  | .rule => { p with rule := value }
  | .array => { p with array := value }

end PerKind

structure NameSupply where
  stems : PerKind String
  next : PerKind Nat
  taken : Std.TreeSet String
deriving Repr

namespace NameSupply

/-- Stems of supplies for which none are given. -/
def defaultStems : PerKind String :=
  ⟨"i", "subst", "arr"⟩

def ofStems (stems : PerKind String) : NameSupply :=
  ⟨stems, ⟨0, 0, 0⟩, ∅⟩

def candidate (stem : String) (number : Nat) : String :=
  stem ++ toString number

theorem size_erase_lt {taken : Std.TreeSet String} {name : String} (h : name ∈ taken) :
    (taken.erase name).size < taken.size := by
  have hne : taken.isEmpty = false :=
    Std.TreeSet.isEmpty_eq_false_iff_exists_mem.mpr ⟨name, h⟩
  rw [Std.TreeSet.isEmpty_eq_size_eq_zero, beq_eq_false_iff_ne] at hne
  rw [Std.TreeSet.size_erase, if_pos (Std.TreeSet.contains_iff_mem.mpr h)]
  omega

/-- The first number from `number` on whose candidate is not among the taken names. Every candidate passed
over is struck from the set, so the search ends. -/
def firstFree (stem : String) (taken : Std.TreeSet String) (number : Nat) : Nat :=
  if h : candidate stem number ∈ taken then
    firstFree stem (taken.erase (candidate stem number)) (number + 1)
  else number
termination_by taken.size
decreasing_by
  exact size_erase_lt h

def fresh (s : NameSupply) (kind : NameKind) : String × NameSupply :=
  let number := firstFree (s.stems.get kind) s.taken (s.next.get kind)
  let name := candidate (s.stems.get kind) number
  (name, { s with next := s.next.set kind (number + 1), taken := s.taken.insert name })

def freshList (s : NameSupply) (kind : NameKind) : Nat → List String × NameSupply
  | 0 => ([], s)
  | n + 1 =>
    let (name, s) := s.fresh kind
    let (names, s) := s.freshList kind n
    (name :: names, s)

def reserve? (s : NameSupply) (name : String) : Option NameSupply :=
  if name = "" ∨ name ∈ s.taken then none else some { s with taken := s.taken.insert name }

def isTaken (s : NameSupply) (name : String) : Bool :=
  s.taken.contains name

def size (s : NameSupply) : Nat :=
  s.taken.size

end NameSupply

end ArrayPlan
