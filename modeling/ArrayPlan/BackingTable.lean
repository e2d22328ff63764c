/-!
Which array holds the values of a rule. An entry is visible from a registration index on: statements that
were due before it do not see it. Entries stay in insertion order and are never replaced.
-/

namespace ArrayPlan

structure BackingEntry where
  array : String
  visibleFrom : Nat
deriving DecidableEq, Repr

structure BackingTable where
  entries : List (String × BackingEntry)
deriving DecidableEq, Repr

namespace BackingTable

def empty : BackingTable :=
  ⟨[]⟩

def size (t : BackingTable) : Nat :=
  t.entries.length

def find? (t : BackingTable) (rule : String) : Option BackingEntry :=
  t.entries.lookup rule

def contains (t : BackingTable) (rule : String) : Bool :=
  (t.find? rule).isSome

/-- Adds an entry; a rule that has one keeps it. -/
def insert (t : BackingTable) (rule array : String) (visibleFrom : Nat) : BackingTable :=
  if t.contains rule then t else ⟨t.entries ++ [(rule, ⟨array, visibleFrom⟩)]⟩

def array? (t : BackingTable) (rule : String) : Option String :=
  (t.find? rule).map BackingEntry.array

def arrayAt? (t : BackingTable) (rule : String) (index : Nat) : Option String :=
  match t.find? rule with
  | some entry => if entry.visibleFrom ≤ index then some entry.array else none
  | none => none

end BackingTable

end ArrayPlan
