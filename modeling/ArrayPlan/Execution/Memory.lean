import ArrayPlan.Execution.Fault
import ArrayPlan.Execution.Scalar
import Std.Data.TreeMap

/-!
Buffers and memories. A buffer holds the elements of an array in row-major order. It keeps the data it is bound
to and what has been stored since, so an element that was never given costs nothing and is zero. A memory gives
each array its buffer.
-/

namespace ArrayPlan

def offsetFrom? (start : Nat) : List Int → List Nat → Option Nat
  | i :: index, n :: lengths =>
    if i < 0 ∨ (n : Int) ≤ i then none else offsetFrom? (start * n + i.toNat) index lengths
  | _, _ => some start

structure Buffer (α : Type) where
  lengths : List Nat
  /-- The elements at first; those past the end are zero. -/
  bound : Array α
  /-- The elements stored since, by their places. -/
  stored : Std.TreeMap Nat α
deriving Repr

namespace Buffer

variable {α : Type}

def ofArray (data : Array α) : Buffer α :=
  ⟨[data.size], data, ∅⟩

def zeros (lengths : List Nat) : Buffer α :=
  ⟨lengths, #[], ∅⟩

def size (b : Buffer α) : Nat :=
  elementCount b.lengths

def element [Scalar α] (b : Buffer α) (place : Nat) : α :=
  b.stored.getD place (b.bound.getD place Scalar.zero)

def elements [Scalar α] (b : Buffer α) : List α :=
  (List.range b.size).map b.element

def offset (b : Buffer α) (index : List Int) : Except ExecutionFault Nat :=
  if index.length = b.lengths.length then
    match offsetFrom? 0 index b.lengths with
    | some place => .ok place
    | none => .error (.outOfBounds index b.lengths)
  else .error (.rankMismatch index b.lengths)

def read [Scalar α] (b : Buffer α) (index : List Int) : Except ExecutionFault α :=
  (b.offset index).map b.element

def write (b : Buffer α) (index : List Int) (value : α) : Except ExecutionFault (Buffer α) :=
  (b.offset index).map fun place => { b with stored := b.stored.insert place value }

end Buffer

structure Memory (α : Type) where
  buffers : List (String × Buffer α)
deriving Repr

namespace Memory

variable {α : Type}

def empty : Memory α :=
  ⟨[]⟩

def buffer? (m : Memory α) (array : String) : Option (Buffer α) :=
  m.buffers.lookup array

def assign (array : String) (b : Buffer α) : List (String × Buffer α) → List (String × Buffer α)
  | [] => [(array, b)]
  | (name, old) :: rest => if name = array then (name, b) :: rest else (name, old) :: assign array b rest

def set (m : Memory α) (array : String) (b : Buffer α) : Memory α :=
  ⟨assign array b m.buffers⟩

def buffer (m : Memory α) (array : String) : Except ExecutionFault (Buffer α) :=
  match m.buffer? array with
  | some b => .ok b
  | none => .error (.unknownArray array)

def modify (array : String) (change : Buffer α → Except ExecutionFault (Buffer α)) :
    List (String × Buffer α) → Except ExecutionFault (List (String × Buffer α))
  | [] => .error (.unknownArray array)
  | (name, b) :: rest =>
    if name = array then do
      let b ← change b
      return (name, b) :: rest
    else do
      let rest ← modify array change rest
      return (name, b) :: rest

def store (m : Memory α) (array : String) (index : List Int) (value : α) :
    Except ExecutionFault (Memory α) := do
  let buffers ← modify array (fun b => b.write index value) m.buffers
  return ⟨buffers⟩

end Memory

end ArrayPlan
