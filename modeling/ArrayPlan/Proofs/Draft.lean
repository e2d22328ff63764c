import ArrayPlan.Proofs.Script
import ArrayPlan.Proofs.Tensors
import ArrayPlan.Proofs.Exactness

/-!
Drafts. A draft is what a list of operations computes, without names, and with lengths in place of extents. Its values
are not stored: an element is worked out when it is asked for, from elements of earlier values and of arrays. Statements
are queued with the number of values before them. Symbolic extents and the numbers that they stand for have one draft.
-/

namespace ArrayPlan

section Settling

variable (values : String → Nat)

def Extent.under : Extent → Nat
  | fixed n => n
  | symbolic name => values name

/-- The axis with its length in place of a name. -/
def Extent.settle (e : Extent) : Extent :=
  .fixed (e.under values)

variable {ref : Type}

def ShapeSource.settle : ShapeSource ref → ShapeSource ref
  | extents es => .extents (es.map (Extent.settle values))
  | like a => .like a

def Operation.settle : Operation ref → Operation ref
  | full shape value elementType => .full (shape.settle values) value elementType
  | fill shape value => .fill (shape.settle values) value
  | range stop => .range (stop.settle values)
  | input shape elementType => .input (shape.settle values) elementType
  | inputNamed name shape elementType => .inputNamed name (shape.settle values) elementType
  | reshape a shape layout => .reshape a (shape.settle values) layout
  | op => op

/-- A position on a symbolic axis is below the number that the name stands for. -/
def Index.Below : Index ref → Extent → Prop
  | .at position, .symbolic name => position < values name
  | _, _ => True

def Index.WithinUnits : Index ref → Extent → Prop
  | .at position, .symbolic name => values name = 1 → position = 0
  | _, _ => True

variable {values} in
theorem Index.Below.withinUnits {entry : Index ref} {e : Extent} (h : entry.Below values e) :
    entry.WithinUnits values e := by
  cases entry with
  | «at» position =>
    cases e with
    | fixed n => trivial
    | symbolic name =>
      intro hone
      have hlt : position < values name := h
      omega
  | _ => trivial

def Index.position? : Index ref → Option Nat
  | .at position => some position
  | _ => none

end Settling

def span (n : Nat) : Nat :=
  (Word.signed n).toNat

/-- Elements that can be asked for: those of values and those of arrays, both by their numbers. -/
structure Oracle (α : Type) where
  value : Nat → List Int → Option α
  array : Nat → List Int → Option α

structure Deferred (α : Type) where
  lengths : List Nat
  element : Oracle α → List Int → Option α

/-- A queued statement: at each of the points in turn, an element of an array is replaced. -/
structure Errand (α : Type) where
  due : Nat
  array : Nat
  points : List (List Int)
  position : Oracle α → List Int → Option (List Int)
  element : Oracle α → List Int → Option α

/-- A value that an array holds, for all that comes after another value. -/
structure Held where
  value : Nat
  array : Nat
  after : Nat

structure Drafted where
  value : Nat
  lengths : List Nat
  elementType : ElementType
  layout : Layout

structure Draft (α : Type) where
  values : List (Deferred α)
  /-- The axis lengths of each array. -/
  arrays : List (List Nat)
  held : List Held
  queue : List (Errand α)
  results : List Drafted

variable {α : Type} [Scalar α]

namespace Deferred

open Interpretation

def constant (lengths : List Nat) (x : α) : Deferred α :=
  ⟨lengths, fun _ _ => some x⟩

def iota (n : Nat) : Deferred α :=
  ⟨[n], fun _ index => some (Scalar.ofInt (index.headD 0))⟩

omit [Scalar α] in
def loaded (lengths : List Nat) (array : Nat) : Deferred α :=
  ⟨lengths, fun o => o.array array⟩

def combineLiteral (op : Operator) (a : Drafted) (x : α) (literalFirst : Bool) : Deferred α where
  lengths := a.lengths
  element o index := (o.value a.value index).map fun y => if literalFirst then op.number x y else op.number y x

def spreadTo (lengths : List Nat) (index : List Int) : List Int :=
  clip lengths (index.drop (index.length - lengths.length))

def combine (op : Operator) (a b : Drafted) : Deferred α where
  lengths := broadcastLengths a.lengths b.lengths
  element o index := (o.value a.value (spreadTo a.lengths index)).bind fun x =>
    (o.value b.value (spreadTo b.lengths index)).map (op.number x)

def keptOf : List (Option Nat) → List Nat → List Nat
  | some _ :: entries, _ :: lengths => keptOf entries lengths
  | none :: entries, n :: lengths => n :: keptOf entries lengths
  | _, _ => []

def selectedAt (α : Type) [Scalar α] : List (Option Nat) → List Int → List Int
  | some position :: entries, index =>
    Scalar.toIndex (Scalar.ofInt (Word.signed position) : α) :: selectedAt α entries index
  | none :: entries, i :: index => i :: selectedAt α entries index
  | _, _ => []

def select (a : Drafted) (entries : List (Option Nat)) : Deferred α where
  lengths := keptLengths (keptOf entries a.lengths)
  element o index := o.value a.value (selectedAt α entries index)

def lineTerms : List Int → List Nat → List Nat → List α
  | i :: index, length :: lengths, stride :: strides =>
    let rest := lineTerms index lengths strides
    if length = 1 then rest
    else if stride = 1 then Scalar.ofInt i :: rest
    else Scalar.mul (Scalar.ofInt i) (Scalar.ofInt (Word.signed stride)) :: rest
  | _, _, _ => []

def lineAt (index : List Int) (lengths strides : List Nat) : α :=
  match lineTerms index lengths strides with
  | [] => Scalar.ofInt 0
  | term :: terms => terms.foldl Scalar.add term

def positionAt (line : α) (total length stride : Nat) : α :=
  if length = 1 then Scalar.ofInt 0
  else
    let outer := if stride = 1 then line else Scalar.floorDiv line (Scalar.ofInt (Word.signed stride))
    if stride * length = total then outer else Scalar.rem outer (Scalar.ofInt (Word.signed length))

def reshape (a : Drafted) (lengths : List Nat) (layout : Layout) : Deferred α where
  lengths
  element o index :=
    let line : α := lineAt index lengths (layout.strides lengths)
    o.value a.value ((a.lengths.zip (a.layout.strides a.lengths)).map fun axis =>
      Scalar.toIndex (positionAt line (elementCount a.lengths) axis.1 axis.2))

/-- The sum over the named axes, or over all. An index with a position beyond its axis has no points. -/
def sum (a : Drafted) (axes : Option (List Nat)) : Deferred α where
  lengths := keptLengths (pick (fun axis => !Build.isReduced axes axis) 0 a.lengths)
  element o index :=
    let reduced := pick (Build.isReduced axes) 0 a.lengths
    let kept := pick (fun axis => !Build.isReduced axes axis) 0 a.lengths
    let place := index.take kept.length
    if reduced = [] then o.value a.value place
    else
      (if InBox place (kept.map span) then boxPoints (reduced.map span) else []).foldlM
        (fun total point =>
          (o.value a.value (weave (Build.isReduced axes) 0 a.lengths.length (rounded α point) place)).map
            (Scalar.add total))
        Scalar.zero

end Deferred

namespace Errand

open Interpretation

def prefixSums (due array : Nat) (a : Drafted) : Errand α where
  due
  array
  points := boxPoints (a.lengths.map span)
  position _ point := some (rounded α point)
  element o point := (boxPoints [(point.headD 0).toNat + 1]).foldlM
    (fun total place => (o.value a.value (rounded α place)).map (Scalar.add total)) Scalar.zero

def copy (due array : Nat) (a : Drafted) : Errand α where
  due
  array
  points := boxPoints (a.lengths.map span)
  position _ point := some (rounded α point)
  element o point := o.value a.value (rounded α point)

def region : List (Index Drafted) → List Nat → List Nat
  | .at _ :: entries, _ :: lengths => region entries lengths
  | .gather positions :: entries, _ :: lengths => positions.lengths.headD 0 :: region entries lengths
  | _ :: entries, n :: lengths => n :: region entries lengths
  | _, _ => []

def addressed (o : Oracle α) : List (Index Drafted) → List Int → Option (List Int)
  | .at position :: entries, point =>
    (addressed o entries point).map (Scalar.toIndex (Scalar.ofInt (Word.signed position) : α) :: ·)
  | .gather positions :: entries, i :: point =>
    (o.value positions.value (rounded α [i])).bind fun x => (addressed o entries point).map (Scalar.toIndex x :: ·)
  | _ :: entries, i :: point => (addressed o entries point).map (Scalar.toIndex (Scalar.ofInt i : α) :: ·)
  | _, _ => some []

def written (elementType : ElementType) (o : Oracle α) (point : List Int) : Operand Drafted → Option α
  | .literal x => some (x.numberAs elementType)
  | .array v => o.value v.value (if v.lengths = [1] then [0] else rounded α point)

def write (due array : Nat) (a : Drafted) (entries : List (Index Drafted)) (value : Operand Drafted) : Errand α where
  due
  array
  points := boxPoints ((region entries a.lengths).map span)
  position o point := addressed o entries point
  element o point := written a.elementType o point value

end Errand

namespace Draft

omit [Scalar α] in
def empty : Draft α :=
  ⟨[], [], [], [], []⟩

omit [Scalar α] in
def define (d : Draft α) (v : Deferred α) (elementType : ElementType) (layout : Layout) : Draft α :=
  { d with
    values := d.values ++ [v]
    results := d.results ++ [⟨d.values.length, v.lengths, elementType, layout⟩] }

omit [Scalar α] in
def declare (d : Draft α) (lengths : List Nat) (elementType : ElementType) : Draft α :=
  { d.define (.loaded lengths d.arrays.length) elementType .rowMajor with
    arrays := d.arrays ++ [lengths]
    held := d.held ++ [⟨d.values.length, d.arrays.length, d.values.length⟩] }

def combine (d : Draft α) (op : Operator) (a b : Drafted) : Draft α :=
  d.define (.combine op a b) (op.resultType a.elementType) (if a.lengths = [1] ∧ b.lengths ≠ [1] then b.layout else a.layout)

def combineLiteral (d : Draft α) (op : Operator) (a : Drafted) (x : α) (literalFirst : Bool) : Draft α :=
  d.define (.combineLiteral op a x literalFirst) (op.resultType a.elementType) a.layout

def prefixSums (d : Draft α) (a : Drafted) : Draft α :=
  { d.declare a.lengths a.elementType with
    queue := d.queue ++ [.prefixSums d.values.length d.arrays.length a] }

omit [Scalar α] in
def arrayOf? (d : Draft α) (value : Nat) : Option Nat :=
  (d.held.find? fun h => h.value = value).map Held.array

def write (d : Draft α) (a : Drafted) (entries : List (Index Drafted)) (value : Operand Drafted) : Draft α :=
  match d.arrayOf? a.value with
  | some array =>
    { d with
      queue := d.queue ++ [.write d.values.length array a entries value]
      results := d.results ++ [a] }
  | none =>
    let array := d.arrays.length
    { d with
      values := d.values ++ [.loaded a.lengths array]
      arrays := d.arrays ++ [a.lengths]
      held := d.held ++ [⟨d.values.length, array, d.values.length⟩, ⟨a.value, array, d.values.length⟩]
      queue := d.queue ++ [.copy d.values.length array a, .write d.values.length array a entries value]
      results := d.results ++ [{ a with value := d.values.length }] }

section Perform

variable (values : String → Nat)

omit [Scalar α] in
def lengths? (d : Draft α) : ShapeSource Nat → Option (List Nat)
  | .extents es => some (es.map (Extent.under values))
  | .like a => d.results[a]?.map Drafted.lengths

/-- The draft after an operation. Fills that name no element type have the given one. -/
def perform? (elementType : ElementType) (d : Draft α) : Operation Nat → Option (Draft α)
  | .full shape value elementType => do
    let lengths ← d.lengths? values shape
    return d.define (.constant lengths (value.numberAs elementType)) elementType .rowMajor
  | .fill shape value => do
    let lengths ← d.lengths? values shape
    return d.define (.constant lengths (value.numberAs elementType)) elementType .rowMajor
  | .range stop => return d.define (.iota (stop.under values)) .int64 .rowMajor
  | .input shape elementType | .inputNamed _ shape elementType => do
    let lengths ← d.lengths? values shape
    return d.declare lengths elementType
  | .combine op a (.literal value) => do
    let a ← d.results[a]?
    return d.combineLiteral op a value.number false
  | .combine op a (.array b) => do
    let a ← d.results[a]?
    let b ← d.results[b]?
    return d.combine op a b
  | .combineFrom op value a => do
    let a ← d.results[a]?
    return d.combineLiteral op a value.number true
  | .select a index => do
    let a ← d.results[a]?
    return d.define (.select a (index.map Index.position?)) a.elementType .rowMajor
  | .reshape a shape layout => do
    let a ← d.results[a]?
    let lengths ← d.lengths? values shape
    return d.define (.reshape a lengths layout) a.elementType layout
  | .sum a axes => do
    let a ← d.results[a]?
    return d.define (.sum a axes) a.elementType .rowMajor
  | .prefixSums a => do
    let a ← d.results[a]?
    return d.prefixSums a
  | .write a index value => do
    let a ← d.results[a]?
    let entries ← index.mapM (Index.mapRef? (d.results[·]?))
    let value ← value.mapRef? (d.results[·]?)
    return d.write a entries value

omit [Scalar α] in
theorem lengths?_settle (d : Draft α) (shape : ShapeSource Nat) :
    d.lengths? values (shape.settle values) = d.lengths? values shape := by
  cases shape with
  | extents es =>
    rw [ShapeSource.settle, lengths?, lengths?, List.map_map]
    rfl
  | like a => rfl

theorem perform?_settle (elementType : ElementType) (d : Draft α) (op : Operation Nat) :
    d.perform? values elementType (op.settle values) = d.perform? values elementType op := by
  cases op with
  | combine op a b => cases b <;> rfl
  | range stop => rfl
  | _ => simp only [Operation.settle, perform?, lengths?_settle]

end Perform

section Execution

omit [Scalar α] in
/-- The array that shows a value at a time, which is the number of values before it. -/
def seen? (held : List Held) (value time : Nat) : Option Nat :=
  (held.find? fun h => h.value = value).bind fun h => if h.after < time then some h.array else none

omit [Scalar α] in
def worked (values : List (Deferred α)) (held : List Held) (array : Nat → List Int → Option α) :
    Nat → Nat → List Int → Option α
  | 0, _, _ => none
  | time + 1, value, index =>
    if value = time then
      (values[time]?).bind fun v => v.element ⟨fun earlier index =>
        match seen? held earlier time with
        | some n => array n index
        | none => worked values held array time earlier index, array⟩ index
    else worked values held array time value index

omit [Scalar α] in
/-- What is asked for at a time: an array that shows the value, or else its elements as they are worked out. -/
def oracleAt (values : List (Deferred α)) (held : List Held) (array : Nat → List Int → Option α) (time : Nat) :
    Oracle α where
  value earlier index :=
    match seen? held earlier time with
    | some n => array n index
    | none => worked values held array time earlier index
  array

def elementIn (buffers : List (Buffer α)) (array : Nat) (index : List Int) : Option α :=
  (buffers[array]?).bind fun b => (b.read index).toOption

omit [Scalar α] in
def storeIn? (buffers : List (Buffer α)) (array : Nat) (index : List Int) (x : α) : Option (List (Buffer α)) :=
  (buffers[array]?).bind fun b => ((b.write index x).toOption).map (buffers.set array)

def storeAt? (values : List (Deferred α)) (held : List Held) (e : Errand α) (buffers : List (Buffer α))
    (point : List Int) : Option (List (Buffer α)) :=
  let o := oracleAt values held (elementIn buffers) e.due
  (e.position o point).bind fun position => (e.element o point).bind fun x => storeIn? buffers e.array position x

def carryOut? (values : List (Deferred α)) (held : List Held) (buffers : List (Buffer α)) (e : Errand α) :
    Option (List (Buffer α)) :=
  e.points.foldlM (storeAt? values held e) buffers

omit [Scalar α] in
def unheld (d : Draft α) (wanted : List Nat) : List Nat :=
  (List.range d.values.length).filter fun value => decide (value ∈ wanted) && (d.arrayOf? value).isNone

omit [Scalar α] in
/-- Wanted values that no array holds, each with the number of the array that it is given. -/
def given (d : Draft α) (wanted : List Nat) : List (Nat × Nat) :=
  (d.unheld wanted).zipIdx d.arrays.length

omit [Scalar α] in
def holding (d : Draft α) (new : List (Nat × Nat)) : List Held :=
  d.held ++ new.map fun n => ⟨n.1, n.2, n.1⟩

omit [Scalar α] in
def lengthsOf (d : Draft α) (value : Nat) : List Nat :=
  ((d.values[value]?).map Deferred.lengths).getD []

def storeOf (d : Draft α) (value array : Nat) : Errand α where
  due := value
  array
  points := boxPoints ((d.lengthsOf value).map span)
  position _ point := some (Interpretation.rounded α point)
  element o point := (d.values[value]?).bind fun v => v.element o (Interpretation.rounded α point)

omit [Scalar α] in
def bufferOf? (inputs : List (Nat × Array α)) (array : Nat) (lengths : List Nat) : Option (Buffer α) :=
  match inputs.reverse.lookup array with
  | none => some (.zeros lengths)
  | some data => if data.size = elementCount lengths then some ⟨lengths, data, ∅⟩ else none

/-- Stores the wanted values that no array holds, each once those before it are there, and all that is queued. The buffers
of the arrays have the given lengths in place of those of the draft. -/
def execute? (d : Draft α) (count : Nat → Nat) (wanted : List Nat) (inputs : List (Nat × Array α)) :
    Option (List (Buffer α)) := do
  let new := d.given wanted
  let arrays := (d.arrays ++ new.map fun n => d.lengthsOf n.1).map (List.map count)
  let errands := d.queue.merge (new.map fun n => d.storeOf n.1 n.2) fun e e' => e.due ≤ e'.due
  let buffers ← arrays.zipIdx.mapM fun a => bufferOf? inputs a.2 a.1
  errands.foldlM (carryOut? d.values (d.holding new)) buffers

end Execution

end Draft

end ArrayPlan
