import ArrayPlan.Proofs.Acceptance
import ArrayPlan.Proofs.Broadcasting
import ArrayPlan.Proofs.Stages

/-!
What each operation asks for, and what a refusal says. An operation on a plan that is open succeeds when it is
admissible, and otherwise the refusal is an objection to one of its requirements, with the offending value in it.
The calls, definitions and shapes that an operation makes inside are never the reason of a refusal.
-/

namespace ArrayPlan

def ValidAxes (extents : List Extent) : Prop :=
  extents ≠ [] ∧ ∀ e ∈ extents, e.fault? = none

theorem Shape.exists_symbolic {s : Shape} (h : s.lengths? = none) : ∃ extent ∈ s.extents, extent.length? = none := by
  suffices hall : ∀ extents : List Extent, extents.mapM Extent.length? = none → ∃ extent ∈ extents, extent.length? = none from
    hall s.extents h
  intro extents hnone
  induction extents with
  | nil => cases hnone
  | cons extent extents ih =>
    cases hhead : extent.length? with
    | none => exact ⟨extent, List.mem_cons_self, hhead⟩
    | some n =>
      have hrest : extents.mapM Extent.length? = none := by
        cases hrest : extents.mapM Extent.length? with
        | none => rfl
        | some rest => simp [List.mapM_cons, hhead, hrest] at hnone
      obtain ⟨symbolic, hmem, hsymbolic⟩ := ih hrest
      exact ⟨symbolic, List.mem_cons_of_mem extent hmem, hsymbolic⟩

/-- The refusal names the first fault of a list of axes. -/
def AxesObjection (extents : List Extent) (e : PlanError) : Prop :=
  ∃ fault, Shape.ofExtents extents = .error fault ∧ e = .invalidShape fault

theorem validAxes_iff {extents : List Extent} : ValidAxes extents ↔ ∃ shape, Shape.ofExtents extents = .ok shape := by
  constructor
  · rintro ⟨hne, hfaultless⟩
    exact Shape.ofExtents_of_faultless hne hfaultless
  · rintro ⟨shape, hshape⟩
    rw [← Shape.extents_of_ofExtents hshape]
    exact ⟨shape.extents_ne_nil, shape.faultless⟩

theorem exists_fault {extents : List Extent} (h : ¬ ValidAxes extents) : ∃ fault, Shape.ofExtents extents = .error fault := by
  cases hshape : Shape.ofExtents extents with
  | error fault => exact ⟨fault, rfl⟩
  | ok shape => exact absurd (validAxes_iff.2 ⟨shape, hshape⟩) h

namespace Literal

def Fits (value : Literal) (elementType : ElementType) : Prop :=
  elementType.isInteger = true → value.isWhole = true

def Objection (value : Literal) (elementType : ElementType) (e : PlanError) : Prop :=
  ¬ value.Fits elementType ∧ ∃ x, value = .real x ∧ e = .inexactLiteral x elementType

theorem cast_decides (value : Literal) (elementType : ElementType) :
    (value.Fits elementType ∧ ∃ v, value.cast elementType = .ok v) ∨
      ∃ e, value.Objection elementType e ∧ value.cast elementType = .error e := by
  cases value with
  | int n => exact .inl ⟨fun _ => rfl, _, rfl⟩
  | real x =>
    by_cases hinteger : elementType.isInteger = true
    · by_cases hwhole : (real x).isWhole = true
      · exact .inl ⟨fun _ => hwhole, _, by rw [cast, if_pos hinteger, if_pos hwhole]⟩
      · refine .inr ⟨.inexactLiteral x elementType, ⟨fun hfits => hwhole (hfits hinteger), x, rfl, rfl⟩, ?_⟩
        rw [cast, if_pos hinteger, if_neg hwhole]
    · exact .inl ⟨fun h => absurd h hinteger, _, by rw [cast, if_neg hinteger]⟩

end Literal

namespace Index

variable {p : Plan}

def ReadObjection (axis : Nat) (extent : Extent) (e : PlanError) : Index Handle → Prop
  | .at position => ∃ length, extent = .fixed length ∧ length ≤ position ∧ e = .positionOutOfBounds position axis length
  | .gather _ => e = .gatherInRead
  | entry => entry.isComplete = false ∧ e = .partialSlice

def Addressable (p : Plan) : Index Handle → Extent → Prop
  | .gather positions, _ =>
    positions.plan = p.id ∧ positions.rank = 1 ∧ positions.elementType.isInteger = true
  | entry, extent => entry.Readable extent

def WriteObjection (p : Plan) (axis : Nat) (extent : Extent) (e : PlanError) : Index Handle → Prop
  | .gather positions =>
    (positions.plan ≠ p.id ∧ e = .foreignHandle positions.rule) ∨
    (positions.rank ≠ 1 ∧ e = .gatherRank positions.shape) ∨
    (positions.elementType.isInteger = false ∧ e = .gatherType positions.elementType)
  | entry => entry.ReadObjection axis extent e

theorem Addressable.writable {entry : Index Handle} {extent : Extent} (h : entry.Addressable p extent)
    (hlive : ∀ positions, entry = .gather positions → positions.plan = p.id → p.Live positions) : p.Writable entry extent := by
  cases entry with
  | gather positions => exact ⟨hlive positions rfl h.1, h.2⟩
  | «at» | all | slice => exact h

end Index

namespace Operand

def Storable (p : Plan) (elementType : ElementType) (region : List Extent) : Operand Handle → Prop
  | .literal value => value.Fits elementType
  | .array a => a.plan = p.id ∧ (a.shape = .unit ∨ (region ≠ [] ∧ a.shape.extents = region))

def Objection (p : Plan) (elementType : ElementType) (region : List Extent) (e : PlanError) : Operand Handle → Prop
  | .literal value => value.Objection elementType e
  | .array a =>
    (a.plan ≠ p.id ∧ e = .foreignHandle a.rule) ∨
    (a.shape ≠ .unit ∧ (region = [] ∨ a.shape.extents ≠ region) ∧ e = .unfitValue a.shape region.length)

end Operand

namespace Operation

/-- What the operation asks for, on a plan that is open and of which its subject is an array. -/
def Admissible (p : Plan) : Operation Handle → Prop
  | full shape value elementType => ValidAxes shape.axes ∧ value.Fits elementType
  | fill shape value => ValidAxes shape.axes ∧ value.Fits p.settings.elementType
  | range stop => ValidAxes [stop]
  | input shape _ => ValidAxes shape.axes
  | inputNamed name shape _ => ValidAxes shape.axes ∧ name ≠ "" ∧ name ∉ p.names.taken
  | combine _ _ (.literal _) | combineFrom .. => True
  | combine _ a (.array b) => b.plan = p.id ∧ ∃ common, Shape.broadcast a.shape b.shape = .ok common
  | select a index => index.length = a.rank ∧ ∀ e ∈ index.zip a.shape.extents, e.1.Readable e.2
  | reshape a shape _ => ValidAxes shape.axes ∧ ∃ lengths sourceLengths, shape.axes = lengths.map .fixed ∧
      a.shape.extents = sourceLengths.map .fixed ∧ elementCount lengths = elementCount sourceLengths
  | sum a axes => ∀ axis ∈ axes.getD [], axis < a.rank
  | prefixSums a => a.rank = 1
  | write a index value => index.length = a.rank ∧
      (∀ e ∈ index.zip a.shape.extents, e.1.Addressable p e.2) ∧
      value.Storable p a.elementType (WriteAxis.region (writtenAxes index a.shape.extents))

/-- The refusal belongs to a requirement that the operation does not meet. -/
def Objection (p : Plan) : Operation Handle → PlanError → Prop
  | full shape value elementType, e => AxesObjection shape.axes e ∨ value.Objection elementType e
  | fill shape value, e => AxesObjection shape.axes e ∨ value.Objection p.settings.elementType e
  | range stop, e => AxesObjection [stop] e
  | input shape _, e => AxesObjection shape.axes e
  | inputNamed name shape _, e =>
    AxesObjection shape.axes e ∨ ((name = "" ∨ name ∈ p.names.taken) ∧ e = .nameInUse name)
  | combine _ _ (.literal _), _ | combineFrom .., _ => False
  | combine _ a (.array b), e => (b.plan ≠ p.id ∧ e = .foreignHandle b.rule) ∨
      ∃ axis, Shape.broadcast a.shape b.shape = .error axis ∧ e = .noCommonShape a.shape b.shape axis
  | select a index, e => (index.length ≠ a.rank ∧ e = .indexCount a.shape index.length) ∨
      ∃ v ∈ (index.zip a.shape.extents).zipIdx, v.1.1.ReadObjection v.2 v.1.2 e
  | reshape a shape _, e => AxesObjection shape.axes e ∨
      ((∃ extent ∈ shape.axes ++ a.shape.extents, extent.length? = none) ∧ e = .symbolicReshape) ∨
      ∃ target lengths sourceLengths, Shape.ofExtents shape.axes = .ok target ∧ target.lengths? = some lengths ∧
        a.shape.lengths? = some sourceLengths ∧ elementCount lengths ≠ elementCount sourceLengths ∧
        e = .reshapeSize a.shape target
  | sum a axes, e => ∃ axis ∈ axes.getD [], a.rank ≤ axis ∧ e = .axisOutOfRange axis a.shape
  | prefixSums a, e => a.rank ≠ 1 ∧ e = .notOneAxis a.shape
  | write a index value, e => (index.length ≠ a.rank ∧ e = .indexCount a.shape index.length) ∨
      (∃ v ∈ (index.zip a.shape.extents).zipIdx, v.1.1.WriteObjection p v.2 v.1.2 e) ∨
      value.Objection p a.elementType (WriteAxis.region (writtenAxes index a.shape.extents)) e

end Operation

/-- Lookups and calls of rules, variables for the addressed axes and names that are registered: what operations do on
their own account. -/
def PlanError.isInternal : PlanError → Bool
  | .unknownRule _ | .callArity .. | .missingVariable | .nameInUse _ => true
  | _ => false

section Internal

variable {p : Plan} {e : PlanError}

theorem AxesObjection.not_internal {extents : List Extent} (h : AxesObjection extents e) : e.isInternal = false := by
  obtain ⟨fault, -, rfl⟩ := h
  rfl

theorem Literal.Objection.not_internal {value : Literal} {elementType : ElementType} (h : value.Objection elementType e) :
    e.isInternal = false := by
  obtain ⟨-, x, -, rfl⟩ := h
  rfl

theorem Index.ReadObjection.not_internal {entry : Index Handle} {axis : Nat} {extent : Extent}
    (h : entry.ReadObjection axis extent e) : e.isInternal = false := by
  cases entry with
  | «at» position =>
    obtain ⟨length, -, -, rfl⟩ := h
    rfl
  | gather positions =>
    obtain rfl : e = .gatherInRead := h
    rfl
  | all | slice =>
    obtain ⟨-, rfl⟩ := h
    rfl

theorem Index.WriteObjection.not_internal {entry : Index Handle} {axis : Nat} {extent : Extent}
    (h : entry.WriteObjection p axis extent e) : e.isInternal = false := by
  cases entry with
  | gather positions =>
    obtain ⟨-, rfl⟩ | ⟨-, rfl⟩ | ⟨-, rfl⟩ := h
    · rfl
    · rfl
    · rfl
  | «at» position => exact Index.ReadObjection.not_internal (show (Index.at position).ReadObjection axis extent e from h)
  | all => exact Index.ReadObjection.not_internal (show Index.all.ReadObjection axis extent e from h)
  | slice start stop step =>
    exact Index.ReadObjection.not_internal (show (Index.slice start stop step).ReadObjection axis extent e from h)

theorem Operand.Objection.not_internal {value : Operand Handle} {elementType : ElementType} {region : List Extent}
    (h : value.Objection p elementType region e) : e.isInternal = false := by
  cases value with
  | literal value => exact Literal.Objection.not_internal h
  | array a =>
    obtain ⟨-, rfl⟩ | ⟨-, -, rfl⟩ := h
    · rfl
    · rfl

theorem Operation.Objection.exists_name {op : Operation Handle} (h : op.Objection p e) (hinternal : e.isInternal = true) :
    ∃ name shape elementType, op = .inputNamed name shape elementType ∧ e = .nameInUse name := by
  suffices hout : e.isInternal = false ∨
      ∃ name shape elementType, op = .inputNamed name shape elementType ∧ e = .nameInUse name from
    hout.resolve_left (by simp [hinternal])
  cases op with
  | full => exact .inl (h.elim AxesObjection.not_internal Literal.Objection.not_internal)
  | fill => exact .inl (h.elim AxesObjection.not_internal Literal.Objection.not_internal)
  | range => exact .inl (AxesObjection.not_internal h)
  | input => exact .inl (AxesObjection.not_internal h)
  | inputNamed name shape elementType =>
    rcases h with haxes | ⟨-, rfl⟩
    · exact .inl haxes.not_internal
    · exact .inr ⟨name, shape, elementType, rfl, rfl⟩
  | combine op a b =>
    cases b with
    | literal => exact h.elim
    | array b =>
      obtain ⟨-, rfl⟩ | ⟨axis, -, rfl⟩ := h
      · exact .inl rfl
      · exact .inl rfl
  | combineFrom => exact h.elim
  | select a index =>
    obtain ⟨-, rfl⟩ | ⟨v, -, hentry⟩ := h
    · exact .inl rfl
    · exact .inl hentry.not_internal
  | reshape a shape layout =>
    obtain haxes | ⟨-, rfl⟩ | ⟨target, lengths, sourceLengths, -, -, -, -, rfl⟩ := h
    · exact .inl haxes.not_internal
    · exact .inl rfl
    · exact .inl rfl
  | sum a axes =>
    obtain ⟨axis, -, -, rfl⟩ := h
    exact .inl rfl
  | prefixSums a =>
    obtain ⟨-, rfl⟩ := h
    exact .inl rfl
  | write a index value =>
    obtain ⟨-, rfl⟩ | ⟨v, -, hentry⟩ | hvalue := h
    · exact .inl rfl
    · exact .inl hentry.not_internal
    · exact .inl hvalue.not_internal

end Internal

namespace Build

/-- The step is refused, for a reason of which `E` holds. -/
def Refuses {α : Type} (step : Build α) (p : Plan) (E : PlanError → Prop) : Prop :=
  ∃ e p', step.runOn p = (.error e, p') ∧ E e

namespace Refuses

variable {α β : Type} {p : Plan} {E E' : PlanError → Prop} {step : Build β} {next : β → Build α}

theorem mono {step : Build α} (h : Refuses step p E) (himp : ∀ e, E e → E' e) : Refuses step p E' := by
  obtain ⟨e, p', hrun, he⟩ := h
  exact ⟨e, p', hrun, himp e he⟩

theorem throw {e : PlanError} (h : E e) : Refuses (throw e : Build α) p E :=
  ⟨e, p, rfl, h⟩

theorem ofExcept {x : Except PlanError α} {e : PlanError} (hx : x = .error e) (h : E e) : Refuses (ofExcept x) p E := by
  rw [hx]
  exact throw h

theorem first (h : Refuses step p E) : Refuses (step >>= next) p E := by
  obtain ⟨e, p', hrun, he⟩ := h
  refine ⟨e, p', ?_, he⟩
  rw [runOn_bind_eq, hrun]

theorem after (h : Passes step p fun b p' => Refuses (next b) p' E) : Refuses (step >>= next) p E := by
  obtain ⟨b, p', hstep, e, p'', hnext, he⟩ := h
  exact ⟨e, p'', (runOn_bind hstep).trans hnext, he⟩

theorem requireOwn {a : Handle} (hforeign : a.plan ≠ p.id) (h : E (.foreignHandle a.rule)) :
    Refuses (requireOwn a) p E := by
  refine after (Passes.get ?_)
  rw [if_pos hforeign]
  exact throw h

theorem shapeOf {extents : List Extent} (hinvalid : ¬ ValidAxes extents) (h : ∀ e, AxesObjection extents e → E e) :
    Refuses (shapeOf extents) p E := by
  obtain ⟨fault, hfault⟩ := exists_fault hinvalid
  exact ofExcept (by rw [hfault]; rfl) (h _ ⟨fault, hfault, rfl⟩)

theorem reserve {name : String} (htaken : name = "" ∨ name ∈ p.names.taken) (h : E (.nameInUse name)) :
    Refuses (reserve name) p E := by
  unfold Build.reserve
  refine after (Passes.get ?_)
  rw [NameSupply.reserve?, if_pos htaken]
  exact throw h

theorem requireIndexCount {a : Handle} {index : List (Index Handle)} (hcount : index.length ≠ a.rank)
    (h : E (.indexCount a.shape index.length)) : Refuses (requireIndexCount a index) p E := by
  unfold Build.requireIndexCount
  rw [if_neg hcount]
  exact throw h

theorem requirePosition {axis position : Nat} {extent : Extent}
    (hunreadable : ¬ (Index.at position : Index Handle).Readable extent)
    (h : ∀ e, (Index.at position : Index Handle).ReadObjection axis extent e → E e) :
    Refuses (requirePosition axis position extent) p E := by
  cases extent with
  | symbolic name => exact absurd trivial hunreadable
  | fixed length =>
    have hle : length ≤ position := Nat.le_of_not_lt hunreadable
    unfold Build.requirePosition
    dsimp only
    rw [if_pos hle]
    exact throw (h _ ⟨length, rfl, hle, rfl⟩)

theorem requirePositions {positions : Handle} {axis : Nat} {extent : Extent}
    (hbad : ¬ (Index.gather positions).Addressable p extent)
    (h : ∀ e, (Index.gather positions).WriteObjection p axis extent e → E e) :
    Refuses (requirePositions positions) p E := by
  unfold Build.requirePositions
  by_cases hown : positions.plan = p.id
  · refine after (Passes.requireOwn hown ?_)
    by_cases hrank : positions.rank = 1
    · have htype : positions.elementType.isInteger = false := by
        by_contra hinteger
        exact hbad ⟨hown, hrank, by simpa using hinteger⟩
      simp only [hrank, htype, ne_eq, not_true_eq_false, if_false, Bool.not_false, if_true]
      exact throw (h _ (.inr (.inr ⟨htype, rfl⟩)))
    · simp only [ne_eq, hrank, not_false_eq_true, if_true]
      exact first (throw (h _ (.inr (.inl ⟨hrank, rfl⟩))))
  · exact first (requireOwn hown (h _ (.inl ⟨hown, rfl⟩)))

theorem selectAxes (axis : Nat) {index : List (Index Handle)} {extents : List Extent}
    (hlen : index.length = extents.length) (hbad : ¬ ∀ e ∈ index.zip extents, e.1.Readable e.2) :
    Refuses (selectAxes axis index extents) p fun e =>
      ∃ v ∈ (index.zip extents).zipIdx axis, v.1.1.ReadObjection v.2 v.1.2 e := by
  induction index generalizing axis extents p with
  | nil => exact absurd (by simp) hbad
  | cons entry index ih =>
    cases extents with
    | nil => cases hlen
    | cons extent extents =>
      have hfirst : ∀ e, entry.ReadObjection axis extent e →
          ∃ v ∈ ((entry :: index).zip (extent :: extents)).zipIdx axis, v.1.1.ReadObjection v.2 v.1.2 e :=
        fun e he => ⟨((entry, extent), axis), by simp, he⟩
      have hrest : entry.Readable extent → ∀ q : Plan, Refuses (Build.selectAxes (axis + 1) index extents) q fun e =>
          ∃ v ∈ ((entry :: index).zip (extent :: extents)).zipIdx axis, v.1.1.ReadObjection v.2 v.1.2 e := by
        intro hreadable q
        refine (ih (axis + 1) (Nat.succ.inj hlen) fun hall => hbad ?_).mono fun e ⟨v, hv, he⟩ => ⟨v, ?_, he⟩
        · rintro e he
          rcases List.mem_cons.1 he with rfl | he
          · exact hreadable
          · exact hall e he
        · rw [List.zip_cons_cons, List.zipIdx_cons]
          exact List.mem_cons_of_mem _ hv
      unfold Build.selectAxes
      cases entry with
      | «at» position =>
        by_cases hreadable : (Index.at position : Index Handle).Readable extent
        · exact after (Passes.requirePosition hreadable (first (hrest hreadable p)))
        · exact first (requirePosition hreadable hfirst)
      | gather positions => exact throw (hfirst _ rfl)
      | all => exact after (Passes.fresh (first (hrest rfl _)))
      | slice start stop step =>
        dsimp only
        split
        · rename_i hcomplete
          exact after (Passes.fresh (first (hrest hcomplete _)))
        · rename_i hpartial
          exact throw (hfirst _ ⟨by simpa using hpartial, rfl⟩)

theorem writeAxes (axis : Nat) {index : List (Index Handle)} {extents : List Extent}
    (hlen : index.length = extents.length) (hlive : ∀ positions, .gather positions ∈ index → positions.plan = p.id → p.Live positions)
    (hbad : ¬ ∀ e ∈ index.zip extents, e.1.Addressable p e.2) :
    Refuses (writeAxes axis index extents) p fun e =>
      ∃ v ∈ (index.zip extents).zipIdx axis, v.1.1.WriteObjection p v.2 v.1.2 e := by
  induction index generalizing axis extents with
  | nil => exact absurd (by simp) hbad
  | cons entry index ih =>
    cases extents with
    | nil => cases hlen
    | cons extent extents =>
      have hfirst : ∀ e, entry.WriteObjection p axis extent e →
          ∃ v ∈ ((entry :: index).zip (extent :: extents)).zipIdx axis, v.1.1.WriteObjection p v.2 v.1.2 e :=
        fun e he => ⟨((entry, extent), axis), by simp, he⟩
      have hrest : entry.Addressable p extent → Refuses (Build.writeAxes (axis + 1) index extents) p fun e =>
          ∃ v ∈ ((entry :: index).zip (extent :: extents)).zipIdx axis, v.1.1.WriteObjection p v.2 v.1.2 e := by
        intro haddressable
        refine (ih (axis + 1) (Nat.succ.inj hlen) (fun positions hpositions => hlive positions (List.mem_cons_of_mem _ hpositions))
          fun hall => hbad ?_).mono fun e ⟨v, hv, he⟩ => ⟨v, ?_, he⟩
        · rintro e he
          rcases List.mem_cons.1 he with rfl | he
          · exact haddressable
          · exact hall e he
        · rw [List.zip_cons_cons, List.zipIdx_cons]
          exact List.mem_cons_of_mem _ hv
      unfold Build.writeAxes
      cases entry with
      | «at» position =>
        by_cases hreadable : (Index.at position : Index Handle).Readable extent
        · exact after (Passes.requirePosition hreadable (after (Passes.pure (first (hrest hreadable)))))
        · exact first (requirePosition hreadable hfirst)
      | gather positions =>
        by_cases haddressable : (Index.gather positions).Addressable p extent
        · have hown := hlive positions List.mem_cons_self haddressable.1
          exact after (Passes.requirePositions hown haddressable.2.1 haddressable.2.2
            (after (Passes.pure (first (hrest haddressable)))))
        · exact first (requirePositions haddressable hfirst)
      | all => exact after (Passes.pure (first (hrest rfl)))
      | slice start stop step =>
        dsimp only
        split
        · rename_i hcomplete
          exact after (Passes.pure (first (hrest hcomplete)))
        · rename_i hpartial
          exact first (throw (hfirst _ ⟨by simpa using hpartial, rfl⟩))

theorem writeValue {elementType : ElementType} {region : List Extent} {value : Operand Handle}
    (hbad : ¬ value.Storable p elementType region) :
    Refuses (writeValue elementType region value) p (value.Objection p elementType region) := by
  unfold Build.writeValue
  cases value with
  | literal value =>
    rcases value.cast_decides elementType with ⟨hfits, -⟩ | ⟨e, he, hcast⟩
    · exact absurd hfits hbad
    · exact first (ofExcept hcast he)
  | array a =>
    by_cases hown : a.plan = p.id
    · refine after (Passes.requireOwn hown (first ?_))
      have hunfit : ¬ (a.shape = .unit ∨ (region ≠ [] ∧ a.shape.extents = region)) := fun hfit => hbad ⟨hown, hfit⟩
      have hcond : ¬ (a.shape.isUnit || (!region.isEmpty && a.shape.extents == region)) = true := by
        simpa [Shape.isUnit, List.isEmpty_iff] using hunfit
      unfold requireFit
      rw [if_neg hcond]
      refine throw (.inr ⟨fun hunit => hunfit (.inl hunit), ?_, rfl⟩)
      by_contra h
      exact hunfit (.inr ⟨fun hempty => h (.inl hempty), by_contra fun hne => h (.inr hne)⟩)
    · exact first (requireOwn hown (.inl ⟨hown, rfl⟩))

theorem requireAllOwn {outputs : List Handle} (hbad : ¬ ∀ a ∈ outputs, a.plan = p.id) :
    Refuses (outputs.forM Build.requireOwn) p fun e => ∃ a ∈ outputs, a.plan ≠ p.id ∧ e = .foreignHandle a.rule := by
  induction outputs with
  | nil => exact absurd (by simp) hbad
  | cons a outputs ih =>
    have hcons : (a :: outputs).forM Build.requireOwn = Build.requireOwn a >>= fun _ => outputs.forM Build.requireOwn := rfl
    rw [hcons]
    by_cases hown : a.plan = p.id
    · refine after (Passes.requireOwn hown ?_)
      refine (ih fun hall => hbad (List.forall_mem_cons.2 ⟨hown, hall⟩)).mono fun e ⟨b, hb, he⟩ => ?_
      exact ⟨b, List.mem_cons_of_mem a hb, he⟩
    · exact first (requireOwn hown ⟨a, List.mem_cons_self, hown, rfl⟩)

end Refuses

/-- The step succeeds if `ok` holds, and if not, it is refused for a reason of which `E` holds. -/
def Decides {α : Type} (step : Build α) (p : Plan) (ok : Prop) (E : PlanError → Prop) : Prop :=
  (ok ∧ Passes step p fun _ _ => True) ∨ (¬ ok ∧ Refuses step p E)

namespace Decides

variable {p : Plan} {a b : Handle}

theorem accepted {α : Type} {step : Build α} {kinds : List NameKind} {ok : Prop} {E : PlanError → Prop} (hok : ok)
    (h : p.Accepts step kinds) : Decides step p ok E :=
  .inl ⟨hok, h.mono fun _ _ _ => trivial⟩

theorem of_runOn_eq {α : Type} {step step' : Build α} {ok : Prop} {E : PlanError → Prop} (hrun : step.runOn p = step'.runOn p)
    (h : Decides step' p ok E) : Decides step p ok E := by
  rwa [Decides, Passes, Refuses, hrun]

theorem ok_iff {α : Type} {step : Build α} {ok : Prop} {E : PlanError → Prop} (h : Decides step p ok E) :
    (∃ x p', step.runOn p = (.ok x, p')) ↔ ok := by
  obtain ⟨hok, x, p', hrun, -⟩ | ⟨hnot, e, p', hrun, -⟩ := h
  · exact ⟨fun _ => hok, fun _ => ⟨x, p', hrun⟩⟩
  · refine ⟨fun ⟨x, q, hx⟩ => ?_, fun hok => absurd hok hnot⟩
    rw [hx] at hrun
    cases hrun

theorem of_error {α : Type} {step : Build α} {ok : Prop} {E : PlanError → Prop} (h : Decides step p ok E) {e : PlanError}
    {p' : Plan} (hrun : step.runOn p = (.error e, p')) : E e := by
  obtain ⟨-, x, q, hx, -⟩ | ⟨-, e', q, hx, he⟩ := h
  · rw [hrun] at hx
    cases hx
  · rw [hrun] at hx
    cases hx
    exact he

theorem full (hp : p.WellFormed) (hopen : p.finalized = false) (extents : List Extent) (value : Literal)
    (elementType : ElementType) :
    Decides (Build.full extents value elementType) p (ValidAxes extents ∧ value.Fits elementType) fun e =>
      AxesObjection extents e ∨ value.Objection elementType e := by
  by_cases hvalid : ValidAxes extents
  · obtain ⟨shape, hshape⟩ := validAxes_iff.1 hvalid
    rcases value.cast_decides elementType with ⟨hfits, v, hcast⟩ | ⟨e, he, hcast⟩
    · exact accepted ⟨hvalid, hfits⟩ (Passes.full hp hopen hshape hcast)
    · exact .inr ⟨fun h => he.1 h.2, .after (Passes.shapeOf hshape (.first (.ofExcept hcast (.inr he))))⟩
  · exact .inr ⟨fun h => hvalid h.1, .first (.shapeOf hvalid fun e => .inl)⟩

theorem range (hp : p.WellFormed) (hopen : p.finalized = false) (stop : Extent) :
    Decides (Build.range stop) p (ValidAxes [stop]) (AxesObjection [stop]) := by
  by_cases hvalid : ValidAxes [stop]
  · obtain ⟨shape, hshape⟩ := validAxes_iff.1 hvalid
    exact accepted hvalid (Passes.range hp hopen hshape)
  · exact .inr ⟨hvalid, .first (.shapeOf hvalid fun e => id)⟩

theorem input (hp : p.WellFormed) (hopen : p.finalized = false) (extents : List Extent) (elementType : ElementType) :
    Decides (Build.input extents elementType) p (ValidAxes extents) (AxesObjection extents) := by
  by_cases hvalid : ValidAxes extents
  · obtain ⟨shape, hshape⟩ := validAxes_iff.1 hvalid
    exact accepted hvalid (Passes.input hp hopen hshape elementType)
  · exact .inr ⟨hvalid, .first (.shapeOf hvalid fun e => id)⟩

theorem inputNamed (hp : p.WellFormed) (hopen : p.finalized = false) (name : String) (extents : List Extent)
    (elementType : ElementType) :
    Decides (Build.inputNamed name extents elementType) p (ValidAxes extents ∧ name ≠ "" ∧ name ∉ p.names.taken) fun e =>
      AxesObjection extents e ∨ ((name = "" ∨ name ∈ p.names.taken) ∧ e = .nameInUse name) := by
  by_cases hvalid : ValidAxes extents
  · obtain ⟨shape, hshape⟩ := validAxes_iff.1 hvalid
    by_cases htaken : name = "" ∨ name ∈ p.names.taken
    · refine .inr ⟨fun h => htaken.elim h.2.1 h.2.2, .after (Passes.shapeOf hshape (.after (Passes.requireOpen hopen ?_)))⟩
      exact .first (.reserve htaken (.inr ⟨htaken, rfl⟩))
    · have hnames := (if_neg htaken : p.names.reserve? name = _)
      exact .inl ⟨⟨hvalid, not_or.1 htaken⟩, (Passes.inputNamed hp hopen hnames hshape elementType).mono fun _ _ _ => trivial⟩
  · exact .inr ⟨fun h => hvalid h.1, .first (.shapeOf hvalid fun e => .inl)⟩

theorem combineArrays (op : Operator) (hp : p.WellFormed) (hopen : p.finalized = false) (ha : p.Live a)
    (hb : b.plan = p.id → p.Live b) :
    Decides (Build.combineArrays op a b) p (b.plan = p.id ∧ ∃ common, Shape.broadcast a.shape b.shape = .ok common) fun e =>
      (b.plan ≠ p.id ∧ e = .foreignHandle b.rule) ∨
        ∃ axis, Shape.broadcast a.shape b.shape = .error axis ∧ e = .noCommonShape a.shape b.shape axis := by
  by_cases hown : b.plan = p.id
  · cases hcommon : Shape.broadcast a.shape b.shape with
    | ok common =>
      exact accepted ⟨hown, common, rfl⟩
        (Passes.combineArrays op hp hopen ha (hb hown) (.inr (.inr (.inr ⟨common, hcommon⟩))))
    | error axis =>
      refine .inr ⟨fun ⟨_, common, hok⟩ => (by cases hok), .after (Passes.requireOwn ha.own (.after (Passes.requireOwn hown ?_)))⟩
      have hshape : a.shape ≠ b.shape := by
        intro heq
        rw [heq, Shape.broadcast_self] at hcommon
        cases hcommon
      have hbunit : ¬ b.shape.isUnit = true := by
        intro hunit
        rw [beq_iff_eq.1 hunit, Shape.broadcast_unit_right] at hcommon
        cases hcommon
      have haunit : ¬ a.shape.isUnit = true := by
        intro hunit
        rw [beq_iff_eq.1 hunit, Shape.broadcast_unit_left] at hcommon
        cases hcommon
      rw [if_neg hshape, if_neg hbunit, if_neg haunit, hcommon]
      exact .throw (.inr ⟨axis, rfl, rfl⟩)
  · exact .inr ⟨fun h => hown h.1, .after (Passes.requireOwn ha.own (.first (.requireOwn hown (.inl ⟨hown, rfl⟩))))⟩

theorem select (hp : p.WellFormed) (hopen : p.finalized = false) (ha : p.Live a) (index : List (Index Handle)) :
    Decides (Build.select a index) p (index.length = a.rank ∧ ∀ e ∈ index.zip a.shape.extents, e.1.Readable e.2) fun e =>
      (index.length ≠ a.rank ∧ e = .indexCount a.shape index.length) ∨
        ∃ v ∈ (index.zip a.shape.extents).zipIdx, v.1.1.ReadObjection v.2 v.1.2 e := by
  by_cases hcount : index.length = a.rank
  · by_cases hread : ∀ e ∈ index.zip a.shape.extents, e.1.Readable e.2
    · exact accepted ⟨hcount, hread⟩ (Passes.select hp hopen ha hcount hread)
    · refine .inr ⟨fun h => hread h.2, .after (Passes.requireOwn ha.own (.after ?_))⟩
      unfold Build.requireIndexCount
      rw [if_pos hcount]
      refine Passes.pure (.after (Passes.requireOpen hopen (.first ?_)))
      exact (Refuses.selectAxes 0 hcount hread).mono fun e => .inr
  · exact .inr ⟨fun h => hcount h.1, .after (Passes.requireOwn ha.own (.first (.requireIndexCount hcount (.inl ⟨hcount, rfl⟩))))⟩

theorem reshape (hp : p.WellFormed) (hopen : p.finalized = false) (ha : p.Live a) (extents : List Extent) (layout : Layout) :
    Decides (Build.reshape a extents layout) p
      (ValidAxes extents ∧ ∃ lengths sourceLengths, extents = lengths.map .fixed ∧
        a.shape.extents = sourceLengths.map .fixed ∧ elementCount lengths = elementCount sourceLengths) fun e =>
      AxesObjection extents e ∨
        ((∃ extent ∈ extents ++ a.shape.extents, extent.length? = none) ∧ e = .symbolicReshape) ∨
        ∃ target lengths sourceLengths, Shape.ofExtents extents = .ok target ∧ target.lengths? = some lengths ∧
          a.shape.lengths? = some sourceLengths ∧ elementCount lengths ≠ elementCount sourceLengths ∧
          e = .reshapeSize a.shape target := by
  by_cases hvalid : ValidAxes extents
  · obtain ⟨shape, hshape⟩ := validAxes_iff.1 hvalid
    have hextents := Shape.extents_of_ofExtents hshape
    have hsymbolic : (∃ extent ∈ extents ++ a.shape.extents, extent.length? = none) →
        ¬ ∃ lengths sourceLengths, extents = lengths.map .fixed ∧ a.shape.extents = sourceLengths.map .fixed ∧
          elementCount lengths = elementCount sourceLengths := by
      rintro ⟨extent, hmem, hnone⟩ ⟨lengths, sourceLengths, hlengths, hsource, -⟩
      rw [hlengths, hsource, ← List.map_append] at hmem
      obtain ⟨n, -, rfl⟩ := List.mem_map.1 hmem
      cases hnone
    cases hlengths : shape.lengths? with
    | none =>
      obtain ⟨extent, hmem, hnone⟩ := Shape.exists_symbolic hlengths
      have hmixed : ∃ extent ∈ extents ++ a.shape.extents, extent.length? = none :=
        ⟨extent, List.mem_append_left _ (hextents ▸ hmem), hnone⟩
      refine .inr ⟨fun h => hsymbolic hmixed h.2, .after (Passes.requireOwn ha.own (.after (Passes.shapeOf hshape ?_)))⟩
      rw [hlengths]
      exact .throw (.inr (.inl ⟨hmixed, rfl⟩))
    | some lengths =>
      cases hsource : a.shape.lengths? with
      | none =>
        obtain ⟨extent, hmem, hnone⟩ := Shape.exists_symbolic hsource
        have hmixed : ∃ extent ∈ extents ++ a.shape.extents, extent.length? = none :=
          ⟨extent, List.mem_append_right _ hmem, hnone⟩
        refine .inr ⟨fun h => hsymbolic hmixed h.2, .after (Passes.requireOwn ha.own (.after (Passes.shapeOf hshape ?_)))⟩
        rw [hlengths, hsource]
        exact .throw (.inr (.inl ⟨hmixed, rfl⟩))
      | some sourceLengths =>
        by_cases hcount : elementCount lengths = elementCount sourceLengths
        · refine accepted ⟨hvalid, lengths, sourceLengths, ?_, Shape.lengths?_eq_some.1 hsource, hcount⟩
            (Passes.reshape hp hopen ha hshape hlengths hsource hcount layout)
          rw [← hextents, Shape.lengths?_eq_some.1 hlengths]
        · have hdiffer : ¬ ∃ ns ms, extents = ns.map .fixed ∧ a.shape.extents = ms.map .fixed ∧
              elementCount ns = elementCount ms := by
            rintro ⟨ns, ms, hns, hms, heq⟩
            rw [← hextents, ← Shape.lengths?_eq_some, hlengths] at hns
            rw [← Shape.lengths?_eq_some, hsource] at hms
            cases hns
            cases hms
            exact hcount heq
          refine .inr ⟨fun h => hdiffer h.2, .after (Passes.requireOwn ha.own (.after (Passes.shapeOf hshape ?_)))⟩
          rw [hlengths, hsource]
          dsimp only
          rw [if_pos hcount]
          exact .first (.throw (.inr (.inr ⟨shape, lengths, sourceLengths, hshape, hlengths, rfl, hcount, rfl⟩)))
  · exact .inr ⟨fun h => hvalid h.1, .after (Passes.requireOwn ha.own (.first (.shapeOf hvalid fun e => .inl)))⟩

theorem sum (hp : p.WellFormed) (hopen : p.finalized = false) (ha : p.Live a) (axes : Option (List Nat)) :
    Decides (Build.sum a axes) p (∀ axis ∈ axes.getD [], axis < a.rank) fun e =>
      ∃ axis ∈ axes.getD [], a.rank ≤ axis ∧ e = .axisOutOfRange axis a.shape := by
  by_cases haxes : ∀ axis ∈ axes.getD [], axis < a.rank
  · exact accepted haxes (Passes.sum hp hopen ha haxes)
  · refine .inr ⟨haxes, .after (Passes.requireOwn ha.own (.first ?_))⟩
    unfold Build.requireAxes
    cases hfind : (axes.getD []).find? fun axis => a.rank ≤ axis with
    | none => exact absurd (fun axis haxis => by simpa using List.find?_eq_none.1 hfind axis haxis) haxes
    | some axis =>
      have hle : a.rank ≤ axis := by simpa using List.find?_some hfind
      exact .throw ⟨axis, List.mem_of_find?_eq_some hfind, hle, rfl⟩

theorem prefixSums (hp : p.WellFormed) (hopen : p.finalized = false) (ha : p.Live a) :
    Decides (Build.prefixSums a) p (a.rank = 1) fun e => a.rank ≠ 1 ∧ e = .notOneAxis a.shape := by
  by_cases hrank : a.rank = 1
  · obtain ⟨extent, hextents⟩ := List.length_eq_one_iff.1 hrank
    exact accepted hrank (Passes.prefixSums hp hopen ha hextents)
  · refine .inr ⟨hrank, ?_⟩
    unfold Build.prefixSums
    refine .after (Passes.requireOwn ha.own ?_)
    split
    · rename_i extent hextents
      exact absurd (congrArg List.length hextents) hrank
    · exact .throw ⟨hrank, rfl⟩

theorem write (hp : p.WellFormed) (hopen : p.finalized = false) (ha : p.Live a) (index : List (Index Handle))
    (value : Operand Handle) (hgathers : ∀ positions, .gather positions ∈ index → positions.plan = p.id → p.Live positions)
    (hvalue : ∀ b, value = .array b → b.plan = p.id → p.Live b) :
    Decides (Build.write a index value) p
      (index.length = a.rank ∧ (∀ e ∈ index.zip a.shape.extents, e.1.Addressable p e.2) ∧
        value.Storable p a.elementType (WriteAxis.region (writtenAxes index a.shape.extents))) fun e =>
      (index.length ≠ a.rank ∧ e = .indexCount a.shape index.length) ∨
        (∃ v ∈ (index.zip a.shape.extents).zipIdx, v.1.1.WriteObjection p v.2 v.1.2 e) ∨
        value.Objection p a.elementType (WriteAxis.region (writtenAxes index a.shape.extents)) e := by
  have hstored : value.Storable p a.elementType (WriteAxis.region (writtenAxes index a.shape.extents)) →
      ∃ v, p.Stored a.elementType (WriteAxis.region (writtenAxes index a.shape.extents)) value v := by
    intro hstorable
    cases value with
    | literal value =>
      rcases value.cast_decides a.elementType with ⟨-, v, hcast⟩ | ⟨e, he, -⟩
      · exact ⟨_, .literal hcast⟩
      · exact absurd hstorable he.1
    | array b => exact ⟨_, .array (hvalue b rfl hstorable.1) hstorable.2⟩
  by_cases hcount : index.length = a.rank
  · have hpassed : requireIndexCount a index = Pure.pure () := if_pos hcount
    by_cases hentries : ∀ e ∈ index.zip a.shape.extents, e.1.Addressable p e.2
    · have hwritable : ∀ e ∈ index.zip a.shape.extents, p.Writable e.1 e.2 := fun e he =>
        (hentries e he).writable fun positions hpositions => hgathers positions (hpositions ▸ (List.of_mem_zip he).1)
      by_cases hvalue : value.Storable p a.elementType (WriteAxis.region (writtenAxes index a.shape.extents))
      · obtain ⟨v, hv⟩ := hstored hvalue
        exact accepted ⟨hcount, hentries, hvalue⟩ (Passes.write hp hopen ⟨ha, hcount, hwritable, rfl, hv⟩)
      · refine .inr ⟨fun h => hvalue h.2.2, .after (Passes.requireOwn ha.own ?_)⟩
        rw [hpassed]
        refine .after (Passes.pure (.after ((Passes.writeAxes 0 hcount hwritable).mono ?_)))
        rintro _ _ ⟨rfl, rfl⟩
        exact .first ((Refuses.writeValue hvalue).mono fun e he => .inr (.inr he))
    · refine .inr ⟨fun h => hentries h.2.1, .after (Passes.requireOwn ha.own ?_)⟩
      rw [hpassed]
      exact .after (Passes.pure (.first ((Refuses.writeAxes 0 hcount hgathers hentries).mono fun e he => .inr (.inl he))))
  · exact .inr ⟨fun h => hcount h.1, .after (Passes.requireOwn ha.own (.first (.requireIndexCount hcount (.inl ⟨hcount, rfl⟩))))⟩

theorem finalize (hp : p.WellFormed) (hopen : p.finalized = false) {outputs : List Handle} (withStores : Bool)
    (hlive : ∀ a ∈ outputs, a.plan = p.id → p.Live a) :
    Decides (Build.finalize outputs withStores) p (∀ a ∈ outputs, a.plan = p.id) fun e =>
      ∃ a ∈ outputs, a.plan ≠ p.id ∧ e = .foreignHandle a.rule := by
  by_cases hown : ∀ a ∈ outputs, a.plan = p.id
  · obtain ⟨k, p', hrun⟩ := exists_finalized hp hopen (fun a ha => hlive a ha (hown a ha)) withStores
    exact .inl ⟨hown, k, p', hrun, trivial⟩
  · exact .inr ⟨hown, .first (.requireAllOwn hown)⟩

end Decides

end Build

namespace Plan

theorem perform_decides {p : Plan} (hp : p.WellFormed) (hopen : p.finalized = false) (op : Operation Handle)
    (hsubject : ∀ a, op.subject? = some a → p.Live a) (hlive : ∀ a ∈ op.refs, a.plan = p.id → p.Live a) :
    Build.Decides op.perform p (op.Admissible p) (op.Objection p) := by
  open Build.Decides in
  cases op with
  | full shape value elementType => exact full hp hopen _ value elementType
  | fill shape value => exact of_runOn_eq (Build.runOn_fill ..) (full hp hopen _ value p.settings.elementType)
  | range stop => exact range hp hopen stop
  | input shape elementType => exact input hp hopen _ elementType
  | inputNamed name shape elementType => exact inputNamed hp hopen name _ elementType
  | combine op a b =>
    cases b with
    | literal value => exact accepted trivial (Build.Passes.combineLiteral op hp hopen (hsubject a rfl) value false)
    | array b => exact combineArrays op hp hopen (hsubject a rfl) (hlive b (by simp [Operation.refs, Operand.refs]))
  | combineFrom op value a => exact accepted trivial (Build.Passes.combineLiteral op hp hopen (hsubject a rfl) value true)
  | select a index => exact select hp hopen (hsubject a rfl) index
  | reshape a shape layout => exact reshape hp hopen (hsubject a rfl) _ layout
  | sum a axes => exact sum hp hopen (hsubject a rfl) axes
  | prefixSums a => exact prefixSums hp hopen (hsubject a rfl)
  | write a index value =>
    refine write hp hopen (hsubject a rfl) index value (fun positions hpositions => ?_) fun b hb => ?_
    · exact hlive positions (List.mem_cons_of_mem _ (List.mem_append_left _ (mem_refs_index hpositions)))
    · exact hlive b (List.mem_cons_of_mem _ (List.mem_append_right _ (by simp [hb, Operand.refs])))

/-- An operation on an array of an open plan succeeds exactly when it is admissible, and lowering exactly when all
requested arrays are of the plan. A refusal objects to a requirement that is not met: it is never about the rules, calls
and names that the plan handles by itself. -/
theorem stages_accepts_iff_admissible {p : Plan} {handles : List Handle} {arrays : List Declaration}
    (hp : Stages p handles arrays) (hopen : p.finalized = false) (op : Operation Handle)
    (hsubject : ∀ a, op.subject? = some a → a ∈ handles) (hrefs : ∀ a ∈ op.refs, a.plan = p.id → a ∈ handles)
    (outputs : List Handle) (houtputs : ∀ a ∈ outputs, a.plan = p.id → a ∈ handles) (withStores : Bool) :
    ((∃ h p', op.perform.runOn p = (.ok h, p')) ↔ op.Admissible p) ∧
    (∀ e p', op.perform.runOn p = (.error e, p') → op.Objection p e ∧
      (e.isInternal = true → ∃ name shape elementType, op = .inputNamed name shape elementType ∧ e = .nameInUse name)) ∧
    ((∃ k p', (Build.finalize outputs withStores).runOn p = (.ok k, p')) ↔ ∀ a ∈ outputs, a.plan = p.id) ∧
    (∀ e p', (Build.finalize outputs withStores).runOn p = (.error e, p') →
      ∃ a ∈ outputs, a.plan ≠ p.id ∧ e = .foreignHandle a.rule) := by
  obtain ⟨-, hintact, -⟩ | ⟨hclosed, -⟩ := hp.framed
  · have hperform := perform_decides hintact.wellFormed hopen op (fun a ha => hintact.live a (hsubject a ha))
      fun a ha hown => hintact.live a (hrefs a ha hown)
    have hfinalize := Build.Decides.finalize hintact.wellFormed hopen withStores
      fun a ha hown => hintact.live a (houtputs a ha hown)
    refine ⟨hperform.ok_iff, fun e p' hrun => ?_, hfinalize.ok_iff, fun e p' hrun => hfinalize.of_error hrun⟩
    have hobjection := hperform.of_error hrun
    exact ⟨hobjection, hobjection.exists_name⟩
  · rw [hopen] at hclosed
    cases hclosed

theorem stages_accepts_iff_admissible_pair :
    ∃ p handles arrays, Stages p handles arrays ∧ p.finalized = false ∧
      (∃ h p', (Operation.combine .add (pairHandle "subst0" .float64) (.array (pairHandle "subst0" .float64))).perform.runOn p =
        (.ok h, p')) ∧
      (¬ ∃ h p', (Operation.sum (pairHandle "subst0" .float64) (some [1])).perform.runOn p = (.ok h, p')) ∧
      ¬ ∃ k p', (Build.finalize [{ pairHandle "subst0" .float64 with plan := 1 }] false).runOn p = (.ok k, p') := by
  have hfill := (Stages.empty 0 .default).perform (.fill (.extents [.fixed 2]) (.int 3))
    (by simp [Operation.refs]) (Prod.eta _).symm
  have hopen : ((Operation.fill (.extents [.fixed 2]) (.int 3)).perform.runOn (.empty 0 .default)).2.finalized = false := by
    decide +kernel
  have hadd := stages_accepts_iff_admissible hfill hopen
    (.combine .add (pairHandle "subst0" .float64) (.array (pairHandle "subst0" .float64))) (by decide +kernel)
    (by decide +kernel) [] (by decide +kernel) false
  have hsum := stages_accepts_iff_admissible hfill hopen (.sum (pairHandle "subst0" .float64) (some [1]))
    (by decide +kernel) (by decide +kernel) [{ pairHandle "subst0" .float64 with plan := 1 }] (by decide +kernel) false
  refine ⟨_, _, _, hfill, hopen, hadd.1.2 ⟨rfl, _, Shape.broadcast_self _⟩, fun h => ?_, fun h => ?_⟩
  · exact absurd (hsum.1.1 h 1 (by decide)) (by decide)
  · exact absurd (hsum.2.2.1.1 h _ List.mem_cons_self) (by decide +kernel)

end Plan

end ArrayPlan
