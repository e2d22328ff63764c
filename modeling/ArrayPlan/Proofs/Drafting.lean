import ArrayPlan.Proofs.Explanations
import ArrayPlan.Proofs.Storing

/-!
Scripts that follow a draft. When all operations of a script succeed, the draft takes every step as well, and each result
is what the draft says, whether the axes have numbers or names.
-/

namespace ArrayPlan

open Interpretation

variable {α : Type} [Scalar α]

section Extents

variable {ref : Type}

def ShapeSource.named : ShapeSource ref → List Extent
  | extents es => es
  | like _ => []

def Operation.named : Operation ref → List Extent
  | full shape _ _ | fill shape _ | input shape _ | inputNamed _ shape _ | reshape _ shape _ => shape.named
  | range stop => [stop]
  | _ => []

end Extents

section Performing

variable {N : Numbering} {p p' : Plan} {d d' : Draft α} {places places' : List Nat} {find : Nat → Except Unit Handle}

/-- Whatever handle is found is what the draft has at the same place. -/
def Plan.FindsDrafted (N : Numbering) (p : Plan) (d : Draft α) (places : List Nat) (find : Nat → Except Unit Handle) :
    Prop :=
  ∀ place h, find place = .ok h → ∃ r, d.results[place]? = some r ∧ p.Renders N d places h r

/-- The positions of an operation on symbolic axes are below the numbers that the names stand for. -/
def Operation.Below (values : String → Nat) (find : Nat → Except Unit Handle) : Operation Nat → Prop
  | .select a index | .write a index _ =>
    ∀ h, find a = .ok h → ∀ e ∈ index.zip h.shape.extents, e.1.Below values e.2
  | _ => True

def Operation.WithinUnits (values : String → Nat) (find : Nat → Except Unit Handle) : Operation Nat → Prop
  | .select a index => ∀ h, find a = .ok h → ∀ e ∈ index.zip h.shape.extents, e.1.WithinUnits values e.2
  | _ => True

omit [Scalar α] in
theorem Operation.Below.withinUnits {values : String → Nat} {op : Operation Nat} (h : op.Below values find) :
    op.WithinUnits values find := by
  cases op with
  | select a index => exact fun b hb e he => (h b hb e he).withinUnits
  | _ => trivial

namespace Plan

variable (hfinds : p.FindsDrafted N d places find)

include hfinds

omit [Scalar α] in
theorem FindsDrafted.lengths? {shape : ShapeSource Nat} {extents : List Extent} (hresolve : shape.resolve find = .ok extents) :
    d.lengths? N.value shape = some (extents.map (Extent.under N.value)) := by
  cases shape with
  | extents es =>
    cases hresolve
    rfl
  | like a =>
    obtain ⟨h, hh, rfl⟩ := map_eq_ok hresolve
    obtain ⟨r, hr, hrenders⟩ := hfinds a h hh
    rw [Draft.lengths?, hr, hrenders.lengths]
    rfl

omit [Scalar α] in
theorem FindsDrafted.uses {shape : ShapeSource Nat} {extents : List Extent} (hresolve : shape.resolve find = .ok extents)
    (hused : N.Uses shape.named) : N.Uses extents := by
  cases shape with
  | extents es =>
    cases hresolve
    exact hused
  | like a =>
    obtain ⟨h, hh, rfl⟩ := map_eq_ok hresolve
    obtain ⟨r, _, hrenders⟩ := hfinds a h hh
    exact hrenders.used

omit [Scalar α] in
theorem FindsDrafted.entries {index : List (Index Nat)} {index' : List (Index Handle)}
    (hresolve : List.Forall₂ (Index.Resolves find) index index') :
    ∃ drafted, index.mapM (Index.mapRef? (d.results[·]?)) = some drafted ∧
      List.Forall₂ (p.RendersIndex N d places) index' drafted := by
  refine exists_mapM_eq_pure (m := Option) hresolve fun entry _ entry' hentry => ?_
  cases hentry with
  | «at» position => exact ⟨_, rfl, .at position⟩
  | all => exact ⟨_, rfl, .all⟩
  | slice start stop step => exact ⟨_, rfl, .slice start stop step⟩
  | @gather a h hh =>
    obtain ⟨r, hr, hrenders⟩ := hfinds a h hh
    exact ⟨.gather r, by rw [Index.mapRef?, hr]; rfl, .gather hrenders⟩

omit [Scalar α] in
theorem FindsDrafted.operand {value : Operand Nat} {value' : Operand Handle} (hresolve : value.Resolves find value') :
    ∃ drafted, value.mapRef? (d.results[·]?) = some drafted ∧ p.RendersOperand N d places value' drafted := by
  cases hresolve with
  | literal x => exact ⟨_, rfl, .literal x⟩
  | @array a h hh =>
    obtain ⟨r, hr, hrenders⟩ := hfinds a h hh
    exact ⟨.array r, by rw [Operand.mapRef?, hr]; rfl, .array hrenders⟩

end Plan

omit [Scalar α] in
theorem positions_of_resolve {index : List (Index Nat)} {index' : List (Index Handle)}
    (hresolve : List.Forall₂ (Index.Resolves find) index index') :
    List.Forall₂ (fun e e' => e'.position? = e.position?) index index' := by
  refine hresolve.imp fun e e' he => ?_
  cases he <;> rfl

section Positions

variable {ref ref' : Type} {values : String → Nat} {entry : Index ref} {entry' : Index ref'} {e : Extent}

theorem Index.Below.of_position (hposition : entry'.position? = entry.position?) (h : entry.Below values e) :
    entry'.Below values e := by
  cases entry' <;> cases e <;> cases entry <;> cases hposition <;> exact h

theorem Index.WithinUnits.of_position (hposition : entry'.position? = entry.position?) (h : entry.WithinUnits values e) :
    entry'.WithinUnits values e := by
  cases entry' <;> cases e <;> cases entry <;> cases hposition <;> exact h

theorem forall_zip_of_positions {index : List (Index ref)} {index' : List (Index ref')} {extents : List Extent}
    {P : Index ref → Extent → Prop} {P' : Index ref' → Extent → Prop}
    (hpositions : List.Forall₂ (fun e e' => e'.position? = e.position?) index index')
    (himp : ∀ entry entry' e, entry'.position? = entry.position? → P entry e → P' entry' e)
    (hall : ∀ e ∈ index.zip extents, P e.1 e.2) : ∀ e ∈ index'.zip extents, P' e.1 e.2 := by
  induction hpositions generalizing extents with
  | nil => exact fun e he => nomatch he
  | @cons entry entry' index index' hposition _ ih =>
    cases extents with
    | nil => exact fun e he => nomatch he
    | cons e extents =>
      obtain ⟨hfirst, hrest⟩ := List.forall_mem_cons.1 hall
      exact List.forall_mem_cons.2 ⟨himp entry entry' e hposition hfirst, ih hrest⟩

theorem positions_eq {index : List (Index ref)} {index' : List (Index ref')}
    (hpositions : List.Forall₂ (fun e e' => e'.position? = e.position?) index index') :
    index'.map Index.position? = index.map Index.position? := by
  induction hpositions with
  | nil => rfl
  | cons hposition _ ih => rw [List.map_cons, List.map_cons, hposition, ih]

end Positions

variable [ExactOrigin α] [StableIndices α]

/-- What an operation on a plan does, it does in the draft that the plan follows. -/
theorem Plan.Follows.perform {op : Operation Nat} {op' : Operation Handle} {h : Handle} (hf : p.Follows N d places)
    (hfinds : p.FindsDrafted N d places find) (hresolve : op.resolve find = .ok op')
    (hrun : op'.perform.runOn p = (.ok h, p')) (hused : N.Uses op.named)
    (hwithin : op.WithinUnits N.value find) :
    ∃ d', d.perform? N.value p.settings.elementType op = some d' ∧ Plan.Advanced N p d places h p' d' := by
  cases Operation.resolve_eq_ok_iff.1 hresolve with
  | full hshape value elementType =>
    exact ⟨_, by rw [Draft.perform?, hfinds.lengths? hshape]; rfl, hf.full hrun (hfinds.uses hshape hused)⟩
  | fill hshape value =>
    rw [Operation.perform, Build.runOn_fill] at hrun
    exact ⟨_, by rw [Draft.perform?, hfinds.lengths? hshape]; rfl, hf.full hrun (hfinds.uses hshape hused)⟩
  | range stop => exact ⟨_, rfl, hf.range hrun hused⟩
  | input hshape elementType =>
    exact ⟨_, by rw [Draft.perform?, hfinds.lengths? hshape]; rfl, hf.input hrun (hfinds.uses hshape hused)⟩
  | inputNamed name hshape elementType =>
    exact ⟨_, by rw [Draft.perform?, hfinds.lengths? hshape]; rfl, hf.inputNamed hrun (hfinds.uses hshape hused)⟩
  | @combine op a a' _ _ ha hb =>
    obtain ⟨r, hr, hrenders⟩ := hfinds a a' ha
    cases hb with
    | literal value => exact ⟨_, by rw [Draft.perform?, hr]; rfl, hf.combineLiteral op hrenders hrun⟩
    | @array b b' hb =>
      obtain ⟨rb, hrb, hrenders'⟩ := hfinds b b' hb
      exact ⟨_, by rw [Draft.perform?, hr, hrb]; rfl, hf.combineArrays op hrenders hrenders' hrun⟩
  | @combineFrom op value a a' ha =>
    obtain ⟨r, hr, hrenders⟩ := hfinds a a' ha
    exact ⟨_, by rw [Draft.perform?, hr]; rfl, hf.combineLiteral op hrenders hrun⟩
  | @select a a' index index' ha hindex =>
    obtain ⟨r, hr, hrenders⟩ := hfinds a a' ha
    have hpositions := positions_of_resolve hindex
    refine ⟨_, by rw [Draft.perform?, hr]; rfl, ?_⟩
    rw [← positions_eq hpositions]
    refine hf.select hrenders ?_ hrun
    exact forall_zip_of_positions hpositions (fun _ _ _ => Index.WithinUnits.of_position) (hwithin a' ha)
  | @reshape a a' shape extents ha hshape layout =>
    obtain ⟨r, hr, hrenders⟩ := hfinds a a' ha
    exact ⟨_, by rw [Draft.perform?, hr, hfinds.lengths? hshape]; rfl, hf.reshape hrenders hrun (hfinds.uses hshape hused)⟩
  | @sum a a' ha axes =>
    obtain ⟨r, hr, hrenders⟩ := hfinds a a' ha
    exact ⟨_, by rw [Draft.perform?, hr]; rfl, hf.sum hrenders hrun⟩
  | @prefixSums a a' ha =>
    obtain ⟨r, hr, hrenders⟩ := hfinds a a' ha
    exact ⟨_, by rw [Draft.perform?, hr]; rfl, hf.prefixSums hrenders hrun⟩
  | @write a a' index index' value value' ha hindex hvalue =>
    obtain ⟨r, hr, hrenders⟩ := hfinds a a' ha
    obtain ⟨drafted, hdrafted, hentries⟩ := hfinds.entries hindex
    obtain ⟨operand, hoperand, hrenders'⟩ := hfinds.operand hvalue
    exact ⟨_, by rw [Draft.perform?, hr, hdrafted, hoperand]; rfl, hf.write hrenders hentries hrenders' hrun⟩

end Performing

end ArrayPlan
