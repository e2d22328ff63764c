import ArrayPlan.Proofs.Explanations
import ArrayPlan.Proofs.Preconditions
import ArrayPlan.Proofs.Sums

/-!
Outlines. No operation asks for the names of rules, and layouts matter only for the layout of the result and for the
elements of a reshaped array. Where arrays have the same shapes and types, the same operations are admissible, and their
results have the same shapes and types again.
-/

namespace ArrayPlan

section Map

variable {ref ref' : Type} (f : ref → ref')

def ShapeSource.map : ShapeSource ref → ShapeSource ref'
  | extents es => .extents es
  | like a => .like (f a)

def Operand.map : Operand ref → Operand ref'
  | literal value => .literal value
  | array a => .array (f a)

def Index.map : Index ref → Index ref'
  | .at position => .at position
  | .all => .all
  | .slice start stop step => .slice start stop step
  | .gather positions => .gather (f positions)

def WriteAxis.map (f : Handle → Handle) : WriteAxis → WriteAxis
  | .at position => .at position
  | along extent => .along extent
  | gather positions => .gather (f positions)

def Operation.map : Operation ref → Operation ref'
  | full shape value elementType => .full (shape.map f) value elementType
  | fill shape value => .fill (shape.map f) value
  | range stop => .range stop
  | input shape elementType => .input (shape.map f) elementType
  | inputNamed name shape elementType => .inputNamed name (shape.map f) elementType
  | combine op a b => .combine op (f a) (b.map f)
  | combineFrom op value a => .combineFrom op value (f a)
  | select a index => .select (f a) (index.map (Index.map f))
  | reshape a shape layout => .reshape (f a) (shape.map f) layout
  | sum a axes => .sum (f a) axes
  | prefixSums a => .prefixSums (f a)
  | write a index value => .write (f a) (index.map (Index.map f)) (value.map f)

end Map

section Resolve

variable {ref ε : Type} {find : ref → Except ε Handle} {f : Handle → Handle}

theorem ShapeSource.resolve_map (hshape : ∀ h, (f h).shape = h.shape) (shape : ShapeSource ref) :
    shape.resolve find = shape.resolve fun r => (find r).map f := by
  cases shape with
  | extents es => rfl
  | like a =>
    rw [resolve, resolve]
    cases find a with
    | error e => rfl
    | ok h => exact congrArg (fun s : Shape => Except.ok s.extents) (hshape h).symm

theorem Operand.resolve_map (value : Operand ref) :
    (value.resolve find).map (Operand.map f) = value.resolve fun r => (find r).map f := by
  cases value with
  | literal value => rfl
  | array a =>
    rw [resolve, resolve]
    cases find a <;> rfl

theorem Index.resolve_map (entry : Index ref) :
    (entry.resolve find).map (Index.map f) = entry.resolve fun r => (find r).map f := by
  cases entry with
  | gather a =>
    rw [resolve, resolve]
    cases find a <;> rfl
  | _ => rfl

theorem mapM_resolve_map (index : List (Index ref)) :
    (index.mapM (Index.resolve find)).map (List.map (Index.map f)) =
      index.mapM (Index.resolve fun r => (find r).map f) := by
  induction index with
  | nil => rfl
  | cons entry index ih =>
    rw [List.mapM_cons, List.mapM_cons, ← ih, ← Index.resolve_map]
    cases entry.resolve find with
    | error e => rfl
    | ok entry => cases index.mapM (Index.resolve find) <;> rfl

theorem Operation.resolve_map (hshape : ∀ h, (f h).shape = h.shape) (op : Operation ref) :
    (op.resolve find).map (Operation.map f) = op.resolve fun r => (find r).map f := by
  cases op with
  | full shape | fill shape | input shape | inputNamed _ shape =>
    rw [resolve, resolve, ← ShapeSource.resolve_map hshape]
    cases shape.resolve find <;> rfl
  | range stop => rfl
  | combine op a b =>
    rw [resolve, resolve, ← Operand.resolve_map]
    cases find a with
    | error e => rfl
    | ok h => cases b.resolve find <;> rfl
  | combineFrom op value a | sum a | prefixSums a =>
    rw [resolve, resolve]
    cases find a <;> rfl
  | select a index =>
    rw [resolve, resolve, ← mapM_resolve_map]
    cases find a with
    | error e => rfl
    | ok h => cases index.mapM (Index.resolve find) <;> rfl
  | reshape a shape layout =>
    rw [resolve, resolve, ← ShapeSource.resolve_map hshape]
    cases find a with
    | error e => rfl
    | ok h => cases shape.resolve find <;> rfl
  | write a index value =>
    rw [resolve, resolve, ← mapM_resolve_map, ← Operand.resolve_map]
    cases find a with
    | error e => rfl
    | ok h =>
      cases index.mapM (Index.resolve find) with
      | error e => rfl
      | ok index => cases value.resolve find <;> rfl

end Resolve

def Operation.inputName? {ref : Type} : Operation ref → Option String
  | inputNamed name _ _ => some name
  | _ => none

theorem Operation.inputName?_resolve {ref ε : Type} {find : ref → Except ε Handle} {op : Operation ref}
    {resolved : Operation Handle} (h : op.resolve find = .ok resolved) : resolved.inputName? = op.inputName? := by
  cases Operation.resolve_eq_ok_iff.1 h <;> rfl

/-- A handle without the name of its rule, and with its layout only if this is wanted. -/
def Handle.outline (withLayout : Bool) (h : Handle) : Handle :=
  { h with rule := "", layout := if withLayout then h.layout else .rowMajor }

theorem Handle.outline_eq {withLayout : Bool} {h h' : Handle} (hplan : h'.plan = h.plan) (hshape : h'.shape = h.shape)
    (htype : h'.elementType = h.elementType) (hlayout : withLayout = true → h'.layout = h.layout) :
    h'.outline withLayout = h.outline withLayout := by
  rw [outline, outline, hplan, hshape, htype]
  cases withLayout with
  | false => rfl
  | true => rw [hlayout rfl]

section Admissible

variable {p p' : Plan} {withLayout : Bool}

theorem Index.readable_map {ref ref' : Type} (f : ref → ref') {entry : Index ref} {e : Extent} :
    (entry.map f).Readable e ↔ entry.Readable e := by
  cases entry with
  | «at» position => cases e <;> rfl
  | _ => rfl

theorem Index.addressable_outline {entry : Index Handle} {e : Extent} :
    (entry.map (Handle.outline withLayout)).Addressable p e ↔ entry.Addressable p e := by
  cases entry <;> rfl

theorem forall_zip_map {ref ref' : Type} {f : ref → ref'} {P : Index ref' → Extent → Prop} {index : List (Index ref)}
    {extents : List Extent} :
    (∀ e ∈ (index.map (Index.map f)).zip extents, P e.1 e.2) ↔ ∀ e ∈ index.zip extents, P (e.1.map f) e.2 := by
  rw [List.zip_map_left, List.forall_mem_map]
  rfl

theorem selectedExtents_map {ref ref' : Type} (f : ref → ref') (index : List (Index ref)) (extents : List Extent) :
    selectedExtents (index.map (Index.map f)) extents = selectedExtents index extents := by
  induction index generalizing extents with
  | nil => cases extents <;> rfl
  | cons entry index ih =>
    cases extents with
    | nil => cases entry <;> rfl
    | cons e extents =>
      cases entry with
      | «at» position => exact ih extents
      | _ => exact congrArg (e :: ·) (ih extents)

theorem writtenAxes_map (f : Handle → Handle) (index : List (Index Handle)) (extents : List Extent) :
    writtenAxes (index.map (Index.map f)) extents = (writtenAxes index extents).map (WriteAxis.map f) := by
  induction index generalizing extents with
  | nil => cases extents <;> rfl
  | cons entry index ih =>
    cases extents with
    | nil => cases entry <;> rfl
    | cons e extents => cases entry <;> exact congrArg _ (ih extents)

theorem region_outline (axes : List WriteAxis) :
    WriteAxis.region (axes.map (WriteAxis.map (Handle.outline withLayout))) = WriteAxis.region axes := by
  rw [WriteAxis.region, List.filterMap_map]
  refine congrArg (List.filterMap · axes) (funext fun axis => ?_)
  cases axis <;> rfl

theorem ShapeSource.axes_outline (shape : ShapeSource Handle) :
    (shape.map (Handle.outline withLayout)).axes = shape.axes := by
  cases shape <;> rfl

theorem Operand.storable_outline {value : Operand Handle} {elementType : ElementType} {region : List Extent} :
    (value.map (Handle.outline withLayout)).Storable p elementType region ↔ value.Storable p elementType region := by
  cases value <;> rfl

theorem Operation.admissible_outline {op : Operation Handle} :
    (op.map (Handle.outline withLayout)).Admissible p ↔ op.Admissible p := by
  cases op with
  | full shape | fill shape | input shape | inputNamed _ shape =>
    rw [map, Admissible, Admissible, ShapeSource.axes_outline]
  | reshape _ shape =>
    rw [map, Admissible, Admissible, ShapeSource.axes_outline]
    rfl
  | range | combineFrom | sum | prefixSums => rfl
  | combine op a b => cases b <;> rfl
  | select a index =>
    rw [map, Admissible, Admissible, forall_zip_map, List.length_map]
    simp only [Index.readable_map]
    rfl
  | write a index value =>
    have hextents : (a.outline withLayout).shape.extents = a.shape.extents := rfl
    rw [map, Admissible, Admissible, forall_zip_map (P := Index.Addressable p), List.length_map, hextents, writtenAxes_map,
      region_outline, Operand.storable_outline]
    simp only [Index.addressable_outline]
    rfl

theorem Operation.admissible_congr {p' : Plan} {op : Operation Handle} (hid : p'.id = p.id)
    (hsettings : p'.settings = p.settings)
    (hnames : ∀ name, op.inputName? = some name → (name ∈ p'.names.taken ↔ name ∈ p.names.taken)) :
    op.Admissible p' ↔ op.Admissible p := by
  have haddressable : ∀ (entry : Index Handle) e, entry.Addressable p' e ↔ entry.Addressable p e := by
    intro entry e
    cases entry with
    | gather positions => rw [Index.Addressable, Index.Addressable, hid]
    | _ => rfl
  have hstorable : ∀ (value : Operand Handle) elementType region,
      value.Storable p' elementType region ↔ value.Storable p elementType region := by
    intro value elementType region
    cases value with
    | literal value => rfl
    | array a => rw [Operand.Storable, Operand.Storable, hid]
  cases op with
  | fill shape value => rw [Admissible, Admissible, hsettings]
  | inputNamed name shape elementType => rw [Admissible, Admissible, hnames name rfl]
  | combine op a b =>
    cases b with
    | literal value => rfl
    | array b => rw [Admissible, Admissible, hid]
  | write a index value => simp only [Admissible, haddressable, hstorable]
  | _ => rfl

end Admissible

def keptExtents (extents : List Extent) : List Extent :=
  if extents = [] then [.fixed 1] else extents

namespace Operation

def resultExtents : Operation Handle → List Extent
  | full shape _ _ | fill shape _ | input shape _ | inputNamed _ shape _ | reshape _ shape _ => shape.axes
  | range stop => [stop]
  | combine _ a (.literal _) | combineFrom _ _ a | prefixSums a | write a _ _ => a.shape.extents
  | combine _ a (.array b) => (Shape.broadcast a.shape b.shape).toOption.elim [] Shape.extents
  | select a index => keptExtents (selectedExtents index a.shape.extents)
  | sum a axes => keptExtents (pick (fun axis => !Build.isReduced axes axis) 0 a.shape.extents)

def resultElementType (elementType : ElementType) : Operation Handle → ElementType
  | full _ _ elementType | input _ elementType | inputNamed _ _ elementType => elementType
  | fill _ _ => elementType
  | range _ => .int64
  | combine op a _ | combineFrom op _ a => op.resultType a.elementType
  | select a _ | reshape a _ _ | sum a _ | prefixSums a | write a _ _ => a.elementType

def resultLayout : Operation Handle → Layout
  | combine _ a (.array b) => if a.shape = .unit ∧ b.shape ≠ .unit then b.layout else a.layout
  | combine _ a (.literal _) | combineFrom _ _ a | write a _ _ => a.layout
  | reshape _ _ layout => layout
  | _ => .rowMajor

variable {withLayout : Bool} {op : Operation Handle}

theorem resultExtents_outline : (op.map (Handle.outline withLayout)).resultExtents = op.resultExtents := by
  cases op with
  | full shape | fill shape | input shape | inputNamed _ shape | reshape _ shape => exact shape.axes_outline
  | combine op a b => cases b <;> rfl
  | select a index => exact congrArg keptExtents (selectedExtents_map _ index a.shape.extents)
  | _ => rfl

theorem resultElementType_outline (elementType : ElementType) :
    (op.map (Handle.outline withLayout)).resultElementType elementType = op.resultElementType elementType := by
  cases op <;> rfl

theorem resultLayout_outline : (op.map (Handle.outline true)).resultLayout = op.resultLayout := by
  cases op with
  | combine op a b => cases b <;> rfl
  | _ => rfl

end Operation

theorem extents_of_kept {shape : Shape} {extents : List Extent}
    (h : if extents = [] then shape = .unit else shape.extents = extents) : shape.extents = keptExtents extents := by
  unfold keptExtents
  split at h
  · rename_i hempty
    rw [if_pos hempty, h]
    rfl
  · rename_i hne
    rw [if_neg hne, h]

namespace Plan

variable {p p' : Plan} {h : Handle}

theorem Combines.result {op : Operator} {a b : Handle} (hc : p.Combines op a b h p') :
    h.plan = p.id ∧ some h.shape = (Shape.broadcast a.shape b.shape).toOption ∧
      h.elementType = op.resultType a.elementType ∧
      h.layout = if a.shape = .unit ∧ b.shape ≠ .unit then b.layout else a.layout := by
  cases hc with
  | equal vars hshape hlen hd =>
    rw [hd.handle, ← hshape, Shape.broadcast_self, if_neg fun h => h.2 h.1]
    exact ⟨rfl, rfl, rfl, rfl⟩
  | rightUnit vars hshape hunit hlen hd =>
    rw [hd.handle, hunit, Shape.broadcast_unit_right, if_neg fun h => h.2 rfl]
    exact ⟨rfl, rfl, rfl, rfl⟩
  | leftUnit vars hshape hunit hlen hd =>
    rw [hd.handle, hunit, Shape.broadcast_unit_left, if_pos ⟨rfl, hshape⟩]
    exact ⟨rfl, rfl, rfl, rfl⟩
  | spread vars common left right p₁ p₂ ha hb hcommon hleft hright hlen hd =>
    obtain ⟨htype, hlayout⟩ := hleft.elementType_eq
    rw [hd.handle, hcommon, if_neg fun h => ha h.1]
    exact ⟨hright.id_eq.trans hleft.id_eq, congrArg some hleft.shape_eq, congrArg op.resultType htype, hlayout⟩

theorem perform_result {op : Operation Handle} (hp : p.WellFormed) (hlive : ∀ a ∈ op.refs, a.plan = p.id → p.Live a)
    (hrun : op.perform.runOn p = (.ok h, p')) : h.plan = p.id ∧ h.shape.extents = op.resultExtents ∧
      h.elementType = op.resultElementType p.settings.elementType ∧ h.layout = op.resultLayout := by
  open Build.Outcome in
  cases op with
  | full shape value elementType =>
    obtain ⟨shape, v, vars, hshape, _, _, hd⟩ := (full hp _ value elementType).of_runOn_ok hrun
    rw [hd.handle]
    exact ⟨rfl, Shape.extents_of_ofExtents hshape, rfl, rfl⟩
  | fill shape value =>
    rw [Operation.perform, Build.runOn_fill] at hrun
    obtain ⟨shape, v, vars, hshape, _, _, hd⟩ := (full hp _ value _).of_runOn_ok hrun
    rw [hd.handle]
    exact ⟨rfl, Shape.extents_of_ofExtents hshape, rfl, rfl⟩
  | range stop =>
    obtain ⟨shape, var, hshape, hd⟩ := (range hp stop).of_runOn_ok hrun
    rw [hd.handle]
    exact ⟨rfl, Shape.extents_of_ofExtents hshape, rfl, rfl⟩
  | input shape elementType =>
    obtain ⟨shape, array, vars, hshape, hi⟩ := (input hp _ elementType).of_runOn_ok hrun
    rw [hi.handle]
    exact ⟨rfl, Shape.extents_of_ofExtents hshape, rfl, rfl⟩
  | inputNamed name shape elementType =>
    obtain ⟨shape, vars, hshape, hi⟩ := (inputNamed hp name _ elementType).of_runOn_ok hrun
    rw [hi.handle]
    exact ⟨rfl, Shape.extents_of_ofExtents hshape, rfl, rfl⟩
  | combine op a b =>
    have ha := hlive a List.mem_cons_self
    cases b with
    | literal value =>
      obtain ⟨_, vars, _, hd⟩ := (combineLiteral op hp ha value false).of_runOn_ok hrun
      rw [hd.handle]
      exact ⟨rfl, rfl, rfl, rfl⟩
    | array b =>
      obtain ⟨_, _, hcombines⟩ :=
        (combineArrays op hp ha (hlive b (by simp [Operation.refs, Operand.refs]))).of_runOn_ok hrun
      obtain ⟨hplan, hshape, htype, hlayout⟩ := hcombines.result
      exact ⟨hplan, by rw [Operation.resultExtents, ← hshape]; rfl, htype, hlayout⟩
  | combineFrom op value a =>
    obtain ⟨_, vars, _, hd⟩ := (combineLiteral op hp (hlive a List.mem_cons_self) value true).of_runOn_ok hrun
    rw [hd.handle]
    exact ⟨rfl, rfl, rfl, rfl⟩
  | select a index =>
    obtain ⟨_, _, _, vars, shape, _, hshape, hd⟩ := (select hp (hlive a List.mem_cons_self) index).of_runOn_ok hrun
    rw [hd.handle]
    exact ⟨rfl, extents_of_kept hshape, rfl, rfl⟩
  | reshape a shape layout =>
    obtain ⟨_, shape, _, _, _, hshape, _, _, _, _, hd⟩ := (reshape hp (hlive a List.mem_cons_self) _ layout).of_runOn_ok hrun
    rw [hd.handle]
    exact ⟨rfl, hshape, rfl, rfl⟩
  | sum a axes =>
    obtain ⟨_, _, vars, shape, hlen, hshape, hd⟩ := (sum hp (hlive a List.mem_cons_self) axes).of_runOn_ok hrun
    rw [axesWhere_eq_pick, ← pick_map, List.map_snd_zip (Nat.le_of_eq hlen.symm)] at hshape
    rw [hd.handle]
    exact ⟨rfl, extents_of_kept hshape, rfl, rfl⟩
  | prefixSums a =>
    obtain ⟨extent, array, i, j, t, hs⟩ := (prefixSums hp (hlive a List.mem_cons_self)).of_runOn_ok hrun
    rw [hs.handle]
    exact ⟨rfl, rfl, rfl, rfl⟩
  | write a index value =>
    cases (write_outcome hp hlive).of_runOn_ok hrun with
    | again array axes v vars hrequest _ _ _ _ hhandle =>
      rw [hhandle]
      exact ⟨hrequest.live.own, rfl, rfl, rfl⟩
    | first array axes v copyVars vars params hrequest _ _ _ _ _ _ hhandle =>
      rw [hhandle]
      exact ⟨hrequest.live.own, rfl, rfl, rfl⟩

theorem perform_outline {q q' : Plan} {op op' : Operation Handle} {h' : Handle} {withLayout : Bool} (hp : p.WellFormed)
    (hq : q.WellFormed) (hlive : ∀ a ∈ op.refs, a.plan = p.id → p.Live a) (hlive' : ∀ a ∈ op'.refs, a.plan = q.id → q.Live a)
    (hid : q.id = p.id) (hsettings : q.settings = p.settings)
    (hop : op'.map (Handle.outline withLayout) = op.map (Handle.outline withLayout))
    (hrun : op.perform.runOn p = (.ok h, p')) (hrun' : op'.perform.runOn q = (.ok h', q')) :
    h'.outline withLayout = h.outline withLayout := by
  obtain ⟨hplan, hextents, htype, hlayout⟩ := perform_result hp hlive hrun
  obtain ⟨hplan', hextents', htype', hlayout'⟩ := perform_result hq hlive' hrun'
  refine Handle.outline_eq (hplan'.trans (hid.trans hplan.symm)) (Shape.eq_of_extents ?_) ?_ ?_
  · rw [hextents, hextents', ← op.resultExtents_outline, ← op'.resultExtents_outline, hop]
  · rw [htype, htype', hsettings, ← op.resultElementType_outline, ← op'.resultElementType_outline, hop]
  · rintro rfl
    rw [hlayout, hlayout', ← op.resultLayout_outline, ← op'.resultLayout_outline, hop]

end Plan

end ArrayPlan
