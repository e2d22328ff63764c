import ArrayPlan.Proofs.Broadcasting
import ArrayPlan.Proofs.Tracking

/-!
Scalar operands. A scalar is read as a single element. The same elements come out when it is viewed as an array with two
axes of length one first, and this view is combined with the other operand: index by index, or after another view at
the shape of that operand. Both follow one draft, up to the layout of what they give back.
-/

namespace ArrayPlan

open Interpretation

namespace Build

def combineUnit (op : Operator) (scalar other : Handle) (scalarFirst : Bool) : Build Handle :=
  if scalarFirst then combineArrays op scalar other else combineArrays op other scalar

def combineViewed (op : Operator) (scalar other : Handle) (scalarFirst : Bool) : Build Handle := do
  let view ← reshape scalar [.fixed 1, .fixed 1] scalar.layout
  combineUnit op view other scalarFirst

end Build

theorem Build.exists_of_runOn_bind {β γ : Type} {step : Build β} {next : β → Build γ} {p p' : Plan} {c : γ}
    (h : (step >>= next).runOn p = (.ok c, p')) :
    ∃ b p₁, step.runOn p = (.ok b, p₁) ∧ (next b).runOn p₁ = (.ok c, p') := by
  rw [runOn_bind_eq] at h
  cases hstep : step.runOn p with
  | mk outcome p₁ =>
    rw [hstep] at h
    cases outcome with
    | error e => cases h
    | ok b => exact ⟨b, p₁, rfl, h⟩

def Shape.square : Shape :=
  ⟨[.fixed 1, .fixed 1], by simp, by simp [Extent.fault?]⟩

theorem Shape.square_le {s : Shape} (hrank : 2 ≤ s.rank) : Shape.square ≤ s := by
  refine ⟨hrank, ?_⟩
  have hunits := Shape.units_le (s.extents.drop (s.extents.length - square.rank))
  have hlength : (s.extents.drop (s.extents.length - square.rank)).length = 2 := by
    have htwo : square.rank = 2 := rfl
    have hlen : s.extents.length = s.rank := rfl
    rw [List.length_drop, htwo, hlen]
    omega
  rwa [hlength] at hunits

theorem Shape.ne_unit {s : Shape} (hrank : 2 ≤ s.rank) : s ≠ .unit := by
  rintro rfl
  cases hrank with
  | step h => cases h

variable {α : Type} [Scalar α]

namespace Plan

variable {N : Numbering} {p p₁ p' : Plan} {d : Draft α} {places : List Nat} {scalar other view h : Handle}
  {r rb : Drafted}

/-- Wherever the rule of a handle is called with an index of its rank, the call has the element of a scalar value. -/
def ReadsScalar (p : Plan) (d : Draft α) (places : List Nat) (view : Handle) (value : Nat) : Prop :=
  ∀ (q : Plan) (parameters : Env) (domains : List Domain) (index : Nat) (I : Interpretation α) (o : Oracle α),
    p.Extends q → q.WellFormed → p.rules.size ≤ index →
    q.Circumstances d places parameters domains places.length index I o →
    ∀ args env position, I.position? args env = some position → position.length = view.rank →
      I.value? (q.callOf view.rule args) env = o.value value [0]

omit [Scalar α] in
theorem Live.callOf_eq {a : Handle} (ha : p.Live a) (hextends : p.Extends p') (args : List Expr) :
    p'.callOf a.rule args = p.callOf a.rule args := by
  obtain ⟨rule, hfind, _⟩ := ha.rule
  rw [callOf, callOf, hextends.find? hfind, hfind]

variable [ExactOrigin α]

theorem Follows.reshapeSquare {layout : Layout} (hf : p.Follows N d places) (ha : p.Renders N d places scalar r)
    (hunit : scalar.shape = .unit)
    (hrun : (Build.reshape scalar [.fixed 1, .fixed 1] layout).runOn p = (.ok view, p')) :
    p'.Follows N d places ∧ Outgrown p d places p' d places ∧ p'.Live view ∧ view.shape = .square ∧
      view.elementType = scalar.elementType ∧ view.layout = layout ∧ p'.ReadsScalar d places view r.value := by
  obtain ⟨_, shape, lengths, sources, vars, hextents, hlengths, hsources, _, hlen, hd⟩ :=
    (Build.Outcome.reshape hf.wellFormed (fun _ => ha.live) [.fixed 1, .fixed 1] layout).of_runOn_ok hrun
  have hshape : shape = .square := Shape.eq_of_extents hextents
  obtain rfl : [1, 1] = lengths := by
    rw [hshape] at hlengths
    exact Option.some.inj hlengths
  obtain rfl : [1] = sources := by
    rw [hunit] at hsources
    exact Option.some.inj hsources
  have hadvances := hd.advances hf.wellFormed
  obtain ⟨hfollows, hgrown⟩ := hf.alone hadvances.wellFormed hadvances.extends_ (by rw [hd.grown]; exact List.append_nil _)
    (by rw [hd.grown]; exact List.append_nil _) (by rw [hd.grown]; exact List.append_nil _)
    (by rw [hd.grown]; exact List.append_nil _) d.results
  have hview := hd.handle
  refine ⟨hfollows, hgrown, hadvances.live, by rw [hview]; exact hshape, by rw [hview], by rw [hview], ?_⟩
  intro q parameters domains index I o hq hwf hindex hc args env position hargs hposition
  have htwo : position.length = 2 := by rw [hposition, Handle.rank, hview, hshape]; rfl
  rw [hd.value?_inlined hf hq hwf hindex hc hargs (hlen.trans htwo.symm) (by omega)]
  obtain ⟨stride, hstrides⟩ : ∃ stride, scalar.layout.strides [1] = [stride] :=
    List.length_eq_one_iff.1 (Layout.length_strides _ _)
  -- the index that the view computes is the origin, wherever it is read itself
  have hindexAt : indexAtLine (linearIndex vars [1, 1] (layout.strides [1, 1])) (elementCount [1]) [1]
      (scalar.layout.strides [1]) = [.int 0] := by
    rw [hstrides]
    rfl
  have horigin : I.position? [.int 0] (parameters.at vars position) = some [0] := by
    rw [show [Expr.int 0] = List.replicate 1 (.int 0) from rfl, position?_replicate]
    exact congrArg (fun x => some [x]) ExactOrigin.toIndex_ofInt_zero
  have hg : Outgrown p d places q d places :=
    ⟨hadvances.extends_.trans hq, ⟨[], (List.append_nil _).symm⟩, ⟨[], (List.append_nil _).symm⟩, [],
      (List.append_nil _).symm, by simp⟩
  dsimp only
  rw [hindexAt, (hg.circumstances (Nat.le_refl _) hc).value?_callOf hf.wellFormed ha (ha.lt hf.count) horigin]
  rw [ha.lengths_unit hunit]
  exact .origin

omit [ExactOrigin α] in
theorem Spreads.readsScalar {common : Shape} (hf : p.Follows N d places) (hview : p.Live view) (hsquare : view.shape = .square)
    (hrank : 2 ≤ common.rank) (hreads : p.ReadsScalar d places view r.value) (hs : p.Spreads view common h p') :
    p'.ReadsScalar d places h r.value := by
  rcases hs with ⟨_, rfl, rfl⟩ | ⟨_, _, params, hlen, hd⟩
  · exact hreads
  · intro q parameters domains index I o hq hwf hindex hc args env position hargs hposition
    have hextends := (hd.advances hf.wellFormed).extends_
    have hlength : position.length = common.rank := by rw [hposition, Handle.rank, hd.handle]
    rw [hd.value?_inlined hf hq hwf hindex hc hargs (hlen.trans hlength.symm) (by omega)]
    obtain ⟨v, w, hlast⟩ : ∃ v w, params.drop (common.rank - view.rank) = [v, w] := by
      refine List.length_eq_two.1 ?_
      rw [List.length_drop, Handle.rank, hsquare, show Shape.square.rank = 2 from rfl]
      omega
    have horigin : I.position? (Build.spreadIndex view.shape.extents (params.drop (common.rank - view.rank)))
        (parameters.at params position) = some (rounded α [0, 0]) := by
      rw [hlast, hsquare]
      exact position?_replicate 2 0
    have hcalls := hreads q parameters domains index I o (hextends.trans hq) hwf (Nat.le_trans hextends.size_le hindex) hc
      _ _ _ horigin (by rw [Handle.rank, hsquare]; rfl)
    rwa [hview.callOf_eq (hextends.trans hq)] at hcalls

omit [ExactOrigin α] in
theorem ReadsScalar.value?_callAt (hf : p.Follows N d places) (hreads : p.ReadsScalar d places view r.value)
    (hone : r.lengths = [1]) {shape : Shape} (hshape : view.shape = shape) {parameters : Env} {domains : List Domain}
    {I : Interpretation α} {o : Oracle α}
    (hc : p.Circumstances d places parameters domains places.length p.rules.size I o) {vars : List String} {env : Env}
    {position : List Int} (hbinds : env.Binds vars position)
    (hasked : Asked α (shape.extents.map (Extent.under N.value)) position) :
    I.value? (p.callOf view.rule (vars.map .var)) env = o.value r.value (Deferred.spreadTo r.lengths position) := by
  have hposition : I.position? (vars.map .var) env = some position := by
    rw [position?_vars_rounded hbinds, hasked.rounded_eq]
  rw [hone, spreadTo_unit (by simpa using shape.extents_ne_nil) hasked]
  refine hreads p parameters domains p.rules.size I o (.refl p) hf.wellFormed (Nat.le_refl _) hc _ _ _ hposition ?_
  rw [hasked.length_eq, List.length_map, Handle.rank, hshape]
  rfl

omit [ExactOrigin α] in
theorem Follows.defineLeft {op : Operator} {vars : List String} (hf : p.Follows N d places)
    (hreads : p.ReadsScalar d places view r.value) (hone : r.lengths = [1]) (hb : p.Renders N d places other rb)
    (hshape : view.shape = other.shape) (hlen : vars.length = view.rank)
    (hd : p.Defines ⟨vars, [], vars, op.apply (p.callOf view.rule (vars.map .var)) (p.callOf other.rule (vars.map .var)),
      view.shape, op.resultType view.elementType, view.layout⟩ h p') :
    Advanced N p d places h p' (d.define (.combine op r rb) (op.resultType view.elementType) view.layout) := by
  have hcommon : broadcastLengths r.lengths rb.lengths = rb.lengths := by
    rw [hone, (Tensor.broadcastLengths_unit hb.lengths_ne_nil).2]
  refine hf.defineCombined hd (by rw [hcommon, hshape]; exact hb.lengths) (fun _ => rfl) hlen (hshape ▸ hb.used)
    fun parameters domains I o hc env position hbinds hasked => ?_
  rw [hcommon] at hasked
  refine ⟨hreads.value?_callAt hf hone hshape hc hbinds (hb.lengths ▸ hasked), ?_⟩
  rw [hasked.spreadTo_eq]
  exact hc.value?_callAt hf.wellFormed hb (hb.lt hf.count) hbinds hasked

omit [ExactOrigin α] in
theorem Follows.defineRight {op : Operator} {vars : List String} (hf : p.Follows N d places)
    (hreads : p.ReadsScalar d places view r.value) (hone : r.lengths = [1]) (hb : p.Renders N d places other rb)
    (hshape : view.shape = other.shape) (hlen : vars.length = other.rank)
    (hd : p.Defines ⟨vars, [], vars, op.apply (p.callOf other.rule (vars.map .var)) (p.callOf view.rule (vars.map .var)),
      other.shape, op.resultType other.elementType, other.layout⟩ h p') :
    Advanced N p d places h p' (d.define (.combine op rb r) (op.resultType other.elementType) rb.layout) := by
  have hcommon : broadcastLengths rb.lengths r.lengths = rb.lengths := by
    rw [hone, (Tensor.broadcastLengths_unit hb.lengths_ne_nil).1]
  refine hf.defineCombined hd (by rw [hcommon]; exact hb.lengths) hb.layout hlen hb.used
    fun parameters domains I o hc env position hbinds hasked => ?_
  rw [hcommon] at hasked
  refine ⟨?_, hreads.value?_callAt hf hone hshape hc hbinds (hb.lengths ▸ hasked)⟩
  rw [hasked.spreadTo_eq]
  exact hc.value?_callAt hf.wellFormed hb (hb.lt hf.count) hbinds hasked

omit [Scalar α] [ExactOrigin α] in
theorem Renders.lengths_ne_unit (hb : p.Renders N d places other rb) (hrank : 2 ≤ other.rank) : rb.lengths ≠ [1] := by
  intro hone
  have hlen := hb.rank_eq
  rw [hone, List.length_singleton] at hlen
  omega

theorem Follows.combineUnit (op : Operator) {scalarFirst : Bool} (hf : p.Follows N d places)
    (ha : p.Renders N d places scalar r) (hb : p.Renders N d places other rb) (hunit : scalar.shape = .unit)
    (hrank : 2 ≤ other.rank) (hrun : (Build.combineUnit op scalar other scalarFirst).runOn p = (.ok h, p')) :
    Advanced N p d places h p'
      (if scalarFirst then d.define (.combine op r rb) (op.resultType r.elementType) rb.layout
        else d.define (.combine op rb r) (op.resultType rb.elementType) rb.layout) := by
  have hone := ha.lengths_unit hunit
  have hne := hb.lengths_ne_unit hrank
  cases scalarFirst with
  | true =>
    have hadvanced := hf.combineArrays op ha hb hrun
    rwa [Draft.combine, if_pos ⟨hone, hne⟩] at hadvanced
  | false =>
    have hadvanced := hf.combineArrays op hb ha hrun
    rwa [Draft.combine, if_neg fun h => hne h.1] at hadvanced

theorem Follows.combineViewed (op : Operator) {scalarFirst : Bool} (hf : p.Follows N d places)
    (ha : p.Renders N d places scalar r) (hb : p.Renders N d places other rb) (hunit : scalar.shape = .unit)
    (hrank : 2 ≤ other.rank) (hrun : (Build.combineViewed op scalar other scalarFirst).runOn p = (.ok h, p')) :
    Advanced N p d places h p'
      (if scalarFirst then d.define (.combine op r rb) (op.resultType r.elementType) r.layout
        else d.define (.combine op rb r) (op.resultType rb.elementType) rb.layout) := by
  obtain ⟨view, p₁, hview, hrun⟩ := Build.exists_of_runOn_bind hrun
  obtain ⟨hf₁, hg₁, hlive, hsquare, htype, hlayout, hreads⟩ := hf.reshapeSquare ha hunit hview
  have hb₁ := hg₁.renders hb
  have hone := ha.lengths_unit hunit
  have hcommon : ∀ {common : Shape}, (Shape.broadcast view.shape other.shape = .ok common ∨
      Shape.broadcast other.shape view.shape = .ok common) → common = other.shape := by
    intro common hcommon
    have hjoin := Shape.le_iff_broadcast.1 (Shape.square_le hrank)
    rw [Shape.broadcast_comm other.shape view.shape, or_self, hsquare, hjoin] at hcommon
    exact (Except.ok.inj hcommon).symm
  refine .after hg₁ ?_
  cases scalarFirst with
  | true =>
    have hfixed : scalar.layout = r.layout := ha.layout fun e he => by
      rw [hunit] at he
      exact ⟨1, List.mem_singleton.1 he⟩
    rw [if_pos rfl, ← ha.elementType, ← htype, ← hfixed, ← hlayout]
    obtain ⟨_, _, hcombines⟩ :=
      (Build.Outcome.combineArrays op hf₁.wellFormed (fun _ => hlive) fun _ => hb₁.live).of_runOn_ok hrun
    cases hcombines with
    | equal vars hshape hlen hd => exact hf₁.defineLeft hreads hone hb₁ hshape hlen hd
    | rightUnit vars hshape hotherUnit => exact absurd hotherUnit (Shape.ne_unit hrank)
    | leftUnit vars hshape hviewUnit =>
      rw [hsquare] at hviewUnit
      cases hviewUnit
    | spread vars common left right p₂ p₃ hviewUnit hotherUnit hbroadcast hleft hright hlen hd =>
      obtain rfl := hcommon (.inl hbroadcast)
      obtain ⟨hf₂, hg₂⟩ := hleft.follows hf₁
      obtain ⟨-, rfl, rfl⟩ := hright.resolve_right fun h => h.1 rfl
      obtain ⟨hsameType, hsameLayout⟩ := hleft.elementType_eq
      rw [← hsameType, ← hsameLayout]
      exact .after hg₂ (hf₂.defineLeft (hleft.readsScalar hf₁ hlive hsquare hrank hreads) hone (hg₂.renders hb₁)
        hleft.shape_eq hlen hd)
  | false =>
    rw [if_neg Bool.false_ne_true, ← hb.elementType]
    obtain ⟨_, _, hcombines⟩ :=
      (Build.Outcome.combineArrays op hf₁.wellFormed (fun _ => hb₁.live) fun _ => hlive).of_runOn_ok hrun
    cases hcombines with
    | equal vars hshape hlen hd => exact hf₁.defineRight hreads hone hb₁ hshape.symm hlen hd
    | rightUnit vars hshape hviewUnit =>
      rw [hsquare] at hviewUnit
      cases hviewUnit
    | leftUnit vars hshape hotherUnit => exact absurd hotherUnit (Shape.ne_unit hrank)
    | spread vars common left right p₂ p₃ hotherUnit hviewUnit hbroadcast hleft hright hlen hd =>
      obtain rfl := hcommon (.inr hbroadcast)
      obtain ⟨-, rfl, rfl⟩ := hleft.resolve_right fun h => h.1 rfl
      obtain ⟨hf₂, hg₂⟩ := hright.follows hf₁
      exact .after hg₂ (hf₂.defineRight (hright.readsScalar hf₁ hlive hsquare hrank hreads) hone (hg₂.renders hb₁)
        hright.shape_eq hlen hd)

end Plan

end ArrayPlan
