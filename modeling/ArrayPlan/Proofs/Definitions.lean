import ArrayPlan.Plan.Elementwise
import ArrayPlan.Plan.Reduction
import ArrayPlan.Plan.Reshape
import ArrayPlan.Plan.Selection
import ArrayPlan.Plan.Source
import ArrayPlan.Proofs.Scoping
import ArrayPlan.Proofs.Shapes

/-!
Operations that define one rule. Fills, ranges, elementwise operations, reads, reshapes and sums draw index
variables and register a rule over them; they differ in the body of the rule and in the shape of the result.
-/

namespace ArrayPlan

/-- A rule to be registered under a fresh name, and the handle for it. -/
structure Definition where
  drawn : List String
  domains : List Domain
  params : List String
  body : Expr
  shape : Shape
  elementType : ElementType
  layout : Layout

namespace Definition

def growth (d : Definition) (names : NameSupply) (rule : String) : Growth :=
  ⟨names, d.domains, [], [], some ⟨rule, d.params, d.body⟩, []⟩

structure Fits (d : Definition) (p : Plan) : Prop where
  domains_nodup : (d.domains.flatMap Domain.vars).Nodup
  domains : ∀ v ∈ d.domains.flatMap Domain.vars, v ∈ d.drawn
  params : d.params.Sublist d.drawn
  body : d.body.Within (· ∈ ruleNames p.rules.rules) (· ∈ arrayNames p.arrays)
    (Owned (p.domains ++ d.domains))
  arity : d.params.length = d.shape.rank ∨ (d.params = [] ∧ d.shape = .unit)

end Definition

structure Plan.Defines (p : Plan) (d : Definition) (h : Handle) (p' : Plan) : Prop where
  fits : d.Fits p
  draws : p.names.Draws p'.names (d.drawn ++ [h.rule])
  grown : p' = p.grow (d.growth p'.names h.rule)
  handle : h = ⟨p.id, h.rule, d.shape, d.elementType, d.layout⟩

namespace Plan.Defines

variable {p p' : Plan} {d : Definition} {h : Handle}

theorem growth_fits (hd : p.Defines d h p') :
    (d.growth p'.names h.rule).Fits p (d.drawn ++ [h.rule]) where
  draws := hd.draws
  domains_nodup := hd.fits.domains_nodup
  domains v hv := List.mem_append_left _ (hd.fits.domains v hv)
  arrays_nodup := .nil
  arrays := by simp [Definition.growth, arrayNames]
  statements := by simp [Definition.growth]
  rule r hr := by
    obtain rfl : (⟨h.rule, d.params, d.body⟩ : Rule) = r := Option.some.inj hr
    refine ⟨by simp, ?_⟩
    simpa only [Definition.growth, List.append_nil] using hd.fits.body
  backed_nodup := .nil
  backed := by simp [Definition.growth]
  visible := by simp [Definition.growth]

theorem wellFormed (hd : p.Defines d h p') (hp : p.WellFormed) : p'.WellFormed :=
  hd.grown ▸ hp.grow hd.growth_fits

theorem find?_rule (hd : p.Defines d h p') (hp : p.WellFormed) :
    p'.rules.find? h.rule = some ⟨h.rule, d.params, d.body⟩ := by
  refine (hd.wellFormed hp).find?_of_mem (r := ⟨h.rule, d.params, d.body⟩) ?_
  rw [hd.grown]
  simp [grow, Definition.growth]

theorem live (hd : p.Defines d h p') (hp : p.WellFormed) : p'.Live h where
  own := by
    rw [hd.grown]
    exact congrArg Handle.plan hd.handle
  rule := by
    refine ⟨_, hd.find?_rule hp, ?_⟩
    have hshape : h.shape = d.shape := congrArg Handle.shape hd.handle
    rw [Handle.rank, hshape]
    exact hd.fits.arity.imp (fun hlen => hlen) fun hunit => ⟨by simp [Rule.arity, hunit.1], hunit.2⟩

end Plan.Defines

section Within

variable {p : Plan} {rules arrays owned : String → Prop}

theorem within_callOf_live {a : Handle} (ha : p.Live a) {args : List Expr}
    (hargs : Expr.WithinAll (· ∈ ruleNames p.rules.rules) arrays owned args) :
    (p.callOf a.rule args).Within (· ∈ ruleNames p.rules.rules) arrays owned := by
  obtain ⟨r, hr, _⟩ := ha.rule
  exact Plan.within_callOf (Plan.mem_ruleNames_of_find? hr) hargs

theorem within_callAtOrigin_live {a : Handle} (ha : p.Live a) :
    (p.callAtOrigin a.rule).Within (· ∈ ruleNames p.rules.rules) arrays owned := by
  obtain ⟨r, hr, _⟩ := ha.rule
  exact Plan.within_callAtOrigin (Plan.mem_ruleNames_of_find? hr)

theorem within_toExpr (value : Literal) : value.toExpr.Within rules arrays owned := by
  cases value <;> trivial

theorem within_apply (op : Operator) {lhs rhs : Expr} (hl : lhs.Within rules arrays owned)
    (hr : rhs.Within rules arrays owned) : (op.apply lhs rhs).Within rules arrays owned := by
  cases op <;> exact ⟨hl, hr⟩

theorem fits_over_axes {vars : List String} {body : Expr} {shape : Shape} (elementType : ElementType)
    (layout : Layout) (hlen : vars.length = shape.rank)
    (hbody : body.Within (· ∈ ruleNames p.rules.rules) (· ∈ arrayNames p.arrays) (Owned (p.domains ++ []))) :
    (Definition.mk vars [] vars body shape elementType layout).Fits p :=
  ⟨.nil, by simp, List.Sublist.refl _, hbody, .inl hlen⟩

end Within

theorem Build.runOn_fill (extents : List Extent) (value : Literal) (p : Plan) :
    (fill extents value).runOn p = (full extents value p.settings.elementType).runOn p := by
  rw [fill, runOn_get]

namespace Build.Outcome

variable {start p : Plan}

theorem define_handle {q : Plan} (d : Definition) {Q : Handle → Plan → Prop} (hp : p.WellFormed)
    (hfits : d.Fits p) (hdraws : p.names.Draws q.names d.drawn)
    (hsame : q = { p with names := q.names, domains := p.domains ++ d.domains })
    (h : ∀ a p', p.Defines d a p' → Q a p') :
    Outcome start (Build.define d.params d.body >>= fun rule =>
      Build.handle rule d.shape d.elementType d.layout) q Q := by
  refine bind (define ?_ fun rule names hrule => handle (h _ _ ?_))
  · intro r hr
    rw [hsame] at hr
    exact hdraws.taken_mono (hp.rules_taken r.name (List.mem_map_of_mem hr))
  · refine ⟨hfits, hdraws.trans hrule, ?_, ?_⟩
    · rw [hsame]
      simp [Plan.grow, Definition.growth]
    · rw [hsame]

theorem shapeOf {extents : List Extent} {Q : Shape → Plan → Prop} (hstart : start.OnlyDraws p)
    (h : ∀ shape, Shape.ofExtents extents = .ok shape → Q shape p) :
    Outcome start (Build.shapeOf extents) p Q := by
  refine ofExcept hstart fun shape hshape => h shape ?_
  cases hs : Shape.ofExtents extents with
  | error fault => rw [hs] at hshape; cases hshape
  | ok s => rw [hs] at hshape; cases hshape; rfl

theorem full (hp : p.WellFormed) (extents : List Extent) (value : Literal) (elementType : ElementType) :
    Outcome p (Build.full extents value elementType) p fun h p' => ∃ shape v vars,
      Shape.ofExtents extents = .ok shape ∧ value.cast elementType = .ok v ∧ vars.length = shape.rank ∧
        p.Defines ⟨vars, [], vars, v.toExpr, shape, elementType, .rowMajor⟩ h p' := by
  refine bind (shapeOf (.refl p) fun shape hshape => bind (ofExcept (.refl p) fun v hv => bind ?_))
  refine requireOpen (fun _ => .refl p) fun _ => bind (freshIndices fun vars names hlen hdraws => ?_)
  exact define_handle ⟨vars, [], vars, v.toExpr, shape, elementType, .rowMajor⟩ hp
    (fits_over_axes _ _ hlen (within_toExpr v)) hdraws (by simp) fun a p' hdef =>
      ⟨shape, v, vars, hshape, hv, hlen, hdef⟩

theorem range (hp : p.WellFormed) (stop : Extent) :
    Outcome p (Build.range stop) p fun h p' => ∃ shape var, Shape.ofExtents [stop] = .ok shape ∧
      p.Defines ⟨[var], [], [var], .var var, shape, .int64, .rowMajor⟩ h p' := by
  refine bind (shapeOf (.refl p) fun shape hshape => bind ?_)
  refine requireOpen (fun _ => .refl p) fun _ => bind (fresh fun var names hdraws => ?_)
  have hrank : [var].length = shape.rank := by
    unfold Shape.ofExtents at hshape
    split at hshape
    · cases hshape
    · split at hshape
      · cases hshape
      · cases hshape
        rfl
  exact define_handle ⟨[var], [], [var], .var var, shape, .int64, .rowMajor⟩ hp
    (fits_over_axes _ _ hrank trivial) hdraws (by simp) fun a p' hdef => ⟨shape, var, hshape, hdef⟩

section Elementwise

variable {a b : Handle} (op : Operator)

theorem combineLiteral (hp : p.WellFormed) (ha : a.plan = p.id → p.Live a) (value : Literal)
    (literalFirst : Bool) :
    Outcome p (Build.combineLiteral op a value literalFirst) p fun h p' => p.Live a ∧ ∃ vars,
      vars.length = a.rank ∧
        p.Defines ⟨vars, [], vars,
          if literalFirst then op.apply value.toExpr (p.callOf a.rule (vars.map .var))
          else op.apply (p.callOf a.rule (vars.map .var)) value.toExpr,
          a.shape, op.resultType a.elementType, a.layout⟩ h p' := by
  refine bind (requireOwn (.refl p) fun hown => bind (requireOpen (fun _ => .refl p) fun _ => bind ?_))
  have ha := ha hown
  refine freshIndices fun vars names hlen hdraws => bind (invokeAt (hlen ▸ ha.takes) ?_)
  refine define_handle ⟨vars, [], vars, _, a.shape, op.resultType a.elementType, a.layout⟩ hp
    (fits_over_axes _ _ hlen ?_) hdraws (by simp) fun h p' hdef => ⟨ha, vars, hlen, hdef⟩
  have hcall : Expr.Within (· ∈ ruleNames p.rules.rules) (· ∈ arrayNames p.arrays) (Owned (p.domains ++ []))
      (p.callOf a.rule (vars.map .var)) := within_callOf_live ha (Expr.withinAll_vars vars)
  cases literalFirst with
  | true => exact within_apply op (within_toExpr value) hcall
  | false => exact within_apply op hcall (within_toExpr value)

theorem combineEqual (hp : p.WellFormed) (ha : p.Live a) (hb : p.Live b) (hshape : a.shape = b.shape)
    (hclosed : p.finalized = true → start.OnlyDraws p) :
    Outcome start (Build.combineEqual op a b) p fun h p' => ∃ vars, vars.length = a.rank ∧
      p.Defines ⟨vars, [], vars,
        op.apply (p.callOf a.rule (vars.map .var)) (p.callOf b.rule (vars.map .var)),
        a.shape, op.resultType a.elementType, a.layout⟩ h p' := by
  refine bind (requireOpen hclosed fun _ => bind (freshIndices fun vars names hlen hdraws => bind ?_))
  have hlen' : vars.length = b.rank := by rw [hlen, Handle.rank, Handle.rank, hshape]
  refine invokeAt (hlen ▸ ha.takes) (bind (invokeAt (hlen' ▸ hb.takes) ?_))
  exact define_handle ⟨vars, [], vars, _, a.shape, op.resultType a.elementType, a.layout⟩ hp
    (fits_over_axes _ _ hlen (within_apply op (within_callOf_live ha (Expr.withinAll_vars vars))
      (within_callOf_live hb (Expr.withinAll_vars vars))))
    hdraws (by simp) fun h p' hdef => ⟨vars, hlen, hdef⟩

theorem combineRightUnit (hp : p.WellFormed) (ha : p.Live a) (hb : p.Live b) :
    Outcome p (Build.combineRightUnit op a b) p fun h p' => ∃ vars, vars.length = a.rank ∧
      p.Defines ⟨vars, [], vars,
        op.apply (p.callOf a.rule (vars.map .var)) (p.callAtOrigin b.rule),
        a.shape, op.resultType a.elementType, a.layout⟩ h p' := by
  refine bind (requireOpen (fun _ => .refl p) fun _ => bind (freshIndices fun vars names hlen hdraws => bind ?_))
  refine invokeAt (hlen ▸ ha.takes) (bind (invokeAtOrigin hb.takes ?_))
  exact define_handle ⟨vars, [], vars, _, a.shape, op.resultType a.elementType, a.layout⟩ hp
    (fits_over_axes _ _ hlen (within_apply op (within_callOf_live ha (Expr.withinAll_vars vars))
      (within_callAtOrigin_live hb)))
    hdraws (by simp) fun h p' hdef => ⟨vars, hlen, hdef⟩

theorem combineLeftUnit (hp : p.WellFormed) (ha : p.Live a) (hb : p.Live b) :
    Outcome p (Build.combineLeftUnit op a b) p fun h p' => ∃ vars, vars.length = b.rank ∧
      p.Defines ⟨vars, [], vars,
        op.apply (p.callAtOrigin a.rule) (p.callOf b.rule (vars.map .var)),
        b.shape, op.resultType a.elementType, b.layout⟩ h p' := by
  refine bind (requireOpen (fun _ => .refl p) fun _ => bind (freshIndices fun vars names hlen hdraws => bind ?_))
  refine invokeAtOrigin ha.takes (bind (invokeAt (hlen ▸ hb.takes) ?_))
  exact define_handle ⟨vars, [], vars, _, b.shape, op.resultType a.elementType, b.layout⟩ hp
    (fits_over_axes _ _ hlen (within_apply op (within_callAtOrigin_live ha)
      (within_callOf_live hb (Expr.withinAll_vars vars))))
    hdraws (by simp) fun h p' hdef => ⟨vars, hlen, hdef⟩

end Elementwise

end Build.Outcome

/-- The handle is the array itself, or a rule that reads it at the larger shape. -/
def Plan.Spreads (p : Plan) (a : Handle) (common : Shape) (h : Handle) (p' : Plan) : Prop :=
  (a.shape = common ∧ h = a ∧ p' = p) ∨
    (a.shape ≠ common ∧ p.finalized = false ∧ ∃ vars, vars.length = common.rank ∧
      p.Defines ⟨vars, [], vars,
        p.callOf a.rule (Build.spreadIndex a.shape.extents (vars.drop (common.rank - a.rank))),
        common, a.elementType, a.layout⟩ h p')

namespace Plan.Spreads

variable {p p' : Plan} {a h : Handle} {common : Shape}

theorem wellFormed (hs : p.Spreads a common h p') (hp : p.WellFormed) : p'.WellFormed := by
  rcases hs with ⟨_, _, rfl⟩ | ⟨_, _, _, _, hdef⟩
  · exact hp
  · exact hdef.wellFormed hp

theorem live (hs : p.Spreads a common h p') (hp : p.WellFormed) (ha : p.Live a) : p'.Live h := by
  rcases hs with ⟨_, rfl, rfl⟩ | ⟨_, _, _, _, hdef⟩
  · exact ha
  · exact hdef.live hp

theorem live_of_live (hs : p.Spreads a common h p') {b : Handle} (hb : p.Live b) : p'.Live b := by
  rcases hs with ⟨_, rfl, rfl⟩ | ⟨_, _, _, _, hdef⟩
  · exact hb
  · exact hdef.grown ▸ hb.grow _

theorem shape_eq (hs : p.Spreads a common h p') : h.shape = common := by
  rcases hs with ⟨hshape, rfl, _⟩ | ⟨_, _, _, _, hdef⟩
  · exact hshape
  · exact congrArg Handle.shape hdef.handle

theorem finalized_eq (hs : p.Spreads a common h p') : p'.finalized = p.finalized := by
  rcases hs with ⟨_, _, rfl⟩ | ⟨_, _, _, _, hdef⟩
  · rfl
  · rw [hdef.grown]
    rfl

theorem id_eq (hs : p.Spreads a common h p') : p'.id = p.id := by
  rcases hs with ⟨_, _, rfl⟩ | ⟨_, _, _, _, hdef⟩
  · rfl
  · rw [hdef.grown]
    rfl

end Plan.Spreads

theorem Build.length_spreadIndex (extents : List Extent) (vars : List String) :
    (spreadIndex extents vars).length = min extents.length vars.length := by
  induction extents generalizing vars with
  | nil => simp [spreadIndex]
  | cons e extents ih =>
    cases vars with
    | nil => simp [spreadIndex]
    | cons v vars =>
      simp only [spreadIndex, List.length_cons, ih]
      omega

/-- What combining two arrays of the plan did. -/
inductive Plan.Combines (p : Plan) (op : Operator) (a b h : Handle) (p' : Plan) : Prop where
  | equal (vars : List String) (hshape : a.shape = b.shape) (hlen : vars.length = a.rank)
      (hdef : p.Defines ⟨vars, [], vars,
        op.apply (p.callOf a.rule (vars.map .var)) (p.callOf b.rule (vars.map .var)),
        a.shape, op.resultType a.elementType, a.layout⟩ h p')
  | rightUnit (vars : List String) (hshape : a.shape ≠ b.shape) (hunit : b.shape = .unit)
      (hlen : vars.length = a.rank)
      (hdef : p.Defines ⟨vars, [], vars,
        op.apply (p.callOf a.rule (vars.map .var)) (p.callAtOrigin b.rule),
        a.shape, op.resultType a.elementType, a.layout⟩ h p')
  | leftUnit (vars : List String) (hshape : b.shape ≠ .unit) (hunit : a.shape = .unit)
      (hlen : vars.length = b.rank)
      (hdef : p.Defines ⟨vars, [], vars,
        op.apply (p.callAtOrigin a.rule) (p.callOf b.rule (vars.map .var)),
        b.shape, op.resultType a.elementType, b.layout⟩ h p')
  | spread (vars : List String) (common : Shape) (left right : Handle) (p₁ p₂ : Plan)
      (ha : a.shape ≠ .unit) (hb : b.shape ≠ .unit) (hcommon : Shape.broadcast a.shape b.shape = .ok common)
      (hleft : p.Spreads a common left p₁) (hright : p₁.Spreads b common right p₂)
      (hlen : vars.length = left.rank)
      (hdef : p₂.Defines ⟨vars, [], vars,
        op.apply (p₂.callOf left.rule (vars.map .var)) (p₂.callOf right.rule (vars.map .var)),
        left.shape, op.resultType left.elementType, left.layout⟩ h p')

namespace Build.Outcome

variable {start p : Plan} {a b : Handle}

theorem spread {common : Shape} (hp : p.WellFormed) (ha : p.Live a) (hrank : a.rank ≤ common.rank)
    (hclosed : p.finalized = true → start.OnlyDraws p) :
    Outcome start (Build.spread a common) p (p.Spreads a common) := by
  unfold Build.spread
  split
  · rename_i hshape
    exact pure (.inl ⟨hshape, rfl, rfl⟩)
  · rename_i hshape
    refine bind (requireOpen hclosed fun hopen => bind (freshIndices fun vars names hlen hdraws => bind ?_))
    have hargs : (spreadIndex a.shape.extents (vars.drop (common.rank - a.rank))).length = a.rank := by
      simp only [length_spreadIndex, List.length_drop, hlen, Handle.rank, Shape.rank] at hrank ⊢
      omega
    have htakes : p.Takes a.rule
        (spreadIndex a.shape.extents (vars.drop (common.rank - a.rank))).length := by
      rw [hargs]
      exact ha.takes
    refine invoke htakes ?_
    exact define_handle ⟨vars, [], vars, _, common, a.elementType, a.layout⟩ hp
      (fits_over_axes _ _ hlen (within_callOf_live ha (inScopeAll_spreadIndex _ fun _ _ => trivial).withinAll))
      hdraws (by simp) fun h p' hdef => .inr ⟨hshape, hopen, vars, hlen, hdef⟩

theorem combineArrays (op : Operator) (hp : p.WellFormed) (ha : a.plan = p.id → p.Live a)
    (hb : b.plan = p.id → p.Live b) :
    Outcome p (Build.combineArrays op a b) p fun h p' => p.Live a ∧ p.Live b ∧ p.Combines op a b h p' := by
  refine bind (requireOwn (.refl p) fun howna => bind (requireOwn (.refl p) fun hownb => ?_))
  have ha := ha howna
  have hb := hb hownb
  by_cases hshape : a.shape = b.shape
  · rw [if_pos hshape]
    exact (combineEqual op hp ha hb hshape fun _ => .refl p).mono
      fun h p' ⟨vars, hlen, hdef⟩ => ⟨ha, hb, .equal vars hshape hlen hdef⟩
  rw [if_neg hshape]
  by_cases hbunit : b.shape.isUnit
  · rw [if_pos hbunit]
    exact (combineRightUnit op hp ha hb).mono
      fun h p' ⟨vars, hlen, hdef⟩ => ⟨ha, hb, .rightUnit vars hshape (eq_of_beq hbunit) hlen hdef⟩
  have hb_ne : b.shape ≠ .unit := fun h => hbunit (beq_iff_eq.2 h)
  rw [if_neg hbunit]
  by_cases haunit : a.shape.isUnit
  · rw [if_pos haunit]
    exact (combineLeftUnit op hp ha hb).mono
      fun h p' ⟨vars, hlen, hdef⟩ => ⟨ha, hb, .leftUnit vars hb_ne (eq_of_beq haunit) hlen hdef⟩
  have ha_ne : a.shape ≠ .unit := fun h => haunit (beq_iff_eq.2 h)
  rw [if_neg haunit]
  cases hcommon : Shape.broadcast a.shape b.shape with
  | error axis => exact throw (.refl p)
  | ok common =>
    have hrank := Shape.broadcast_rank hcommon
    have hranka : a.rank ≤ common.rank := hrank ▸ Nat.le_max_left ..
    have hrankb : b.rank ≤ common.rank := hrank ▸ Nat.le_max_right ..
    -- One of the two arrays has another shape than the common one, so a closed plan is refused at that view.
    refine bind ((spread hp ha hranka fun _ => .refl p).mono fun left p₁ hleft => bind ?_)
    have hclosed : p₁.finalized = true → p.OnlyDraws p₁ := by
      intro hfin
      have hsame := hleft.finalized_eq
      rcases hleft with ⟨_, _, rfl⟩ | ⟨_, hopen, _⟩
      · exact .refl _
      · rw [hsame, hopen] at hfin
        cases hfin
    have hp₁ := hleft.wellFormed hp
    refine (spread hp₁ (hleft.live_of_live hb) hrankb hclosed).mono fun right p₂ hright => ?_
    have hopen : p₂.finalized = false := by
      rw [hright.finalized_eq, hleft.finalized_eq]
      rcases hleft with ⟨haeq, _, rfl⟩ | ⟨_, hopen, _⟩
      · rcases hright with ⟨hbeq, _, _⟩ | ⟨_, hopen, _⟩
        · exact absurd (haeq.trans hbeq.symm) hshape
        · exact hopen
      · exact hopen
    refine (combineEqual op (hright.wellFormed hp₁) (hright.live_of_live (hleft.live hp ha))
      (hright.live hp₁ (hleft.live_of_live hb)) (hleft.shape_eq.trans hright.shape_eq.symm) ?_).mono ?_
    · intro hfin
      rw [hopen] at hfin
      cases hfin
    · intro h p' ⟨vars, hlen, hdef⟩
      exact ⟨ha, hb, .spread vars common left right p₁ p₂ ha_ne hb_ne hcommon hleft hright hlen hdef⟩

end Build.Outcome

def Index.Readable {ref : Type} : Index ref → Extent → Prop
  | .at position, .fixed length => position < length
  | .at _, .symbolic _ => True
  | .gather _, _ => False
  | entry, _ => entry.isComplete = true

def selectedArgs {ref : Type} : List (Index ref) → List String → List Expr
  | .at position :: index, vars => .int (Word.signed position) :: selectedArgs index vars
  | _ :: index, var :: vars => .var var :: selectedArgs index vars
  | _, _ => []

def selectedExtents {ref : Type} : List (Index ref) → List Extent → List Extent
  | .at _ :: index, _ :: extents => selectedExtents index extents
  | _ :: index, extent :: extents => extent :: selectedExtents index extents
  | _, _ => []

theorem length_selectedArgs {ref : Type} {index : List (Index ref)} {extents : List Extent}
    {vars : List String} (hlen : index.length = extents.length)
    (hvars : vars.length = (selectedExtents index extents).length) :
    (selectedArgs index vars).length = index.length := by
  induction index generalizing extents vars with
  | nil => rfl
  | cons entry index ih =>
    cases extents with
    | nil => cases hlen
    | cons extent extents =>
      have htail := Nat.succ.inj hlen
      cases entry with
      | «at» position => exact congrArg (· + 1) (ih htail hvars)
      | _ =>
        cases vars with
        | nil => cases hvars
        | cons var vars => exact congrArg (· + 1) (ih htail (Nat.succ.inj hvars))

theorem inScopeAll_selectedArgs {ref : Type} {takes ranked : String → Nat → Prop} {bounded given : String → Prop}
    (index : List (Index ref)) {vars : List String} (h : ∀ v ∈ vars, given v) :
    Expr.InScopeAll takes ranked bounded given (selectedArgs index vars) := by
  induction index generalizing vars with
  | nil => exact trivial
  | cons entry index ih =>
    cases entry with
    | «at» position => exact ⟨trivial, ih h⟩
    | _ =>
      cases vars with
      | nil => exact trivial
      | cons var vars => exact ⟨h var List.mem_cons_self, ih fun w hw => h w (List.mem_cons_of_mem _ hw)⟩

namespace Layout

theorem length_rowStrides (lengths : List Nat) : (rowStrides lengths).length = lengths.length := by
  induction lengths with
  | nil => rfl
  | cons n lengths ih => exact congrArg (· + 1) ih

theorem length_columnStrides (step : Nat) (lengths : List Nat) :
    (columnStrides step lengths).length = lengths.length := by
  induction lengths generalizing step with
  | nil => rfl
  | cons n lengths ih => exact congrArg (· + 1) (ih (step * n))

theorem length_strides (layout : Layout) (lengths : List Nat) :
    (layout.strides lengths).length = lengths.length := by
  cases layout with
  | rowMajor => exact length_rowStrides lengths
  | columnMajor => exact length_columnStrides 1 lengths

end Layout

def axesWhere (test : Nat → Bool) (axes : List (String × Extent)) : List (String × Extent) :=
  (axes.zipIdx.filter fun v => test v.2).map Prod.fst

theorem axesWhere_sublist (test : Nat → Bool) (axes : List (String × Extent)) :
    (axesWhere test axes).Sublist axes := by
  have h := (List.filter_sublist (p := fun v : (String × Extent) × Nat => test v.2) (l := axes.zipIdx)).map Prod.fst
  rwa [List.zipIdx_map_fst] at h

def Build.keepAxis (axis : Nat) (index : List (Index Handle)) (extent : Extent) (extents : List Extent) :
    Build (List Expr × List (String × Extent)) := do
  let var ← fresh .index
  let (args, kept) ← selectAxes (axis + 1) index extents
  return (.var var :: args, (var, extent) :: kept)

namespace Build.Outcome

variable {start p : Plan} {a : Handle}

theorem requirePosition {axis position : Nat} {extent : Extent} {Q : Unit → Plan → Prop}
    (hstart : start.OnlyDraws p) (h : (Index.at position : Index Handle).Readable extent → Q () p) :
    Outcome start (Build.requirePosition axis position extent) p Q := by
  unfold Build.requirePosition
  cases extent with
  | symbolic name => exact pure (h trivial)
  | fixed length =>
    dsimp only
    split
    · exact throw hstart
    · rename_i hlt
      exact pure (h (Nat.lt_of_not_le hlt))

theorem selectAxes (axis : Nat) (index : List (Index Handle)) (extents : List Extent)
    (hlen : index.length = extents.length) (hstart : start.OnlyDraws p) :
    Outcome start (Build.selectAxes axis index extents) p fun r p' => ∃ vars names,
      r = (selectedArgs index vars, vars.zip (selectedExtents index extents)) ∧
        vars.length = (selectedExtents index extents).length ∧ p.names.Draws names vars ∧
        p' = { p with names } ∧ ∀ e ∈ index.zip extents, e.1.Readable e.2 := by
  induction index generalizing axis extents p with
  | nil =>
    cases extents with
    | cons _ _ => cases hlen
    | nil => exact pure ⟨[], p.names, rfl, rfl, .refl _, rfl, by simp⟩
  | cons entry index ih =>
    cases extents with
    | nil => cases hlen
    | cons extent extents =>
      have htail := Nat.succ.inj hlen
      unfold Build.selectAxes
      have hslice : ∀ {entry : Index Handle}, entry.isComplete = true →
          (∀ var vars, selectedArgs (entry :: index) (var :: vars) = .var var :: selectedArgs index vars) →
          selectedExtents (entry :: index) (extent :: extents) = extent :: selectedExtents index extents →
          entry.Readable extent →
          Outcome start (keepAxis axis index extent extents) p fun r p' => ∃ vars names,
            r = (selectedArgs (entry :: index) vars,
                vars.zip (selectedExtents (entry :: index) (extent :: extents))) ∧
              vars.length = (selectedExtents (entry :: index) (extent :: extents)).length ∧
              p.names.Draws names vars ∧ p' = { p with names } ∧
              ∀ e ∈ (entry :: index).zip (extent :: extents), e.1.Readable e.2 := by
        intro entry hcomplete hargs hextents hreadable
        refine bind (fresh fun var names hdraws => bind ?_)
        refine (ih (axis + 1) extents htail (hstart.draw hdraws)).mono ?_
        rintro r p' ⟨vars, names', rfl, hvars, hdraws', rfl, hall⟩
        refine pure ⟨var :: vars, names', ?_, ?_, hdraws.trans hdraws', rfl, ?_⟩
        · rw [hargs, hextents, List.zip_cons_cons]
        · rw [hextents, List.length_cons, List.length_cons, hvars]
        · intro e he
          rw [List.zip_cons_cons] at he
          rcases List.mem_cons.1 he with rfl | he
          · exact hreadable
          · exact hall e he
      cases entry with
      | «at» position =>
        refine bind (requirePosition hstart fun hpos => bind ?_)
        refine (ih (axis + 1) extents htail hstart).mono ?_
        rintro r p' ⟨vars, names, rfl, hvars, hdraws, rfl, hall⟩
        refine pure ⟨vars, names, rfl, hvars, hdraws, rfl, fun e he => ?_⟩
        rw [List.zip_cons_cons] at he
        rcases List.mem_cons.1 he with rfl | he
        · exact hpos
        · exact hall e he
      | gather positions => exact throw hstart
      | all =>
        have hcomplete : (Index.all : Index Handle).isComplete = true := rfl
        exact hslice hcomplete (fun _ _ => rfl) rfl rfl
      | slice first stop step =>
        dsimp only
        split
        · rename_i hcomplete
          exact hslice hcomplete (fun _ _ => rfl) rfl hcomplete
        · exact throw hstart

theorem shapeOfKept {extents : List Extent} {Q : Shape → Plan → Prop}
    (hstart : (∃ e ∈ extents, e.fault? ≠ none) → start.OnlyDraws p)
    (h : ∀ shape, (if extents = [] then shape = .unit else shape.extents = extents) → Q shape p) :
    Outcome start (Build.shapeOfKept extents) p Q := by
  unfold Build.shapeOfKept
  cases extents with
  | nil => exact pure (h .unit rfl)
  | cons e extents =>
    by_cases hfault : ∃ e' ∈ e :: extents, e'.fault? ≠ none
    · refine shapeOf (hstart hfault) fun shape hshape => h shape ?_
      rw [if_neg (List.cons_ne_nil e extents)]
      exact Shape.extents_of_ofExtents hshape
    · have hfaultless : ∀ e' ∈ e :: extents, e'.fault? = none :=
        fun e' he' => Decidable.not_not.1 fun hne => hfault ⟨e', he', hne⟩
      obtain ⟨shape, hshape⟩ := Shape.ofExtents_of_faultless (List.cons_ne_nil e extents) hfaultless
      have hshape' : (if e :: extents = [] then shape = .unit else shape.extents = e :: extents) := by
        rw [if_neg (List.cons_ne_nil e extents)]
        exact Shape.extents_of_ofExtents hshape
      have hof : Build.shapeOf (e :: extents) = Pure.pure shape := by
        rw [Build.shapeOf, hshape]
        rfl
      rw [List.isEmpty_cons, if_neg Bool.false_ne_true, hof]
      exact pure (h shape hshape')

theorem arity_of_kept {kept : List (String × Extent)} {shape : Shape}
    (h : if kept.map Prod.snd = [] then shape = .unit else shape.extents = kept.map Prod.snd) :
    (kept.map Prod.fst).length = shape.rank ∨ (kept.map Prod.fst = [] ∧ shape = .unit) := by
  cases kept with
  | nil => exact .inr ⟨rfl, by simpa using h⟩
  | cons axis kept =>
    have hextents : shape.extents = (axis :: kept).map Prod.snd := by simpa using h
    left
    rw [Shape.rank, hextents, List.length_map, List.length_map]

theorem select (hp : p.WellFormed) (ha : a.plan = p.id → p.Live a) (index : List (Index Handle)) :
    Outcome p (Build.select a index) p fun h p' => p.Live a ∧ index.length = a.rank ∧
      (∀ e ∈ index.zip a.shape.extents, e.1.Readable e.2) ∧ ∃ vars shape,
        vars.length = (selectedExtents index a.shape.extents).length ∧
        (if selectedExtents index a.shape.extents = [] then shape = .unit
          else shape.extents = selectedExtents index a.shape.extents) ∧
        p.Defines ⟨vars, [], vars, p.callOf a.rule (selectedArgs index vars), shape, a.elementType, .rowMajor⟩
          h p' := by
  refine bind (requireOwn (.refl p) fun hown => bind ?_)
  have ha := ha hown
  unfold Build.requireIndexCount
  split
  · rename_i hcount
    refine pure (bind (requireOpen (fun _ => .refl p) fun _ => bind ?_))
    refine (selectAxes 0 index a.shape.extents hcount (.refl p)).mono ?_
    rintro r q ⟨vars, names, rfl, hlen, hdraws, rfl, hreadable⟩
    have hsnd : (vars.zip (selectedExtents index a.shape.extents)).map Prod.snd =
        selectedExtents index a.shape.extents := List.map_snd_zip (Nat.le_of_eq hlen.symm)
    have hfst : (vars.zip (selectedExtents index a.shape.extents)).map Prod.fst = vars :=
      List.map_fst_zip (Nat.le_of_eq hlen)
    refine bind (shapeOfKept (fun _ => ⟨⟨vars, hdraws⟩, rfl⟩) fun shape hshape => bind ?_)
    have harity := arity_of_kept hshape
    rw [hsnd] at hshape
    rw [hfst] at harity ⊢
    have hargs : (selectedArgs index vars).length = a.rank := (length_selectedArgs hcount hlen).trans hcount
    refine invoke (hargs ▸ ha.takes) ?_
    exact define_handle ⟨vars, [], vars, _, shape, a.elementType, .rowMajor⟩ hp
      ⟨.nil, by simp, List.Sublist.refl _, within_callOf_live ha (inScopeAll_selectedArgs index fun _ _ => trivial).withinAll, harity⟩
      hdraws (by simp) fun h p' hdef => ⟨ha, hcount, hreadable, vars, shape, hlen, hshape, hdef⟩
  · exact throw (.refl p)

theorem reshape (hp : p.WellFormed) (ha : a.plan = p.id → p.Live a) (extents : List Extent) (layout : Layout) :
    Outcome p (Build.reshape a extents layout) p fun h p' => p.Live a ∧ ∃ shape lengths sourceLengths vars,
      shape.extents = extents ∧ shape.lengths? = some lengths ∧ a.shape.lengths? = some sourceLengths ∧
      elementCount lengths = elementCount sourceLengths ∧ vars.length = lengths.length ∧
      p.Defines ⟨vars, [], vars,
        p.callOf a.rule (indexAtLine (linearIndex vars lengths (layout.strides lengths))
          (elementCount sourceLengths) sourceLengths (a.layout.strides sourceLengths)),
        shape, a.elementType, layout⟩ h p' := by
  refine bind (requireOwn (.refl p) fun hown => bind (shapeOf (.refl p) fun shape hshape => ?_))
  have ha := ha hown
  cases hlengths : shape.lengths? with
  | none => exact throw (.refl p)
  | some lengths =>
    cases hsource : a.shape.lengths? with
    | none => exact throw (.refl p)
    | some sourceLengths =>
      dsimp only
      split
      · exact throw (.refl p)
      · rename_i hcount
        refine bind (requireOpen (fun _ => .refl p) fun _ => bind (freshIndices fun vars names hlen hdraws => bind ?_))
        have hline : (indexAtLine (linearIndex vars lengths (layout.strides lengths))
            (elementCount sourceLengths) sourceLengths (a.layout.strides sourceLengths)).length = a.rank := by
          rw [indexAtLine, List.length_map, List.length_zip, Layout.length_strides, Nat.min_self]
          exact Shape.length_of_lengths? hsource
        have htakes : p.Takes a.rule (indexAtLine (linearIndex vars lengths (layout.strides lengths))
            (elementCount sourceLengths) sourceLengths (a.layout.strides sourceLengths)).length := by
          rw [hline]
          exact ha.takes
        refine invoke htakes ?_
        refine define_handle ⟨vars, [], vars, _, shape, a.elementType, layout⟩ hp
          (fits_over_axes _ _ (hlen.trans (Shape.length_of_lengths? hlengths)) ?_) hdraws (by simp) ?_
        · exact within_callOf_live ha (inScopeAll_indexAtLine (inScope_linearIndex _ _ _ fun _ _ => trivial) _ _ _).withinAll
        · intro h p' hdef
          exact ⟨ha, shape, lengths, sourceLengths, vars, Shape.extents_of_ofExtents hshape, hlengths, rfl,
            Decidable.not_not.1 hcount, hlen, hdef⟩

theorem requireAxes {axes : Option (List Nat)} {Q : Unit → Plan → Prop} (hstart : start.OnlyDraws p)
    (h : (∀ axis ∈ axes.getD [], axis < a.rank) → Q () p) : Outcome start (Build.requireAxes a axes) p Q := by
  unfold Build.requireAxes
  split
  · exact throw hstart
  · rename_i hnone
    refine pure (h fun axis haxis => ?_)
    have := List.find?_eq_none.1 hnone axis haxis
    simpa using this

theorem sum (hp : p.WellFormed) (ha : a.plan = p.id → p.Live a) (axes : Option (List Nat)) :
    Outcome p (Build.sum a axes) p fun h p' => p.Live a ∧ (∀ axis ∈ axes.getD [], axis < a.rank) ∧
      ∃ vars shape, vars.length = a.rank ∧
        (let bounded := vars.zip a.shape.extents
        let reduced := axesWhere (isReduced axes) bounded
        let kept := axesWhere (fun axis => !isReduced axes axis) bounded
        (if kept.map Prod.snd = [] then shape = .unit else shape.extents = kept.map Prod.snd) ∧
        p.Defines ⟨vars, [.box bounded], kept.map Prod.fst,
          if reduced.isEmpty then p.callOf a.rule (vars.map .var)
          else .sum (reduced.map Prod.fst) (p.callOf a.rule (vars.map .var)),
          shape, a.elementType, .rowMajor⟩ h p') := by
  refine bind (requireOwn (.refl p) fun hown => bind (requireAxes (.refl p) fun haxes => bind ?_))
  have ha := ha hown
  refine requireOpen (fun _ => .refl p) fun _ => bind (freshIndices fun vars names hlen hdraws => bind ?_)
  have hvars : (Domain.box (vars.zip a.shape.extents)).vars = vars := by
    rw [Domain.vars_box]
    exact List.map_fst_zip (Nat.le_of_eq hlen)
  have hne : vars.isEmpty = false := by
    have hpos := a.shape.rank_pos
    cases vars with
    | nil => simp only [List.length_nil, Handle.rank] at hlen; omega
    | cons _ _ => rfl
  refine addDomain ?_
  rw [hvars, hne, if_neg Bool.false_ne_true, List.partition_eq_filter_filter]
  have hreduced : (((vars.zip a.shape.extents).zipIdx.filter fun v => isReduced axes v.2).map fun v => v.1.1) =
      (axesWhere (isReduced axes) (vars.zip a.shape.extents)).map Prod.fst := (List.map_map ..).symm
  have hkept : (((vars.zip a.shape.extents).zipIdx.filter
        (Bool.not ∘ fun v => isReduced axes v.2)).map fun v => v.1.1) =
      (axesWhere (fun axis => !isReduced axes axis) (vars.zip a.shape.extents)).map Prod.fst :=
    (List.map_map ..).symm
  have hextents : (((vars.zip a.shape.extents).zipIdx.filter
        (Bool.not ∘ fun v => isReduced axes v.2)).map fun v => v.1.2) =
      (axesWhere (fun axis => !isReduced axes axis) (vars.zip a.shape.extents)).map Prod.snd :=
    (List.map_map ..).symm
  have hempty : ((vars.zip a.shape.extents).zipIdx.filter fun v => isReduced axes v.2).isEmpty =
      (axesWhere (isReduced axes) (vars.zip a.shape.extents)).isEmpty := List.isEmpty_map.symm
  dsimp only
  rw [hreduced, hkept, hextents, hempty]
  have hfst : (vars.zip a.shape.extents).map Prod.fst = vars := List.map_fst_zip (Nat.le_of_eq hlen)
  have hsub : ∀ test, ((axesWhere test (vars.zip a.shape.extents)).map Prod.fst).Sublist vars := by
    intro test
    have h := (axesWhere_sublist test (vars.zip a.shape.extents)).map Prod.fst
    rwa [hfst] at h
  refine bind (invokeAt (hlen ▸ ha.takes) (bind (shapeOfKept (fun ⟨e, he, hfault⟩ => ?_) fun shape hshape => ?_)))
  · obtain ⟨v, hv, rfl⟩ := List.mem_map.1 he
    have hmem := (axesWhere_sublist _ _).subset hv
    exact absurd (a.shape.faultless v.2 (List.of_mem_zip hmem).2) hfault
  · have hbody : Expr.Within (· ∈ ruleNames p.rules.rules) (· ∈ arrayNames p.arrays)
        (Owned (p.domains ++ [.box (vars.zip a.shape.extents)]))
        (if (axesWhere (isReduced axes) (vars.zip a.shape.extents)).isEmpty then
          p.callOf a.rule (vars.map .var)
        else .sum ((axesWhere (isReduced axes) (vars.zip a.shape.extents)).map Prod.fst)
          (p.callOf a.rule (vars.map .var))) := by
      have hcall : Expr.Within (· ∈ ruleNames p.rules.rules) (· ∈ arrayNames p.arrays)
          (Owned (p.domains ++ [.box (vars.zip a.shape.extents)])) (p.callOf a.rule (vars.map .var)) :=
        within_callOf_live ha (Expr.withinAll_vars vars)
      split
      · exact hcall
      · refine ⟨fun v hv => ⟨.box (vars.zip a.shape.extents), by simp, ?_⟩, hcall⟩
        rw [hvars]
        exact (hsub _).subset hv
    exact define_handle ⟨vars, [.box (vars.zip a.shape.extents)], _, _, shape, a.elementType, .rowMajor⟩ hp
      ⟨by simpa [hvars] using hdraws.nodup, by simp [hvars], hsub _, hbody, arity_of_kept hshape⟩ hdraws rfl
      fun h p' hdef => ⟨ha, haxes, vars, shape, hlen, hshape, hdef⟩

end Build.Outcome

end ArrayPlan
