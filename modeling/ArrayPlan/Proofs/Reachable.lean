import ArrayPlan.Operation
import ArrayPlan.Proofs.Stores

/-!
Plans that operations can build. An operation may be refused, which the plan survives; handles that it names
are those of the plan, or foreign ones, which are refused. All plans built this way are well-formed and
extend the plans before them.
-/

namespace ArrayPlan

section Refs

variable {ref : Type}

def Operand.refs : Operand ref → List ref
  | literal _ => []
  | array a => [a]

def Index.refs : Index ref → List ref
  | gather a => [a]
  | _ => []

def Operation.refs : Operation ref → List ref
  | full .. | fill .. | range _ | input .. | inputNamed .. => []
  | combine _ a b => a :: b.refs
  | select a index => a :: index.flatMap Index.refs
  | combineFrom _ _ a | reshape a _ _ | sum a _ | prefixSums a => [a]
  | write a index value => a :: (index.flatMap Index.refs ++ value.refs)

end Refs

namespace Plan

/-- What every successful operation guarantees. -/
structure Advances (p : Plan) (h : Handle) (p' : Plan) : Prop where
  extends_ : p.Extends p'
  wellFormed : p'.WellFormed
  live : p'.Live h
  backed : h.rule ∈ ruleNames p.rules.rules → h.rule ∈ p'.backing.entries.map Prod.fst

section Advances

variable {p p' : Plan} {h : Handle}

theorem WellFormed.unregistered (hp : p.WellFormed) {names : NameSupply} {issued : List String}
    (hdraws : p.names.Draws names issued) {rule : String} (hrule : rule ∈ issued) : rule ∉ ruleNames p.rules.rules :=
  fun hmem => hdraws.unused rule hrule (hp.rules_taken rule hmem)

theorem Defines.advances {d : Definition} (hd : p.Defines d h p') (hp : p.WellFormed) : p.Advances h p' :=
  ⟨hd.grown ▸ extends_grow hd.growth_fits, hd.wellFormed hp, hd.live hp,
    fun hmem => absurd hmem (hp.unregistered hd.draws (by simp))⟩

theorem Spreads.extends {a : Handle} {common : Shape} (hs : p.Spreads a common h p') (hp : p.WellFormed) :
    p.Extends p' := by
  rcases hs with ⟨_, _, rfl⟩ | ⟨_, _, _, _, hdef⟩
  · exact .refl _
  · exact (hdef.advances hp).extends_

theorem Extends.registered (h : p.Extends p') {rule : String} (hrule : rule ∈ ruleNames p.rules.rules) :
    rule ∈ ruleNames p'.rules.rules := by
  obtain ⟨later, hlater⟩ := h.rules
  rw [hlater, ruleNames, List.map_append]
  exact List.mem_append_left _ hrule

theorem Combines.advances {op : Operator} {a b : Handle} (hc : p.Combines op a b h p') (hp : p.WellFormed) :
    p.Advances h p' := by
  cases hc with
  | equal vars hshape hlen hdef => exact hdef.advances hp
  | rightUnit vars hshape hunit hlen hdef => exact hdef.advances hp
  | leftUnit vars hshape hunit hlen hdef => exact hdef.advances hp
  | spread vars common left right p₁ p₂ ha hb hcommon hleft hright hlen hdef =>
    have hp₁ := hleft.wellFormed hp
    obtain ⟨hext, hwf, hlive, hbacked⟩ := hdef.advances (hright.wellFormed hp₁)
    have hbefore := (hleft.extends hp).trans (hright.extends hp₁)
    exact ⟨hbefore.trans hext, hwf, hlive, fun hmem => hbacked (hbefore.registered hmem)⟩

theorem live_of_registered {p : Plan} {g : Growth} {issued : List String} (hp : p.WellFormed)
    (hg : g.Fits p issued) {r : Rule} (hr : g.rule = some r) {h : Handle} (hown : h.plan = p.id)
    (hrule : h.rule = r.name) (harity : r.params.length = h.rank) : (p.grow g).Live h := by
  refine ⟨hown, r, ?_, .inl harity⟩
  rw [hrule]
  refine (hp.grow hg).find?_of_mem ?_
  simp [grow, hr]

theorem Inputs.advances {array : String} {shape : Shape} {elementType : ElementType} {vars : List String}
    (hi : p.Inputs array shape elementType vars h p') (hp : p.WellFormed) : p.Advances h p' := by
  obtain ⟨hrank, hfits, hgrown, hhandle⟩ := hi
  have hshape : h.shape = shape := congrArg Handle.shape hhandle
  refine ⟨hgrown ▸ extends_grow hfits, hgrown ▸ hp.grow hfits, hgrown ▸ ?_,
    fun hmem => absurd hmem (hp.unregistered hfits.draws (by simp))⟩
  exact live_of_registered hp hfits (r := ⟨h.rule, vars, .load array (vars.map .var)⟩) rfl
    (congrArg Handle.plan hhandle) rfl (by rw [hrank, Handle.rank, hshape])

theorem Accumulates.advances {a : Handle} {extent : Extent} {array i j t : String}
    (hs : p.Accumulates a extent array i j t h p') (hp : p.WellFormed) : p.Advances h p' := by
  obtain ⟨_, hextents, hfits, hgrown, hhandle⟩ := hs
  have hshape : h.shape = a.shape := by rw [hhandle]
  refine ⟨hgrown ▸ extends_grow hfits, hgrown ▸ hp.grow hfits, hgrown ▸ ?_,
    fun hmem => absurd hmem (hp.unregistered hfits.draws (by simp))⟩
  exact live_of_registered hp hfits (r := ⟨h.rule, [t], .load array [.var t]⟩) rfl
    (congrArg Handle.plan hhandle) rfl (by rw [Handle.rank, hshape, Shape.rank, hextents]; rfl)

theorem Writes.advances {a : Handle} {index : List (Index Handle)} {value : Operand Handle}
    (hw : p.Writes a index value h p') (hp : p.WellFormed) : p.Advances h p' := by
  cases hw with
  | again array axes v vars hrequest hbacked hlen hfits hgrown hhandle =>
    refine ⟨hgrown ▸ extends_grow hfits, hgrown ▸ hp.grow hfits, hgrown ▸ ?_, fun _ => ?_⟩
    · exact hhandle ▸ hrequest.live.grow _
    · obtain ⟨entry, hentry, _⟩ := Option.map_eq_some_iff.1 hbacked
      rw [hhandle, hgrown, grow, List.map_append]
      exact List.mem_append_left _ (List.mem_map_of_mem (BackingTable.mem_of_find? hentry))
  | first array axes v copyVars vars params hrequest hbacked hcopy hlen hparams hfits hgrown hhandle =>
    have hshape : h.shape = a.shape := by rw [hhandle]
    refine ⟨hgrown ▸ extends_grow hfits, hgrown ▸ hp.grow hfits, hgrown ▸ ?_,
      fun hmem => absurd hmem (hp.unregistered hfits.draws (by simp))⟩
    exact live_of_registered hp hfits (r := ⟨h.rule, params, .load array (params.map .var)⟩) rfl
      ((congrArg Handle.plan hhandle).trans hrequest.live.own) rfl
      (by rw [hparams, Handle.rank, Handle.rank, hshape])

end Advances

theorem mem_refs_index {index : List (Index Handle)} {positions : Handle} (h : .gather positions ∈ index) :
    positions ∈ index.flatMap Index.refs :=
  List.mem_flatMap.2 ⟨_, h, by simp [Index.refs]⟩

theorem write_outcome {p : Plan} (hp : p.WellFormed) {a : Handle} {index : List (Index Handle)} {value : Operand Handle}
    (hlive : ∀ b ∈ (Operation.write a index value).refs, b.plan = p.id → p.Live b) :
    Build.Outcome p (Build.write a index value) p (p.Writes a index value) := by
  refine .write hp (hlive a List.mem_cons_self) index value (fun positions hpositions => ?_) fun b hb => ?_
  · exact hlive positions (List.mem_cons_of_mem _ (List.mem_append_left _ (mem_refs_index hpositions)))
  · exact hlive b (List.mem_cons_of_mem _ (List.mem_append_right _ (by simp [hb, Operand.refs])))

/-- An operation that is refused draws names at most, and any other one advances the plan. -/
theorem perform_outcome {p : Plan} (hp : p.WellFormed) (op : Operation Handle)
    (hlive : ∀ a ∈ op.refs, a.plan = p.id → p.Live a) : Build.Outcome p op.perform p p.Advances := by
  open Build.Outcome in
  cases op with
  | full shape value elementType =>
    exact (full hp _ value elementType).mono fun h p' ⟨_, _, _, _, _, _, hdef⟩ => hdef.advances hp
  | fill shape value =>
    refine bind (get ?_)
    exact (full hp _ value _).mono fun h p' ⟨_, _, _, _, _, _, hdef⟩ => hdef.advances hp
  | range stop => exact (range hp stop).mono fun h p' ⟨_, _, _, hdef⟩ => hdef.advances hp
  | input shape elementType =>
    exact (input hp _ elementType).mono fun h p' ⟨_, _, _, _, hin⟩ => hin.advances hp
  | inputNamed name shape elementType =>
    exact (inputNamed hp name _ elementType).mono fun h p' ⟨_, _, _, hin⟩ => hin.advances hp
  | combine op a b =>
    have ha := hlive a List.mem_cons_self
    cases b with
    | literal value => exact (combineLiteral op hp ha value false).mono fun h p' ⟨_, _, _, hdef⟩ => hdef.advances hp
    | array b =>
      have hb := hlive b (by simp [Operation.refs, Operand.refs])
      exact (combineArrays op hp ha hb).mono fun h p' ⟨_, _, hcombines⟩ => hcombines.advances hp
  | combineFrom op value a =>
    exact (combineLiteral op hp (hlive a List.mem_cons_self) value true).mono
      fun h p' ⟨_, _, _, hdef⟩ => hdef.advances hp
  | select a index =>
    exact (select hp (hlive a List.mem_cons_self) index).mono
      fun h p' ⟨_, _, _, _, _, _, _, hdef⟩ => hdef.advances hp
  | reshape a shape layout =>
    exact (reshape hp (hlive a List.mem_cons_self) _ layout).mono
      fun h p' ⟨_, _, _, _, _, _, _, _, _, _, hdef⟩ => hdef.advances hp
  | sum a axes =>
    exact (sum hp (hlive a List.mem_cons_self) axes).mono
      fun h p' ⟨_, _, _, _, _, _, hdef⟩ => hdef.advances hp
  | prefixSums a =>
    exact (prefixSums hp (hlive a List.mem_cons_self)).mono
      fun h p' ⟨_, _, _, _, _, hsums⟩ => hsums.advances hp
  | write a index value => exact (write_outcome hp hlive).mono fun h p' hwrites => hwrites.advances hp

/-- The second plan comes out of the first by operations on handles that these gave, on the handles given
before them, and on foreign handles. Refused operations count. -/
inductive Evolves (p : Plan) (handles : List Handle) : Plan → List Handle → Prop where
  | refl : Evolves p handles p handles
  | step {p₁ p₂ : Plan} {handles₁ : List Handle} {op : Operation Handle}
      {outcome : Except PlanError Handle} (hbefore : Evolves p handles p₁ handles₁)
      (hrefs : ∀ a ∈ op.refs, a.plan = p₁.id → a ∈ handles₁) (hrun : op.perform.runOn p₁ = (outcome, p₂)) :
      Evolves p handles p₂ (handles₁ ++ outcome.toOption.toList)

def Reachable (p : Plan) (handles : List Handle) : Prop :=
  ∃ id settings, Evolves (empty id settings) [] p handles

theorem Evolves.invariant {p p' : Plan} {handles handles' : List Handle} (h : Evolves p handles p' handles')
    (hp : p.WellFormed) (hhandles : ∀ a ∈ handles, p.Live a) :
    p.Extends p' ∧ p'.WellFormed ∧ ∀ a ∈ handles', p'.Live a := by
  induction h with
  | refl => exact ⟨.refl _, hp, hhandles⟩
  | @step p₁ p₂ handles₁ op outcome hbefore hrefs hrun ih =>
    obtain ⟨hext, hp₁, hlive⟩ := ih
    have hout := perform_outcome hp₁ op fun a ha hown => hlive a (hrefs a ha hown)
    unfold Build.Outcome at hout
    rw [hrun] at hout
    cases outcome with
    | error e =>
      refine ⟨hext.trans hout.extends, hout.wellFormed hp₁, fun a ha => ?_⟩
      exact hout.live (hlive a (by simpa [Except.toOption] using ha))
    | ok a =>
      refine ⟨hext.trans hout.extends_, hout.wellFormed, fun b hb => ?_⟩
      rcases List.mem_append.1 hb with hb | hb
      · exact hout.extends_.live (hlive b hb)
      · obtain rfl : b = a := by simpa [Except.toOption, eq_comm] using hb
        exact hout.live

theorem Evolves.backed_of_registered {p p' : Plan} {handles handles' : List Handle} (h : Evolves p handles p' handles')
    (hp : p.WellFormed) (hhandles : ∀ a ∈ handles, p.Live a) {a : Handle} (ha : a ∈ handles')
    (hrule : a.rule ∈ ruleNames p.rules.rules) : a ∈ handles ∨ a.rule ∈ p'.backing.entries.map Prod.fst := by
  induction h with
  | refl => exact .inl ha
  | @step p₁ p₂ handles₁ op outcome hbefore hrefs hrun ih =>
    obtain ⟨hext, hp₁, hlive⟩ := hbefore.invariant hp hhandles
    have hout := perform_outcome hp₁ op fun a ha hown => hlive a (hrefs a ha hown)
    unfold Build.Outcome at hout
    rw [hrun] at hout
    have hkeep : p₁.Extends p₂ → a ∈ handles₁ → a ∈ handles ∨ a.rule ∈ p₂.backing.entries.map Prod.fst := by
      intro hstep ha
      obtain ⟨later, hlater, _⟩ := hstep.backed
      refine (ih ha).imp_right fun hmem => ?_
      rw [hlater, List.map_append]
      exact List.mem_append_left _ hmem
    cases outcome with
    | error e => exact hkeep hout.extends (by simpa [Except.toOption] using ha)
    | ok b =>
      rcases List.mem_append.1 ha with ha | ha
      · exact hkeep hout.extends_ ha
      · obtain rfl : a = b := by simpa [Except.toOption, eq_comm] using ha
        exact .inr (hout.backed (hext.registered hrule))

theorem Reachable.wellFormed {p : Plan} {handles : List Handle} (h : Reachable p handles) : p.WellFormed := by
  obtain ⟨id, settings, h⟩ := h
  exact (h.invariant (empty_wellFormed id settings) (by simp)).2.1

theorem Reachable.live {p : Plan} {handles : List Handle} (h : Reachable p handles) {a : Handle}
    (ha : a ∈ handles) : p.Live a := by
  obtain ⟨id, settings, h⟩ := h
  exact (h.invariant (empty_wellFormed id settings) (by simp)).2.2 a ha

end Plan

end ArrayPlan
