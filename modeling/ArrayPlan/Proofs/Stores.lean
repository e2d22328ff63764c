import ArrayPlan.Plan.Write
import ArrayPlan.Proofs.Definitions

/-!
Operations that declare arrays or queue statements: inputs, prefix sums and writes. Each is one growth. A
first write and a later one differ in the copy, the new array, and the rule that the handle goes over to.
-/

namespace ArrayPlan

def inputGrowth (names : NameSupply) (array : String) (shape : Shape) (elementType : ElementType)
    (vars : List String) (rule : String) : Growth :=
  ⟨names, [], [⟨array, shape, elementType, .input⟩], [],
    some ⟨rule, vars, .load array (vars.map .var)⟩, [(rule, array)]⟩

def prefixSumGrowth (names : NameSupply) (a : Handle) (extent : Extent) (array i j t rule : String)
    (element : Expr) : Growth :=
  ⟨names, [prefixSumDomain i j extent], [⟨array, a.shape, a.elementType, .temporary⟩],
    [⟨.load array [.var i], .sum [j] element, [i]⟩],
    some ⟨rule, [t], .load array [.var t]⟩, [(rule, array)]⟩

/-- A declared input. -/
structure Plan.Inputs (p : Plan) (array : String) (shape : Shape) (elementType : ElementType)
    (vars : List String) (h : Handle) (p' : Plan) : Prop where
  rank : vars.length = shape.rank
  fits : (inputGrowth p'.names array shape elementType vars h.rule).Fits p (array :: vars ++ [h.rule])
  grown : p' = p.grow (inputGrowth p'.names array shape elementType vars h.rule)
  handle : h = ⟨p.id, h.rule, shape, elementType, .rowMajor⟩

structure Plan.Accumulates (p : Plan) (a : Handle) (extent : Extent) (array i j t : String) (h : Handle)
    (p' : Plan) : Prop where
  live : p.Live a
  extents : a.shape.extents = [extent]
  fits : (prefixSumGrowth p'.names a extent array i j t h.rule (p.callOf a.rule [.var j])).Fits p
    ([i] ++ [j] ++ [array] ++ [t] ++ [h.rule])
  grown : p' = p.grow (prefixSumGrowth p'.names a extent array i j t h.rule (p.callOf a.rule [.var j]))
  handle : h = ⟨p.id, h.rule, a.shape, a.elementType, .rowMajor⟩

namespace Build.Outcome

variable {start p : Plan} {a : Handle}

theorem not_mem_backed_of_draws (hp : p.WellFormed) {names : NameSupply} {issued : List String}
    (hdraws : p.names.Draws names issued) {rule : String} (hrule : rule ∈ issued) :
    rule ∉ p.backing.entries.map Prod.fst := by
  intro hmem
  obtain ⟨e, he, rfl⟩ := List.mem_map.1 hmem
  obtain ⟨r, hr, hname⟩ := List.mem_map.1 (hp.backed e he).2.2
  exact hdraws.unused e.1 hrule (hp.rules_taken e.1 (hname ▸ List.mem_map_of_mem (List.mem_of_mem_take hr)))

theorem declareInput {names : NameSupply} {array : String} (hp : p.WellFormed) (hdraws : p.names.Draws names [array])
    (shape : Shape) (elementType : ElementType) :
    Outcome start (Build.declareInput array shape elementType) { p with names } fun h p' =>
      ∃ vars, p.Inputs array shape elementType vars h p' := by
  refine bind (freshIndices fun vars names' hlen hvars => bind (define ?_ fun rule names'' hrule => ?_))
  · exact fun r hr => (hdraws.trans hvars).taken_mono (hp.rules_taken r.name (List.mem_map_of_mem hr))
  have hall : p.names.Draws names'' (array :: vars ++ [rule]) := (hdraws.trans hvars).trans hrule
  refine bind (declare (bind (back (handle ⟨vars, hlen, ?_, ?_, rfl⟩))))
  · refine ⟨hall, .nil, by simp [inputGrowth], by simp [inputGrowth, arrayNames],
      by simp [inputGrowth, arrayNames], by simp [inputGrowth], ?_, by simp [inputGrowth], ?_,
      by simp [inputGrowth]⟩
    · intro r hr
      obtain rfl : (⟨rule, vars, .load array (vars.map .var)⟩ : Rule) = r := Option.some.inj hr
      exact ⟨by simp, by simp [inputGrowth, arrayNames], Expr.withinAll_vars vars⟩
    · intro b hb
      obtain rfl : b = (rule, array) := by simpa [inputGrowth] using hb
      exact ⟨by simp [inputGrowth, arrayNames], by simp [inputGrowth, ruleNames],
        not_mem_backed_of_draws hp hall (by simp)⟩
  · have hnew : rule ∉ p.backing.entries.map Prod.fst := not_mem_backed_of_draws hp hall (by simp)
    have hinsert := BackingTable.insert_of_not_mem hnew
    simp only [hinsert]
    simp [Plan.grow, inputGrowth, RuleLog.size]

theorem input (hp : p.WellFormed) (extents : List Extent) (elementType : ElementType) :
    Outcome p (Build.input extents elementType) p fun h p' => ∃ shape array vars,
      Shape.ofExtents extents = .ok shape ∧ p.Inputs array shape elementType vars h p' := by
  refine bind (shapeOf (.refl p) fun shape hshape => bind (requireOpen (fun _ => .refl p) fun _ => bind ?_))
  refine fresh fun array names hdraws => ?_
  exact (declareInput hp hdraws shape elementType).mono fun h p' ⟨vars, hinputs⟩ =>
    ⟨shape, array, vars, hshape, hinputs⟩

theorem inputNamed (hp : p.WellFormed) (name : String) (extents : List Extent) (elementType : ElementType) :
    Outcome p (Build.inputNamed name extents elementType) p fun h p' => ∃ shape vars,
      Shape.ofExtents extents = .ok shape ∧ p.Inputs name shape elementType vars h p' := by
  refine bind (shapeOf (.refl p) fun shape hshape => bind (requireOpen (fun _ => .refl p) fun _ => bind ?_))
  refine reserve (.refl p) fun names hdraws => ?_
  exact (declareInput hp hdraws shape elementType).mono fun h p' ⟨vars, hinputs⟩ => ⟨shape, vars, hshape, hinputs⟩

theorem vars_prefixSumDomain (i j : String) (extent : Extent) : (prefixSumDomain i j extent).vars = [i, j] := by
  simp [prefixSumDomain, Domain.unconstrained]

theorem prefixSumGrowth_fits {names : NameSupply} {i j array t rule : String} (hp : p.WellFormed)
    (ha : p.Live a) (hall : p.names.Draws names ([i] ++ [j] ++ [array] ++ [t] ++ [rule])) (extent : Extent) :
    (prefixSumGrowth names a extent array i j t rule (p.callOf a.rule [.var j])).Fits p
      ([i] ++ [j] ++ [array] ++ [t] ++ [rule]) := by
  have hij : i ≠ j := (List.nodup_cons.1 hall.nodup).1 ∘ fun h => by simp [h]
  have howned : ∀ v ∈ [i, j], Owned (p.domains ++ [prefixSumDomain i j extent]) v :=
    fun v hv => ⟨prefixSumDomain i j extent, by simp, by rwa [vars_prefixSumDomain]⟩
  refine ⟨hall, ?_, ?_, by simp [prefixSumGrowth, arrayNames], by simp [prefixSumGrowth, arrayNames], ?_, ?_,
    by simp [prefixSumGrowth], ?_, by simp [prefixSumGrowth]⟩
  · simpa [prefixSumGrowth, vars_prefixSumDomain] using hij
  · intro v hv
    have hv : v = i ∨ v = j := by simpa [prefixSumGrowth, vars_prefixSumDomain] using hv
    simp only [List.append_assoc, List.mem_append, List.mem_singleton]
    exact hv.elim .inl fun hvj => .inr (.inl hvj)
  · intro s hs
    obtain rfl := List.mem_singleton.1 hs
    refine ⟨⟨array, [.var i], rfl, by simp [prefixSumGrowth, arrayNames], trivial, trivial⟩, ⟨?_, ?_⟩, ?_⟩
    · intro v hv
      exact howned v (by simp [List.mem_singleton.1 hv])
    · exact within_callOf_live ha (Expr.withinAll_vars [j])
    · intro v hv
      exact howned v (by simp [List.mem_singleton.1 hv])
  · intro r hr
    obtain rfl : (⟨rule, [t], .load array [.var t]⟩ : Rule) = r := Option.some.inj hr
    exact ⟨by simp, by simp [prefixSumGrowth, arrayNames], trivial, trivial⟩
  · intro b hb
    obtain rfl : b = (rule, array) := by simpa [prefixSumGrowth] using hb
    exact ⟨by simp [prefixSumGrowth, arrayNames], by simp [prefixSumGrowth, ruleNames],
      not_mem_backed_of_draws hp hall (by simp)⟩

theorem prefixSums (hp : p.WellFormed) (ha : a.plan = p.id → p.Live a) :
    Outcome p (Build.prefixSums a) p fun h p' => ∃ extent array i j t, p.Accumulates a extent array i j t h p' := by
  refine bind (requireOwn (.refl p) fun hown => ?_)
  have ha := ha hown
  split
  · rename_i extent hextents
    refine bind (requireOpen (fun _ => .refl p) fun _ => bind (fresh fun i names₁ hi => bind ?_))
    refine fresh fun j names₂ hj => bind (fresh fun array names₃ harray => bind ?_)
    have htakes : p.Takes a.rule [j].length := by
      have := ha.takes
      rwa [Handle.rank, Shape.rank, hextents] at this
    refine invokeAt htakes ?_
    apply bind
    apply enqueue
    apply bind
    apply addDomain
    apply bind
    apply declare
    apply bind
    refine fresh fun t names₄ ht => bind (define ?_ fun rule names₅ hrule => bind (back (handle ?_)))
    · intro r hr
      have htaken := hp.rules_taken r.name (List.mem_map_of_mem hr)
      exact ht.taken_mono (harray.taken_mono (hj.taken_mono (hi.taken_mono htaken)))
    have hall : p.names.Draws names₅ ([i] ++ [j] ++ [array] ++ [t] ++ [rule]) :=
      (((hi.trans hj).trans harray).trans ht).trans hrule
    refine ⟨extent, array, i, j, t, ha, hextents, prefixSumGrowth_fits hp ha hall extent, ?_, rfl⟩
    have hnew : rule ∉ p.backing.entries.map Prod.fst := not_mem_backed_of_draws hp hall (by simp)
    have hinsert := BackingTable.insert_of_not_mem hnew
    have hvars : (prefixSumDomain i j extent).vars.isEmpty = false := by
      rw [vars_prefixSumDomain]
      rfl
    simp only [hinsert, hvars, Bool.false_eq_true, if_false]
    rfl
  · exact throw (.refl p)

end Build.Outcome

def Plan.Writable (p : Plan) : Index Handle → Extent → Prop
  | .gather positions, _ => p.Live positions ∧ positions.rank = 1 ∧ positions.elementType.isInteger = true
  | entry, extent => entry.Readable extent

def writtenAxes : List (Index Handle) → List Extent → List WriteAxis
  | .at position :: index, _ :: extents => .at position :: writtenAxes index extents
  | .gather positions :: index, _ :: extents => .gather positions :: writtenAxes index extents
  | _ :: index, extent :: extents => .along extent :: writtenAxes index extents
  | _, _ => []

/-- The value of a write after its check: a literal is converted, an array fits the region. -/
inductive Plan.Stored (p : Plan) (elementType : ElementType) (region : List Extent) :
    Operand Handle → Operand Handle → Prop where
  | literal {value v : Literal} (hcast : value.cast elementType = .ok v) :
      p.Stored elementType region (.literal value) (.literal v)
  | array {value : Handle} (hlive : p.Live value)
      (hfit : value.shape = .unit ∨ (region ≠ [] ∧ value.shape.extents = region)) :
      p.Stored elementType region (.array value) (.array value)

def Plan.targetArgs (p : Plan) : List WriteAxis → List String → List Expr
  | .at position :: axes, vars => .int (Word.signed position) :: p.targetArgs axes vars
  | .along _ :: axes, var :: vars => .var var :: p.targetArgs axes vars
  | .gather positions :: axes, var :: vars => p.callOf positions.rule [.var var] :: p.targetArgs axes vars
  | _, _ => []

def Plan.storedValue (p : Plan) (vars : List String) : Operand Handle → Expr
  | .literal value => value.toExpr
  | .array value =>
    if value.shape.isUnit || vars.isEmpty then p.callAtOrigin value.rule
    else p.callOf value.rule (vars.map .var)

def regionDomains (vars : List String) (region : List Extent) : List Domain :=
  if vars.isEmpty then [] else [.box (vars.zip region)]

def Plan.storeOf (p : Plan) (array : String) (axes : List WriteAxis) (value : Operand Handle)
    (vars : List String) : Statement :=
  ⟨.load array (p.targetArgs axes vars), p.storedValue vars value, vars⟩

def Plan.copyOf (p : Plan) (h : Handle) (array : String) (vars : List String) : Statement :=
  ⟨.load array (vars.map .var), p.callOf h.rule (vars.map .var), vars⟩

def Plan.againGrowth (p : Plan) (names : NameSupply) (array : String) (axes : List WriteAxis)
    (value : Operand Handle) (vars : List String) : Growth :=
  ⟨names, regionDomains vars (WriteAxis.region axes), [], [p.storeOf array axes value vars], none, []⟩

def Plan.firstGrowth (p : Plan) (names : NameSupply) (h : Handle) (array : String) (axes : List WriteAxis)
    (value : Operand Handle) (copyVars vars params : List String) (rule : String) : Growth :=
  ⟨names, .box (copyVars.zip h.shape.extents) :: regionDomains vars (WriteAxis.region axes),
    [⟨array, h.shape, h.elementType, .temporary⟩],
    [p.copyOf h array copyVars, p.storeOf array axes value vars],
    some ⟨rule, params, .load array (params.map .var)⟩, [(rule, array), (h.rule, array)]⟩

/-- A write that passed its checks. -/
structure Plan.Request (p : Plan) (h : Handle) (index : List (Index Handle)) (value : Operand Handle)
    (axes : List WriteAxis) (v : Operand Handle) : Prop where
  live : p.Live h
  count : index.length = h.rank
  entries : ∀ e ∈ index.zip h.shape.extents, p.Writable e.1 e.2
  addressed : axes = writtenAxes index h.shape.extents
  value : p.Stored h.elementType (WriteAxis.region axes) value v

/-- What a write did to the plan. -/
inductive Plan.Writes (p : Plan) (h : Handle) (index : List (Index Handle)) (value : Operand Handle)
    (h' : Handle) (p' : Plan) : Prop where
  | again (array : String) (axes : List WriteAxis) (v : Operand Handle) (vars : List String)
      (hrequest : p.Request h index value axes v) (hbacked : p.backing.array? h.rule = some array)
      (hlen : vars.length = (WriteAxis.region axes).length)
      (hfits : (p.againGrowth p'.names array axes v vars).Fits p vars)
      (hgrown : p' = p.grow (p.againGrowth p'.names array axes v vars))
      (hhandle : h' = h)
  | first (array : String) (axes : List WriteAxis) (v : Operand Handle) (copyVars vars params : List String)
      (hrequest : p.Request h index value axes v) (hbacked : p.backing.array? h.rule = none)
      (hcopy : copyVars.length = h.rank) (hlen : vars.length = (WriteAxis.region axes).length)
      (hparams : params.length = h.rank)
      (hfits : (p.firstGrowth p'.names h array axes v copyVars vars params h'.rule).Fits p
        ([array] ++ copyVars ++ vars ++ params ++ [h'.rule]))
      (hgrown : p' = p.grow (p.firstGrowth p'.names h array axes v copyVars vars params h'.rule))
      (hhandle : h' = { h with rule := h'.rule })

theorem WriteAxis.isSome_extent?_gather (positions : Handle) : (gather positions).extent?.isSome = true := by
  rw [extent?, List.head?_eq_some_head positions.shape.extents_ne_nil]
  rfl

theorem WriteAxis.exists_cons {axis : WriteAxis} {axes : List WriteAxis} {vars : List String}
    (haxis : axis.extent?.isSome = true) (hlen : vars.length = (region (axis :: axes)).length) :
    ∃ var rest, vars = var :: rest ∧ rest.length = (region axes).length := by
  obtain ⟨extent, hextent⟩ := Option.isSome_iff_exists.1 haxis
  rw [region, List.filterMap_cons_some hextent] at hlen
  obtain ⟨var, rest, rfl⟩ := List.exists_cons_of_length_eq_add_one hlen
  exact ⟨var, rest, rfl, Nat.succ.inj hlen⟩

theorem Plan.targetArgs_congr {p q : Plan} (h : q.rules = p.rules) (axes : List WriteAxis) (vars : List String) :
    q.targetArgs axes vars = p.targetArgs axes vars := by
  induction axes generalizing vars with
  | nil => rfl
  | cons axis axes ih =>
    cases axis with
    | «at» position => simp only [targetArgs, ih]
    | _ => cases vars <;> simp only [targetArgs, ih, callOf, h]

theorem Plan.storedValue_congr {p q : Plan} (h : q.rules = p.rules) (vars : List String) (v : Operand Handle) :
    q.storedValue vars v = p.storedValue vars v := by
  cases v <;> simp only [storedValue, callOf, callAtOrigin, h]

section Within

variable {p : Plan} {index : List (Index Handle)} {extents : List Extent} {arrays owned : String → Prop}

theorem gathers_live (hentries : ∀ e ∈ index.zip extents, p.Writable e.1 e.2) {positions : Handle}
    (hpositions : .gather positions ∈ writtenAxes index extents) :
    p.Live positions ∧ positions.rank = 1 ∧ positions.elementType.isInteger = true := by
  induction index generalizing extents with
  | nil => cases hpositions
  | cons entry index ih =>
    cases extents with
    | nil => cases entry <;> cases hpositions
    | cons extent extents =>
      have htail := @ih extents fun e he => hentries e (List.mem_cons_of_mem _ he)
      have hhead := hentries (entry, extent) List.mem_cons_self
      cases entry with
      | gather g =>
        rcases List.mem_cons.1 hpositions with heq | hpositions
        · cases heq
          exact hhead
        · exact htail hpositions
      | _ =>
        rcases List.mem_cons.1 hpositions with heq | hpositions
        · cases heq
        · exact htail hpositions

theorem inScopeAll_targetArgs {axes : List WriteAxis} {vars : List String} {ranked : String → Nat → Prop}
    {bounded given : String → Prop}
    (hgathers : ∀ positions, .gather positions ∈ axes → p.Takes positions.rule 1) (h : ∀ v ∈ vars, given v) :
    Expr.InScopeAll (RuleTakes p.rules.rules) ranked bounded given (p.targetArgs axes vars) := by
  induction axes generalizing vars with
  | nil => exact trivial
  | cons axis axes ih =>
    have htail := fun vars => @ih vars fun positions hpositions =>
      hgathers positions (List.mem_cons_of_mem _ hpositions)
    cases axis with
    | «at» position => exact ⟨trivial, htail vars h⟩
    | along extent =>
      cases vars with
      | nil => exact trivial
      | cons var vars => exact ⟨h var List.mem_cons_self, htail vars fun w hw => h w (List.mem_cons_of_mem _ hw)⟩
    | gather positions =>
      cases vars with
      | nil => exact trivial
      | cons var vars =>
        refine ⟨inScope_callOf (hgathers positions List.mem_cons_self) ⟨h var List.mem_cons_self, trivial⟩, ?_⟩
        exact htail vars fun w hw => h w (List.mem_cons_of_mem _ hw)

theorem within_storedValue {elementType : ElementType} {region : List Extent} {value v : Operand Handle}
    (hstored : p.Stored elementType region value v) (vars : List String) :
    (p.storedValue vars v).Within (· ∈ ruleNames p.rules.rules) arrays owned := by
  cases hstored with
  | literal hcast => exact within_toExpr _
  | array hlive hfit =>
    simp only [Plan.storedValue]
    split
    · exact within_callAtOrigin_live hlive
    · exact within_callOf_live hlive (Expr.withinAll_vars vars)

end Within

namespace Build.Outcome

variable {start p : Plan}

theorem requirePositions {positions : Handle} {Q : Unit → Plan → Prop} (hstart : start.OnlyDraws p)
    (hlive : positions.plan = p.id → p.Live positions)
    (h : p.Live positions → positions.rank = 1 → positions.elementType.isInteger = true → Q () p) :
    Outcome start (Build.requirePositions positions) p Q := by
  refine bind (requireOwn hstart fun hown => ?_)
  dsimp only
  split
  · exact bind (throw hstart)
  · rename_i hrank
    cases hinteger : positions.elementType.isInteger with
    | false => exact throw hstart
    | true => exact pure (h (hlive hown) (Decidable.not_not.1 hrank) hinteger)

theorem writeAxes (axis : Nat) (index : List (Index Handle)) (extents : List Extent)
    (hlen : index.length = extents.length) (hstart : start.OnlyDraws p)
    (hlive : ∀ positions, .gather positions ∈ index → positions.plan = p.id → p.Live positions) :
    Outcome start (Build.writeAxes axis index extents) p fun axes p' =>
      p' = p ∧ axes = writtenAxes index extents ∧ ∀ e ∈ index.zip extents, p.Writable e.1 e.2 := by
  induction index generalizing axis extents with
  | nil =>
    cases extents with
    | cons _ _ => cases hlen
    | nil => exact pure ⟨rfl, rfl, by simp⟩
  | cons entry index ih =>
    cases extents with
    | nil => cases hlen
    | cons extent extents =>
      have hrest := ih (axis + 1) extents (Nat.succ.inj hlen)
        fun positions hpositions => hlive positions (List.mem_cons_of_mem _ hpositions)
      have hcons : ∀ {first : WriteAxis}, p.Writable entry extent →
          writtenAxes (entry :: index) (extent :: extents) = first :: writtenAxes index extents →
          Outcome start (do
            let rest ← Build.writeAxes (axis + 1) index extents
            return first :: rest) p fun axes p' => p' = p ∧
              axes = writtenAxes (entry :: index) (extent :: extents) ∧
              ∀ e ∈ (entry :: index).zip (extent :: extents), p.Writable e.1 e.2 := by
        intro first hfirst haxes
        refine bind (hrest.mono ?_)
        rintro axes _ ⟨rfl, rfl, hall⟩
        refine pure ⟨rfl, haxes.symm, fun e he => ?_⟩
        rcases List.mem_cons.1 (List.zip_cons_cons ▸ he) with rfl | he
        · exact hfirst
        · exact hall e he
      unfold Build.writeAxes
      cases entry with
      | «at» position =>
        exact bind (requirePosition hstart fun hpos => bind (pure (hcons hpos rfl)))
      | gather positions =>
        refine bind (requirePositions hstart (hlive positions List.mem_cons_self) fun hl hrank hinteger => ?_)
        exact bind (pure (hcons ⟨hl, hrank, hinteger⟩ rfl))
      | all => exact bind (pure (hcons rfl rfl))
      | slice first stop step =>
        dsimp only
        split
        · rename_i hcomplete
          exact bind (pure (hcons hcomplete rfl))
        · exact bind (throw hstart)

theorem writeValue {elementType : ElementType} {region : List Extent} (value : Operand Handle)
    (hstart : start.OnlyDraws p) (hlive : ∀ a, value = .array a → a.plan = p.id → p.Live a) :
    Outcome start (Build.writeValue elementType region value) p fun v p' =>
      p' = p ∧ p.Stored elementType region value v := by
  cases value with
  | literal value =>
    exact bind (ofExcept hstart fun v hv => pure ⟨rfl, .literal hv⟩)
  | array value =>
    refine bind (requireOwn hstart fun hown => bind ?_)
    unfold requireFit
    split
    · rename_i hfit
      refine pure (pure ⟨rfl, .array (hlive value rfl hown) ?_⟩)
      simpa [Shape.isUnit, List.isEmpty_iff] using hfit
    · exact throw hstart

theorem targetIndex {axes : List WriteAxis} {vars : List String}
    (hlen : vars.length = (WriteAxis.region axes).length)
    (hgathers : ∀ positions, .gather positions ∈ axes → p.Takes positions.rule 1) :
    Outcome start (Build.targetIndex axes vars) p fun index p' => p' = p ∧ index = p.targetArgs axes vars := by
  induction axes generalizing vars with
  | nil => exact pure ⟨rfl, rfl⟩
  | cons axis axes ih =>
    have hrest := fun {vars} hlen => @ih vars hlen fun positions hpositions =>
      hgathers positions (List.mem_cons_of_mem _ hpositions)
    cases axis with
    | «at» position =>
      refine bind ((hrest hlen).mono ?_)
      rintro rest _ ⟨rfl, rfl⟩
      exact pure ⟨rfl, rfl⟩
    | along extent =>
      obtain ⟨var, vars, rfl, hrestLen⟩ := WriteAxis.exists_cons rfl hlen
      refine bind ((hrest hrestLen).mono ?_)
      rintro rest _ ⟨rfl, rfl⟩
      exact pure ⟨rfl, rfl⟩
    | gather positions =>
      obtain ⟨var, vars, rfl, hrestLen⟩ := WriteAxis.exists_cons (WriteAxis.isSome_extent?_gather positions) hlen
      refine bind (@invokeAt _ _ _ [var] _ (hgathers positions List.mem_cons_self) ?_)
      refine bind ((hrest hrestLen).mono ?_)
      rintro rest _ ⟨rfl, rfl⟩
      exact pure ⟨rfl, rfl⟩

theorem valueAt {vars : List String} {v : Operand Handle}
    (htakes : ∀ a, v = .array a → p.Takes a.rule a.rank ∧
      (a.shape = .unit ∨ (vars ≠ [] ∧ vars.length = a.rank))) :
    Outcome start (Build.valueAt vars v) p fun e p' => p' = p ∧ e = p.storedValue vars v := by
  cases v with
  | literal value => exact pure ⟨rfl, rfl⟩
  | array a =>
    obtain ⟨htakes, hfit⟩ := htakes a rfl
    simp only [Build.valueAt, Plan.storedValue]
    split
    · exact invokeAtOrigin htakes ⟨rfl, rfl⟩
    · rename_i hcond
      have hlen : vars.length = a.rank := by
        rcases hfit with hunit | ⟨_, hlen⟩
        · simp [Shape.isUnit, hunit] at hcond
        · exact hlen
      exact invokeAt (hlen ▸ htakes) ⟨rfl, rfl⟩

theorem allocate {h : Handle} (hlive : p.Live h) :
    Outcome start (Build.allocate h) p fun array p' => ∃ copyVars names, copyVars.length = h.rank ∧
      p.names.Draws names ([array] ++ copyVars) ∧ p' = { p with
        names
        pending := p.pending ++ [(p.rules.size, p.copyOf h array copyVars)]
        domains := p.domains ++ [.box (copyVars.zip h.shape.extents)]
        arrays := p.arrays ++ [⟨array, h.shape, h.elementType, .temporary⟩] } := by
  refine bind (fresh fun array names₁ harray => bind (freshIndices fun vars names₂ hlen hvars => bind ?_))
  refine invokeAt (hlen ▸ hlive.takes) (bind (enqueue (bind (addDomain (bind (declare (pure ?_)))))))
  refine ⟨vars, names₂, hlen, harray.trans hvars, ?_⟩
  have hbox : (Domain.box (vars.zip h.shape.extents)).vars.isEmpty = false := by
    rw [Domain.vars_box, List.map_fst_zip (Nat.le_of_eq hlen)]
    have hpos := h.shape.rank_pos
    cases vars with
    | nil => simp only [List.length_nil, Handle.rank] at hlen; omega
    | cons _ _ => rfl
  simp only [hbox, Bool.false_eq_true, if_false]
  rfl

theorem enqueueStore {array : String} {axes : List WriteAxis} {v : Operand Handle}
    (hgathers : ∀ positions, .gather positions ∈ axes → p.Takes positions.rule 1)
    (htakes : ∀ a, v = .array a → p.Takes a.rule a.rank ∧
      (a.shape = .unit ∨ (WriteAxis.region axes ≠ [] ∧ a.shape.extents = WriteAxis.region axes))) :
    Outcome start (Build.enqueueStore array axes v) p fun _ p' => ∃ vars names,
      vars.length = (WriteAxis.region axes).length ∧ p.names.Draws names vars ∧ p' = { p with
        names
        pending := p.pending ++ [(p.rules.size, p.storeOf array axes v vars)]
        domains := p.domains ++ regionDomains vars (WriteAxis.region axes) } := by
  refine bind (freshIndices fun vars names hlen hvars => bind (addDomain ?_))
  have hbox : (Domain.box (vars.zip (WriteAxis.region axes))).vars = vars := by
    rw [Domain.vars_box, List.map_fst_zip (Nat.le_of_eq hlen)]
  rw [hbox]
  generalize hq : ({ p with names, domains := p.domains ++ _ } : Plan) = q
  have hrules : q.rules = p.rules := by rw [← hq]
  refine bind ((targetIndex hlen fun positions hpositions => ?_).mono ?_)
  · obtain ⟨r, hr, harity⟩ := hgathers positions hpositions
    exact ⟨r, hrules ▸ hr, harity⟩
  rintro index _ ⟨rfl, rfl⟩
  refine bind ((@valueAt _ _ vars v fun a ha => ?_).mono ?_)
  · obtain ⟨⟨r, hr, harity⟩, hfit⟩ := htakes a ha
    refine ⟨⟨r, hrules ▸ hr, harity⟩, hfit.imp id fun ⟨hne, hextents⟩ => ⟨?_, ?_⟩⟩
    · intro hnil
      rw [hnil] at hlen
      exact hne (List.length_eq_zero_iff.1 hlen.symm)
    · rw [hlen, ← hextents]
      rfl
  · rintro e _ ⟨rfl, rfl⟩
    refine enqueue ⟨vars, names, hlen, hvars, ?_⟩
    rw [Plan.targetArgs_congr hrules, Plan.storedValue_congr hrules, hrules, ← hq]
    rfl

end Build.Outcome

section Fits

variable {p : Plan} {h : Handle} {index : List (Index Handle)} {value v : Operand Handle} {axes : List WriteAxis}
  {array : String} {vars : List String}

theorem vars_regionDomains (hlen : vars.length = (WriteAxis.region axes).length) :
    (regionDomains vars (WriteAxis.region axes)).flatMap Domain.vars = vars := by
  unfold regionDomains
  cases vars with
  | nil => rfl
  | cons v vars =>
    rw [List.isEmpty_cons, if_neg Bool.false_ne_true, List.flatMap_singleton, Domain.vars_box,
      List.map_fst_zip (Nat.le_of_eq hlen)]

theorem owned_regionDomains (hlen : vars.length = (WriteAxis.region axes).length) {var : String}
    (hvar : var ∈ vars) : Owned (regionDomains vars (WriteAxis.region axes)) var := by
  rw [← vars_regionDomains hlen] at hvar
  obtain ⟨d, hd, hv⟩ := List.mem_flatMap.1 hvar
  exact ⟨d, hd, hv⟩

theorem Plan.Request.gathers_live (hrequest : p.Request h index value axes v) {positions : Handle}
    (hpositions : .gather positions ∈ axes) :
    p.Live positions ∧ positions.rank = 1 ∧ positions.elementType.isInteger = true := by
  rw [hrequest.addressed] at hpositions
  exact ArrayPlan.gathers_live hrequest.entries hpositions

theorem Plan.Request.gathers_take (hrequest : p.Request h index value axes v) :
    ∀ positions, .gather positions ∈ axes → p.Takes positions.rule 1 := by
  intro positions hpositions
  obtain ⟨hlive, hrank, _⟩ := hrequest.gathers_live hpositions
  exact hrank ▸ hlive.takes

theorem Plan.Request.value_takes (hrequest : p.Request h index value axes v) :
    ∀ a, v = .array a → p.Takes a.rule a.rank ∧
      (a.shape = .unit ∨ (WriteAxis.region axes ≠ [] ∧ a.shape.extents = WriteAxis.region axes)) := by
  rintro a rfl
  cases hrequest.value with
  | array hlive hfit => exact ⟨hlive.takes, hfit⟩

theorem storeOf_scoped (hrequest : p.Request h index value axes v) {arrays owned : String → Prop}
    (harray : arrays array) (hvars : ∀ var ∈ vars, owned var) :
    (p.storeOf array axes v vars).Scoped (· ∈ ruleNames p.rules.rules) arrays owned where
  target := by
    refine ⟨array, _, rfl, harray, ?_⟩
    exact (inScopeAll_targetArgs hrequest.gathers_take fun _ _ => trivial).within RuleTakes.mem (fun _ _ => id) (fun _ => id)
  value := within_storedValue hrequest.value vars
  vars := hvars

theorem againGrowth_fits (hrequest : p.Request h index value axes v) (harray : array ∈ arrayNames p.arrays)
    (hlen : vars.length = (WriteAxis.region axes).length) {names : NameSupply} (hdraws : p.names.Draws names vars) :
    (p.againGrowth names array axes v vars).Fits p vars where
  draws := hdraws
  domains_nodup := by
    rw [Plan.againGrowth, vars_regionDomains hlen]
    exact hdraws.nodup
  domains := by
    rw [Plan.againGrowth, vars_regionDomains hlen]
    exact fun _ hv => hv
  arrays_nodup := .nil
  arrays := by simp [Plan.againGrowth, arrayNames]
  statements s hs := by
    obtain rfl := List.mem_singleton.1 hs
    refine storeOf_scoped hrequest (by simpa [Plan.againGrowth] using harray) fun var hvar => ?_
    obtain ⟨d, hd, hv⟩ := owned_regionDomains hlen hvar
    exact ⟨d, List.mem_append_right _ hd, hv⟩
  rule r hr := by cases hr
  backed_nodup := .nil
  backed := by simp [Plan.againGrowth]
  visible := by simp [Plan.againGrowth]

theorem firstGrowth_fits (hp : p.WellFormed) (hrequest : p.Request h index value axes v)
    (hbacked : p.backing.array? h.rule = none) {copyVars params : List String} {rule : String}
    (hcopy : copyVars.length = h.rank) (hlen : vars.length = (WriteAxis.region axes).length) {names : NameSupply}
    (hdraws : p.names.Draws names ([array] ++ copyVars ++ vars ++ params ++ [rule])) :
    (p.firstGrowth names h array axes v copyVars vars params rule).Fits p
      ([array] ++ copyVars ++ vars ++ params ++ [rule]) := by
  have hbox : (Domain.box (copyVars.zip h.shape.extents)).vars = copyVars := by
    rw [Domain.vars_box, List.map_fst_zip (Nat.le_of_eq hcopy)]
  have hdomains : (p.firstGrowth names h array axes v copyVars vars params rule).domains.flatMap Domain.vars =
      copyVars ++ vars := by
    rw [Plan.firstGrowth, List.flatMap_cons, hbox, vars_regionDomains hlen]
  have hnodup := hdraws.nodup
  have howned : ∀ var ∈ copyVars ++ vars, Owned (p.domains ++
      (p.firstGrowth names h array axes v copyVars vars params rule).domains) var := by
    intro var hvar
    rw [← hdomains] at hvar
    obtain ⟨d, hd, hv⟩ := List.mem_flatMap.1 hvar
    exact ⟨d, List.mem_append_right _ hd, hv⟩
  refine ⟨hdraws, ?_, ?_, by simp [Plan.firstGrowth, arrayNames], by simp [Plan.firstGrowth, arrayNames],
    ?_, ?_, ?_, ?_, by simp [Plan.firstGrowth]⟩
  · rw [hdomains]
    rw [List.append_assoc, List.append_assoc, List.append_assoc] at hnodup
    have htail := (List.nodup_append.1 hnodup).2.1
    rw [← List.append_assoc] at htail
    exact (List.nodup_append.1 htail).1
  · intro var hvar
    rw [hdomains] at hvar
    simp only [List.append_assoc, List.mem_append] at hvar ⊢
    exact .inr (hvar.elim .inl fun hv => .inr (.inl hv))
  · have harray : array ∈ arrayNames (p.arrays ++
        (p.firstGrowth names h array axes v copyVars vars params rule).arrays) := by
      simp [Plan.firstGrowth, arrayNames]
    intro s hs
    rcases List.mem_cons.1 hs with rfl | hs
    · exact ⟨⟨array, _, rfl, harray, Expr.withinAll_vars copyVars⟩,
        within_callOf_live hrequest.live (Expr.withinAll_vars copyVars),
        fun var hvar => howned var (List.mem_append_left _ hvar)⟩
    · obtain rfl := List.mem_singleton.1 hs
      exact storeOf_scoped hrequest harray fun var hvar => howned var (List.mem_append_right _ hvar)
  · intro r hr
    obtain rfl : (⟨rule, params, .load array (params.map .var)⟩ : Rule) = r := Option.some.inj hr
    exact ⟨by simp, by simp [Plan.firstGrowth, arrayNames], Expr.withinAll_vars params⟩
  · obtain ⟨r, hr, _⟩ := hrequest.live.rule
    have hne : rule ≠ h.rule := hdraws.ne_of_taken (by simp) (hp.rules_taken _ (Plan.mem_ruleNames_of_find? hr))
    simpa [Plan.firstGrowth] using hne
  · obtain ⟨r, hr, _⟩ := hrequest.live.rule
    intro b hb
    have hb : b = (rule, array) ∨ b = (h.rule, array) := by simpa [Plan.firstGrowth] using hb
    refine ⟨?_, ?_, ?_⟩
    · rcases hb with rfl | rfl <;> simp [Plan.firstGrowth, arrayNames]
    · rcases hb with rfl | rfl
      · simp [Plan.firstGrowth, ruleNames]
      · have hmem := Plan.mem_ruleNames_of_find? hr
        simp only [ruleNames, List.map_append] at hmem ⊢
        exact List.mem_append_left _ hmem
    · rcases hb with rfl | rfl
      · exact Build.Outcome.not_mem_backed_of_draws hp hdraws (by simp)
      · exact BackingTable.not_mem_of_array?_eq_none hbacked

end Fits

namespace Build.Outcome

theorem write {p : Plan} {h : Handle} (hp : p.WellFormed) (hlive : h.plan = p.id → p.Live h)
    (index : List (Index Handle)) (value : Operand Handle)
    (hgathers : ∀ positions, .gather positions ∈ index → positions.plan = p.id → p.Live positions)
    (hvalue : ∀ a, value = .array a → a.plan = p.id → p.Live a) :
    Outcome p (Build.write h index value) p (p.Writes h index value) := by
  refine bind (requireOwn (.refl p) fun hown => bind ?_)
  have hlive := hlive hown
  unfold requireIndexCount
  split
  · rename_i hcount
    refine pure (bind ((writeAxes 0 index h.shape.extents hcount (.refl p) hgathers).mono ?_))
    rintro axes p ⟨rfl, haxes, hentries⟩
    refine bind ((writeValue value (.refl _) hvalue).mono ?_)
    rintro v p ⟨rfl, hstored⟩
    refine bind (requireOpen (fun _ => .refl _) fun _ => bind (get ?_))
    have hrequest : p.Request h index value axes v := ⟨hlive, hcount, hentries, haxes, hstored⟩
    cases hbacked : p.backing.array? h.rule with
    | some array =>
      refine bind ((enqueueStore hrequest.gathers_take hrequest.value_takes).mono ?_)
      rintro _ _ ⟨vars, names, hlen, hdraws, rfl⟩
      refine pure ?_
      have harray : array ∈ arrayNames p.arrays := by
        obtain ⟨e, he, rfl⟩ := Option.map_eq_some_iff.1 hbacked
        obtain ⟨before, after, hsplit, _⟩ := List.lookup_eq_some_iff.1 he
        exact (hp.backed (h.rule, e) (by simp [hsplit])).2.1
      refine .again array axes v vars hrequest hbacked hlen (againGrowth_fits hrequest harray hlen hdraws) ?_ rfl
      simp [Plan.grow, Plan.againGrowth]
    | none =>
      refine bind ((allocate hlive).mono ?_)
      rintro array q₁ ⟨copyVars, names₁, hcopy, hdraws₁, hq₁⟩
      have hrules₁ : q₁.rules = p.rules := by rw [hq₁]
      have htakes₁ : ∀ {rule count}, p.Takes rule count → q₁.Takes rule count := by
        rintro rule count ⟨r, hr, harity⟩
        exact ⟨r, hrules₁ ▸ hr, harity⟩
      refine bind ((enqueueStore (fun positions hpositions => htakes₁ (hrequest.gathers_take positions hpositions))
        fun a ha => (hrequest.value_takes a ha).imp htakes₁ id).mono ?_)
      rintro _ q₂ ⟨vars, names₂, hlen, hdraws₂, hq₂⟩
      have hrules₂ : q₂.rules = p.rules := by rw [hq₂, hrules₁]
      have hnames₁ : q₁.names = names₁ := by rw [hq₁]
      have hnames₂ : q₂.names = names₂ := by rw [hq₂]
      refine bind (freshIndices fun params names₃ hparams hdraws₃ => bind (define ?_ fun rule names₄ hrule => ?_))
      · intro r hr
        have htaken := hp.rules_taken r.name (List.mem_map_of_mem (hrules₂ ▸ hr))
        refine hdraws₃.taken_mono ?_
        rw [hnames₂]
        refine hdraws₂.taken_mono ?_
        rw [hnames₁]
        exact hdraws₁.taken_mono htaken
      have hall : p.names.Draws names₄ ([array] ++ copyVars ++ vars ++ params ++ [rule]) := by
        rw [hnames₁] at hdraws₂
        rw [hnames₂] at hdraws₃
        exact ((hdraws₁.trans hdraws₂).trans hdraws₃).trans hrule
      have hfits := firstGrowth_fits hp hrequest hbacked hcopy hlen hall
      refine bind (back (bind (back (pure ?_))))
      refine .first array axes v copyVars vars params hrequest hbacked hcopy hlen hparams hfits ?_ rfl
      have hrule_fresh := (hfits.backed (rule, array) List.mem_cons_self).2.2
      have hkey_fresh := BackingTable.not_mem_of_array?_eq_none hbacked
      have hkey_ne : h.rule ≠ rule := by
        have := hfits.backed_nodup
        simpa [Plan.firstGrowth, eq_comm] using this
      have hbacking : ∀ visibleFrom, (p.backing.insert rule array visibleFrom).insert h.rule array visibleFrom =
          ⟨p.backing.entries ++ [(rule, ⟨array, visibleFrom⟩), (h.rule, ⟨array, visibleFrom⟩)]⟩ := by
        intro visibleFrom
        rw [BackingTable.insert_of_not_mem hrule_fresh, BackingTable.insert_of_not_mem]
        · simp
        · simpa [hkey_ne] using hkey_fresh
      have hstore : q₁.storeOf array axes v vars = p.storeOf array axes v vars := by
        rw [Plan.storeOf, Plan.targetArgs_congr hrules₁, Plan.storedValue_congr hrules₁]
        rfl
      rw [hstore] at hq₂
      subst hq₂ hq₁
      simp only [hbacking]
      simp [Plan.grow, Plan.firstGrowth, RuleLog.size]
  · exact throw (.refl p)

end Build.Outcome

end ArrayPlan
