import ArrayPlan.Proofs.Causality
import ArrayPlan.Proofs.Scoping

/-!
Integrity of plans. Whatever operations were carried out or refused, rules and statements are in scope: they
call earlier rules with the right number of arguments, index declared arrays by their axes, mention no other
variables than their own, and sum over bounded ones. The handles of a plan name different rules, and the array
of a handle is declared with the shape and element type of the handle.
-/

namespace ArrayPlan

/-- An array of that name is declared with so many axes. -/
def Ranked (arrays : List Declaration) (array : String) (count : Nat) : Prop :=
  ∃ d ∈ arrays, d.name = array ∧ d.shape.rank = count

theorem RuleTakes.mono {rules rules' : List Rule} (h : ∀ r ∈ rules, r ∈ rules') {rule : String} {count : Nat}
    (htakes : RuleTakes rules rule count) : RuleTakes rules' rule count := by
  obtain ⟨r, hr, hrest⟩ := htakes
  exact ⟨r, h r hr, hrest⟩

theorem Ranked.mono {arrays arrays' : List Declaration} (h : ∀ d ∈ arrays, d ∈ arrays') {array : String} {count : Nat}
    (hranked : Ranked arrays array count) : Ranked arrays' array count := by
  obtain ⟨d, hd, hrest⟩ := hranked
  exact ⟨d, h d hd, hrest⟩

theorem Owned.mono {domains domains' : List Domain} (h : ∀ d ∈ domains, d ∈ domains') {v : String}
    (howned : Owned domains v) : Owned domains' v := by
  obtain ⟨d, hd, hv⟩ := howned
  exact ⟨d, h d hd, hv⟩

structure Statement.InScope (s : Statement) (rules : List Rule) (arrays : List Declaration)
    (domains : List Domain) : Prop where
  target : s.target.InScope (RuleTakes rules) (Ranked arrays) (Owned domains) (· ∈ s.within)
  value : s.value.InScope (RuleTakes rules) (Ranked arrays) (Owned domains) (· ∈ s.within)
  within : ∀ v ∈ s.within, Owned domains v

def Rule.InScope (r : Rule) (rules : List Rule) (arrays : List Declaration) (domains : List Domain) : Prop :=
  r.body.InScope (RuleTakes rules) (Ranked arrays) (Owned domains) (· ∈ r.params)

section Mono

variable {rules rules' : List Rule} {arrays arrays' : List Declaration} {domains domains' : List Domain}

theorem Statement.InScope.mono {s : Statement} (h : s.InScope rules arrays domains) (hr : ∀ r ∈ rules, r ∈ rules')
    (ha : ∀ d ∈ arrays, d ∈ arrays') (hd : ∀ d ∈ domains, d ∈ domains') : s.InScope rules' arrays' domains' where
  target := h.target.mono (fun _ _ => .mono hr) (fun _ _ => .mono ha) (fun _ => .mono hd) fun _ hv => hv
  value := h.value.mono (fun _ _ => .mono hr) (fun _ _ => .mono ha) (fun _ => .mono hd) fun _ hv => hv
  within v hv := (h.within v hv).mono hd

theorem Rule.InScope.mono {r : Rule} (h : r.InScope rules arrays domains) (hr : ∀ r ∈ rules, r ∈ rules')
    (ha : ∀ d ∈ arrays, d ∈ arrays') (hd : ∀ d ∈ domains, d ∈ domains') : r.InScope rules' arrays' domains' :=
  Expr.InScope.mono (fun _ _ => .mono hr) (fun _ _ => .mono ha) (fun _ => .mono hd) (fun _ hv => hv) h

end Mono

structure Growth.InScope (g : Growth) (p : Plan) : Prop where
  statements : ∀ s ∈ g.statements, s.InScope p.rules.rules (p.arrays ++ g.arrays) (p.domains ++ g.domains)
  rule : ∀ r, g.rule = some r → r.InScope p.rules.rules (p.arrays ++ g.arrays) (p.domains ++ g.domains)

def Definition.InScope (d : Definition) (p : Plan) : Prop :=
  d.body.InScope (RuleTakes p.rules.rules) (fun _ _ => False) (Owned (p.domains ++ d.domains)) (· ∈ d.params)

namespace Plan

/-- The array of the handle, if it has one, is declared with the handle's shape and element type. -/
def Holds (p : Plan) (h : Handle) : Prop :=
  ∀ array, p.backing.array? h.rule = some array →
    ∃ d ∈ p.arrays, d.name = array ∧ d.shape = h.shape ∧ d.elementType = h.elementType

/-- The plan and its handles as operations keep them. -/
structure Intact (p : Plan) (handles : List Handle) : Prop where
  wellFormed : p.WellFormed
  bodies : ∀ (i : Nat) (r : Rule), p.rules.rules[i]? = some r → r.InScope (p.rules.rules.take i) p.arrays p.domains
  pending : ∀ e ∈ p.pending, e.2.InScope (p.rules.rules.take e.1) p.arrays p.domains
  live : ∀ a ∈ handles, p.Live a
  distinct : ∀ a ∈ handles, ∀ b ∈ handles, a.rule = b.rule → a = b
  holds : ∀ a ∈ handles, p.Holds a

namespace Intact

variable {p p' : Plan} {handles handles' : List Handle} {g : Growth} {issued : List String} {h : Handle}

theorem empty (id : Nat) (settings : Settings) : (Plan.empty id settings).Intact [] where
  wellFormed := empty_wellFormed id settings
  bodies := by simp [Plan.empty, RuleLog.empty]
  pending := by simp [Plan.empty]
  live := by simp
  distinct := by simp
  holds := by simp

theorem mono (hp : p.Intact handles) (hsub : ∀ a ∈ handles', a ∈ handles) : p.Intact handles' where
  wellFormed := hp.wellFormed
  bodies := hp.bodies
  pending := hp.pending
  live a ha := hp.live a (hsub a ha)
  distinct a ha b hb := hp.distinct a (hsub a ha) b (hsub b hb)
  holds a ha := hp.holds a (hsub a ha)

theorem draw (hp : p.Intact handles) (h : p.OnlyDraws p') : p'.Intact handles where
  wellFormed := h.wellFormed hp.wellFormed
  bodies := by rw [h.same]; exact hp.bodies
  pending := by rw [h.same]; exact hp.pending
  live a ha := h.live (hp.live a ha)
  distinct := hp.distinct
  holds := by rw [h.same]; exact hp.holds

theorem grow (hp : p.Intact handles) (hg : g.Fits p issued) (hs : g.InScope p)
    (hbacked : ∀ b ∈ g.backed, ∀ a ∈ handles, a.rule = b.1 →
      ∃ d ∈ p.arrays ++ g.arrays, d.name = b.2 ∧ d.shape = a.shape ∧ d.elementType = a.elementType) :
    (p.grow g).Intact handles where
  wellFormed := hp.wellFormed.grow hg
  bodies i r hr := by
    rcases rule_of_grow hr with ⟨hi, hr⟩ | ⟨rfl, hrule⟩
    · rw [take_grow (Nat.le_of_lt hi)]
      exact (hp.bodies i r hr).mono (fun _ h => h) (fun _ => List.mem_append_left _) fun _ => List.mem_append_left _
    · rw [take_size_grow]
      exact hs.rule r hrule
  pending e he := by
    rcases List.mem_append.1 he with he | he
    · rw [take_grow (hp.wellFormed.pending e he).1]
      exact (hp.pending e he).mono (fun _ h => h) (fun _ => List.mem_append_left _) fun _ => List.mem_append_left _
    · obtain ⟨s, hmem, rfl⟩ := List.mem_map.1 he
      rw [take_size_grow]
      exact hs.statements s hmem
  live a ha := (hp.live a ha).grow g
  distinct := hp.distinct
  holds a ha array harray := by
    have hwf := hp.wellFormed.grow hg
    cases hold : p.backing.array? a.rule with
    | some old =>
      obtain rfl : old = array := Option.some.inj ((extends_grow hg).array? hold ▸ harray)
      obtain ⟨d, hd, hrest⟩ := hp.holds a ha old hold
      exact ⟨d, List.mem_append_left _ hd, hrest⟩
    | none =>
      obtain ⟨entry, hentry, rfl⟩ := Option.map_eq_some_iff.1 harray
      rcases List.mem_append.1 (BackingTable.mem_of_find? hentry) with hmem | hmem
      · exact absurd (List.mem_map_of_mem hmem) (BackingTable.not_mem_of_array?_eq_none hold)
      · obtain ⟨b, hb, heq⟩ := List.mem_map.1 hmem
        obtain ⟨hrule, rfl⟩ := Prod.mk.inj heq
        exact hbacked b hb a ha hrule.symm

theorem insert (hp : p.Intact handles) (hlive : p.Live h) (hnew : ∀ a ∈ handles, a.rule ≠ h.rule) (hheld : p.Holds h) :
    p.Intact (handles ++ [h]) where
  wellFormed := hp.wellFormed
  bodies := hp.bodies
  pending := hp.pending
  live a ha := by
    rcases List.mem_append.1 ha with ha | ha
    · exact hp.live a ha
    · exact List.mem_singleton.1 ha ▸ hlive
  distinct a ha b hb hrule := by
    simp only [List.mem_append, List.mem_singleton] at ha hb
    rcases ha with ha | rfl <;> rcases hb with hb | rfl
    · exact hp.distinct a ha b hb hrule
    · exact absurd hrule (hnew a ha)
    · exact absurd hrule.symm (hnew b hb)
    · rfl
  holds a ha := by
    rcases List.mem_append.1 ha with ha | ha
    · exact hp.holds a ha
    · exact List.mem_singleton.1 ha ▸ hheld

theorem taken (hp : p.Intact handles) {a : Handle} (ha : a ∈ handles) : a.rule ∈ p.names.taken := by
  obtain ⟨r, hr, _⟩ := (hp.live a ha).rule
  exact hp.wellFormed.rules_taken _ (mem_ruleNames_of_find? hr)

end Intact

section Operations

variable {p p' : Plan} {handles : List Handle} {h a b : Handle}

theorem Defines.intact {d : Definition} (hd : p.Defines d h p') (hp : p.Intact handles) (hs : d.InScope p) :
    p'.Intact (handles ++ [h]) := by
  have hunused : h.rule ∉ p.names.taken := hd.draws.unused _ (by simp)
  have hgrown : p'.Intact handles := by
    rw [hd.grown]
    refine hp.grow hd.growth_fits ⟨by simp [Definition.growth], fun r hr => ?_⟩ (by simp [Definition.growth])
    obtain rfl : (⟨h.rule, d.params, d.body⟩ : Rule) = r := Option.some.inj hr
    exact Expr.InScope.mono (fun _ _ h => h) (fun _ _ h => h.elim) (fun _ h => h) (fun _ h => h) hs
  refine hgrown.insert (hd.live hp.wellFormed) (fun a ha hrule => hunused (hrule ▸ hp.taken ha)) fun array harray => ?_
  have hbacking : p'.backing = p.backing := by
    rw [hd.grown]
    simp [grow, Definition.growth]
  rw [hbacking] at harray
  have hmem : h.rule ∉ p.backing.entries.map Prod.fst :=
    Build.Outcome.not_mem_backed_of_draws hp.wellFormed hd.draws (by simp)
  rw [BackingTable.array?, BackingTable.find?_eq_none_iff.2 hmem] at harray
  cases harray

section Calls

variable {ranked : String → Nat → Prop} {bounded given : String → Prop} {vars : List String}

theorem Live.inScope_callOf (ha : p.Live a) {args : List Expr} (hlen : args.length = a.rank)
    (hargs : Expr.InScopeAll (RuleTakes p.rules.rules) ranked bounded given args) :
    (p.callOf a.rule args).InScope (RuleTakes p.rules.rules) ranked bounded given :=
  ArrayPlan.inScope_callOf (hlen ▸ ha.takes) hargs

theorem Live.inScope_element (ha : p.Live a) (hlen : vars.length = a.rank) (hgiven : ∀ v ∈ vars, given v) :
    (p.callOf a.rule (vars.map .var)).InScope (RuleTakes p.rules.rules) ranked bounded given :=
  ha.inScope_callOf (by rw [List.length_map, hlen]) (Expr.inScopeAll_vars hgiven)

end Calls

theorem inScope_loader {d : Declaration} {arrays : List Declaration} (hd : d ∈ arrays) {rules : List Rule}
    {domains : List Domain} {rule : String} (params : List String) (hlen : params.length = d.shape.rank) :
    (Rule.mk rule params (.load d.name (params.map .var))).InScope rules arrays domains :=
  ⟨⟨d, hd, rfl, by rw [List.length_map, hlen]⟩, Expr.inScopeAll_vars fun _ hv => hv⟩

theorem Intact.register {g : Growth} {issued : List String} (hp : p.Intact handles) (hg : g.Fits p issued)
    (hs : g.InScope p) (hissued : h.rule ∈ issued) (hlive : (p.grow g).Live h) {d : Declaration}
    (hd : d ∈ p.arrays ++ g.arrays) (hshape : d.shape = h.shape) (htype : d.elementType = h.elementType)
    (hself : (h.rule, d.name) ∈ g.backed) (hbacked : ∀ b ∈ g.backed, b.2 = d.name)
    (hothers : ∀ b ∈ g.backed, ∀ a ∈ handles, a.rule = b.1 → a.shape = h.shape ∧ a.elementType = h.elementType) :
    (p.grow g).Intact (handles ++ [h]) := by
  have hgrown : (p.grow g).Intact handles := by
    refine hp.grow hg hs fun b hb a ha hrule => ⟨d, hd, (hbacked b hb).symm, ?_⟩
    obtain ⟨hshape', htype'⟩ := hothers b hb a ha hrule
    exact ⟨hshape.trans hshape'.symm, htype.trans htype'.symm⟩
  refine hgrown.insert hlive (fun a ha hrule => hg.draws.unused _ hissued (hrule ▸ hp.taken ha)) fun array harray => ?_
  have hentry : (h.rule, (⟨d.name, (p.rules.rules ++ g.rule.toList).length⟩ : BackingEntry)) ∈
      (p.grow g).backing.entries := List.mem_append_right _ (List.mem_map.2 ⟨_, hself, rfl⟩)
  rw [BackingTable.array?, BackingTable.find?_of_mem hgrown.wellFormed.backed_nodup hentry] at harray
  obtain rfl : d.name = array := Option.some.inj harray
  exact ⟨d, hd, rfl, hshape, htype⟩

theorem inScope_sum (ha : p.Live a) {vars : List String} (hlen : vars.length = a.rank) (axes : Option (List Nat)) :
    let bounded := vars.zip a.shape.extents
    let reduced := axesWhere (Build.isReduced axes) bounded
    let kept := axesWhere (fun axis => !Build.isReduced axes axis) bounded
    (if reduced.isEmpty then p.callOf a.rule (vars.map .var)
      else .sum (reduced.map Prod.fst) (p.callOf a.rule (vars.map .var))).InScope (RuleTakes p.rules.rules)
        (fun _ _ => False) (Owned (p.domains ++ [.box bounded])) (· ∈ kept.map Prod.fst) := by
  intro bounded reduced kept
  have hfst : bounded.map Prod.fst = vars := List.map_fst_zip (Nat.le_of_eq hlen)
  have hsplit : ∀ v ∈ vars, v ∈ kept.map Prod.fst ∨ v ∈ reduced.map Prod.fst := by
    intro v hv
    rw [← hfst] at hv
    obtain ⟨axis, haxis, rfl⟩ := List.mem_map.1 hv
    obtain ⟨i, hi⟩ := List.mem_iff_getElem?.1 haxis
    have hnumbered : (axis, i) ∈ bounded.zipIdx := List.mem_zipIdx_iff_getElem?.2 hi
    have hwhere : ∀ test : Nat → Bool, test i = true → axis ∈ axesWhere test bounded := fun test htest =>
      List.mem_map.2 ⟨(axis, i), List.mem_filter.2 ⟨hnumbered, htest⟩, rfl⟩
    cases htest : Build.isReduced axes i with
    | true => exact .inr (List.mem_map_of_mem (hwhere _ htest))
    | false => exact .inl (List.mem_map_of_mem (hwhere _ (by rw [htest]; rfl)))
  split
  · rename_i hempty
    refine ha.inScope_element hlen fun v hv => (hsplit v hv).resolve_right fun hred => ?_
    rw [List.isEmpty_iff.1 hempty] at hred
    cases hred
  · refine ⟨fun v hv => ⟨.box bounded, by simp, ?_⟩, ha.inScope_element hlen hsplit⟩
    rw [Domain.vars_box]
    exact ((axesWhere_sublist _ _).map Prod.fst).subset hv

theorem Inputs.intact {array : String} {shape : Shape} {elementType : ElementType} {vars : List String}
    (hi : p.Inputs array shape elementType vars h p') (hp : p.Intact handles) : p'.Intact (handles ++ [h]) := by
  have hlive := (hi.advances hp.wellFormed).live
  obtain ⟨hrank, hfits, hgrown, hhandle⟩ := hi
  rw [hgrown] at hlive ⊢
  have hdecl : (⟨array, shape, elementType, .input⟩ : Declaration) ∈ p.arrays ++
      (inputGrowth p'.names array shape elementType vars h.rule).arrays := by simp [inputGrowth]
  refine hp.register hfits ⟨by simp [inputGrowth], fun r hr => ?_⟩ (by simp) hlive hdecl (by rw [hhandle])
    (by rw [hhandle]) (by simp [inputGrowth]) (by simp [inputGrowth]) fun b hb a ha hrule => ?_
  · obtain rfl := Option.some.inj hr
    exact inScope_loader hdecl vars hrank
  · obtain rfl : b = (h.rule, array) := by simpa [inputGrowth] using hb
    have hsame : a.rule = h.rule := hrule
    exact absurd (hsame ▸ hp.taken ha) (hfits.draws.unused h.rule (by simp))

theorem Accumulates.intact {extent : Extent} {array i j t : String} (hs : p.Accumulates a extent array i j t h p')
    (hp : p.Intact handles) : p'.Intact (handles ++ [h]) := by
  have hlive := (hs.advances hp.wellFormed).live
  obtain ⟨ha, hextents, hfits, hgrown, hhandle⟩ := hs
  have hone : a.shape.rank = 1 := by rw [Shape.rank, hextents]; rfl
  rw [hgrown] at hlive ⊢
  generalize hg : prefixSumGrowth p'.names a extent array i j t h.rule (p.callOf a.rule [.var j]) = g at *
  have hdecl : (⟨array, a.shape, a.elementType, .temporary⟩ : Declaration) ∈ p.arrays ++ g.arrays := by
    simp [← hg, prefixSumGrowth]
  have howned : ∀ v ∈ [i, j], Owned (p.domains ++ g.domains) v := fun v hv =>
    ⟨prefixSumDomain i j extent, by simp [← hg, prefixSumGrowth],
      by rwa [Build.Outcome.vars_prefixSumDomain]⟩
  refine hp.register hfits ⟨fun s hs => ?_, fun r hr => ?_⟩ (by simp) hlive hdecl (by rw [hhandle])
    (by rw [hhandle]) (by simp [← hg, prefixSumGrowth]) (by simp [← hg, prefixSumGrowth]) fun b hb c hc hrule => ?_
  · obtain rfl : s = ⟨.load array [.var i], .sum [j] (p.callOf a.rule [.var j]), [i]⟩ := by
      simpa [← hg, prefixSumGrowth] using hs
    refine ⟨⟨⟨_, hdecl, rfl, hone⟩, List.mem_singleton_self i, trivial⟩, ⟨?_, ?_⟩, ?_⟩
    · exact fun v hv => howned v (List.mem_cons_of_mem _ hv)
    · exact ha.inScope_callOf hone.symm ⟨.inr (List.mem_singleton_self j), trivial⟩
    · exact fun v hv => howned v (by simp [List.mem_singleton.1 hv])
  · obtain rfl : (⟨h.rule, [t], .load array [.var t]⟩ : Rule) = r := by simpa [← hg, prefixSumGrowth] using hr
    exact inScope_loader hdecl [t] hone.symm
  · obtain rfl : b = (h.rule, array) := by simpa [← hg, prefixSumGrowth] using hb
    have hsame : c.rule = h.rule := hrule
    exact absurd (hsame ▸ hp.taken hc) (hfits.draws.unused h.rule (by simp))

section Writes

variable {index : List (Index Handle)} {value v : Operand Handle} {axes : List WriteAxis} {array : String}
  {vars : List String}

theorem length_targetArgs (hlen : vars.length = (WriteAxis.region axes).length) :
    (p.targetArgs axes vars).length = axes.length := by
  induction axes generalizing vars with
  | nil => rfl
  | cons axis axes ih =>
    cases axis with
    | «at» position => exact congrArg (· + 1) (ih hlen)
    | along extent =>
      obtain ⟨var, vars, rfl, hrestLen⟩ := WriteAxis.exists_cons rfl hlen
      exact congrArg (· + 1) (ih hrestLen)
    | gather positions =>
      obtain ⟨var, vars, rfl, hrestLen⟩ := WriteAxis.exists_cons (WriteAxis.isSome_extent?_gather positions) hlen
      exact congrArg (· + 1) (ih hrestLen)

theorem length_writtenAxes {extents : List Extent} (h : index.length = extents.length) :
    (writtenAxes index extents).length = index.length := by
  induction index generalizing extents with
  | nil => cases extents <;> rfl
  | cons entry index ih =>
    cases extents with
    | nil => cases h
    | cons extent extents => cases entry <;> exact congrArg (· + 1) (ih (Nat.succ.inj h))

theorem Request.inScope_storeOf (hrequest : p.Request a index value axes v)
    (hlen : vars.length = (WriteAxis.region axes).length) {arrays : List Declaration}
    (harray : Ranked arrays array a.rank) {domains : List Domain} (hvars : ∀ var ∈ vars, Owned domains var) :
    (p.storeOf array axes v vars).InScope p.rules.rules arrays domains := by
  have hcount : (p.targetArgs axes vars).length = a.rank := by
    rw [length_targetArgs hlen, hrequest.addressed, length_writtenAxes hrequest.count, hrequest.count]
  refine ⟨⟨hcount ▸ harray, inScopeAll_targetArgs hrequest.gathers_take fun _ hv => hv⟩, ?_, hvars⟩
  cases hrequest.value with
  | literal hcast => exact inScope_toExpr _
  | @array b hlive hfit =>
    simp only [storeOf, storedValue]
    split
    · exact inScope_callAtOrigin hlive
    · rename_i hcond
      refine hlive.inScope_element ?_ fun _ hv => hv
      rcases hfit with hunit | ⟨_, hextents⟩
      · simp [Shape.isUnit, hunit] at hcond
      · rw [hlen, Handle.rank, Shape.rank, hextents]

theorem Writes.intact (hw : p.Writes a index value h p') (hp : p.Intact handles) (ha : a ∈ handles) :
    p'.Intact (handles ++ [h]) := by
  have hlive := (hw.advances hp.wellFormed).live
  cases hw with
  | again array axes v vars hrequest hbacked hlen hfits hgrown hhandle =>
    obtain ⟨d, hd, hname, hshape, _⟩ := hp.holds a ha array hbacked
    have hintact : p'.Intact handles := by
      rw [hgrown]
      refine hp.grow hfits ⟨fun s hs => ?_, by simp [againGrowth]⟩ (by simp [againGrowth])
      obtain rfl := List.mem_singleton.1 hs
      refine hrequest.inScope_storeOf hlen ⟨d, List.mem_append_left _ hd, hname, by rw [hshape]; rfl⟩ fun v hv => ?_
      exact (owned_regionDomains hlen hv).mono fun _ => List.mem_append_right _
    refine hintact.mono fun b hb => ?_
    rcases List.mem_append.1 hb with hb | hb
    · exact hb
    · rwa [List.mem_singleton.1 hb, hhandle]
  | first array axes v copyVars vars params hrequest hbacked hcopy hlen hparams hfits hgrown hhandle =>
    have hshape : h.shape = a.shape := by rw [hhandle]
    have htype : h.elementType = a.elementType := by rw [hhandle]
    rw [hgrown] at hlive ⊢
    generalize hg : p.firstGrowth p'.names a array axes v copyVars vars params h.rule = g at *
    have hdecl : (⟨array, a.shape, a.elementType, .temporary⟩ : Declaration) ∈ p.arrays ++ g.arrays := by
      simp [← hg, firstGrowth]
    have hdomains : g.domains = .box (copyVars.zip a.shape.extents) :: regionDomains vars (WriteAxis.region axes) := by
      rw [← hg]
      rfl
    refine hp.register hfits ⟨fun s hs => ?_, fun r hr => ?_⟩ (by simp) hlive hdecl hshape.symm htype.symm
      (by simp [← hg, firstGrowth]) (by simp [← hg, firstGrowth]) fun b hb c hc hrule => ?_
    · have hs : s = p.copyOf a array copyVars ∨ s = p.storeOf array axes v vars := by
        simpa [← hg, firstGrowth] using hs
      rcases hs with rfl | rfl
      · refine ⟨⟨⟨_, hdecl, rfl, ?_⟩, Expr.inScopeAll_vars fun _ hv => hv⟩,
          hrequest.live.inScope_element hcopy fun _ hv => hv, fun v hv => ?_⟩
        · rw [List.length_map, hcopy]
          rfl
        · refine ⟨.box (copyVars.zip a.shape.extents), by simp [hdomains], ?_⟩
          rwa [Domain.vars_box, List.map_fst_zip (Nat.le_of_eq hcopy)]
      · refine hrequest.inScope_storeOf hlen ⟨_, hdecl, rfl, rfl⟩ fun v hv => ?_
        refine (owned_regionDomains hlen hv).mono fun d hd => ?_
        rw [hdomains]
        exact List.mem_append_right _ (List.mem_cons_of_mem _ hd)
    · obtain rfl : (⟨h.rule, params, .load array (params.map .var)⟩ : Rule) = r := by
        simpa [← hg, firstGrowth] using hr
      exact inScope_loader hdecl params hparams
    · have hb : b = (h.rule, array) ∨ b = (a.rule, array) := by simpa [← hg, firstGrowth] using hb
      rcases hb with rfl | rfl
      · have hsame : c.rule = h.rule := hrule
        exact absurd (hsame ▸ hp.taken hc) (hfits.draws.unused h.rule (by simp))
      · obtain rfl := hp.distinct c hc a ha hrule
        exact ⟨hshape.symm, htype.symm⟩

end Writes

end Operations

/-- What operations are made of: a rule that computes, an input, prefix sums, or a write. -/
inductive Move (p : Plan) (handles : List Handle) (h : Handle) (p' : Plan) : Prop where
  | define (d : Definition) (hdef : p.Defines d h p') (hscope : d.InScope p)
  | input (array : String) (shape : Shape) (elementType : ElementType) (vars : List String)
      (hinput : p.Inputs array shape elementType vars h p')
  | accumulate (a : Handle) (extent : Extent) (array i j t : String) (ha : a ∈ handles)
      (hsums : p.Accumulates a extent array i j t h p')
  | write (a : Handle) (index : List (Index Handle)) (value : Operand Handle) (ha : a ∈ handles)
      (hwrite : p.Writes a index value h p')

inductive Moves (p : Plan) (handles : List Handle) : Plan → List Handle → Prop where
  | refl : Moves p handles p handles
  | step {p₁ p₂ : Plan} {handles₁ : List Handle} {h : Handle} (hbefore : Moves p handles p₁ handles₁)
      (hmove : p₁.Move handles₁ h p₂) : Moves p handles p₂ (handles₁ ++ [h])

section Moves

variable {p p' : Plan} {handles handles' : List Handle} {h a b : Handle}

theorem Move.intact (hmove : p.Move handles h p') (hp : p.Intact handles) : p'.Intact (handles ++ [h]) := by
  cases hmove with
  | define d hdef hscope => exact hdef.intact hp hscope
  | input array shape elementType vars hinput => exact hinput.intact hp
  | accumulate a extent array i j t ha hsums => exact hsums.intact hp
  | write a index value ha hwrite => exact hwrite.intact hp ha

theorem Moves.intact (hmoves : p.Moves handles p' handles') (hp : p.Intact handles) : p'.Intact handles' := by
  induction hmoves with
  | refl => exact hp
  | step hbefore hmove ih => exact hmove.intact ih

theorem Moves.subset (hmoves : p.Moves handles p' handles') : ∀ a ∈ handles, a ∈ handles' := by
  induction hmoves with
  | refl => exact fun _ ha => ha
  | step hbefore hmove ih => exact fun a ha => List.mem_append_left _ (ih a ha)

def MovesTo (p : Plan) (handles : List Handle) (h : Handle) (p' : Plan) : Prop :=
  ∃ handles', p.Moves handles p' handles' ∧ h ∈ handles'

theorem Move.movesTo (hmove : p.Move handles h p') : p.MovesTo handles h p' :=
  ⟨_, .step .refl hmove, by simp⟩

theorem Defines.movesTo {d : Definition} (hdef : p.Defines d h p') (hscope : d.InScope p) : p.MovesTo handles h p' :=
  (Move.define d hdef hscope).movesTo

theorem Moves.spread {common : Shape} {p₁ : Plan} {handles₁ : List Handle} (hmoves : p.Moves handles p₁ handles₁)
    (hs : p₁.Spreads a common h p') (hp : p.Intact handles) (ha : a ∈ handles) (hrank : a.rank ≤ common.rank) :
    ∃ handles', p.Moves handles p' handles' ∧ h ∈ handles' ∧ ∀ b ∈ handles₁, b ∈ handles' := by
  rcases hs with ⟨_, rfl, rfl⟩ | ⟨_, _, vars, hlen, hdef⟩
  · exact ⟨handles₁, hmoves, hmoves.subset h ha, fun _ hb => hb⟩
  · refine ⟨_, hmoves.step (.define _ hdef ?_), by simp, fun b hb => List.mem_append_left _ hb⟩
    refine ((hmoves.intact hp).live a (hmoves.subset a ha)).inScope_callOf ?_
      (inScopeAll_spreadIndex _ fun v hv => List.mem_of_mem_drop hv)
    simp only [Build.length_spreadIndex, List.length_drop, hlen, Handle.rank, Shape.rank] at hrank ⊢
    omega

theorem Combines.movesTo {op : Operator} (hc : p.Combines op a b h p') (hp : p.Intact handles) (ha : a ∈ handles)
    (hb : b ∈ handles) : p.MovesTo handles h p' := by
  cases hc with
  | equal vars hshape hlen hdef =>
    have hlen' : vars.length = b.rank := by rw [hlen, Handle.rank, Handle.rank, hshape]
    exact hdef.movesTo (inScope_apply op ((hp.live a ha).inScope_element hlen fun _ hv => hv)
      ((hp.live b hb).inScope_element hlen' fun _ hv => hv))
  | rightUnit vars hshape hunit hlen hdef =>
    exact hdef.movesTo (inScope_apply op ((hp.live a ha).inScope_element hlen fun _ hv => hv)
      (inScope_callAtOrigin (hp.live b hb)))
  | leftUnit vars hshape hunit hlen hdef =>
    exact hdef.movesTo (inScope_apply op (inScope_callAtOrigin (hp.live a ha))
      ((hp.live b hb).inScope_element hlen fun _ hv => hv))
  | spread vars common left right p₁ p₂ ha' hb' hcommon hleft hright hlen hdef =>
    have hrank := Shape.broadcast_rank hcommon
    have hranka : a.rank ≤ common.rank := hrank ▸ Nat.le_max_left ..
    have hrankb : b.rank ≤ common.rank := hrank ▸ Nat.le_max_right ..
    obtain ⟨handles₁, hmoves₁, hleft_mem, _⟩ := Moves.refl.spread hleft hp ha hranka
    obtain ⟨handles₂, hmoves₂, hright_mem, hsub⟩ := hmoves₁.spread hright hp hb hrankb
    have hp₂ := hmoves₂.intact hp
    have hlen' : vars.length = right.rank := by rw [hlen, Handle.rank, Handle.rank, hleft.shape_eq, hright.shape_eq]
    refine ⟨_, hmoves₂.step (.define _ hdef ?_), by simp⟩
    exact inScope_apply op ((hp₂.live left (hsub left hleft_mem)).inScope_element hlen fun _ hv => hv)
      ((hp₂.live right hright_mem).inScope_element hlen' fun _ hv => hv)

theorem Writes.live {index : List (Index Handle)} {value : Operand Handle} (hw : p.Writes a index value h p') :
    p.Live a := by
  cases hw with
  | again _ _ _ _ hrequest => exact hrequest.live
  | first _ _ _ _ _ _ hrequest => exact hrequest.live

/-- An operation that succeeds comes down to moves. -/
theorem perform_moves (hp : p.Intact handles) (op : Operation Handle)
    (hrefs : ∀ a ∈ op.refs, a.plan = p.id → a ∈ handles) : Build.Outcome p op.perform p (p.MovesTo handles) := by
  have hwf := hp.wellFormed
  have hown : ∀ a, a ∈ op.refs → a.plan = p.id → p.Live a := fun a ha hplan => hp.live a (hrefs a ha hplan)
  open Build.Outcome in
  cases op with
  | full shape value elementType =>
    refine (full hwf _ value elementType).mono ?_
    rintro h p' ⟨_, _, _, _, _, _, hdef⟩
    exact hdef.movesTo (inScope_toExpr _)
  | fill shape value =>
    refine bind (get ?_)
    refine (full hwf _ value _).mono ?_
    rintro h p' ⟨_, _, _, _, _, _, hdef⟩
    exact hdef.movesTo (inScope_toExpr _)
  | range stop =>
    refine (range hwf stop).mono ?_
    rintro h p' ⟨_, var, _, hdef⟩
    exact hdef.movesTo (List.mem_singleton_self var)
  | input shape elementType =>
    refine (input hwf _ elementType).mono ?_
    rintro h p' ⟨_, _, _, _, hin⟩
    exact (Move.input _ _ _ _ hin).movesTo
  | inputNamed name shape elementType =>
    refine (inputNamed hwf name _ elementType).mono ?_
    rintro h p' ⟨_, _, _, hin⟩
    exact (Move.input _ _ _ _ hin).movesTo
  | combine op a b =>
    have ha := hown a List.mem_cons_self
    cases b with
    | literal value =>
      refine (combineLiteral op hwf ha value false).mono ?_
      rintro h p' ⟨ha, vars, hlen, hdef⟩
      refine hdef.movesTo ?_
      exact inScope_apply op (ha.inScope_element hlen fun _ hv => hv) (inScope_toExpr value)
    | array b =>
      have hb := hown b (by simp [Operation.refs, Operand.refs])
      refine (combineArrays op hwf ha hb).mono ?_
      rintro h p' ⟨ha, hb, hcombines⟩
      refine hcombines.movesTo hp ?_ ?_
      · exact hrefs a List.mem_cons_self ha.own
      · exact hrefs b (by simp [Operation.refs, Operand.refs]) hb.own
  | combineFrom op value a =>
    refine (combineLiteral op hwf (hown a List.mem_cons_self) value true).mono ?_
    rintro h p' ⟨ha, vars, hlen, hdef⟩
    refine hdef.movesTo ?_
    exact inScope_apply op (inScope_toExpr value) (ha.inScope_element hlen fun _ hv => hv)
  | select a index =>
    refine (select hwf (hown a List.mem_cons_self) index).mono ?_
    rintro h p' ⟨ha, hcount, _, vars, shape, hlen, _, hdef⟩
    refine hdef.movesTo ?_
    exact ha.inScope_callOf ((length_selectedArgs hcount hlen).trans hcount)
      (inScopeAll_selectedArgs index fun _ hv => hv)
  | reshape a shape layout =>
    refine (reshape hwf (hown a List.mem_cons_self) _ layout).mono ?_
    rintro h p' ⟨ha, _, lengths, sourceLengths, vars, _, _, hsource, _, hlen, hdef⟩
    refine hdef.movesTo ?_
    refine ha.inScope_callOf ?_ (inScopeAll_indexAtLine (inScope_linearIndex vars _ _ fun _ hv => hv) _ _ _)
    rw [indexAtLine, List.length_map, List.length_zip, Layout.length_strides, Nat.min_self]
    exact Shape.length_of_lengths? hsource
  | sum a axes =>
    refine (sum hwf (hown a List.mem_cons_self) axes).mono ?_
    rintro h p' ⟨ha, _, vars, shape, hlen, _, hdef⟩
    refine hdef.movesTo ?_
    exact inScope_sum ha hlen axes
  | prefixSums a =>
    refine (prefixSums hwf (hown a List.mem_cons_self)).mono ?_
    rintro h p' ⟨_, _, _, _, _, hsums⟩
    exact (Move.accumulate _ _ _ _ _ _ (hrefs a List.mem_cons_self hsums.live.own) hsums).movesTo
  | write a index value =>
    exact (write_outcome hwf hown).mono
      fun h p' hwrites => (Move.write _ _ _ (hrefs a List.mem_cons_self hwrites.live.own) hwrites).movesTo

theorem perform_intact (hp : p.Intact handles) (op : Operation Handle)
    (hrefs : ∀ a ∈ op.refs, a.plan = p.id → a ∈ handles) :
    Build.Outcome p op.perform p fun h p' => p'.Intact (handles ++ [h]) := by
  refine (perform_moves hp op hrefs).mono fun h p' ⟨handles', hmoves, hh⟩ => (hmoves.intact hp).mono fun a ha => ?_
  rcases List.mem_append.1 ha with ha | ha
  · exact hmoves.subset a ha
  · rwa [List.mem_singleton.1 ha]

end Moves

end Plan

end ArrayPlan
