import ArrayPlan.Proofs.Following
import ArrayPlan.Proofs.Denotations
import ArrayPlan.Proofs.Readings

/-!
Operations that follow a draft, as far as they define one rule. Whatever branch an operation takes, the rule that it
defines has the elements that the draft says: a scalar that is read at the origin is read at the only index that can be
asked for, and an axis that is left out of an index has the first position only.
-/

namespace ArrayPlan

open Interpretation

variable {α : Type} [Scalar α]

namespace Asked

variable {lengths : List Nat} {index : List Int}

theorem length_eq (h : Asked α lengths index) : index.length = lengths.length :=
  (List.Forall₂.length_eq h).symm

theorem rounded_eq (h : Asked α lengths index) : rounded α index = index := by
  induction h with
  | nil => rfl
  | cons hx _ ih => exact congrArg₂ List.cons hx.2 ih

theorem clip_eq (h : Asked α lengths index) : clip lengths index = index := by
  induction h with
  | nil => rfl
  | @cons n x _ _ hx _ ih =>
    rw [clip, ih]
    split
    · rename_i hone
      rw [hx.1 hone]
    · rfl

theorem spreadTo_eq (h : Asked α lengths index) : Deferred.spreadTo lengths index = index := by
  rw [Deferred.spreadTo, h.length_eq, Nat.sub_self, List.drop_zero, h.clip_eq]

theorem of_unit (h : Asked α [1] index) : index = [0] := by
  cases h with
  | cons hx hrest =>
    cases hrest
    rw [hx.1 rfl]

variable [ExactOrigin α]

theorem origin : Asked α [1] [0] :=
  .cons ⟨fun _ => rfl, ExactOrigin.toIndex_ofInt_zero⟩ .nil

theorem of_rounded [StableIndices α] (h : List.Forall₂ (fun n x => n = 1 → x = 0) lengths index) :
    Asked α lengths (rounded α index) := by
  induction h with
  | nil => exact .nil
  | cons hx _ ih =>
    refine .cons ⟨fun hone => ?_, StableIndices.toIndex_ofInt_toIndex _⟩ ih
    rw [hx hone]
    exact ExactOrigin.toIndex_ofInt_zero

theorem of_inBox [StableIndices α] (h : InBox index (lengths.map span)) : Asked α lengths (rounded α index) := by
  refine of_rounded ?_
  induction lengths generalizing index with
  | nil =>
    cases index with
    | nil => exact .nil
    | cons _ _ => exact h.elim
  | cons n lengths ih =>
    cases index with
    | nil => exact h.elim
    | cons x index =>
      refine .cons (fun hone => ?_) (ih h.2)
      have hx := h.1
      rw [hone] at hx
      have hspan : span 1 = 1 := rfl
      omega

end Asked

theorem Env.at_append (env : Env) {vars : List String} {kept : List Int} (hlen : vars.length = kept.length)
    (rest : List Int) : env.at vars (kept ++ rest) = env.at vars kept := by
  rw [Env.at, Env.at, ← List.append_nil vars, List.zip_append hlen, List.zip_nil_left, List.append_nil, List.append_nil]

namespace Interpretation

variable {I : Interpretation α} {env : Env}

theorem value?_apply_eq (op : Operator) (lhs rhs : Expr) :
    I.value? (op.apply lhs rhs) env = (I.value? lhs env).bind fun x => (I.value? rhs env).map (op.number x) := by
  cases op <;> rfl

theorem position?_cons_eq (e : Expr) (es : List Expr) :
    I.position? (e :: es) env = (I.value? e env).bind fun x => (I.position? es env).map (Scalar.toIndex x :: ·) := by
  rw [position?, values?]
  cases I.value? e env with
  | none => rfl
  | some x =>
    rw [Option.bind_some, Option.map_map, Option.bind_some, position?, Option.map_map]
    rfl

end Interpretation

namespace Plan

variable {N : Numbering} {p q : Plan} {d : Draft α} {places : List Nat} {parameters : Env} {domains : List Domain}
  {time index : Nat} {I : Interpretation α} {o : Oracle α} {a : Handle} {r : Drafted}

section Reading

omit [Scalar α] in
theorem Renders.exists_rule (hp : p.WellFormed) (ha : p.Renders N d places a r) : ∃ j rule v,
    places[r.value]? = some j ∧ p.rules.rules[j]? = some rule ∧ p.rules.find? a.rule = some rule ∧ rule.name = a.rule ∧
      d.values[r.value]? = some v ∧ v.lengths = r.lengths := by
  obtain ⟨j, rule, hj, hrule, hname⟩ := ha.rule
  obtain ⟨v, hv, hlengths⟩ := ha.value
  have hfind := hp.find?_of_mem (List.mem_of_getElem? hrule)
  exact ⟨j, rule, v, hj, hrule, hname ▸ hfind, hname, hv, hlengths⟩

/-- A call of the rule of a handle has the element of its value. -/
theorem Circumstances.value?_callOf (hc : p.Circumstances d places parameters domains time index I o) (hp : p.WellFormed)
    (ha : p.Renders N d places a r) (htime : r.value < time) {args : List Expr} {env : Env} {position : List Int}
    (hargs : I.position? args env = some position) (hasked : Asked α r.lengths position) :
    I.value? (p.callOf a.rule args) env = o.value r.value position := by
  obtain ⟨j, rule, v, hj, hrule, hfind, hname, hv, hlengths⟩ := ha.exists_rule hp
  have hcall := hc.call r.value v j rule htime hv hj hrule position (hlengths ▸ hasked)
  simp only [callOf, hfind]
  rw [hname] at hcall
  by_cases hzero : rule.params = []
  · rw [if_pos (by rw [Rule.arity, hzero]; rfl), ← hcall, if_pos hzero, value?_call_eq, position?_nil]
    rfl
  · have harity : rule.arity ≠ 0 := fun h => hzero (List.length_eq_zero_iff.1 h)
    rw [if_neg harity, ← hcall, if_neg hzero, value?_call_eq, hargs]
    rfl

theorem Circumstances.value?_callAt (hc : p.Circumstances d places parameters domains time index I o) (hp : p.WellFormed)
    (ha : p.Renders N d places a r) (htime : r.value < time) {vars : List String} {env : Env} {position : List Int}
    (hbinds : env.Binds vars position) (hasked : Asked α r.lengths position) :
    I.value? (p.callOf a.rule (vars.map .var)) env = o.value r.value position := by
  refine hc.value?_callOf hp ha htime ?_ hasked
  rw [position?_vars_rounded hbinds, hasked.rounded_eq]

omit [Scalar α] in
theorem Renders.rank_eq (ha : p.Renders N d places a r) : a.rank = r.lengths.length := by
  rw [← ha.lengths, List.length_map]
  rfl

theorem Circumstances.value?_callAtOrigin [ExactOrigin α]
    (hc : p.Circumstances d places parameters domains time index I o) (hp : p.WellFormed) (ha : p.Renders N d places a r)
    (htime : r.value < time) (hunit : r.lengths = [1]) {env : Env} :
    I.value? (p.callAtOrigin a.rule) env = o.value r.value [0] := by
  obtain ⟨j, rule, v, hj, hrule, hfind, hname, hv, hlengths⟩ := ha.exists_rule hp
  have hcall := hc.call r.value v j rule htime hv hj hrule [0] (by rw [hlengths, hunit]; exact .origin)
  have harity : rule.arity = 1 ∨ rule.arity = 0 := by
    obtain ⟨rule', hfind', harity⟩ := ha.live.rule
    obtain rfl := Option.some.inj (hfind.symm.trans hfind')
    rw [ha.rank_eq, hunit] at harity
    exact harity.imp_right And.left
  simp only [callAtOrigin, hfind]
  rw [hname] at hcall
  rw [← hcall, value?_call_eq, position?_replicate]
  rcases harity with hone | hzero
  · have hne : rule.params ≠ [] := fun h => by rw [Rule.arity, h] at hone; cases hone
    rw [if_neg hne, hone]
    simp only [rounded, List.replicate_one, List.map_cons, List.map_nil, ExactOrigin.toIndex_ofInt_zero, Option.bind_some]
  · rw [if_pos (List.length_eq_zero_iff.1 hzero), hzero]
    rfl

end Reading

/-- After an operation, the plan follows what the draft has become, and the handle that was given is its last result. -/
def Advanced (N : Numbering) (p : Plan) (d : Draft α) (places : List Nat) (h : Handle) (p' : Plan) (d' : Draft α) : Prop :=
  ∃ places' r, p'.Follows N d' places' ∧ Outgrown p d places p' d' places' ∧ d'.results = d.results ++ [r] ∧
    p'.Renders N d' places' h r

omit [Scalar α] in
theorem Outgrown.trans {p' p'' : Plan} {d' d'' : Draft α} {places' places'' : List Nat}
    (h : Outgrown p d places p' d' places') (h' : Outgrown p' d' places' p'' d'' places'') :
    Outgrown p d places p'' d'' places'' where
  plan := h.plan.trans h'.plan
  values := by
    obtain ⟨xs, hxs⟩ := h.values
    obtain ⟨ys, hys⟩ := h'.values
    exact ⟨xs ++ ys, by rw [hys, hxs, List.append_assoc]⟩
  arrays := by
    obtain ⟨xs, hxs⟩ := h.arrays
    obtain ⟨ys, hys⟩ := h'.arrays
    exact ⟨xs ++ ys, by rw [hys, hxs, List.append_assoc]⟩
  places := by
    obtain ⟨xs, hxs, hxs'⟩ := h.places
    obtain ⟨ys, hys, hys'⟩ := h'.places
    refine ⟨xs ++ ys, by rw [hys, hxs, List.append_assoc], fun j hj => ?_⟩
    rcases List.mem_append.1 hj with hj | hj
    · exact hxs' j hj
    · exact Nat.le_trans h.plan.size_le (hys' j hj)

theorem Follows.define {D : Definition} {h : Handle} {p' : Plan} {v : Deferred α} {layout : Layout}
    (hf : p.Follows N d places) (hd : p.Defines D h p')
    (hlengths : D.shape.extents.map (Extent.under N.value) = v.lengths)
    (hlayout : (∀ e ∈ D.shape.extents, ∃ n, e = .fixed n) → D.layout = layout)
    (hused : N.Uses D.shape.extents) (hdomains : ∀ a ∈ D.domains, ∀ name ∈ a.parameters, N.used name)
    (helement : ∀ parameters domains I o, p'.Surroundings N parameters domains →
      p.Circumstances d places parameters domains places.length p.rules.size I o → ∀ position, Asked α v.lengths position →
        I.value? D.body (parameters.at D.params position) = v.element o position) :
    Advanced N p d places h p' (d.define v D.elementType layout) := by
  have hp := hf.wellFormed
  have hadvances := hd.advances hp
  have hrules : p'.rules.rules = p.rules.rules ++ [⟨h.rule, D.params, D.body⟩] := by
    rw [hd.grown]
    rfl
  have hnew : p'.rules.rules[p.rules.size]? = some ⟨h.rule, D.params, D.body⟩ := by
    rw [hrules, RuleLog.size, List.getElem?_concat_length]
  have hplace : (places ++ [p.rules.size])[d.values.length]? = some p.rules.size := by
    rw [← hf.count, List.getElem?_concat_length]
  have hg : Outgrown p d places p' (d.define v D.elementType layout) (places ++ [p.rules.size]) :=
    ⟨hadvances.extends_, ⟨[v], rfl⟩, ⟨[], (List.append_nil _).symm⟩, [p.rules.size], rfl, by simp⟩
  refine ⟨_, _, hf.extend hadvances.wellFormed hg ?_ (List.pairwise_singleton _ _) ?_ ?_ ⟨[], [], ?_⟩ ⟨[], [], ?_⟩ ⟨[], [], ?_⟩
    ⟨D.domains, ?_⟩, hg, rfl, ?_⟩
  · rw [List.length_append, hf.count, Draft.define, List.length_append]
    rfl
  · simp [RuleLog.size, hrules]
  · intro k j rule v' hk hj hrule hv'
    obtain rfl : k = places.length := by
      have hlt := (List.getElem?_eq_some_iff.1 hj).1
      rw [List.length_append, List.length_singleton] at hlt
      omega
    rw [hf.count, hplace] at hj
    obtain rfl := Option.some.inj hj
    obtain rfl := Option.some.inj (hnew.symm.trans hrule)
    rw [hf.count, show (d.define v D.elementType layout).values = d.values ++ [v] from rfl, List.getElem?_concat_length] at hv'
    obtain rfl := Option.some.inj hv'
    refine ⟨?_, ?_, fun parameters domains I o hs hc position hasked => ?_⟩
    · rw [← hlengths]
      simpa using D.shape.extents_ne_nil
    · rcases hd.fits.arity with harity | ⟨hnil, hunit⟩
      · left
        rw [harity, ← hlengths, List.length_map]
        rfl
      · refine .inr ⟨hnil, ?_⟩
        rw [← hlengths, hunit]
        rfl
    · exact helement parameters domains I o hs (hg.circumstances (Nat.le_refl _) hc) position hasked
  · rw [hd.grown]
    exact ⟨rfl, (List.append_nil _).symm, .nil⟩
  · rw [hd.grown]
    exact ⟨rfl, (List.append_nil _).symm, .nil⟩
  · rw [hd.grown]
    exact ⟨rfl, (List.append_nil _).symm, .nil⟩
  · rw [hd.grown]
    exact ⟨rfl, hdomains⟩
  · have hvalue : (d.define v D.elementType layout).values[d.values.length]? = some v := List.getElem?_concat_length
    refine ⟨hadvances.live, ⟨_, _, hplace, hnew, rfl⟩, ⟨v, hvalue, rfl⟩, ?_, ?_, fun hfixed => ?_, fun name hname => ?_⟩
    · rw [hd.handle]
      exact hlengths
    · rw [hd.handle]
    · rw [hd.handle] at hfixed ⊢
      exact hlayout hfixed
    · rw [hd.handle] at hname
      exact hused name hname

section Operations

variable {p' : Plan} {h : Handle} {b : Handle} {rb : Drafted}

omit [Scalar α] in
theorem Renders.lt (hf : places.length = d.values.length) (ha : p.Renders N d places a r) : r.value < places.length := by
  obtain ⟨v, hv, _⟩ := ha.value
  rw [hf]
  exact (List.getElem?_eq_some_iff.1 hv).1

theorem Defines.no_domains {vars : List String} {body : Expr} {shape : Shape} {elementType : ElementType}
    {layout : Layout} : ∀ a ∈ (Definition.mk vars [] vars body shape elementType layout).domains, ∀ name ∈ a.parameters,
      N.used name := by
  simp

theorem Defines.binds {D : Definition} (hd : p.Defines D h p') (parameters : Env) {lengths : List Nat} {position : List Int}
    (hasked : Asked α lengths position) (hlen : D.params.length = lengths.length) :
    (parameters.at D.params position).Binds D.params position :=
  Env.binds_at parameters (hd.fits.params.nodup hd.vars_nodup) (hlen.trans hasked.length_eq.symm)

theorem Follows.full {extents : List Extent} {value : Literal} {elementType : ElementType} (hf : p.Follows N d places)
    (hrun : (Build.full extents value elementType).runOn p = (.ok h, p')) (hused : N.Uses extents) :
    Advanced N p d places h p'
      (d.define (.constant (extents.map (Extent.under N.value)) (value.numberAs elementType)) elementType .rowMajor) := by
  obtain ⟨shape, v, vars, hshape, hcast, hlen, hd⟩ :=
    (Build.Outcome.full hf.wellFormed extents value elementType).of_runOn_ok hrun
  obtain rfl := Shape.extents_of_ofExtents hshape
  refine hf.define hd rfl (fun _ => rfl) hused Defines.no_domains fun parameters domains I o _ _ position _ => ?_
  rw [value?_toExpr, Deferred.constant, Literal.numberAs, hcast]

theorem Follows.range {stop : Extent} (hf : p.Follows N d places) (hrun : (Build.range stop).runOn p = (.ok h, p'))
    (hused : N.Uses [stop]) :
    Advanced N p d places h p' (d.define (.iota (stop.under N.value)) .int64 .rowMajor) := by
  obtain ⟨shape, var, hshape, hd⟩ := (Build.Outcome.range hf.wellFormed stop).of_runOn_ok hrun
  have hextents := Shape.extents_of_ofExtents hshape
  refine hf.define hd (by rw [hextents]; rfl) (fun _ => rfl) (hextents ▸ hused) Defines.no_domains
    fun parameters domains I o _ _ position hasked => ?_
  have hbinds := hd.binds parameters hasked rfl
  cases hbinds with
  | cons hx hrest =>
    cases hrest
    exact value?_var hx

theorem Follows.combineLiteral (op : Operator) {value : Literal} {literalFirst : Bool} (hf : p.Follows N d places)
    (ha : p.Renders N d places a r) (hrun : (Build.combineLiteral op a value literalFirst).runOn p = (.ok h, p')) :
    Advanced N p d places h p' (d.combineLiteral op r value.number literalFirst) := by
  obtain ⟨_, vars, hlen, hd⟩ :=
    (Build.Outcome.combineLiteral op hf.wellFormed (fun _ => ha.live) value literalFirst).of_runOn_ok hrun
  rw [Draft.combineLiteral, ← ha.elementType]
  refine hf.define hd ha.lengths ha.layout ha.used Defines.no_domains
    fun parameters domains I o _ hc position hasked => ?_
  have hbinds := hd.binds parameters hasked (hlen.trans ha.rank_eq)
  have helement := hc.value?_callAt hf.wellFormed ha (ha.lt hf.count) hbinds hasked
  dsimp only at helement ⊢
  cases literalFirst with
  | true =>
    rw [if_pos rfl, value?_apply_eq, value?_toExpr, helement]
    rfl
  | false =>
    rw [if_neg Bool.false_ne_true, value?_apply_eq, value?_toExpr, helement]
    change _ = (o.value r.value position).map fun y => op.number y value.number
    cases o.value r.value position <;> rfl

theorem Follows.defineCombined {op : Operator} {vars : List String} {lhs rhs : Expr} {shape : Shape}
    {elementType : ElementType} {layout layout' : Layout} (hf : p.Follows N d places)
    (hd : p.Defines ⟨vars, [], vars, op.apply lhs rhs, shape, elementType, layout⟩ h p')
    (hlengths : shape.extents.map (Extent.under N.value) = broadcastLengths r.lengths rb.lengths)
    (hlayout : (∀ e ∈ shape.extents, ∃ n, e = .fixed n) → layout = layout') (hlen : vars.length = shape.rank)
    (hused : N.Uses shape.extents)
    (hreads : ∀ parameters domains I o, p.Circumstances d places parameters domains places.length p.rules.size I o →
      ∀ env position, env.Binds vars position → Asked α (broadcastLengths r.lengths rb.lengths) position →
        I.value? lhs env = o.value r.value (Deferred.spreadTo r.lengths position) ∧
          I.value? rhs env = o.value rb.value (Deferred.spreadTo rb.lengths position)) :
    Advanced N p d places h p' (d.define (.combine op r rb) elementType layout') := by
  refine hf.define hd hlengths hlayout hused Defines.no_domains fun parameters domains I o _ hc position hasked => ?_
  have hbinds := hd.binds parameters hasked (by
    rw [Deferred.combine, ← hlengths, List.length_map]
    exact hlen)
  obtain ⟨hlhs, hrhs⟩ := hreads parameters domains I o hc _ position hbinds hasked
  rw [value?_apply_eq, hlhs, hrhs]
  rfl

section Spreading

theorem joinAxis_under {e f c : Extent} (hjoin : Shape.joinAxis e f = some c) :
    c.under N.value = (if e.under N.value = 1 then f.under N.value else e.under N.value) ∧ (e = c ∨ e = .fixed 1) ∧
      (f = c ∨ f = .fixed 1) := by
  unfold Shape.joinAxis at hjoin
  split at hjoin
  · rename_i hcond
    obtain rfl := Option.some.inj hjoin
    rcases hcond with rfl | hunit
    · exact ⟨by split <;> rfl, .inl rfl, .inl rfl⟩
    · obtain rfl : f = .fixed 1 := by simpa [Extent.isUnit] using hunit
      refine ⟨?_, .inl rfl, .inr rfl⟩
      split
      · assumption
      · rfl
  · split at hjoin
    · rename_i hunit
      obtain rfl := Option.some.inj hjoin
      obtain rfl : e = .fixed 1 := by simpa [Extent.isUnit] using hunit
      exact ⟨(if_pos rfl).symm, .inr rfl, .inl rfl⟩
    · cases hjoin

theorem joinAxes_under {axis : Nat} {es fs cs : List Extent} (hlen : es.length = fs.length)
    (hjoin : Shape.joinAxes axis es fs = .ok cs) :
    cs.map (Extent.under N.value) = List.zipWith (fun m n => if m = 1 then n else m) (es.map (Extent.under N.value))
        (fs.map (Extent.under N.value)) ∧
      List.Forall₂ (fun e c => e = c ∨ e = .fixed 1) es cs ∧ List.Forall₂ (fun f c => f = c ∨ f = .fixed 1) fs cs := by
  induction es generalizing axis fs cs with
  | nil =>
    cases fs with
    | cons _ _ => cases hlen
    | nil =>
      cases hjoin
      exact ⟨rfl, .nil, .nil⟩
  | cons e es ih =>
    cases fs with
    | nil => cases hlen
    | cons f fs =>
      rw [Shape.joinAxes] at hjoin
      split at hjoin
      · cases hjoin
      · rename_i c hc
        obtain ⟨hunder, he, hf⟩ := joinAxis_under (N := N) hc
        obtain ⟨rest, hrest, rfl⟩ := map_eq_ok hjoin
        obtain ⟨htail, hes, hfs⟩ := ih (Nat.succ.inj hlen) hrest
        exact ⟨by rw [List.map_cons, htail, hunder]; rfl, .cons he hes, .cons hf hfs⟩

theorem mem_joinAxes {axis : Nat} {es fs cs : List Extent} (hjoin : Shape.joinAxes axis es fs = .ok cs) :
    ∀ c ∈ cs, c ∈ es ∨ c ∈ fs := by
  induction es generalizing axis fs cs with
  | nil =>
    cases hjoin
    exact fun c hc => nomatch hc
  | cons e es ih =>
    cases fs with
    | nil =>
      cases hjoin
      exact fun c hc => nomatch hc
    | cons f fs =>
      rw [Shape.joinAxes] at hjoin
      split at hjoin
      · cases hjoin
      · rename_i c hc
        obtain ⟨rest, hrest, rfl⟩ := map_eq_ok hjoin
        refine List.forall_mem_cons.2 ⟨?_, fun c' hc' => (ih hrest c' hc').imp (List.mem_cons_of_mem _) (List.mem_cons_of_mem _)⟩
        unfold Shape.joinAxis at hc
        split at hc
        · exact .inl (Option.some.inj hc ▸ List.mem_cons_self)
        · split at hc
          · exact .inr (Option.some.inj hc ▸ List.mem_cons_self)
          · cases hc

theorem uses_of_broadcast {s t common : Shape} (hcommon : Shape.broadcast s t = .ok common) (hs : N.Uses s.extents)
    (ht : N.Uses t.extents) : N.Uses common.extents := by
  have hpadded : ∀ {s : Shape} {rank : Nat}, N.Uses s.extents → N.Uses (s.padTo rank) := by
    intro s rank hs e he
    rcases List.mem_append.1 he with he | he
    · rw [List.eq_of_mem_replicate he]
      exact N.count_one
    · exact hs e he
  intro e he
  rcases mem_joinAxes (Shape.broadcast_extents hcommon) e he with he | he
  · exact hpadded hs e he
  · exact hpadded ht e he

theorem padTo_under (rank : Nat) (s : Shape) :
    (s.padTo rank).map (Extent.under N.value) = alignTo rank (s.extents.map (Extent.under N.value)) := by
  rw [Shape.padTo, List.map_append, List.map_replicate, alignTo, List.length_map]
  rfl

def SpreadsTo (s common : Shape) : Prop :=
  List.Forall₂ (fun e c => e = c ∨ e = .fixed 1) s.extents (common.extents.drop (common.rank - s.rank))

theorem spreadsTo_of_padded {s common : Shape}
    (hpadded : List.Forall₂ (fun e c => e = c ∨ e = Extent.fixed 1) (s.padTo common.rank) common.extents) :
    SpreadsTo s common := by
  have hdrop := List.forall₂_drop (common.rank - s.rank) hpadded
  rwa [Shape.padTo, List.drop_left' (List.length_replicate)] at hdrop

theorem broadcast_under {s t common : Shape} (hcommon : Shape.broadcast s t = .ok common) :
    common.extents.map (Extent.under N.value) =
        broadcastLengths (s.extents.map (Extent.under N.value)) (t.extents.map (Extent.under N.value)) ∧
      SpreadsTo s common ∧ SpreadsTo t common := by
  have hrank := Shape.broadcast_rank hcommon
  have hlen : (s.padTo common.rank).length = (t.padTo common.rank).length := by
    rw [Shape.padTo_length (hrank ▸ Nat.le_max_left ..), Shape.padTo_length (hrank ▸ Nat.le_max_right ..)]
  have hjoin := Shape.broadcast_extents hcommon
  rw [← hrank] at hjoin
  obtain ⟨hunder, hs, ht⟩ := joinAxes_under (N := N) hlen hjoin
  refine ⟨?_, spreadsTo_of_padded hs, spreadsTo_of_padded ht⟩
  rw [hunder, padTo_under, padTo_under, broadcastLengths, List.length_map, List.length_map, hrank]
  rfl

variable [ExactOrigin α]

theorem position?_spreadIndex_under {env : Env} {extents commons : List Extent} {vars : List String} {position : List Int}
    (hspread : List.Forall₂ (fun e c => e = c ∨ e = .fixed 1) extents commons) (hbinds : env.Binds vars position)
    (hasked : Asked α (commons.map (Extent.under N.value)) position) :
    I.position? (Build.spreadIndex extents vars) env = some (clip (extents.map (Extent.under N.value)) position) ∧
      Asked α (extents.map (Extent.under N.value)) (clip (extents.map (Extent.under N.value)) position) := by
  induction hspread generalizing vars position with
  | nil =>
    cases hbinds with
    | nil => exact ⟨rfl, .nil⟩
    | cons _ _ => cases hasked
  | @cons e c extents commons hec _ ih =>
    cases hbinds with
    | nil => cases hasked
    | @cons v x vars position hv hbinds =>
      cases hasked with
      | cons hx hasked =>
        obtain ⟨hposition, hrest⟩ := ih hbinds hasked
        rw [Build.spreadIndex, List.map_cons, clip, position?_cons_eq, hposition]
        by_cases hunit : e = .fixed 1
        · subst hunit
          have hone : (Extent.fixed 1).under N.value = 1 := rfl
          rw [if_pos (show (Extent.fixed 1).isUnit = true from rfl), if_pos hone]
          refine ⟨?_, .cons ⟨fun _ => rfl, ExactOrigin.toIndex_ofInt_zero⟩ hrest⟩
          exact congrArg (fun y => some (y :: clip (extents.map (Extent.under N.value)) position))
            ExactOrigin.toIndex_ofInt_zero
        · obtain rfl := hec.resolve_right hunit
          have hclip : (if e.under N.value = 1 then 0 else x) = x := by
            split
            · rename_i hone
              exact (hx.1 hone).symm
            · rfl
          rw [if_neg (by simpa [Extent.isUnit] using hunit), hclip, value?_var hv]
          exact ⟨congrArg (fun y => some (y :: clip (extents.map (Extent.under N.value)) position)) hx.2, .cons hx hrest⟩

omit [ExactOrigin α] in
/-- The rule of a view belongs to no value of the draft. -/
theorem Spreads.follows {common : Shape} {left : Handle} {p₁ : Plan} (hf : p.Follows N d places)
    (hs : p.Spreads a common left p₁) : p₁.Follows N d places ∧ Outgrown p d places p₁ d places := by
  rcases hs with ⟨_, _, rfl⟩ | ⟨_, _, vars, _, hd⟩
  · exact ⟨hf, .refl p₁ d places⟩
  · have hadvances := hd.advances hf.wellFormed
    refine hf.alone hadvances.wellFormed hadvances.extends_ ?_ ?_ ?_ ?_ d.results
    all_goals
      rw [hd.grown]
      exact List.append_nil _

omit [ExactOrigin α] in
theorem Defines.value?_inlined {D : Definition} {h : Handle} {p₁ : Plan} (hd : p.Defines D h p₁) (hf : p.Follows N d places)
    (hq : p₁.Extends q) (hwf : q.WellFormed) (hindex : p₁.rules.size ≤ index)
    (hc : q.Circumstances d places parameters domains places.length index I o) {args : List Expr} {env : Env}
    {position : List Int} (hargs : I.position? args env = some position) (hlen : D.params.length = position.length)
    (hpos : 0 < position.length) :
    I.value? (q.callOf h.rule args) env = I.value? D.body (parameters.at D.params position) := by
  have hrule : p₁.rules.rules[p.rules.size]? = some ⟨h.rule, D.params, D.body⟩ := by
    rw [hd.grown]
    exact List.getElem?_concat_length
  have hsize : p.rules.size < p₁.rules.size := (List.getElem?_eq_some_iff.1 hrule).1
  have hrule := getElem?_of_append hq.rules hrule
  have hcall := hc.inlined _ _ (Nat.lt_of_lt_of_le hsize hindex) hrule
    (fun k j' _ hj' => hf.placed j' (List.mem_of_getElem? hj')) position
  have hfind := hwf.find?_of_mem (List.mem_of_getElem? hrule)
  dsimp only at hcall hfind
  have hne : (Rule.mk h.rule D.params D.body).arity ≠ 0 := by
    have harity : (Rule.mk h.rule D.params D.body).arity = D.params.length := rfl
    omega
  rw [if_pos hlen] at hcall
  rw [callOf, hfind]
  dsimp only
  rw [if_neg hne, value?_call_eq, hargs, Option.bind_some, hcall]

theorem Spreads.value? {common : Shape} {left : Handle} {p₁ : Plan} (hf : p.Follows N d places)
    (ha : p.Renders N d places a r) (hs : p.Spreads a common left p₁) (hspread : SpreadsTo a.shape common)
    (hq : p₁.Extends q) (hwf : q.WellFormed) (hindex : p₁.rules.size ≤ index)
    (hc : q.Circumstances d places parameters domains places.length index I o) {vars : List String} {env : Env}
    {position : List Int} (hbinds : env.Binds vars position)
    (hasked : Asked α (common.extents.map (Extent.under N.value)) position) :
    I.value? (q.callOf left.rule (vars.map .var)) env = o.value r.value (Deferred.spreadTo r.lengths position) := by
  have hout : p.Extends q := (hs.extends hf.wellFormed).trans hq
  have hg : Outgrown p d places q d places :=
    ⟨hout, ⟨[], (List.append_nil _).symm⟩, ⟨[], (List.append_nil _).symm⟩, [], (List.append_nil _).symm, by simp⟩
  have hargs : I.position? (vars.map .var) env = some position := by
    rw [position?_vars_rounded hbinds, hasked.rounded_eq]
  rcases hs with ⟨rfl, rfl, rfl⟩ | ⟨_, _, params, hlen, hd⟩
  · rw [ha.lengths] at hasked
    rw [hc.value?_callOf hwf (hg.renders ha) (ha.lt hf.count) hargs hasked, hasked.spreadTo_eq]
  -- the call is inlined, and the body reads the array at the index of the view
  · have hrank : position.length = common.rank := by
      rw [hasked.length_eq, List.length_map]
      rfl
    have hparams : (parameters.at params position).Binds params position :=
      Env.binds_at parameters hd.vars_nodup (hlen.trans hrank.symm)
    have hasked' := List.forall₂_drop (common.rank - a.rank) hasked
    rw [← List.map_drop] at hasked'
    obtain ⟨hposition, hreached⟩ := position?_spreadIndex_under (I := I) hspread
      (List.forall₂_drop (common.rank - a.rank) hparams) hasked'
    rw [ha.lengths] at hposition hreached
    rw [hd.value?_inlined hf hq hwf hindex hc hargs (hlen.trans hrank.symm) (hrank ▸ common.rank_pos)]
    rw [(hg.circumstances (Nat.le_refl _) hc).value?_callOf hf.wellFormed ha (ha.lt hf.count) hposition hreached,
      Deferred.spreadTo, hrank, ha.rank_eq]

omit [Scalar α] [ExactOrigin α] in
theorem fixed_of_spread {s common : Shape} (hspread : SpreadsTo s common)
    (hfixed : ∀ e ∈ common.extents, ∃ n, e = Extent.fixed n) : ∀ e ∈ s.extents, ∃ n, e = Extent.fixed n := by
  have hdropped : ∀ e ∈ common.extents.drop (common.rank - s.rank), ∃ n, e = Extent.fixed n :=
    fun e he => hfixed e (List.mem_of_mem_drop he)
  unfold SpreadsTo at hspread
  generalize common.extents.drop (common.rank - s.rank) = commons at hspread hdropped
  generalize s.extents = extents at hspread
  induction hspread with
  | nil => simp
  | cons hec _ ih =>
    intro e he
    rcases List.mem_cons.1 he with rfl | he
    · rcases hec with rfl | rfl
      · exact hdropped _ List.mem_cons_self
      · exact ⟨1, rfl⟩
    · exact ih (fun e he => hdropped e (List.mem_cons_of_mem _ he)) e he

omit [ExactOrigin α] in
theorem Advanced.after {p₁ : Plan} {d' : Draft α} (hg : Outgrown p d places p₁ d places)
    (hadvanced : Advanced N p₁ d places h p' d') : Advanced N p d places h p' d' := by
  obtain ⟨places', r, hf, hout, hresults, hrenders⟩ := hadvanced
  exact ⟨places', r, hf, hg.trans hout, hresults, hrenders⟩

omit [Scalar α] [ExactOrigin α] in
theorem Renders.lengths_unit (ha : p.Renders N d places a r) (hunit : a.shape = .unit) : r.lengths = [1] := by
  rw [← ha.lengths, hunit]
  rfl

omit [Scalar α] [ExactOrigin α] in
theorem Renders.lengths_ne_nil (ha : p.Renders N d places a r) : r.lengths ≠ [] := by
  rw [← ha.lengths]
  simpa using a.shape.extents_ne_nil

omit [Scalar α] [ExactOrigin α] in
theorem Renders.shape_unit (ha : p.Renders N d places a r) (hfixed : ∀ e ∈ a.shape.extents, ∃ n, e = .fixed n)
    (hone : r.lengths = [1]) : a.shape = .unit := by
  rw [← ha.lengths] at hone
  obtain ⟨e, hextents, hlength⟩ := List.map_eq_singleton_iff.1 hone
  obtain ⟨n, rfl⟩ := hfixed e (by rw [hextents]; exact List.mem_singleton_self e)
  obtain rfl : n = 1 := hlength
  cases hshape : a.shape
  rw [hshape] at hextents
  subst hextents
  rfl

omit [ExactOrigin α] in
theorem spreadTo_unit {lengths : List Nat} {position : List Int} (hne : lengths ≠ []) (hasked : Asked α lengths position) :
    Deferred.spreadTo [1] position = [0] := by
  have hpos := List.length_pos_iff.2 hne
  rw [← hasked.length_eq] at hpos
  obtain ⟨x, hx⟩ : ∃ x, position.drop (position.length - 1) = [x] :=
    List.length_eq_one_iff.1 (by rw [List.length_drop]; omega)
  rw [Deferred.spreadTo, List.length_singleton, hx]
  rfl

theorem Follows.combineArrays {h : Handle} (op : Operator) (hf : p.Follows N d places) (ha : p.Renders N d places a r)
    (hb : p.Renders N d places b rb) (hrun : (Build.combineArrays op a b).runOn p = (.ok h, p')) :
    Advanced N p d places h p' (d.combine op r rb) := by
  have hp := hf.wellFormed
  obtain ⟨_, _, hcombines⟩ := (Build.Outcome.combineArrays op hp (fun _ => ha.live) fun _ => hb.live).of_runOn_ok hrun
  rw [Draft.combine, ← ha.elementType]
  cases hcombines with
  | equal vars hshape hlen hd =>
    have hlengths : r.lengths = rb.lengths := by rw [← ha.lengths, ← hb.lengths, hshape]
    have hcommon : broadcastLengths r.lengths rb.lengths = r.lengths := by rw [← hlengths, Tensor.broadcastLengths_self]
    refine hf.defineCombined hd (by rw [hcommon]; exact ha.lengths) (fun hfixed => ?_) hlen ha.used
      fun parameters domains I o hc env position hbinds hasked => ?_
    · rw [if_neg (by rw [hlengths]; tauto)]
      exact ha.layout hfixed
    · rw [hcommon] at hasked
      have hasked' := hlengths ▸ hasked
      rw [hasked.spreadTo_eq, hasked'.spreadTo_eq]
      exact ⟨hc.value?_callAt hp ha (ha.lt hf.count) hbinds hasked, hc.value?_callAt hp hb (hb.lt hf.count) hbinds hasked'⟩
  | rightUnit vars hshape hbunit hlen hd =>
    have hone := hb.lengths_unit hbunit
    have hcommon : broadcastLengths r.lengths rb.lengths = r.lengths := by
      rw [hone, (Tensor.broadcastLengths_unit ha.lengths_ne_nil).1]
    refine hf.defineCombined hd (by rw [hcommon]; exact ha.lengths) (fun hfixed => ?_) hlen ha.used
      fun parameters domains I o hc env position hbinds hasked => ?_
    · rw [if_neg (by tauto)]
      exact ha.layout hfixed
    · rw [hcommon] at hasked
      rw [hasked.spreadTo_eq, hone, spreadTo_unit ha.lengths_ne_nil hasked]
      exact ⟨hc.value?_callAt hp ha (ha.lt hf.count) hbinds hasked, hc.value?_callAtOrigin hp hb (hb.lt hf.count) hone⟩
  | leftUnit vars hshape haunit hlen hd =>
    have hone := ha.lengths_unit haunit
    have hcommon : broadcastLengths r.lengths rb.lengths = rb.lengths := by
      rw [hone, (Tensor.broadcastLengths_unit hb.lengths_ne_nil).2]
    refine hf.defineCombined hd (by rw [hcommon]; exact hb.lengths) (fun hfixed => ?_) hlen hb.used
      fun parameters domains I o hc env position hbinds hasked => ?_
    · rw [if_pos ⟨hone, fun hone' => hshape (hb.shape_unit hfixed hone')⟩]
      exact hb.layout hfixed
    · rw [hcommon] at hasked
      rw [hasked.spreadTo_eq, hone, spreadTo_unit hb.lengths_ne_nil hasked]
      exact ⟨hc.value?_callAtOrigin hp ha (ha.lt hf.count) hone, hc.value?_callAt hp hb (hb.lt hf.count) hbinds hasked⟩
  | spread vars common left right p₁ p₂ haunit hbunit hcommon hleft hright hlen hd =>
    obtain ⟨hf₁, hg₁⟩ := hleft.follows hf
    obtain ⟨hf₂, hg₂⟩ := hright.follows hf₁
    obtain ⟨hunder, hspread, hspread'⟩ := broadcast_under (N := N) hcommon
    rw [ha.lengths, hb.lengths] at hunder
    have hshape := hleft.shape_eq
    obtain ⟨htype, hlayout⟩ := hleft.elementType_eq
    refine .after (hg₁.trans hg₂) ?_
    rw [← htype]
    refine hf₂.defineCombined hd (by rw [hshape]; exact hunder) (fun hfixed => ?_) (by rw [hlen, Handle.rank])
      (hshape ▸ uses_of_broadcast hcommon ha.used hb.used)
      fun parameters domains I o hc env position hbinds hasked => ?_
    · have hfixed := fixed_of_spread hspread (hshape ▸ hfixed)
      rw [if_neg fun hone => haunit (ha.shape_unit hfixed hone.1), hlayout]
      exact ha.layout hfixed
    · rw [← hunder] at hasked
      have hsize := hg₂.plan.size_le
      exact ⟨hleft.value? hf ha hspread hg₂.plan hf₂.wellFormed hsize hc hbinds hasked,
        hright.value? hf₁ (hg₁.renders hb) hspread' (.refl p₂) hf₂.wellFormed (Nat.le_refl _) hc hbinds hasked⟩

end Spreading

section Selecting

def StaysInUnit (N : Numbering) : Index Handle → Extent → Prop
  | .at position, e => e.under N.value = 1 → position = 0
  | _, _ => True

omit [Scalar α] in
theorem staysInUnit_of_readable {entry : Index Handle} {e : Extent} (hreadable : entry.Readable e)
    (hwithin : entry.WithinUnits N.value e) : StaysInUnit N entry e := by
  cases entry with
  | «at» position =>
    cases e with
    | fixed n =>
      intro hone
      have hlt : position < n := hreadable
      have hone : n = 1 := hone
      omega
    | symbolic name => exact hwithin
  | _ => trivial

omit [Scalar α] in
theorem keptOf_under (index : List (Index Handle)) (extents : List Extent) :
    (selectedExtents index extents).map (Extent.under N.value) =
      Deferred.keptOf (index.map Index.position?) (extents.map (Extent.under N.value)) := by
  induction index generalizing extents with
  | nil => cases extents <;> rfl
  | cons entry index ih =>
    cases extents with
    | nil => cases entry <;> rfl
    | cons e extents =>
      cases entry with
      | «at» position => exact ih extents
      | _ => exact congrArg (e.under N.value :: ·) (ih extents)

theorem position?_selectedArgs_under [ExactOrigin α] [StableIndices α] {env : Env} {index : List (Index Handle)}
    {extents : List Extent} (hlen : index.length = extents.length)
    (hwithin : ∀ e ∈ index.zip extents, StaysInUnit N e.1 e.2) {vars : List String} {position : List Int} (rest : List Int)
    (hbinds : env.Binds vars position)
    (hasked : Asked α (Deferred.keptOf (index.map Index.position?) (extents.map (Extent.under N.value))) position) :
    I.position? (selectedArgs index vars) env =
        some (Deferred.selectedAt α (index.map Index.position?) (position ++ rest)) ∧
      Asked α (extents.map (Extent.under N.value))
        (Deferred.selectedAt α (index.map Index.position?) (position ++ rest)) := by
  induction index generalizing extents vars position with
  | nil =>
    cases extents with
    | nil => exact ⟨rfl, .nil⟩
    | cons _ _ => cases hlen
  | cons entry index ih =>
    cases extents with
    | nil => cases hlen
    | cons e extents =>
      have hhead := hwithin (entry, e) List.mem_cons_self
      have htail : ∀ e ∈ index.zip extents, StaysInUnit N e.1 e.2 := fun e he => hwithin e (List.mem_cons_of_mem _ he)
      have hkept : ∀ {entry : Index Handle}, entry.position? = none →
          (∀ v vars, selectedArgs (entry :: index) (v :: vars) = .var v :: selectedArgs index vars) →
          Asked α (Deferred.keptOf ((entry :: index).map Index.position?) ((e :: extents).map (Extent.under N.value)))
            position →
          I.position? (selectedArgs (entry :: index) vars) env =
              some (Deferred.selectedAt α ((entry :: index).map Index.position?) (position ++ rest)) ∧
            Asked α ((e :: extents).map (Extent.under N.value))
              (Deferred.selectedAt α ((entry :: index).map Index.position?) (position ++ rest)) := by
        intro entry hnone hargs hentry
        rw [List.map_cons, List.map_cons, hnone] at hentry ⊢
        cases hentry with
        | @cons _ x _ position hx hrest =>
          cases hbinds with
          | @cons v _ vars _ hv hvars =>
            obtain ⟨hposition, hreached⟩ := ih (Nat.succ.inj hlen) htail hvars hrest
            rw [hargs, position?_cons_eq, value?_var hv, hposition]
            exact ⟨congrArg (fun y => some (y :: Deferred.selectedAt α (index.map Index.position?) (position ++ rest))) hx.2,
              .cons hx hreached⟩
      cases entry with
      | «at» place =>
        obtain ⟨hposition, hreached⟩ := ih (Nat.succ.inj hlen) htail hbinds hasked
        rw [selectedArgs, position?_cons_eq, hposition]
        refine ⟨rfl, .cons ⟨fun hone => ?_, StableIndices.toIndex_ofInt_toIndex _⟩ hreached⟩
        obtain rfl : place = 0 := hhead hone
        exact ExactOrigin.toIndex_ofInt_zero
      | all => exact hkept rfl (fun _ _ => rfl) hasked
      | slice start stop step => exact hkept rfl (fun _ _ => rfl) hasked
      | gather positions => exact hkept rfl (fun _ _ => rfl) hasked

theorem kept_under {shape : Shape} {extents : List Extent}
    (hshape : if extents = [] then shape = .unit else shape.extents = extents) :
    shape.extents.map (Extent.under N.value) = keptLengths (extents.map (Extent.under N.value)) := by
  by_cases hnil : extents = []
  · rw [if_pos hnil] at hshape
    rw [hshape, hnil]
    rfl
  · rw [if_neg hnil] at hshape
    rw [hshape, keptLengths, if_neg (by simpa using hnil)]

theorem uses_of_kept {shape : Shape} {extents : List Extent}
    (hshape : if extents = [] then shape = .unit else shape.extents = extents) (hused : N.Uses extents) :
    N.Uses shape.extents := by
  split at hshape
  · rw [hshape]
    exact N.uses_unit
  · rwa [hshape]

theorem uses_of_selected {index : List (Index Handle)} {extents : List Extent} (hused : N.Uses extents) :
    N.Uses (selectedExtents index extents) := by
  induction index generalizing extents with
  | nil => cases extents <;> exact fun e he => nomatch he
  | cons entry index ih =>
    cases extents with
    | nil => cases entry <;> exact fun e he => nomatch he
    | cons f extents =>
      obtain ⟨hfirst, hrest⟩ := List.forall_mem_cons.1 hused
      cases entry with
      | «at» position => exact ih hrest
      | _ => exact List.forall_mem_cons.2 ⟨hfirst, ih hrest⟩

theorem Asked.of_kept {lengths : List Nat} {position : List Int} (hasked : Asked α (keptLengths lengths) position) :
    ∃ kept rest, position = kept ++ rest ∧ Asked α lengths kept := by
  by_cases hnil : lengths = []
  · subst hnil
    exact ⟨[], position, rfl, .nil⟩
  · rw [keptLengths, if_neg hnil] at hasked
    exact ⟨position, [], (List.append_nil _).symm, hasked⟩

theorem Follows.select {h : Handle} [ExactOrigin α] [StableIndices α] {index : List (Index Handle)}
    (hf : p.Follows N d places) (ha : p.Renders N d places a r)
    (hwithin : ∀ e ∈ index.zip a.shape.extents, e.1.WithinUnits N.value e.2)
    (hrun : (Build.select a index).runOn p = (.ok h, p')) :
    Advanced N p d places h p' (d.define (.select r (index.map Index.position?)) r.elementType .rowMajor) := by
  obtain ⟨_, hcount, hreadable, vars, shape, hvars, hshape, hd⟩ :=
    (Build.Outcome.select hf.wellFormed (fun _ => ha.live) index).of_runOn_ok hrun
  have hlengths : shape.extents.map (Extent.under N.value) =
      keptLengths (Deferred.keptOf (index.map Index.position?) r.lengths) := by
    rw [kept_under hshape, keptOf_under, ha.lengths]
  rw [← ha.elementType]
  refine hf.define hd hlengths (fun _ => rfl) (uses_of_kept hshape (uses_of_selected ha.used)) Defines.no_domains
    fun parameters domains I o _ hc position hasked => ?_
  obtain ⟨kept, rest, rfl, hkept⟩ := Asked.of_kept hasked
  have hlen : vars.length = kept.length := by
    rw [hvars, hkept.length_eq, ← ha.lengths, ← keptOf_under, List.length_map]
  have hbinds : (parameters.at vars (kept ++ rest)).Binds vars kept := by
    rw [Env.at_append parameters hlen]
    exact Env.binds_at parameters hd.vars_nodup hlen
  rw [← ha.lengths] at hkept
  obtain ⟨hposition, hreached⟩ := position?_selectedArgs_under (I := I) hcount
    (fun e he => staysInUnit_of_readable (hreadable e he) (hwithin e he)) rest hbinds hkept
  rw [ha.lengths] at hreached
  exact hc.value?_callOf hf.wellFormed ha (ha.lt hf.count) hposition hreached

end Selecting

section Reshaping

variable {env : Env} {vars : List String} {position : List Int}

theorem values?_lineTerms (hbinds : env.Binds vars position) (lengths strides : List Nat) :
    I.values? (linearTerms vars lengths strides) env = some (Deferred.lineTerms position lengths strides) := by
  induction hbinds generalizing lengths strides with
  | nil => rfl
  | @cons v x vars position hv _ ih =>
    cases lengths with
    | nil => rfl
    | cons n lengths =>
      cases strides with
      | nil => rfl
      | cons stride strides =>
        have hrest := ih lengths strides
        have hvar : I.value? (.var v) env = some (Scalar.ofInt x) := value?_var hv
        simp only [linearTerms, Deferred.lineTerms]
        split
        · exact hrest
        · split
          · rw [values?, hvar, hrest]
            rfl
          · rw [values?, value?, hvar, hrest]
            rfl

theorem value?_lineSum {terms : List Expr} {xs : List α} {term : Expr} {x : α} (hterm : I.value? term env = some x)
    (hterms : I.values? terms env = some xs) :
    I.value? (terms.foldl (.arith .add) term) env = some (xs.foldl Scalar.add x) := by
  induction terms generalizing term x xs with
  | nil =>
    cases hterms
    exact hterm
  | cons e terms ih =>
    simp only [values?] at hterms
    obtain ⟨y, he, hterms⟩ := Option.bind_eq_some_iff.1 hterms
    obtain ⟨ys, hys, rfl⟩ := Option.map_eq_some_iff.1 hterms
    rw [List.foldl_cons, List.foldl_cons]
    refine ih ?_ hys
    rw [value?, hterm, he]
    rfl

theorem value?_lineAt (hbinds : env.Binds vars position) (lengths strides : List Nat) :
    I.value? (linearIndex vars lengths strides) env = some (Deferred.lineAt position lengths strides) := by
  have hterms := values?_lineTerms (I := I) hbinds lengths strides
  rw [linearIndex, Deferred.lineAt]
  generalize linearTerms vars lengths strides = terms at hterms
  generalize (Deferred.lineTerms position lengths strides : List α) = sums at hterms
  cases terms with
  | nil =>
    cases hterms
    rfl
  | cons term terms =>
    simp only [values?] at hterms
    obtain ⟨x, hterm, hterms⟩ := Option.bind_eq_some_iff.1 hterms
    obtain ⟨xs, hxs, hsame⟩ := Option.map_eq_some_iff.1 hterms
    rw [← hsame]
    exact value?_lineSum hterm hxs

theorem value?_positionAt {line : Expr} {x : α} (hline : I.value? line env = some x) (total length stride : Nat) :
    I.value? (axisPosition line total length stride) env = some (Deferred.positionAt x total length stride) := by
  simp only [axisPosition, Deferred.positionAt]
  split
  · rfl
  · have houter : I.value? (if stride = 1 then line else .arith .floorDiv line (.int (Word.signed stride))) env =
        some (if stride = 1 then x else Scalar.floorDiv x (Scalar.ofInt (Word.signed stride))) := by
      split
      · exact hline
      · rw [value?, hline]
        rfl
    split
    · exact houter
    · rw [value?, houter]
      rfl

theorem position?_indexAtLine_eq [ExactOrigin α] [StableIndices α] {line : Expr} {x : α}
    (hline : I.value? line env = some x) (total : Nat) {lengths strides : List Nat} (hlen : lengths.length = strides.length) :
    I.position? (indexAtLine line total lengths strides) env = some ((lengths.zip strides).map fun axis =>
        Scalar.toIndex (Deferred.positionAt x total axis.1 axis.2)) ∧
      Asked α lengths ((lengths.zip strides).map fun axis =>
        Scalar.toIndex (Deferred.positionAt x total axis.1 axis.2)) := by
  induction lengths generalizing strides with
  | nil => exact ⟨rfl, .nil⟩
  | cons n lengths ih =>
    cases strides with
    | nil => cases hlen
    | cons stride strides =>
      obtain ⟨hposition, hreached⟩ := ih (Nat.succ.inj hlen)
      refine ⟨?_, .cons ⟨fun hone => ?_, StableIndices.toIndex_ofInt_toIndex _⟩ hreached⟩
      · have hcons := position?_cons (value?_positionAt hline total n stride) hposition
        exact hcons
      · dsimp only
        rw [hone]
        exact ExactOrigin.toIndex_ofInt_zero

theorem Follows.reshape [ExactOrigin α] [StableIndices α] {h : Handle} {extents : List Extent} {layout : Layout}
    (hf : p.Follows N d places) (ha : p.Renders N d places a r)
    (hrun : (Build.reshape a extents layout).runOn p = (.ok h, p')) (hused : N.Uses extents) :
    Advanced N p d places h p'
      (d.define (.reshape r (extents.map (Extent.under N.value)) layout) r.elementType layout) := by
  obtain ⟨_, shape, lengths, sources, vars, rfl, hlengths, hsources, _, hlen, hd⟩ :=
    (Build.Outcome.reshape hf.wellFormed (fun _ => ha.live) extents layout).of_runOn_ok hrun
  have hfixed : ∀ {s : Shape} {ns : List Nat}, s.lengths? = some ns → s.extents.map (Extent.under N.value) = ns := by
    intro s ns hs
    rw [Shape.lengths?_eq_some.1 hs, List.map_map]
    exact List.map_id ns
  obtain rfl : r.lengths = sources := by rw [← ha.lengths, hfixed hsources]
  have hlayout : a.layout = r.layout := ha.layout (Shape.fixed_of_lengths? hsources)
  rw [← ha.elementType]
  refine hf.define hd rfl (fun _ => rfl) hused Defines.no_domains
    fun parameters domains I o _ hc position hasked => ?_
  rw [Deferred.reshape, hfixed hlengths] at hasked ⊢
  have hbinds := hd.binds parameters hasked hlen
  have hline := value?_lineAt (I := I) hbinds lengths (layout.strides lengths)
  obtain ⟨hposition, hreached⟩ := position?_indexAtLine_eq hline (elementCount r.lengths)
    (Layout.length_strides r.layout r.lengths).symm
  rw [hlayout]
  exact hc.value?_callOf hf.wellFormed ha (ha.lt hf.count) hposition hreached

end Reshaping

end Operations

end Plan

end ArrayPlan
