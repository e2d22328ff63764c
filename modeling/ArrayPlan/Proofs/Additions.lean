import ArrayPlan.Proofs.Histories
import ArrayPlan.Proofs.Reachable

/-!
What operations add to accounted plans. An operation that is no write adds an array with a tensor of its own. The
account can be extended by this tensor if the operands are known, and by its axis lengths in any case.
-/

namespace ArrayPlan

variable {α : Type} [Scalar α]

/-- The operation left a plan in which the handle has the tensor, and kept the arrays that there were. -/
structure Plan.Adds (p : Plan) (account : Account α) (data : String → Array α) (h : Handle) (p' : Plan) (t : Tensor α)
    (known : Prop) : Prop where
  leaves : p.Leaves p'
  wellFormed : p'.WellFormed
  live : p'.Live h
  describes : t.Describes h
  accounted : ∀ c : Cell α, c.Means t known → ∃ account', account.AgreesOn account' p.rules.rules ∧
    account' h.rule = c ∧ p'.Accounted account' data ∧ (account.Open → c.value = none → account'.Open) ∧
      (known → c.value = none → p'.Subject account' data h t [])

section Adds

variable {p p' : Plan} {account : Account α} {data : String → Array α} {a b h : Handle} {t ta tb : Tensor α}
  {known known' : Prop}

theorem Plan.Adds.mono (ha : p.Adds account data h p' t known) (himp : known' → known) :
    p.Adds account data h p' t known' where
  leaves := ha.leaves
  wellFormed := ha.wellFormed
  live := ha.live
  describes := ha.describes
  accounted c hc := by
    have hmeans : c.Means t known := ⟨hc.lengths, fun f hf => (hc.value f hf).imp_left himp⟩
    obtain ⟨account', hagrees, hcell, hacc, hopen, hsubject⟩ := ha.accounted c hmeans
    exact ⟨account', hagrees, hcell, hacc, hopen, fun hk => hsubject (himp hk)⟩

theorem Plan.Adds.after {p₁ : Plan} {account₁ : Account α} (hleaves : p.Leaves p₁)
    (hagrees : account.AgreesOn account₁ p.rules.rules) (hopens : account.Open → account₁.Open)
    (ha : p₁.Adds account₁ data h p' t known) : p.Adds account data h p' t known where
  leaves := hleaves.trans ha.leaves
  wellFormed := ha.wellFormed
  live := ha.live
  describes := ha.describes
  accounted c hc := by
    obtain ⟨account', hagrees', hcell, hacc, hopen, hsubject⟩ := ha.accounted c hc
    obtain ⟨later, hlater⟩ := hleaves.extends_.rules
    refine ⟨account', fun r hr => ?_, hcell, hacc, fun h => hopen (hopens h), hsubject⟩
    rw [hagrees' r (hlater ▸ List.mem_append_left later hr), hagrees r hr]

omit [Scalar α] in
theorem means_element (t : Tensor α) (hk : known) : (⟨t.lengths, some t.element⟩ : Cell α).Means t known :=
  ⟨rfl, fun _ hf => ⟨hk, fun _ _ => by rw [Option.some.inj hf]⟩⟩

theorem Plan.Defines.adds {d : Definition} (hp : p.WellFormed) (hacc : p.Accounted account data)
    (hd : p.Defines d h p') (hlengths : d.shape.lengths? = some t.lengths) (htype : t.elementType = d.elementType)
    (hlayout : t.layout = d.layout)
    (hcomputes : ∀ c : Cell α, c.Means t known →
      (Rule.mk h.rule d.params d.body).Computes account p'.domains p.rules.rules c) :
    p.Adds account data h p' t known := by
  have hfits := hd.growth_fits
  have hleaves : p.Leaves p' :=
    hd.grown ▸ leaves_grow hp hfits (by simp [Definition.growth]) (by simp [Definition.growth])
  have hhandle := hd.handle
  refine ⟨hleaves, hd.wellFormed hp, hd.live hp, ⟨?_, ?_, ?_⟩, fun c hmeans => ?_⟩
  · rw [hhandle, hlengths]
  · rw [hhandle, htype]
  · rw [hhandle, hlayout]
  · have hagrees : account.AgreesOn (account.set h.rule c) p.rules.rules := agreesOn_set hp hfits.draws (by simp) c
    refine ⟨_, hagrees, account.set_self h.rule c, hacc.define hp hd (hcomputes c hmeans),
      fun hopen hnone => hopen.set hnone h.rule, fun hk hnone => ?_⟩
    have hnew : h.rule ∉ ruleNames p.rules.rules := fun hmem =>
      hfits.draws.unused h.rule (by simp) (hp.rules_taken h.rule hmem)
    have hrules : p'.rules.rules = p.rules.rules ++ [⟨h.rule, d.params, d.body⟩] := by
      rw [hd.grown]
      rfl
    have hunbacked : p'.backing.array? h.rule = none := by
      obtain ⟨later, hlater, hfresh⟩ := hleaves.backing
      have hentries : p'.backing.entries = p.backing.entries := by
        rw [hd.grown]
        simp [grow, Definition.growth]
      have hnot : h.rule ∉ p'.backing.entries.map Prod.fst := by
        rw [hentries]
        exact Build.Outcome.not_mem_backed_of_draws hp hfits.draws (by simp)
      rw [BackingTable.array?, BackingTable.find?_eq_none_iff.2 hnot]
      rfl
    refine .unwritten hunbacked (by rw [Account.set_self, hnone]) (i := p.rules.rules.length)
      (r := ⟨h.rule, d.params, d.body⟩) (by simp [hrules]) rfl ?_
    rw [hrules, List.take_left]
    exact fun I hI => hcomputes _ (means_element t hk) I (hI.congr hagrees)

theorem Plan.Defines.vars_nodup {d : Definition} (hd : p.Defines d h p') : d.drawn.Nodup :=
  (List.nodup_append.1 hd.draws.nodup).1

theorem adds_full {extents : List Extent} {value : Literal} {elementType : ElementType} {lengths : List Nat}
    (hp : p.WellFormed) (hacc : p.Accounted account data)
    (hrun : (Build.full extents value elementType).runOn p = (.ok h, p')) (hlengths : h.shape.lengths? = some lengths) :
    extents.mapM Extent.length? = some lengths ∧
      p.Adds account data h p' (.full lengths elementType (value.numberAs elementType)) True := by
  obtain ⟨shape, v, vars, hshape, hcast, _, hdef⟩ := (Build.Outcome.full hp extents value elementType).of_runOn_ok hrun
  rw [hdef.handle] at hlengths
  refine ⟨?_, hdef.adds hp hacc hlengths rfl rfl fun c hmeans => computes_full hdef.vars_nodup hcast hmeans⟩
  rw [← Shape.extents_of_ofExtents hshape]
  exact hlengths

theorem adds_range {stop : Extent} {lengths : List Nat} (hp : p.WellFormed) (hacc : p.Accounted account data)
    (hrun : (Build.range stop).runOn p = (.ok h, p')) (hlengths : h.shape.lengths? = some lengths) :
    ∃ n, stop = .fixed n ∧ p.Adds account data h p' (.iota n) True := by
  obtain ⟨shape, var, hshape, hdef⟩ := (Build.Outcome.range hp stop).of_runOn_ok hrun
  rw [hdef.handle] at hlengths
  have hextents := Shape.lengths?_eq_some.1 hlengths
  rw [Shape.extents_of_ofExtents hshape] at hextents
  obtain ⟨n, rest, hcons, hstop, hrest⟩ := List.map_eq_cons_iff.1 hextents.symm
  rw [hcons, List.map_eq_nil_iff.1 hrest] at hlengths
  exact ⟨n, hstop.symm, hdef.adds hp hacc hlengths rfl rfl fun c hmeans => computes_range hmeans⟩

variable [ExactIndices α]

theorem adds_combineLiteral (op : Operator) (value : Literal) (literalFirst : Bool) (hp : p.WellFormed)
    (hacc : p.Accounted account data) (ha : p.Accounts account a ta)
    (hbound : (elementCount ta.lengths : Int) ≤ indexBound)
    (hrun : (Build.combineLiteral op a value literalFirst).runOn p = (.ok h, p')) :
    p.Adds account data h p' (ta.combineLiteral op value.number literalFirst) (account.Knows a ta) := by
  obtain ⟨_, vars, hlen, hdef⟩ :=
    (Build.Outcome.combineLiteral op hp (fun _ => ha.live) value literalFirst).of_runOn_ok hrun
  refine hdef.adds hp hacc ha.describes.lengths ?_ ha.describes.layout fun c hmeans => ?_
  · exact congrArg op.resultType ha.describes.elementType
  · exact computes_combineLiteral op value literalFirst hdef.vars_nodup hlen ha hbound hmeans

omit [Scalar α] [ExactIndices α] in
theorem lengths?_of_kept {shape : Shape} {lengths : List Nat}
    (h : if lengths.map Extent.fixed = [] then shape = .unit else shape.extents = lengths.map .fixed) :
    shape.lengths? = some (keptLengths lengths) := by
  rw [keptLengths]
  by_cases hnone : lengths = []
  · subst hnone
    rw [if_pos (List.map_nil ..)] at h
    rw [if_pos rfl, h]
    rfl
  · rw [if_neg (by simpa using hnone)] at h
    rw [if_neg hnone]
    exact Shape.lengths?_eq_some.2 h

theorem adds_select {entries : List (Index Handle)} (hp : p.WellFormed) (hacc : p.Accounted account data)
    (ha : p.Accounts account a ta) (hbound : (elementCount ta.lengths : Int) ≤ indexBound)
    (hrun : (Build.select a entries).runOn p = (.ok h, p')) :
    p.Adds account data h p' (ta.select entries) (account.Knows a ta) := by
  obtain ⟨_, hcount, hreadable, vars, shape, hlen, hshape, hdef⟩ :=
    (Build.Outcome.select hp (fun _ => ha.live) entries).of_runOn_ok hrun
  have hextents := Shape.lengths?_eq_some.1 ha.describes.lengths
  rw [hextents, selectedExtents_fixed, List.length_map] at hlen
  rw [hextents, selectedExtents_fixed] at hshape
  refine hdef.adds hp hacc (lengths?_of_kept hshape) ha.describes.elementType rfl fun c hmeans => ?_
  exact computes_select hdef.vars_nodup ha (hcount.trans ha.describes.length_eq.symm) hreadable hlen ha.describes.pos
    hbound hmeans

theorem adds_reshape {extents : List Extent} {layout : Layout} (hp : p.WellFormed) (hacc : p.Accounted account data)
    (ha : p.Accounts account a ta) (hbound : (elementCount ta.lengths : Int) ≤ indexBound)
    (hrun : (Build.reshape a extents layout).runOn p = (.ok h, p')) :
    ∃ lengths, extents.mapM Extent.length? = some lengths ∧
      p.Adds account data h p' (ta.reshape lengths layout) (account.Knows a ta) := by
  obtain ⟨_, shape, lengths, sourceLengths, vars, hsame, hlengths, hsource, hcount, hlen, hdef⟩ :=
    (Build.Outcome.reshape hp (fun _ => ha.live) extents layout).of_runOn_ok hrun
  obtain rfl : ta.lengths = sourceLengths := Option.some.inj (ha.describes.lengths.symm.trans hsource)
  have hvars : vars ≠ [] := by
    have hrank := shape.rank_pos
    have hshape := Shape.length_of_lengths? hlengths
    exact List.ne_nil_of_length_pos (by omega)
  refine ⟨lengths, hsame ▸ hlengths, hdef.adds hp hacc hlengths ha.describes.elementType rfl fun c hmeans => ?_⟩
  exact computes_reshape hdef.vars_nodup hvars ha hcount ha.describes.pos hbound hmeans

theorem adds_sum {axes : Option (List Nat)} (hp : p.WellFormed) (hacc : p.Accounted account data)
    (ha : p.Accounts account a ta) (hbound : (elementCount ta.lengths : Int) ≤ indexBound)
    (hrun : (Build.sum a axes).runOn p = (.ok h, p')) :
    p.Adds account data h p' (ta.sum axes) (account.Knows a ta) := by
  obtain ⟨_, _, vars, shape, hlen, hshape, hdef⟩ :=
    (Build.Outcome.sum hp (fun _ => ha.live) axes).of_runOn_ok hrun
  have hrank : vars.length = (ta.lengths.map Extent.fixed).length := by
    rw [List.length_map, hlen, ha.describes.length_eq]
  have hextents := Shape.lengths?_eq_some.1 ha.describes.lengths
  have hfst : ∀ test : Nat → Bool, (axesWhere test (vars.zip a.shape.extents)).map Prod.fst = pick test 0 vars := by
    intro test
    rw [axesWhere_eq_pick, ← pick_map, hextents, List.map_fst_zip (Nat.le_of_eq hrank)]
  have hsnd : ∀ test : Nat → Bool, (axesWhere test (vars.zip a.shape.extents)).map Prod.snd =
      (pick test 0 ta.lengths).map Extent.fixed := by
    intro test
    rw [axesWhere_eq_pick, ← pick_map, hextents, List.map_snd_zip (Nat.le_of_eq hrank.symm), pick_map]
  have hempty : (axesWhere (Build.isReduced axes) (vars.zip a.shape.extents)).isEmpty =
      (pick (Build.isReduced axes) 0 vars).isEmpty := by
    rw [← hfst, List.isEmpty_map]
  rw [hfst, hfst, hempty] at hdef
  rw [hsnd] at hshape
  have hdomains := (hdef.wellFormed hp).vars_nodup
  have hbox : .box (vars.zip a.shape.extents) ∈ p'.domains := by
    rw [hdef.grown]
    exact List.mem_append_right p.domains List.mem_cons_self
  refine hdef.adds hp hacc (lengths?_of_kept hshape) ha.describes.elementType rfl fun c hmeans => ?_
  exact computes_sum axes hlen hdef.vars_nodup ha hdomains hbox ha.describes.pos hbound hmeans

omit [ExactIndices α] in
theorem Plan.Defines.adds_combine {vars : List String} {op : Operator} {lhs rhs : Expr} {shape : Shape}
    {elementType : ElementType} {layout : Layout} (hp : p.WellFormed) (hacc : p.Accounted account data)
    (hdef : p.Defines ⟨vars, [], vars, op.apply lhs rhs, shape, elementType, layout⟩ h p')
    (hlengths : shape.lengths? = some (ta.combine op tb).lengths) (htype : (ta.combine op tb).elementType = elementType)
    (hlayout : (ta.combine op tb).layout = layout) (hlen : vars.length = shape.rank)
    (hlhs : ReadsSpread lhs account p'.domains p.rules.rules vars (broadcastLengths ta.lengths tb.lengths) a ta)
    (hrhs : ReadsSpread rhs account p'.domains p.rules.rules vars (broadcastLengths ta.lengths tb.lengths) b tb) :
    p.Adds account data h p' (ta.combine op tb) (account.Knows a ta ∧ account.Knows b tb) := by
  have hvars : vars ≠ [] := by
    have hrank := shape.rank_pos
    exact List.ne_nil_of_length_pos (by omega)
  refine hdef.adds hp hacc hlengths htype hlayout fun c hmeans => ?_
  exact computes_combine op hdef.vars_nodup hvars hlhs hrhs hmeans

theorem Plan.Defines.adds_equal {vars : List String} {op : Operator} (hp : p.WellFormed)
    (hacc : p.Accounted account data) (ha : p.Accounts account a ta) (hb : p.Accounts account b tb)
    (hbound : (elementCount ta.lengths : Int) ≤ indexBound) (hshape : a.shape = b.shape) (hlen : vars.length = a.rank)
    (hdef : p.Defines ⟨vars, [], vars, op.apply (p.callOf a.rule (vars.map .var)) (p.callOf b.rule (vars.map .var)),
      a.shape, op.resultType a.elementType, a.layout⟩ h p') :
    p.Adds account data h p' (ta.combine op tb) (account.Knows a ta ∧ account.Knows b tb) := by
  have hsame : ta.lengths = tb.lengths := by
    have hlengths := ha.describes.lengths
    rw [hshape, hb.describes.lengths] at hlengths
    exact (Option.some.inj hlengths).symm
  have hbroadcast : broadcastLengths ta.lengths tb.lengths = ta.lengths := by
    rw [← hsame, Tensor.broadcastLengths_self]
  refine hdef.adds_combine hp hacc ?_ ?_ ?_ hlen ?_ ?_
  · rw [Tensor.combine, hbroadcast]
    exact ha.describes.lengths
  · exact congrArg op.resultType ha.describes.elementType
  · rw [Tensor.combine, if_neg (by rw [hsame]; exact fun h => h.2 h.1)]
    exact ha.describes.layout
  · rw [hbroadcast]
    exact readsSpread_vars ha hbound vars
  · rw [hbroadcast, hsame]
    exact readsSpread_vars hb (hsame ▸ hbound) vars

theorem Plan.Spreads.reads {p₁ : Plan} {left : Handle} {common : Shape} {lengths : List Nat} (hp : p.WellFormed)
    (hacc : p.Accounted account data) (hs : p.Spreads a common left p₁) (ha : p.Accounts account a ta)
    (hcommon : common.lengths? = some lengths)
    (hspread : Tensor.AxesSpread (alignTo lengths.length ta.lengths) lengths)
    (hbound : (elementCount lengths : Int) ≤ indexBound) : ∃ account₁ tl, p.Leaves p₁ ∧
      account.AgreesOn account₁ p.rules.rules ∧ p₁.Accounted account₁ data ∧ p₁.Accounts account₁ left tl ∧
        tl.lengths = lengths ∧ (account.Open → account₁.Open) ∧ (account.Knows a ta → account₁.Knows left tl) ∧
          ∀ index, InBox index lengths → tl.element index = ta.spreadAt index := by
  rcases hs with ⟨hshape, rfl, rfl⟩ | ⟨_, _, vars, hlen, hdef⟩
  · have hlengths : ta.lengths = lengths := by
      have hsame := ha.describes.lengths
      rw [hshape, hcommon] at hsame
      exact (Option.some.inj hsame).symm
    refine ⟨account, ta, .refl _, fun _ _ => rfl, hacc, ha, hlengths, fun h => h, fun h => h, fun index hindex => ?_⟩
    rw [Tensor.spreadAt_of_inBox (hlengths ▸ hindex)]
  · have hadds : p.Adds account data left p₁ (ta.spreadTo lengths) (account.Knows a ta) :=
      hdef.adds hp hacc hcommon ha.describes.elementType ha.describes.layout fun c hmeans =>
        computes_spread hdef.vars_nodup hlen ha hcommon hspread hbound hmeans
    have hcell : ∃ c : Cell α, c.Means (ta.spreadTo lengths) (account.Knows a ta) ∧
        (account.Open → c.value = none) ∧ (account.Knows a ta → c.value = some (ta.spreadTo lengths).element) := by
      by_cases hk : account.Knows a ta
      · refine ⟨_, means_element _ hk, fun hopen => ?_, fun _ => rfl⟩
        cases (hopen a.rule).symm.trans hk
      · exact ⟨⟨lengths, none⟩, ⟨rfl, by simp⟩, fun _ => rfl, fun h => absurd h hk⟩
    obtain ⟨c, hmeans, hnone, hknows⟩ := hcell
    obtain ⟨account₁, hagrees, rfl, hacc₁, hopen, _⟩ := hadds.accounted c hmeans
    exact ⟨account₁, _, hadds.leaves, hagrees, hacc₁, ⟨hadds.live, hadds.describes, hmeans.lengths⟩, rfl,
      fun h => hopen h (hnone h), hknows, fun _ _ => rfl⟩

theorem Plan.Spreads.elementType_eq {p₁ : Plan} {left : Handle} {common : Shape} (hs : p.Spreads a common left p₁) :
    left.elementType = a.elementType ∧ left.layout = a.layout := by
  rcases hs with ⟨_, rfl, _⟩ | ⟨_, _, vars, _, hdef⟩
  · exact ⟨rfl, rfl⟩
  · rw [hdef.handle]
    exact ⟨rfl, rfl⟩

theorem readsSpread_of_elements {domains : List Domain} {left : Handle} {tl : Tensor α} (hl : p.Accounts account left tl)
    (hbound : (elementCount tl.lengths : Int) ≤ indexBound) (hknows : account.Knows a ta → account.Knows left tl)
    (helement : ∀ index, InBox index tl.lengths → tl.element index = ta.spreadAt index) (vars : List String) :
    ReadsSpread (p.callOf left.rule (vars.map .var)) account domains p.rules.rules vars tl.lengths a ta := by
  intro I hI
  obtain ⟨u, _, hlengths, _, hknown, helements⟩ := exists_elements hI hl hbound vars
  by_cases hk : account.Knows a ta
  · refine ⟨ta, fun _ => rfl, fun env index hbinds hindex => ?_⟩
    rw [helements env index hbinds hindex, hknown (hknows hk), helement index hindex]
  · refine ⟨u, fun h => absurd h hk, fun env index hbinds hindex => ?_⟩
    rw [helements env index hbinds hindex, Tensor.spreadAt_of_inBox (hlengths ▸ hindex)]

theorem adds_broadcast {vars : List String} {common : Shape} {left right : Handle} {p₁ p₂ : Plan} (op : Operator)
    (hp : p.WellFormed) (hacc : p.Accounted account data) (ha : p.Accounts account a ta) (hb : p.Accounts account b tb)
    (hboundh : ∀ lengths, h.shape.lengths? = some lengths → (elementCount lengths : Int) ≤ indexBound)
    (hunit : a.shape ≠ .unit) (hcommon : Shape.broadcast a.shape b.shape = .ok common)
    (hleft : p.Spreads a common left p₁) (hright : p₁.Spreads b common right p₂) (hlen : vars.length = left.rank)
    (hdef : p₂.Defines ⟨vars, [], vars,
      op.apply (p₂.callOf left.rule (vars.map .var)) (p₂.callOf right.rule (vars.map .var)),
      left.shape, op.resultType left.elementType, left.layout⟩ h p') :
    p.Adds account data h p' (ta.combine op tb) (account.Knows a ta ∧ account.Knows b tb) := by
  obtain ⟨hlengths, hspreada, hspreadb⟩ := broadcast_fixed ha.describes.lengths hb.describes.lengths hcommon
  have hshape : h.shape.lengths? = some (broadcastLengths ta.lengths tb.lengths) := by
    rw [hdef.handle, hleft.shape_eq, hlengths]
  have hbound := hboundh _ hshape
  obtain ⟨account₁, tl, hleaves₁, hagrees₁, hacc₁, hl, htl, hopen₁, hknowsl, helementl⟩ :=
    hleft.reads hp hacc ha hlengths hspreada hbound
  have hp₁ := hleft.wellFormed hp
  obtain ⟨account₂, tr, hleaves₂, hagrees₂, hacc₂, hr, htr, hopen₂, hknowsr, helementr⟩ :=
    hright.reads hp₁ hacc₁ (hb.extend hleaves₁.extends_ hagrees₁) hlengths hspreadb hbound
  have hp₂ := hright.wellFormed hp₁
  have hagrees : account.AgreesOn account₂ p.rules.rules := by
    obtain ⟨later, hlater⟩ := hleaves₁.extends_.rules
    intro r hmem
    rw [hagrees₂ r (hlater ▸ List.mem_append_left later hmem), hagrees₁ r hmem]
  have hsamea : account₂.Knows a ta ↔ account.Knows a ta := by
    rw [Account.Knows, Account.Knows, ha.live.cell_eq hagrees]
  have hsameb : account₂.Knows b tb ↔ account.Knows b tb := by
    rw [Account.Knows, Account.Knows, hb.live.cell_eq hagrees]
  have hsamel : account₂.Knows left tl ↔ account₁.Knows left tl := by
    rw [Account.Knows, Account.Knows, hl.live.cell_eq hagrees₂]
  have hsameb₁ : account₁.Knows b tb ↔ account.Knows b tb := by
    rw [Account.Knows, Account.Knows, hb.live.cell_eq hagrees₁]
  have hl₂ := hl.extend hleaves₂.extends_ hagrees₂
  have hadds : p₂.Adds account₂ data h p' (ta.combine op tb) (account₂.Knows a ta ∧ account₂.Knows b tb) := by
    refine hdef.adds_combine hp₂ hacc₂ ?_ ?_ ?_ hlen ?_ ?_
    · rw [hleft.shape_eq, hlengths]
      rfl
    · rw [hleft.elementType_eq.1]
      exact congrArg op.resultType ha.describes.elementType
    · have hone : ta.lengths ≠ [1] := fun h => hunit (shape_eq_unit (h ▸ ha.describes.lengths))
      rw [Tensor.combine, if_neg fun h => hone h.1, hleft.elementType_eq.2]
      exact ha.describes.layout
    · rw [← htl]
      refine readsSpread_of_elements hl₂ (htl ▸ hbound) (fun hk => hsamel.2 (hknowsl (hsamea.1 hk))) ?_ vars
      exact fun index hindex => helementl index (htl ▸ hindex)
    · rw [← htr]
      refine readsSpread_of_elements hr (htr ▸ hbound) (fun hk => hknowsr (hsameb₁.2 (hsameb.1 hk))) ?_ vars
      exact fun index hindex => helementr index (htr ▸ hindex)
  refine (hadds.after (hleaves₁.trans hleaves₂) hagrees fun h => hopen₂ (hopen₁ h)).mono fun hk => ?_
  exact ⟨hsamea.2 hk.1, hsameb.2 hk.2⟩

theorem adds_combine (op : Operator) (hp : p.WellFormed) (hacc : p.Accounted account data)
    (ha : p.Accounts account a ta) (hb : p.Accounts account b tb)
    (hbounda : (elementCount ta.lengths : Int) ≤ indexBound) (hboundb : (elementCount tb.lengths : Int) ≤ indexBound)
    (hboundh : ∀ lengths, h.shape.lengths? = some lengths → (elementCount lengths : Int) ≤ indexBound)
    (hrun : (Build.combineArrays op a b).runOn p = (.ok h, p')) :
    p.Adds account data h p' (ta.combine op tb) (account.Knows a ta ∧ account.Knows b tb) := by
  obtain ⟨_, _, hcombines⟩ :=
    (Build.Outcome.combineArrays op hp (fun _ => ha.live) fun _ => hb.live).of_runOn_ok hrun
  cases hcombines with
  | equal vars hshape hlen hdef => exact hdef.adds_equal hp hacc ha hb hbounda hshape hlen
  | rightUnit vars hshape hunit hlen hdef =>
    have hone := hb.describes.lengths_unit hunit
    have hne : ta.lengths ≠ [] := List.ne_nil_of_length_pos (ha.describes.length_eq ▸ a.shape.rank_pos)
    have hbroadcast : broadcastLengths ta.lengths tb.lengths = ta.lengths := by
      rw [hone, (Tensor.broadcastLengths_unit hne).1]
    refine hdef.adds_combine hp hacc ?_ ?_ ?_ hlen ?_ ?_
    · rw [Tensor.combine, hbroadcast]
      exact ha.describes.lengths
    · exact congrArg op.resultType ha.describes.elementType
    · rw [Tensor.combine, if_neg fun h => h.2 hone]
      exact ha.describes.layout
    · rw [hbroadcast]
      exact readsSpread_vars ha hbounda vars
    · exact readsSpread_origin hb hone (Handle.vars_ne_nil hlen) _
  | leftUnit vars hshape hunit hlen hdef =>
    have hone := ha.describes.lengths_unit hunit
    have hne : tb.lengths ≠ [] := List.ne_nil_of_length_pos (hb.describes.length_eq ▸ b.shape.rank_pos)
    have hbroadcast : broadcastLengths ta.lengths tb.lengths = tb.lengths := by
      rw [hone, (Tensor.broadcastLengths_unit hne).2]
    have hother : tb.lengths ≠ [1] := fun h => hshape (shape_eq_unit (h ▸ hb.describes.lengths))
    refine hdef.adds_combine hp hacc ?_ ?_ ?_ hlen ?_ ?_
    · rw [Tensor.combine, hbroadcast]
      exact hb.describes.lengths
    · exact congrArg op.resultType ha.describes.elementType
    · rw [Tensor.combine, if_pos ⟨hone, hother⟩]
      exact hb.describes.layout
    · exact readsSpread_origin ha hone (Handle.vars_ne_nil hlen) _
    · rw [hbroadcast]
      exact readsSpread_vars hb hboundb vars
  | spread vars common left right p₁ p₂ hna hnb hcommon hleft hright hlen hdef =>
    exact adds_broadcast op hp hacc ha hb hboundh hna hcommon hleft hright hlen hdef

omit [Scalar α] [ExactIndices α] in
theorem secret_of_fresh {g : Growth} {rule array : String} (hp : p.WellFormed) (hfresh : array ∉ p.names.taken)
    (hbacked : g.backed = [(rule, array)]) (hsecret : (account rule).value = none) :
    ∀ e ∈ (p.grow g).backing.entries, e.2.array = array → (account e.1).value = none := by
  intro e he harray
  rcases List.mem_append.1 he with he | he
  · exact absurd harray (ne_of_backed hp hfresh e he)
  · rw [hbacked] at he
    obtain rfl := List.mem_singleton.1 he
    exact hsecret

omit [ExactIndices α] in
theorem Plan.Inputs.adds {array : String} {shape : Shape} {elementType : ElementType} {vars : List String}
    {lengths : List Nat} (hp : p.WellFormed) (hacc : p.Accounted account data)
    (hi : p.Inputs array shape elementType vars h p') (hlengths : shape.lengths? = some lengths) :
    p.Adds account data h p' (.ofData lengths elementType (data array)) True ∧
      p'.backing.array? h.rule = some array := by
  have hadvances := hi.advances hp
  have hhandle := hi.handle
  have hfits := hi.fits
  have hgrown := hi.grown
  have hfresh : array ∉ p.names.taken := hfits.draws.unused array (by simp)
  have hleaves : p.Leaves p' := by
    rw [hgrown]
    exact leaves_grow hp hfits (by simp [inputGrowth]) (by simp [inputGrowth])
  have hbacked : p'.backing.array? h.rule = some array := by
    rw [hgrown]
    exact array?_of_backed hp hfits (b := (h.rule, array)) (by simp [inputGrowth])
  refine ⟨⟨hleaves, hadvances.wellFormed, hadvances.live, ⟨?_, ?_, ?_⟩, fun c hmeans => ?_⟩, hbacked⟩
  · rw [hhandle, hlengths]
    rfl
  · rw [hhandle]
    rfl
  · rw [hhandle]
    rfl
  · have hagrees : account.AgreesOn (account.set h.rule c) p.rules.rules := agreesOn_set hp hfits.draws (by simp) c
    have hacc' := hacc.input hp hi hlengths hmeans.lengths fun f hf => (hmeans.value f hf).2
    refine ⟨_, hagrees, account.set_self h.rule c, hacc', fun hopen hnone => hopen.set hnone h.rule,
      fun _ hnone => .written array hbacked ?_⟩
    have hsecret : (account.set h.rule c h.rule).value = none := by rw [Account.set_self, hnone]
    rw [hgrown]
    refine ⟨secret_of_fresh hp hfresh rfl hsecret, [], ?_, .inr ⟨rfl, ⟨array, shape, elementType, .input⟩, ?_, rfl, rfl,
      fun index _ => rfl⟩⟩
    · have hnothing : (p.grow (inputGrowth p'.names array shape elementType vars h.rule)).pending.filter
          (fun e => e.2.targets array) = [] := by
        rw [Plan.grow, List.filter_append, filter_targets_of_fresh hp hfresh]
        rfl
      rw [hnothing]
      exact .nil
    · simp [Plan.grow, inputGrowth]

theorem adds_prefixSums (hp : p.WellFormed) (hacc : p.Accounted account data) (ha : p.Accounts account a ta)
    (hbound : (elementCount ta.lengths : Int) ≤ indexBound)
    (hrun : (Build.prefixSums a).runOn p = (.ok h, p')) :
    p.Adds account data h p' ta.prefixSums (account.Knows a ta) := by
  obtain ⟨extent, array, i, j, v, hs⟩ := (Build.Outcome.prefixSums hp fun _ => ha.live).of_runOn_ok hrun
  obtain ⟨n, hn, rfl⟩ : ∃ n, ta.lengths = [n] ∧ extent = .fixed n := by
    have hextents := Shape.lengths?_eq_some.1 ha.describes.lengths
    rw [hs.extents] at hextents
    obtain ⟨n, rest, hlengths, hextent, hrest⟩ := List.map_eq_cons_iff.1 hextents.symm
    rw [List.map_eq_nil_iff.1 hrest] at hlengths
    exact ⟨n, hlengths, hextent.symm⟩
  have hcount : (n : Int) ≤ indexBound := by
    rw [hn, elementCount, elementCount, Nat.mul_one] at hbound
    exact hbound
  have hadvances := hs.advances hp
  have hhandle := hs.handle
  have hfits := hs.fits
  have hgrown := hs.grown
  have hfresh : array ∉ p.names.taken := hfits.draws.unused array (by simp)
  have hleaves : p.Leaves p' := by
    rw [hgrown]
    exact Plan.leaves_grow hp hfits (by simp [prefixSumGrowth]) (by simp [prefixSumGrowth])
  have hbacked : p'.backing.array? h.rule = some array := by
    rw [hgrown]
    exact Plan.array?_of_backed hp hfits (b := (h.rule, array)) (by simp [prefixSumGrowth])
  refine ⟨hleaves, hadvances.wellFormed, hadvances.live, ⟨?_, ?_, ?_⟩, fun c hmeans => ?_⟩
  · rw [hhandle]
    exact ha.describes.lengths
  · rw [hhandle]
    exact ha.describes.elementType
  · rw [hhandle]
    rfl
  · have hagrees : account.AgreesOn (account.set h.rule c) p.rules.rules := agreesOn_set hp hfits.draws (by simp) c
    have hacc' := hacc.prefixSums hp hs ha hn hcount hmeans
    refine ⟨_, hagrees, account.set_self h.rule c, hacc', fun hopen hnone => hopen.set hnone h.rule,
      fun hk hnone => .written array hbacked ?_⟩
    have hsecret : (account.set h.rule c h.rule).value = none := by rw [Account.set_self, hnone]
    have hstores := stores_prefixSums hp hs ha hn hcount (means_element ta.prefixSums hk)
    rw [hgrown]
    refine ⟨secret_of_fresh hp hfresh rfl hsecret, [boxUpdates ta.prefixSums.lengths ta.prefixSums.element], ?_, .inl rfl⟩
    have hfilter : (p.grow (prefixSumGrowth p'.names a (.fixed n) array i j v h.rule
        (p.callOf a.rule [.var j]))).pending.filter (fun e => e.2.targets array) =
          [(p.rules.size, ⟨.load array [.var i], .sum [j] (p.callOf a.rule [.var j]), [i]⟩)] := by
      rw [Plan.grow, List.filter_append, filter_targets_of_fresh hp hfresh]
      simp [prefixSumGrowth, Statement.targets]
    rw [hfilter]
    refine .cons ⟨_, .self, ?_⟩ .nil
    rw [Plan.take_size_grow]
    rw [boxUpdates_known, ← hn] at hstores
    exact hstores.congr hagrees

end Adds

end ArrayPlan
