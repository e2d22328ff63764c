import ArrayPlan.Proofs.Acceptance
import ArrayPlan.Proofs.Exactness
import Mathlib.Data.Set.Function

/-!
Reshapes as maps of indices. The index expressions that a reshape registers take the indices of the new shape one to one
to those of the source, each to the one at the same distance from the first element. A chain of reshapes only composes
such maps, so one that comes back to its first shape and layout reads each element at its own index.
-/

namespace ArrayPlan

instance (bound : Int) : ExactUpTo bound Int where
  toIndex_ofInt _ _ _ := rfl
  add _ _ _ _ _ := rfl
  mul _ _ _ _ _ _ _ := rfl
  floorDiv m _ _ _ hn _ := Int.fdiv_eq_ediv_of_nonneg m (Int.le_of_lt hn)
  rem _ _ _ _ _ _ := rfl

theorem Shape.pos_of_lengths? {s : Shape} {lengths : List Nat} (h : s.lengths? = some lengths) : ∀ n ∈ lengths, 0 < n := by
  intro n hn
  have hfault := s.faultless (.fixed n) (by rw [lengths?_eq_some.1 h]; exact List.mem_map_of_mem hn)
  rw [Extent.fault?] at hfault
  split at hfault
  · cases hfault
  · omega

namespace Layout

theorem bijOn_place (layout source : Layout) {lengths sourceLengths : List Nat}
    (hcount : elementCount lengths = elementCount sourceLengths) :
    Set.BijOn (fun index => source.indexAt sourceLengths (layout.place lengths index))
      {index | InBox index lengths} {index | InBox index sourceLengths} := by
  have hthere : ∀ index, InBox index lengths → layout.place lengths index < elementCount sourceLengths :=
    fun index hindex => hcount ▸ place_lt hindex
  have hback : ∀ index, InBox index sourceLengths → source.place sourceLengths index < elementCount lengths :=
    fun index hindex => hcount ▸ place_lt hindex
  refine @Set.InvOn.bijOn _ _ _ _ _ (fun index => layout.indexAt lengths (source.place sourceLengths index)) ⟨?_, ?_⟩ ?_ ?_
  · intro index hindex
    show layout.indexAt lengths (source.place sourceLengths (source.indexAt sourceLengths _)) = index
    rw [place_indexAt (hthere index hindex), indexAt_place hindex]
  · intro index hindex
    show source.indexAt sourceLengths (layout.place lengths (layout.indexAt lengths _)) = index
    rw [place_indexAt (hback index hindex), indexAt_place hindex]
  · exact fun index hindex => inBox_indexAt (hthere index hindex)
  · exact fun index hindex => inBox_indexAt (hback index hindex)

end Layout

/-- In integer arithmetic the expressions take the indices of one box to those of another, one to one, and each to the
index at the same distance from the first element. -/
def Reindexes (vars : List String) (args : List Expr) (layout : Layout) (lengths : List Nat) (sourceLayout : Layout)
    (sourceLengths : List Nat) : Prop :=
  ∃ f : List Int → List Int, Set.BijOn f {index | InBox index lengths} {index | InBox index sourceLengths} ∧
    ∀ index, InBox index lengths →
      Layout.distance (f index) (sourceLayout.strides sourceLengths) = Layout.distance index (layout.strides lengths) ∧
      ∀ (I : Interpretation Int) (env : Env), env.Binds vars index → I.position? args env = some (f index)

theorem reindexes_reshaped {vars : List String} {lengths sourceLengths : List Nat} (layout sourceLayout : Layout)
    (hcount : elementCount lengths = elementCount sourceLengths) (hpos : ∀ n ∈ sourceLengths, 0 < n)
    (hword : elementCount sourceLengths < Word.modulus) :
    Reindexes vars (indexAtLine (linearIndex vars lengths (layout.strides lengths)) (elementCount sourceLengths)
      sourceLengths (sourceLayout.strides sourceLengths)) layout lengths sourceLayout sourceLengths := by
  refine ⟨_, layout.bijOn_place sourceLayout hcount, fun index hbox => ⟨?_, fun I env hbinds => ?_⟩⟩
  · have hplace : layout.place lengths index < elementCount sourceLengths := hcount ▸ Layout.place_lt hbox
    have hsource : InBox (sourceLayout.indexAt sourceLengths (layout.place lengths index)) sourceLengths :=
      Layout.inBox_indexAt hplace
    rw [sourceLayout.distance_strides hsource.length_eq, layout.distance_strides hbox.length_eq,
      Layout.place_indexAt hplace]
  · exact Interpretation.position?_reshaped (elementCount sourceLengths) layout sourceLayout hbinds hbox hcount hpos
      (Int.le_refl _) hword

theorem Interpretation.position?_ints {α : Type} [Scalar α] {I : Interpretation α} {env : Env} (bound : Int)
    [ExactUpTo bound α] {index : List Int} (hindex : ∀ x ∈ index, 0 ≤ x ∧ x < bound) :
    I.position? (index.map .int) env = some index := by
  induction index with
  | nil => rfl
  | cons x index ih =>
    have hx := hindex x List.mem_cons_self
    have hvalue : I.value? (.int x) env = some (Scalar.ofInt x) := rfl
    rw [List.map_cons, position?_cons hvalue (ih fun y hy => hindex y (List.mem_cons_of_mem x hy)),
      @ExactUpTo.toIndex_ofInt bound α _ _ x hx.1 (Int.le_of_lt hx.2)]

namespace Plan

def argsAt (p : Plan) (rule : String) (index : List Int) : List Int :=
  match p.rules.find? rule with
  | some r => if r.arity = 0 then [] else index
  | none => index

theorem value?_callOf {α : Type} [Scalar α] {I : Interpretation α} {p : Plan} {rule : String} {args : List Expr} {env : Env}
    {index : List Int} (hargs : I.position? args env = some index) :
    I.value? (p.callOf rule args) env = I.call rule (p.argsAt rule index) := by
  have hcall : I.value? (.call rule args) env = I.call rule index := by
    obtain ⟨vs, hvs, rfl⟩ := Option.map_eq_some_iff.1 hargs
    rw [Interpretation.value?, hvs]
    rfl
  unfold callOf argsAt
  cases p.rules.find? rule with
  | none => exact hcall
  | some r =>
    dsimp only
    split
    · rfl
    · exact hcall

theorem Extends.argsAt_eq {p p' : Plan} (h : p.Extends p') {a : Handle} (ha : p.Live a) (index : List Int) :
    p'.argsAt a.rule index = p.argsAt a.rule index := by
  obtain ⟨r, hr, _⟩ := ha.rule
  obtain ⟨later, hlater⟩ := h.rules
  have hr' : p'.rules.find? a.rule = some r := by
    unfold RuleLog.find? at hr ⊢
    rw [hlater, List.find?_append, hr]
    rfl
  rw [argsAt, argsAt, hr, hr']

theorem WellFormed.layered {p : Plan} (hp : p.WellFormed) : Kernel.Layered p.rules.rules :=
  ⟨hp.rules_nodup, fun i r hr => (hp.bodies i r hr).mono (fun _ h => h) (fun _ _ => trivial) fun _ _ => trivial⟩

/-- The second handle comes out of the first by a chain of reshapes, with any operations on the plan in between. -/
inductive Reshapes (p : Plan) (handles : List Handle) (a : Handle) : Plan → List Handle → Handle → Prop where
  | refl : Reshapes p handles a p handles a
  | perform {q q' : Plan} {known : List Handle} {b : Handle} {op : Operation Handle} {outcome : Except PlanError Handle}
      (hbefore : Reshapes p handles a q known b) (hrefs : ∀ c ∈ op.refs, c.plan = q.id → c ∈ known)
      (hrun : op.perform.runOn q = (outcome, q')) : Reshapes p handles a q' (known ++ outcome.toOption.toList) b
  | reshape {q q' : Plan} {known : List Handle} {b c : Handle} {extents : List Extent} {layout : Layout}
      (hbefore : Reshapes p handles a q known b) (hrun : (Build.reshape b extents layout).runOn q = (.ok c, q')) :
      Reshapes p handles a q' (known ++ [c]) c

namespace Reshapes

variable {p q : Plan} {handles known : List Handle} {a b : Handle}

theorem mem (h : Reshapes p handles a q known b) (ha : a ∈ handles) : b ∈ known := by
  induction h with
  | refl => exact ha
  | perform hbefore hrefs hrun ih => exact List.mem_append_left _ ih
  | reshape hbefore hrun ih => simp

theorem evolves (h : Reshapes p handles a q known b) (ha : a ∈ handles) : Evolves p handles q known := by
  induction h with
  | refl => exact .refl
  | perform hbefore hrefs hrun ih => exact .step ih hrefs hrun
  | @reshape q q' known b c extents layout hbefore hrun ih =>
    have hrefs : ∀ d ∈ (Operation.reshape b (.extents extents) layout).refs, d.plan = q.id → d ∈ known := by
      intro d hd _
      obtain rfl : d = b := by simpa [Operation.refs] using hd
      exact hbefore.mem ha
    exact .step ih hrefs hrun

section Elements

variable {α : Type} [Scalar α] {sourceLengths : List Nat} [ExactUpTo (elementCount sourceLengths : Int) α]

/-- A call of the last rule of a chain has the value of a call of the first one at the same place in the line. -/
theorem call_reading (h : Reshapes p handles a q known b) (hp : p.WellFormed) (hlive : ∀ c ∈ handles, p.Live c)
    (ha : a ∈ handles) (hsource : a.shape.lengths? = some sourceLengths)
    (hword : elementCount sourceLengths < Word.modulus) :
    ∃ lengths, b.shape.lengths? = some lengths ∧ elementCount lengths = elementCount sourceLengths ∧
      ∀ (k : Kernel), Kernel.Layered k.rules → q.rules.rules <+: k.rules →
        ∀ (parameters : Env) (load : String → List Int → Option α) (index : List Int), InBox index lengths →
          (k.reading parameters load).call b.rule (q.argsAt b.rule index) =
            (k.reading parameters load).call a.rule
              (p.argsAt a.rule (a.layout.indexAt sourceLengths (b.layout.place lengths index))) := by
  induction h with
  | refl =>
    refine ⟨sourceLengths, hsource, rfl, fun k _ _ parameters load index hindex => ?_⟩
    rw [Layout.indexAt_place hindex]
  | @perform q q' known b op outcome hbefore hrefs hrun ih =>
    obtain ⟨lengths, hlengths, hcount, hcall⟩ := ih
    obtain ⟨_, hq, hknown⟩ := (hbefore.evolves ha).invariant hp hlive
    have hext : q.Extends q' := (Evolves.step .refl hrefs hrun).invariant hq hknown |>.1
    obtain ⟨later, hlater⟩ := hext.rules
    refine ⟨lengths, hlengths, hcount, fun k hk hrules parameters load index hindex => ?_⟩
    have hprefix : q.rules.rules <+: k.rules := (hlater ▸ List.prefix_append _ _ : q.rules.rules <+: q'.rules.rules).trans hrules
    rw [hext.argsAt_eq (hknown b (hbefore.mem ha)), hcall k hk hprefix parameters load index hindex]
  | @reshape q q' known b c extents layout hbefore hrun ih =>
    obtain ⟨middle, hmiddle, hcount, hcall⟩ := ih
    obtain ⟨_, hq, hknown⟩ := (hbefore.evolves ha).invariant hp hlive
    obtain ⟨_, shape, lengths, middle', vars, _, hlengths, hmiddle', hsame, hvars, hdef⟩ :=
      (Build.Outcome.reshape hq (fun _ => hknown b (hbefore.mem ha)) extents layout).of_runOn_ok hrun
    obtain rfl : middle = middle' := Option.some.inj (hmiddle.symm.trans hmiddle')
    have hshape : c.shape = shape := congrArg Handle.shape hdef.handle
    have hlayout : c.layout = layout := congrArg Handle.layout hdef.handle
    have hnodup : vars.Nodup := (List.nodup_append.1 hdef.draws.nodup).1
    refine ⟨lengths, hshape ▸ hlengths, hsame.trans hcount, fun k hk hrules parameters load index hindex => ?_⟩
    -- The rule of the reshape stands last in its plan, and so at the same place in the kernel.
    have hfound := hdef.find?_rule hq
    have hprefix : q.rules.rules <+: k.rules := by
      refine List.IsPrefix.trans ?_ hrules
      rw [hdef.grown]
      exact List.prefix_append _ _
    obtain ⟨i, hi⟩ := List.mem_iff_getElem?.1 (hrules.subset (List.mem_of_find?_eq_some hfound))
    have hlen : vars.length = index.length := hvars.trans hindex.length_eq.symm
    have hargs : q'.argsAt c.rule index = index := by
      rw [argsAt, hfound]
      refine if_neg fun hzero => ?_
      have hrank : 0 < shape.rank := shape.rank_pos
      rw [← Shape.length_of_lengths? hlengths, ← hvars] at hrank
      exact Nat.lt_irrefl 0 (hzero ▸ hrank)
    have hplace : layout.place lengths index < elementCount middle := hsame ▸ Layout.place_lt hindex
    have hpositive := Shape.pos_of_lengths? hmiddle
    have hposition := Interpretation.position?_reshaped (I := k.reading parameters load) (elementCount sourceLengths)
      layout b.layout (Env.binds_at parameters hnodup hlen) hindex hsame hpositive (by rw [hcount]) (hcount ▸ hword)
    have hbody : (k.reading parameters load).call c.rule index =
        (k.reading parameters load).call b.rule (q.argsAt b.rule (b.layout.indexAt middle (layout.place lengths index))) :=
      (Kernel.call_reading parameters load hk hi index).trans ((if_pos hlen).trans (value?_callOf hposition))
    rw [hargs, hbody, hcall k hk hprefix parameters load _ (Layout.inBox_indexAt hplace), hlayout,
      Layout.place_indexAt hplace]

end Elements

end Reshapes

/-- A reshape to any shape with as many elements registers a rule that reads the source at index expressions which take
the indices of the new shape one to one to those of the source, along the two layouts. After any chain of reshapes that
comes back to the first shape and layout, each element is read at its own index. The elements are counted in words. -/
theorem reshape_reindexes {p : Plan} {handles : List Handle} (hp : p.Reachable handles) {a : Handle} (ha : a ∈ handles)
    {sourceLengths : List Nat} (hsource : a.shape.lengths? = some sourceLengths)
    (hword : elementCount sourceLengths < Word.modulus) :
    (p.finalized = false → ∀ (extents : List Extent) (shape : Shape) (lengths : List Nat) (layout : Layout),
      Shape.ofExtents extents = .ok shape → shape.lengths? = some lengths →
      elementCount lengths = elementCount sourceLengths →
      ∃ (h : Handle) (p' : Plan) (vars : List String) (args : List Expr),
        (Build.reshape a extents layout).runOn p = (.ok h, p') ∧ h.shape = shape ∧ h.layout = layout ∧
        p'.rules.rules = p.rules.rules ++ [⟨h.rule, vars, p.callOf a.rule args⟩] ∧
        vars.Nodup ∧ vars.length = lengths.length ∧ args.length = sourceLengths.length ∧
        Reindexes vars args layout lengths a.layout sourceLengths) ∧
    (∀ (q : Plan) (known : List Handle) (b : Handle), Reshapes p handles a q known b → b.shape = a.shape →
      b.layout = a.layout → ∀ (α : Type) [Scalar α] [ExactUpTo (elementCount sourceLengths : Int) α] (k : Kernel),
      k.rules = q.rules.rules → ∀ (parameters : Env) (m : Memory α) (index : List Int) (env : Env),
      InBox index sourceLengths →
        ((k.setting parameters m).value (q.callOf b.rule (index.map .int)) env).toOption =
          ((k.setting parameters m).value (q.callOf a.rule (index.map .int)) env).toOption) := by
  have hwf := hp.wellFormed
  have hpositive := Shape.pos_of_lengths? hsource
  refine ⟨fun hopen extents shape lengths layout hshape hlengths hcount => ?_,
    fun q known b hchain hback hlayout α _ _ k hk parameters m index env hindex => ?_⟩
  · obtain ⟨h, p', hrun, _⟩ := Build.Passes.reshape hwf hopen (hp.live ha) hshape hlengths hsource hcount layout
    obtain ⟨_, shape', lengths', sourceLengths', vars, hextents, hlengths', hsource', _, hvars, hdef⟩ :=
      (Build.Outcome.reshape hwf (fun _ => hp.live ha) extents layout).of_runOn_ok hrun
    obtain rfl : sourceLengths = sourceLengths' := Option.some.inj (hsource.symm.trans hsource')
    obtain rfl : shape' = shape := Shape.eq_of_extents (hextents.trans (Shape.extents_of_ofExtents hshape).symm)
    obtain rfl : lengths = lengths' := Option.some.inj (hlengths.symm.trans hlengths')
    refine ⟨h, p', vars, _, hrun, congrArg Handle.shape hdef.handle, congrArg Handle.layout hdef.handle, ?_,
      (List.nodup_append.1 hdef.draws.nodup).1, hvars, ?_, reindexes_reshaped layout a.layout hcount hpositive hword⟩
    · rw [hdef.grown]
      rfl
    · rw [indexAtLine, List.length_map, List.length_zip, Layout.length_strides, Nat.min_self]
  · have hlive : ∀ c ∈ handles, p.Live c := fun c hc => hp.live hc
    obtain ⟨hext, hq, _⟩ := (hchain.evolves ha).invariant hwf hlive
    obtain ⟨lengths, hlengths, _, hcall⟩ := hchain.call_reading (α := α) hwf hlive ha hsource hword
    obtain rfl : lengths = sourceLengths := Option.some.inj (hlengths.symm.trans (hback ▸ hsource))
    have hlayered : Kernel.Layered k.rules := hk ▸ hq.layered
    have hposition : (k.reading parameters m.load?).position? (index.map .int) env = some index :=
      Interpretation.position?_ints (elementCount lengths) hindex.le_elementCount
    rw [Kernel.toOption_value hlayered, Kernel.toOption_value hlayered, value?_callOf hposition,
      value?_callOf hposition, hcall k hlayered (hk ▸ List.prefix_rfl) parameters m.load? index hindex, hlayout,
      Layout.indexAt_place hindex, hext.argsAt_eq (hp.live ha)]

def sequence : Handle :=
  ⟨0, "subst0", ⟨[.fixed 6], by simp, by simp [Extent.fault?]⟩, .float64, .rowMajor⟩

def sequenced : Progress :=
  (Progress.start (.empty 0 .default)).run [.input (.extents [.fixed 6]) .float64]

theorem reshape_reindexes_sequence :
    ∃ (h b : Handle) (p' q : Plan) (vars : List String) (args : List Expr),
      (Build.reshape sequence [.fixed 2, .fixed 1, .fixed 3] .columnMajor).runOn sequenced.plan = (.ok h, p') ∧
      Reindexes vars args .columnMajor [2, 1, 3] .rowMajor [6] ∧
      (Build.reshape h [.fixed 6] .rowMajor).runOn p' = (.ok b, q) ∧
      ∀ (k : Kernel), k.rules = q.rules.rules → ∀ (parameters : Env) (m : Memory Int) (env : Env),
        ((k.setting parameters m).value (q.callOf b.rule [.int 4]) env).toOption =
          ((k.setting parameters m).value (q.callOf "subst0" [.int 4]) env).toOption := by
  have hreach : sequenced.plan.Reachable sequenced.handles := Progress.run_reachable 0 .default _
  have hmem : sequence ∈ sequenced.handles := by decide +kernel
  have hlengths : sequence.shape.lengths? = some [6] := by decide
  have hword : elementCount [6] < Word.modulus := by decide
  have hparts := reshape_reindexes hreach hmem hlengths hword
  have hfaultless : ∀ e ∈ [Extent.fixed 2, .fixed 1, .fixed 3], e.fault? = none := by simp [Extent.fault?]
  obtain ⟨rows, hrows⟩ := Shape.ofExtents_of_faultless (by simp) hfaultless
  have hrowLengths : rows.lengths? = some [2, 1, 3] :=
    Shape.lengths?_eq_some.2 (Shape.extents_of_ofExtents hrows)
  obtain ⟨h, p', vars, args, hrun, _, _, _, _, _, _, hindices⟩ :=
    hparts.1 (by decide +kernel) _ rows _ .columnMajor hrows hrowLengths (by decide)
  have hcheck : succeedsWith ((Build.reshape sequence [.fixed 2, .fixed 1, .fixed 3] .columnMajor).runOn sequenced.plan)
      (fun h p' => succeedsWith ((Build.reshape h [.fixed 6] .rowMajor).runOn p') fun b _ =>
        b.shape = sequence.shape ∧ b.layout = sequence.layout) = true := by decide +kernel
  obtain ⟨b, q, hagain, hsame⟩ := exists_of_succeedsWith (check_of_succeedsWith hcheck hrun)
  obtain ⟨hshape, hlayout⟩ := of_decide_eq_true hsame
  refine ⟨h, b, p', q, vars, args, hrun, hindices, hagain, fun k hk parameters m env => ?_⟩
  exact hparts.2 q _ b (.reshape (.reshape .refl hrun) hagain) hshape hlayout Int k hk parameters m [4] env (by decide)

end Plan

end ArrayPlan
