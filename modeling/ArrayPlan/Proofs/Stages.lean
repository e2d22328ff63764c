import ArrayPlan.Proofs.Integrity

/-!
The life of a plan: operations, then lowering, then operations that are all refused and leave it as it is. At every
stage the plan is sound. Lowering declares its output arrays in the kernel, so the arrays that a plan may refer to are
its own at first and those of its kernel at last.
-/

namespace ArrayPlan

namespace Build

variable {α β : Type} {p : Plan}

/-- The step leaves the plan as it is, whether it is refused or not. -/
def Keeps (step : Build α) (p : Plan) : Prop :=
  (step.runOn p).2 = p

def Halts (step : Build α) (p : Plan) : Prop :=
  ∃ e, step.runOn p = (.error e, p)

theorem Keeps.runOn_bind {step : Build β} (h : Keeps step p) (next : β → Build α) :
    (step >>= next).runOn p =
      match (step.runOn p).1 with
      | .ok b => (next b).runOn p
      | .error e => (.error e, p) := by
  rw [runOn_bind_eq]
  rw [Keeps] at h
  cases hrun : step.runOn p with
  | mk outcome p' =>
    rw [hrun] at h
    obtain rfl : p' = p := h
    cases outcome <;> rfl

theorem Halts.keeps {step : Build α} (h : Halts step p) : Keeps step p := by
  obtain ⟨e, he⟩ := h
  rw [Keeps, he]

theorem Halts.throw (e : PlanError) : Halts (throw e : Build α) p :=
  ⟨e, rfl⟩

theorem Halts.after {step : Build β} {next : β → Build α} (hstep : Keeps step p) (hnext : ∀ b, Halts (next b) p) :
    Halts (step >>= next) p := by
  rw [Halts, hstep.runOn_bind]
  cases (step.runOn p).1 with
  | ok b => exact hnext b
  | error e => exact ⟨e, rfl⟩

theorem Halts.refused {next : Unit → Build α} (hclosed : p.finalized = true) : Halts (requireOpen >>= next) p := by
  refine ⟨.finalized, ?_⟩
  have hrequire : requireOpen.runOn p = (.error .finalized, p) := by
    rw [requireOpen, runOn_get, hclosed]
    rfl
  rw [runOn_bind_eq, hrequire]

namespace Keeps

theorem pure (a : α) : Keeps (pure a) p :=
  rfl

theorem throw (e : PlanError) : Keeps (throw e : Build α) p :=
  rfl

theorem bind {step : Build β} {next : β → Build α} (hstep : Keeps step p) (hnext : ∀ b, Keeps (next b) p) :
    Keeps (step >>= next) p := by
  rw [Keeps, hstep.runOn_bind]
  cases (step.runOn p).1 with
  | ok b => exact hnext b
  | error e => rfl

theorem get : Keeps get p :=
  rfl

theorem ofExcept (x : Except PlanError α) : Keeps (ofExcept x) p := by
  cases x <;> rfl

theorem requireOwn (a : Handle) : Keeps (requireOwn a) p := by
  refine bind get fun q => ?_
  split
  · exact throw _
  · exact pure _

theorem requireAllOwn (outputs : List Handle) : Keeps (outputs.forM Build.requireOwn) p := by
  induction outputs with
  | nil => exact pure _
  | cons a outputs ih => exact bind (requireOwn a) fun _ => ih

theorem shapeOf (extents : List Extent) : Keeps (shapeOf extents) p :=
  ofExcept _

theorem requireAxes (a : Handle) (axes : Option (List Nat)) : Keeps (requireAxes a axes) p := by
  unfold Build.requireAxes
  split
  · exact throw _
  · exact pure _

theorem requireIndexCount (a : Handle) (index : List (Index Handle)) : Keeps (requireIndexCount a index) p := by
  unfold Build.requireIndexCount
  split
  · exact pure _
  · exact throw _

theorem requirePosition (axis position : Nat) (extent : Extent) : Keeps (requirePosition axis position extent) p := by
  cases extent with
  | fixed length =>
    unfold Build.requirePosition
    dsimp only
    split
    · exact throw _
    · exact pure _
  | symbolic name => exact pure _

theorem requirePositions (positions : Handle) : Keeps (requirePositions positions) p := by
  refine bind (requireOwn positions) fun _ => ?_
  dsimp only
  split
  · exact throw _
  split
  · exact throw _
  · exact pure _

theorem writeAxes (axis : Nat) (index : List (Index Handle)) (extents : List Extent) :
    Keeps (writeAxes axis index extents) p := by
  induction index generalizing axis extents with
  | nil => exact pure _
  | cons entry index ih =>
    cases extents with
    | nil => exact pure _
    | cons extent extents =>
      have hrest : ∀ first : WriteAxis, Keeps (do
          let rest ← Build.writeAxes (axis + 1) index extents
          return first :: rest) p := fun _ => bind (ih (axis + 1) extents) fun _ => pure _
      cases entry with
      | «at» position => exact bind (requirePosition axis position extent) fun _ => bind (pure _) hrest
      | gather positions => exact bind (requirePositions positions) fun _ => bind (pure _) hrest
      | all => exact bind (pure _) hrest
      | slice start stop step =>
        unfold Build.writeAxes
        dsimp only
        split
        · exact bind (pure _) hrest
        · exact bind (throw _) hrest

theorem writeValue (elementType : ElementType) (region : List Extent) (value : Operand Handle) :
    Keeps (writeValue elementType region value) p := by
  cases value with
  | literal value => exact bind (ofExcept _) fun _ => pure _
  | array value =>
    refine bind (requireOwn value) fun _ => bind ?_ fun _ => pure _
    unfold requireFit
    split
    · exact pure _
    · exact throw _

end Keeps

namespace Halts

variable {a b : Handle}

theorem full (hclosed : p.finalized = true) (extents : List Extent) (value : Literal) (elementType : ElementType) :
    Halts (full extents value elementType) p :=
  after (.shapeOf extents) fun _ => after (.ofExcept _) fun _ => refused hclosed

theorem spread_keeps (hclosed : p.finalized = true) (common : Shape) : Keeps (spread a common) p := by
  unfold Build.spread
  split
  · exact .pure _
  · exact (refused hclosed).keeps

theorem combineArrays (op : Operator) (hclosed : p.finalized = true) : Halts (combineArrays op a b) p := by
  refine after (.requireOwn a) fun _ => after (.requireOwn b) fun _ => ?_
  by_cases hshape : a.shape = b.shape
  · rw [if_pos hshape]
    exact refused hclosed
  rw [if_neg hshape]
  by_cases hb : b.shape.isUnit
  · rw [if_pos hb]
    exact refused hclosed
  rw [if_neg hb]
  by_cases ha : a.shape.isUnit
  · rw [if_pos ha]
    exact refused hclosed
  rw [if_neg ha]
  cases Shape.broadcast a.shape b.shape with
  | error axis => exact .throw _
  | ok common => exact after (spread_keeps hclosed common) fun _ => after (spread_keeps hclosed common) fun _ => refused hclosed

theorem finalize (outputs : List Handle) (withStores : Bool) (hclosed : p.finalized = true) :
    Halts (finalize outputs withStores) p :=
  after (.requireAllOwn outputs) fun _ => refused hclosed

theorem perform (hclosed : p.finalized = true) (op : Operation Handle) : Halts op.perform p := by
  cases op with
  | full shape value elementType => exact full hclosed shape.axes value elementType
  | fill shape value => exact after .get fun q => full hclosed shape.axes value q.settings.elementType
  | range stop => exact after (.shapeOf [stop]) fun _ => refused hclosed
  | input shape elementType => exact after (.shapeOf shape.axes) fun _ => refused hclosed
  | inputNamed name shape elementType => exact after (.shapeOf shape.axes) fun _ => refused hclosed
  | combine op a b =>
    cases b with
    | literal value => exact after (.requireOwn a) fun _ => refused hclosed
    | array b => exact combineArrays op hclosed
  | combineFrom op value a => exact after (.requireOwn a) fun _ => refused hclosed
  | select a index => exact after (.requireOwn a) fun _ => after (.requireIndexCount a index) fun _ => refused hclosed
  | reshape a shape layout =>
    refine after (.requireOwn a) fun _ => after (.shapeOf shape.axes) fun _ => ?_
    split
    · dsimp only
      split
      · exact .throw _
      · exact refused hclosed
    · exact .throw _
  | sum a axes => exact after (.requireOwn a) fun _ => after (.requireAxes a axes) fun _ => refused hclosed
  | prefixSums a =>
    refine after (.requireOwn a) fun _ => ?_
    split
    · exact refused hclosed
    · exact .throw _
  | write a index value =>
    refine after (.requireOwn a) fun _ => after (.requireIndexCount a index) fun _ => ?_
    exact after (.writeAxes 0 index a.shape.extents) fun _ => after (.writeValue _ _ value) fun _ => refused hclosed

end Halts

end Build

namespace Plan

variable {p p' : Plan} {handles : List Handle} {arrays : List Declaration}

/-- The arrays declared once lowering was tried: those of the kernel, if there is one. -/
def declaredAfter (arrays : List Declaration) : Except PlanError Kernel → List Declaration
  | .ok k => k.arrays
  | .error _ => arrays

/-- A plan with its handles and the arrays declared for it. Handles of other plans may be tried as well. -/
inductive Stages : Plan → List Handle → List Declaration → Prop where
  | empty (id : Nat) (settings : Settings) : Stages (empty id settings) [] []
  | perform {p p' : Plan} {handles : List Handle} {arrays : List Declaration} {outcome : Except PlanError Handle}
      (hbefore : Stages p handles arrays) (op : Operation Handle)
      (hrefs : ∀ a ∈ op.refs, a.plan = p.id → a ∈ handles) (hrun : op.perform.runOn p = (outcome, p')) :
      Stages p' (handles ++ outcome.toOption.toList) (if p.finalized then arrays else p'.arrays)
  | finalize {p p' : Plan} {handles : List Handle} {arrays : List Declaration} {outcome : Except PlanError Kernel}
      (hbefore : Stages p handles arrays) (outputs : List Handle) (withStores : Bool)
      (houtputs : ∀ a ∈ outputs, a.plan = p.id → a ∈ handles)
      (hrun : (Build.finalize outputs withStores).runOn p = (outcome, p')) :
      Stages p' handles (declaredAfter arrays outcome)

theorem Reachable.stages (hreach : p.Reachable handles) : ∃ arrays, Stages p handles arrays := by
  obtain ⟨id, settings, hevolves⟩ := hreach
  induction hevolves with
  | refl => exact ⟨[], .empty id settings⟩
  | step _ hrefs hrun ih =>
    obtain ⟨arrays, hstages⟩ := ih
    exact ⟨_, hstages.perform _ hrefs hrun⟩

/-- What every plan guarantees, given the arrays declared for it. -/
structure Framed (p : Plan) (handles : List Handle) (arrays : List Declaration) : Prop where
  rules_nodup : (ruleNames p.rules.rules).Nodup
  arrays_nodup : (arrayNames arrays).Nodup
  vars_nodup : (p.domains.flatMap Domain.vars).Nodup
  bodies : ∀ (i : Nat) (r : Rule), p.rules.rules[i]? = some r → r.InScope (p.rules.rules.take i) arrays p.domains
  pending : ∀ e ∈ p.pending, e.1 ≤ p.rules.size ∧ e.2.InScope (p.rules.rules.take e.1) arrays p.domains
  backed : ∀ e ∈ p.backing.entries, e.2.visibleFrom ≤ p.rules.size ∧ e.2.array ∈ arrayNames arrays ∧
    e.1 ∈ ruleNames (p.rules.rules.take e.2.visibleFrom)
  live : ∀ a ∈ handles, p.Live a
  holds : ∀ a ∈ handles, ∀ array, p.backing.array? a.rule = some array →
    ∃ d ∈ arrays, d.name = array ∧ d.shape = a.shape ∧ d.elementType = a.elementType

theorem Intact.framed (hp : p.Intact handles) : p.Framed handles p.arrays where
  rules_nodup := hp.wellFormed.rules_nodup
  arrays_nodup := hp.wellFormed.arrays_nodup
  vars_nodup := hp.wellFormed.vars_nodup
  bodies := hp.bodies
  pending e he := ⟨(hp.wellFormed.pending e he).1, hp.pending e he⟩
  backed := hp.wellFormed.backed
  live := hp.live
  holds := hp.holds

namespace Lowers

variable {outputs : List Handle} {os : List Realization} {k : Kernel}

theorem arrays_nodup (hp : p.WellFormed) (h : p.Lowers outputs os k p') : (arrayNames k.arrays).Nodup := by
  rw [h.arrays, arrayNames, List.map_append]
  refine List.nodup_append.2 ⟨hp.arrays_nodup, ?_, fun a ha b hb hab => ?_⟩
  · rw [List.map_map]
    refine List.pairwise_map.2 ((List.nodup_flatMap.1 h.draws.nodup).2.imp fun hdisjoint heq => ?_)
    refine hdisjoint List.mem_cons_self ?_
    exact List.mem_cons.2 (.inl heq)
  · obtain ⟨d, hd, rfl⟩ := List.mem_map.1 hb
    obtain ⟨o, ho, rfl⟩ := List.mem_map.1 hd
    have hsame : a = o.array := hab
    exact h.array_unused hp ho (hsame ▸ ha)

end Lowers

theorem finalize_same (hp : p.WellFormed) (outputs : List Handle) (withStores : Bool) :
    Build.Outcome p (Build.finalize outputs withStores) p fun _ p' =>
      p' = { p with names := p'.names, backing := p'.backing, pending := [], finalized := true } := by
  refine (Build.Outcome.finalize_lowered hp outputs withStores).mono ?_
  rintro _ _ ⟨_, _, _, rfl⟩
  rfl

theorem Intact.framed_finalize (hp : p.Intact handles) {outputs : List Handle} {withStores : Bool} {k : Kernel}
    (houtputs : ∀ a ∈ outputs, a.plan = p.id → a ∈ handles)
    (hrun : (Build.finalize outputs withStores).runOn p = (.ok k, p')) :
    p'.finalized = true ∧ p'.Framed handles k.arrays := by
  have hwf := hp.wellFormed
  obtain ⟨os, hlowers⟩ := finalize_lowers hwf hrun
  have hsame := (finalize_same hwf outputs withStores).of_runOn_ok hrun
  have hrules : p'.rules = p.rules := by rw [hsame]
  have hdomains : p'.domains = p.domains := by rw [hsame]
  have hpending : p'.pending = [] := by rw [hsame]
  have hsub : ∀ d ∈ p.arrays, d ∈ k.arrays := fun d hd => by
    rw [hlowers.arrays]
    exact List.mem_append_left _ hd
  have hdeclared : ∀ o ∈ os, o.declaration ∈ k.arrays := fun o ho => by
    rw [hlowers.arrays]
    exact List.mem_append_right _ (List.mem_map_of_mem ho)
  refine ⟨by rw [hsame], ?_⟩
  constructor
  case rules_nodup =>
    rw [hrules]
    exact hwf.rules_nodup
  case arrays_nodup =>
    exact hlowers.arrays_nodup hwf
  case vars_nodup =>
    rw [hdomains]
    exact hwf.vars_nodup
  case bodies =>
    rw [hrules, hdomains]
    exact fun i r hr => (hp.bodies i r hr).mono (fun _ h => h) hsub fun _ h => h
  case pending =>
    simp [hpending]
  case backed =>
    rw [hrules, hlowers.backing]
    intro e he
    rcases List.mem_append.1 he with he | he
    · obtain ⟨hvisible, harray, hrule⟩ := hwf.backed e he
      obtain ⟨d, hd, hname⟩ := List.mem_map.1 harray
      exact ⟨hvisible, List.mem_map.2 ⟨d, hsub d hd, hname⟩, hrule⟩
    · obtain ⟨o, ho, rfl⟩ := List.mem_map.1 he
      have hrule := (hlowers.sound o ho).1
      refine ⟨(List.getElem?_eq_some_iff.1 hrule).1, List.mem_map.2 ⟨_, hdeclared o ho, rfl⟩, ?_⟩
      exact mem_ruleNames_take.2 ⟨o.index, o.rule, Nat.lt_succ_self _, hrule, rfl⟩
  case live =>
    intro a ha
    obtain ⟨hown, hrule⟩ := hp.live a ha
    rw [hsame]
    exact ⟨hown, hrule⟩
  case holds =>
    intro a ha array harray
    obtain ⟨entry, hentry, rfl⟩ := Option.map_eq_some_iff.1 harray
    cases hold : p.backing.find? a.rule with
    | some old =>
      obtain rfl := Option.some.inj (hlowers.find?_backed hold ▸ hentry)
      obtain ⟨d, hd, hrest⟩ := hp.holds a ha old.array (by rw [BackingTable.array?, hold]; rfl)
      exact ⟨d, hsub d hd, hrest⟩
    | none =>
      obtain ⟨o, ho, hname, rfl⟩ := (hlowers.find?_eq_some_iff hwf hold).1 hentry
      obtain ⟨hmem, hrule, _⟩ := requestedIn_eq_some (hlowers.sound o ho).2.1
      have hsame := hp.distinct o.handle (houtputs _ hmem (hlowers.own _ hmem)) a ha (hrule.trans hname)
      exact ⟨o.declaration, hdeclared o ho, rfl, congrArg Handle.shape hsame, congrArg Handle.elementType hsame⟩

theorem Stages.framed (h : Stages p handles arrays) :
    (p.finalized = false ∧ p.Intact handles ∧ arrays = p.arrays) ∨ (p.finalized = true ∧ p.Framed handles arrays) := by
  induction h with
  | empty id settings => exact .inl ⟨rfl, .empty id settings, rfl⟩
  | @perform p p' handles arrays outcome hbefore op hrefs hrun ih =>
    rcases ih with ⟨hopen, hintact, harrays⟩ | ⟨hclosed, hframed⟩
    · have hout := perform_intact hintact op hrefs
      have hextends := perform_outcome hintact.wellFormed op fun a ha hown => hintact.live a (hrefs a ha hown)
      unfold Build.Outcome at hout hextends
      rw [hrun] at hout hextends
      left
      rw [hopen, if_neg Bool.false_ne_true]
      cases outcome with
      | error e => exact ⟨hout.extends.finalized.trans hopen, by simpa [Except.toOption] using hintact.draw hout, rfl⟩
      | ok a => exact ⟨hextends.extends_.finalized.trans hopen, hout, rfl⟩
    · obtain ⟨e, hhalts⟩ := Build.Halts.perform hclosed op
      obtain ⟨rfl, rfl⟩ := Prod.mk.inj (hhalts.symm.trans hrun)
      right
      rw [if_pos hclosed]
      exact ⟨hclosed, by simpa [Except.toOption] using hframed⟩
  | @finalize p p' handles arrays outcome hbefore outputs withStores houtputs hrun ih =>
    rcases ih with ⟨hopen, hintact, harrays⟩ | ⟨hclosed, hframed⟩
    · cases outcome with
      | error e =>
        have hout := Build.Outcome.finalize hintact.wellFormed outputs withStores
        unfold Build.Outcome at hout
        rw [hrun] at hout
        refine .inl ⟨hout.extends.finalized.trans hopen, hintact.draw hout, ?_⟩
        rw [declaredAfter, harrays, hout.same]
      | ok k => exact .inr (hintact.framed_finalize houtputs hrun)
    · obtain ⟨e, hhalts⟩ := Build.Halts.finalize outputs withStores hclosed
      obtain ⟨rfl, rfl⟩ := Prod.mk.inj (hhalts.symm.trans hrun)
      exact .inr ⟨hclosed, hframed⟩

def expressions (p : Plan) : List Expr :=
  p.rules.rules.map Rule.body ++ p.pending.flatMap fun e => [e.2.target, e.2.value]

/-- A sound plan, with its handles and the arrays declared for it. -/
structure Sound (p : Plan) (handles : List Handle) (arrays : List Declaration) : Prop where
  distinct : (p.rules.rules.map Rule.name).Nodup
  body_calls : ∀ (k : Nat) (r : Rule), p.rules.rules[k]? = some r → ∀ name args, .call name args ∈ r.body.subterms →
    ∃ (j : Nat) (r' : Rule), j < k ∧ p.rules.rules[j]? = some r' ∧ r'.name = name ∧ args.length = r'.params.length
  body_vars : ∀ r ∈ p.rules.rules, ∀ v ∈ r.body.freeVars, v ∈ r.params
  /-- An array that is loaded is declared once, and its index has an entry for each axis. -/
  loads : ∀ e ∈ p.expressions, ∀ array index, .load array index ∈ e.subterms →
    ∃ d, arrays.filter (fun d => d.name = array) = [d] ∧ index.length = d.shape.rank
  /-- A statement calls rules registered before it was queued, and mentions the variables it runs over. -/
  queued : ∀ key s, (key, s) ∈ p.pending → key ≤ p.rules.size ∧
    ∀ e ∈ [s.target, s.value], (∀ v ∈ e.freeVars, v ∈ s.within) ∧ ∀ name args, .call name args ∈ e.subterms →
      ∃ j r, j < key ∧ p.rules.rules[j]? = some r ∧ r.name = name ∧ args.length = r.params.length
  /-- A variable that a statement or a sum runs over lies in one domain. -/
  bounded : ∀ v, ((∃ e ∈ p.pending, v ∈ e.2.within) ∨
      ∃ e ∈ p.expressions, ∃ vars body, .sum vars body ∈ e.subterms ∧ v ∈ vars) →
    ∃ d, p.domains.filter (fun d => v ∈ d.vars) = [d]
  backed : ∀ rule entry, (rule, entry) ∈ p.backing.entries →
    (∃ j r, j < entry.visibleFrom ∧ p.rules.rules[j]? = some r ∧ r.name = rule) ∧
      entry.visibleFrom ≤ p.rules.size ∧ ∃ d ∈ arrays, d.name = entry.array
  /-- The rule of a handle takes an index of the handle's rank, or nothing for a scalar; its array is declared
  once, as the handle says. -/
  live : ∀ h ∈ handles, ∃ r ∈ p.rules.rules, r.name = h.rule ∧
    (r.params.length = h.shape.rank ∨ r.params.length = 0 ∧ h.shape = .unit) ∧
    ∀ array, p.backing.array? h.rule = some array →
      ∃ d, arrays.filter (fun d => d.name = array) = [d] ∧ d.shape = h.shape ∧ d.elementType = h.elementType

theorem filter_eq_singleton {α : Type} {l : List α} {test : α → Bool} {a : α}
    (huniq : l.Pairwise fun b c => ¬ (test b = true ∧ test c = true)) (ha : a ∈ l) (htest : test a = true) :
    l.filter test = [a] := by
  induction l with
  | nil => cases ha
  | cons b l ih =>
    obtain ⟨hhead, htail⟩ := List.pairwise_cons.1 huniq
    rcases List.mem_cons.1 ha with rfl | ha
    · rw [List.filter_cons_of_pos htest, List.filter_eq_nil_iff.2 fun c hc hcond => hhead c hc ⟨htest, hcond⟩]
    · rw [List.filter_cons_of_neg fun hcond => hhead a ha ⟨hcond, htest⟩, ih htail ha]

theorem filter_name_eq (hnodup : (arrayNames arrays).Nodup) {d : Declaration} (hd : d ∈ arrays) :
    arrays.filter (fun d' => d'.name = d.name) = [d] := by
  refine filter_eq_singleton ((List.pairwise_map.1 hnodup).imp fun hne hboth => hne ?_) hd (by simp)
  simp only [decide_eq_true_eq] at hboth
  exact hboth.1.trans hboth.2.symm

theorem filter_vars_eq {domains : List Domain} (hnodup : (domains.flatMap Domain.vars).Nodup) {v : String}
    (howned : Owned domains v) : ∃ d, domains.filter (fun d => v ∈ d.vars) = [d] := by
  obtain ⟨d, hd, hv⟩ := howned
  refine ⟨d, filter_eq_singleton ((List.nodup_flatMap.1 hnodup).2.imp fun hdisjoint hboth => ?_) hd (by simpa using hv)⟩
  simp only [decide_eq_true_eq] at hboth
  exact hdisjoint hboth.1 hboth.2

theorem Framed.inScope (hp : p.Framed handles arrays) {e : Expr} (he : e ∈ p.expressions) :
    ∃ rules given, e.InScope (RuleTakes rules) (Ranked arrays) (Owned p.domains) given := by
  rcases List.mem_append.1 he with he | he
  · obtain ⟨r, hr, rfl⟩ := List.mem_map.1 he
    obtain ⟨i, hi⟩ := List.mem_iff_getElem?.1 hr
    exact ⟨_, _, hp.bodies i r hi⟩
  · obtain ⟨entry, hentry, he⟩ := List.mem_flatMap.1 he
    have hscope := (hp.pending entry hentry).2
    rcases List.mem_cons.1 he with rfl | he
    · exact ⟨_, _, hscope.target⟩
    · obtain rfl := List.mem_singleton.1 he
      exact ⟨_, _, hscope.value⟩

theorem exists_rule_of_call {e : Expr} {rules : List Rule} {i : Nat} {ranked : String → Nat → Prop}
    {bounded given : String → Prop} (hscope : e.InScope (RuleTakes (rules.take i)) ranked bounded given) {name : String}
    {args : List Expr} (hcall : .call name args ∈ e.subterms) :
    ∃ (j : Nat) (r : Rule), j < i ∧ rules[j]? = some r ∧ r.name = name ∧ args.length = r.params.length := by
  obtain ⟨_, ⟨r, hr, hname, harity⟩, _⟩ := hscope.of_subterms hcall
  obtain ⟨j, hj⟩ := List.mem_iff_getElem?.1 hr
  rw [List.getElem?_take] at hj
  split at hj
  · rename_i hlt
    exact ⟨j, r, hlt, hj, hname, harity.symm⟩
  · cases hj

theorem Framed.sound (hp : p.Framed handles arrays) : p.Sound handles arrays where
  distinct := hp.rules_nodup
  body_calls k r hr name args hcall := exists_rule_of_call (hp.bodies k r hr) hcall
  body_vars r hr v hv := by
    obtain ⟨i, hi⟩ := List.mem_iff_getElem?.1 hr
    exact (hp.bodies i r hi).of_freeVars hv
  loads e he array index hload := by
    obtain ⟨_, _, hscope⟩ := hp.inScope he
    obtain ⟨_, ⟨d, hd, rfl, hrank⟩, _⟩ := hscope.of_subterms hload
    exact ⟨d, filter_name_eq hp.arrays_nodup hd, hrank.symm⟩
  queued key s hs := by
    obtain ⟨hkey, hscope⟩ := hp.pending _ hs
    refine ⟨hkey, fun e he => ?_⟩
    have hside : e.InScope (RuleTakes (p.rules.rules.take key)) (Ranked arrays) (Owned p.domains) (· ∈ s.within) := by
      rcases List.mem_cons.1 he with rfl | he
      · exact hscope.target
      · exact List.mem_singleton.1 he ▸ hscope.value
    exact ⟨fun v hv => hside.of_freeVars hv, fun name args hcall => exists_rule_of_call hside hcall⟩
  bounded v hv := by
    refine filter_vars_eq hp.vars_nodup ?_
    rcases hv with ⟨e, he, hv⟩ | ⟨e, he, vars, body, hsum, hv⟩
    · exact (hp.pending e he).2.within v hv
    · obtain ⟨_, _, hscope⟩ := hp.inScope he
      obtain ⟨_, hbounded, _⟩ := hscope.of_subterms hsum
      exact hbounded v hv
  backed rule entry hentry := by
    obtain ⟨hvisible, harray, hrule⟩ := hp.backed _ hentry
    exact ⟨mem_ruleNames_take.1 hrule, hvisible, List.mem_map.1 harray⟩
  live h hh := by
    obtain ⟨r, hr, harity⟩ := (hp.live h hh).rule
    refine ⟨r, List.mem_of_find?_eq_some hr, by simpa using List.find?_some hr, harity, fun array harray => ?_⟩
    obtain ⟨d, hd, rfl, hshape, htype⟩ := hp.holds h hh array harray
    exact ⟨d, filter_name_eq hp.arrays_nodup hd, hshape, htype⟩

theorem Stages.exists_outputs (h : Stages p handles arrays) :
    ∃ outputs, arrays = p.arrays ++ outputs ∧ ∀ d ∈ outputs, d.role = .output := by
  induction h with
  | empty id settings => exact ⟨[], rfl, nofun⟩
  | @perform p p' handles arrays outcome hbefore op hrefs hrun ih =>
    cases hclosed : p.finalized with
    | false => exact ⟨[], (List.append_nil _).symm, nofun⟩
    | true =>
      obtain ⟨e, hhalts⟩ := Build.Halts.perform hclosed op
      obtain ⟨_, rfl⟩ := Prod.mk.inj (hhalts.symm.trans hrun)
      exact ih
  | @finalize p p' handles arrays outcome hbefore outputs withStores houtputs hrun ih =>
    rcases hbefore.framed with ⟨_, hintact, _⟩ | ⟨hclosed, _⟩
    · cases outcome with
      | error e =>
        have hout := Build.Outcome.finalize hintact.wellFormed outputs withStores
        unfold Build.Outcome at hout
        rw [hrun] at hout
        rw [declaredAfter, hout.same]
        exact ih
      | ok k =>
        obtain ⟨os, hlowers⟩ := finalize_lowers hintact.wellFormed hrun
        have hsame := (finalize_same hintact.wellFormed outputs withStores).of_runOn_ok hrun
        refine ⟨os.map Realization.declaration, ?_, fun d hd => ?_⟩
        · rw [declaredAfter, hlowers.arrays, hsame]
        · obtain ⟨o, _, rfl⟩ := List.mem_map.1 hd
          rfl
    · obtain ⟨e, hhalts⟩ := Build.Halts.finalize outputs withStores hclosed
      obtain ⟨rfl, rfl⟩ := Prod.mk.inj (hhalts.symm.trans hrun)
      exact ih

/-- Whatever was carried out or refused, a plan is sound. The arrays meant are those that the plan declares, and once it
is lowered those of its kernel: lowering declares the output arrays in the kernel and not in the plan. -/
theorem stages_sound (h : Stages p handles arrays) :
    p.Sound handles arrays ∧ (p.finalized = false → arrays = p.arrays) ∧
      ∃ outputs, arrays = p.arrays ++ outputs ∧ ∀ d ∈ outputs, d.role = .output := by
  refine ⟨?_, fun hopen => ?_, h.exists_outputs⟩
  · rcases h.framed with ⟨_, hintact, rfl⟩ | ⟨_, hframed⟩
    · exact hintact.framed.sound
    · exact hframed.sound
  · rcases h.framed with ⟨_, _, harrays⟩ | ⟨hclosed, _⟩
    · exact harrays
    · rw [hopen] at hclosed
      cases hclosed

theorem stages_sound_overwritten :
    ∃ (p : Plan) (handles : List Handle) (arrays : List Declaration), Stages p handles arrays ∧
      p.finalized = true ∧ handles.length = 2 ∧ arrays.length = 1 ∧ p.Sound handles arrays ∧
      ∃ outputs, arrays = p.arrays ++ outputs ∧ ∀ d ∈ outputs, d.role = .output := by
  have hfill := (Stages.empty 0 .default).perform (.fill (.extents [.fixed 2]) (.int 3))
    (by simp [Operation.refs]) (Prod.eta _).symm
  have hwrite := hfill.perform (.write (pairHandle "subst0" .float64) [.all] (.literal (.int 1)))
    (by decide +kernel) (Prod.eta _).symm
  have hlowered := hwrite.finalize [pairHandle "subst0" .float64] false (by decide +kernel) (Prod.eta _).symm
  have hlate := hlowered.perform (.write (pairHandle "subst0" .float64) [.all] (.literal (.int 1)))
    (by decide +kernel) (Prod.eta _).symm
  obtain ⟨hsound, _, houtputs⟩ := stages_sound hlate
  exact ⟨_, _, _, hlate, by decide +kernel, by decide +kernel, by decide +kernel, hsound, houtputs⟩

end Plan

end ArrayPlan
