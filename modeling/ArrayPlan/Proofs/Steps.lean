import ArrayPlan.Plan.Build
import ArrayPlan.Proofs.Supply

/-!
Reasoning about steps that build a plan. An operation makes its checks and draws its names before it changes
anything else, so when it refuses, the plan it started from has lost names at most. `Outcome` keeps this
together with what holds after success, with one rule for each step.
-/

namespace ArrayPlan

/-- The plan is as before, up to names drawn since. -/
structure Plan.OnlyDraws (p p' : Plan) : Prop where
  names : ∃ issued, p.names.Draws p'.names issued
  same : p' = { p with names := p'.names }

namespace Plan

theorem OnlyDraws.refl (p : Plan) : p.OnlyDraws p :=
  ⟨⟨[], .refl _⟩, rfl⟩

theorem OnlyDraws.draw {p p' : Plan} (h : p.OnlyDraws p') {names : NameSupply} {issued : List String}
    (hdraws : p'.names.Draws names issued) : p.OnlyDraws { p' with names } := by
  obtain ⟨first, hfirst⟩ := h.names
  refine ⟨⟨first ++ issued, hfirst.trans hdraws⟩, ?_⟩
  rw [h.same]

def callOf (p : Plan) (rule : String) (args : List Expr) : Expr :=
  match p.rules.find? rule with
  | some r => if r.arity = 0 then .call rule [] else .call rule args
  | none => .call rule args

def callAtOrigin (p : Plan) (rule : String) : Expr :=
  match p.rules.find? rule with
  | some r => .call rule (List.replicate r.arity (.int 0))
  | none => .call rule []

def Takes (p : Plan) (rule : String) (count : Nat) : Prop :=
  ∃ r, p.rules.find? rule = some r ∧ (r.arity = count ∨ r.arity = 0)

end Plan

namespace Build

theorem runOn_bind_eq {α β : Type} (step : Build β) (next : β → Build α) (p : Plan) :
    (step >>= next).runOn p =
      match step.runOn p with
      | (.ok b, p') => (next b).runOn p'
      | (.error e, p') => (.error e, p') := by
  simp only [runOn, ExceptT.run_bind, StateT.run_bind]
  cases (StateT.run (ExceptT.run step) p) with
  | mk outcome p' => cases outcome <;> rfl

theorem runOn_get {α : Type} (next : Plan → Build α) (p : Plan) : (get >>= next).runOn p = (next p).runOn p :=
  rfl

/-- What becomes of a plan in a step that is part of an operation begun on the plan `start`. -/
def Outcome {α : Type} (start : Plan) (step : Build α) (p : Plan) (Q : α → Plan → Prop) : Prop :=
  match step.runOn p with
  | (.ok a, p') => Q a p'
  | (.error _, p') => start.OnlyDraws p'

namespace Outcome

variable {α β : Type} {start p : Plan} {Q : α → Plan → Prop}

theorem pure {a : α} (h : Q a p) : Outcome start (pure a) p Q :=
  h

theorem throw {e : PlanError} (h : start.OnlyDraws p) : Outcome start (throw e : Build α) p Q :=
  h

theorem bind {step : Build β} {next : β → Build α}
    (h : Outcome start step p fun b p' => Outcome start (next b) p' Q) :
    Outcome start (step >>= next) p Q := by
  unfold Outcome at h ⊢
  rw [runOn_bind_eq]
  cases hstep : step.runOn p with
  | mk outcome p' =>
    rw [hstep] at h
    cases outcome with
    | ok b => exact h
    | error e => exact h

theorem mono {step : Build α} {Q' : α → Plan → Prop} (h : Outcome start step p Q')
    (himp : ∀ a p', Q' a p' → Q a p') : Outcome start step p Q := by
  unfold Outcome at h ⊢
  cases hstep : step.runOn p with
  | mk outcome p' =>
    rw [hstep] at h
    cases outcome with
    | ok a => exact himp a p' h
    | error e => exact h

theorem of_runOn_ok {step : Build α} {a : α} {p' : Plan} (h : Outcome start step p Q)
    (hrun : step.runOn p = (.ok a, p')) : Q a p' := by
  unfold Outcome at h
  rwa [hrun] at h

theorem get {Q : Plan → Plan → Prop} (h : Q p p) : Outcome start get p Q :=
  h

theorem ofExcept {x : Except PlanError α} (hstart : start.OnlyDraws p) (h : ∀ a, x = .ok a → Q a p) :
    Outcome start (ofExcept x) p Q := by
  cases x with
  | ok a => exact h a rfl
  | error e => exact hstart

theorem requireOwn {a : Handle} {Q : Unit → Plan → Prop} (hstart : start.OnlyDraws p)
    (h : a.plan = p.id → Q () p) : Outcome start (requireOwn a) p Q := by
  unfold Build.requireOwn
  refine bind (get ?_)
  split
  · exact throw hstart
  · rename_i hown
    exact pure (h (Decidable.not_not.1 hown))

theorem requireOpen {Q : Unit → Plan → Prop} (hstart : p.finalized = true → start.OnlyDraws p)
    (h : p.finalized = false → Q () p) : Outcome start requireOpen p Q := by
  unfold Build.requireOpen
  refine bind (get ?_)
  cases hp : p.finalized with
  | true => exact throw (hstart hp)
  | false => exact pure (h hp)

theorem fresh {kind : NameKind} {Q : String → Plan → Prop}
    (h : ∀ name names, p.names.Draws names [name] → Q name { p with names }) :
    Outcome start (fresh kind) p Q :=
  h _ _ (NameSupply.fresh_draws p.names kind)

theorem freshIndices {n : Nat} {Q : List String → Plan → Prop}
    (h : ∀ vars names, vars.length = n → p.names.Draws names vars → Q vars { p with names }) :
    Outcome start (freshIndices n) p Q :=
  h _ _ (NameSupply.length_freshList .index n p.names) (NameSupply.freshList_draws .index n p.names)

theorem reserve {name : String} {Q : Unit → Plan → Prop} (hstart : start.OnlyDraws p)
    (h : ∀ names, p.names.Draws names [name] → Q () { p with names }) :
    Outcome start (reserve name) p Q := by
  unfold Build.reserve
  refine bind (get ?_)
  cases hr : p.names.reserve? name with
  | none => exact throw hstart
  | some names => exact h names (NameSupply.reserve?_draws hr)

theorem addDomain {d : Domain} {Q : Unit → Plan → Prop}
    (h : Q () { p with domains := p.domains ++ if d.vars.isEmpty then [] else [d] }) :
    Outcome start (addDomain d) p Q := by
  unfold Build.addDomain
  have hrun : (modify (m := Build) fun p => if d.vars.isEmpty then p else { p with domains := p.domains ++ [d] }).runOn p =
      (.ok (), if d.vars.isEmpty then p else { p with domains := p.domains ++ [d] }) := rfl
  unfold Outcome
  rw [hrun]
  split at h
  · rename_i hempty
    rw [List.append_nil] at h
    simpa [hempty] using h
  · rename_i hempty
    simpa [hempty] using h

theorem enqueue {s : Statement} {Q : Unit → Plan → Prop}
    (h : Q () { p with pending := p.pending ++ [(p.rules.size, s)] }) : Outcome start (enqueue s) p Q :=
  h

theorem declare {d : Declaration} {Q : Unit → Plan → Prop} (h : Q () { p with arrays := p.arrays ++ [d] }) :
    Outcome start (declare d) p Q :=
  h

theorem back {rule array : String} {Q : Unit → Plan → Prop}
    (h : Q () { p with backing := p.backing.insert rule array p.rules.size }) :
    Outcome start (back rule array) p Q :=
  h

theorem handle {rule : String} {shape : Shape} {elementType : ElementType} {layout : Layout}
    {Q : Handle → Plan → Prop} (h : Q ⟨p.id, rule, shape, elementType, layout⟩ p) :
    Outcome start (handle rule shape elementType layout) p Q :=
  h

theorem define {params : List String} {body : Expr} {Q : String → Plan → Prop}
    (htaken : ∀ r ∈ p.rules.rules, r.name ∈ p.names.taken)
    (h : ∀ name names, p.names.Draws names [name] →
      Q name { p with names, rules := ⟨p.rules.rules ++ [⟨name, params, body⟩]⟩ }) :
    Outcome start (define params body) p Q := by
  unfold Build.define
  refine bind (fresh fun name names hdraws => bind ?_)
  have hnew : p.rules.contains name = false := by
    simp only [RuleLog.contains, List.any_eq_false, decide_eq_true_eq]
    exact fun r hr hname => hdraws.unused name (by simp) (hname ▸ htaken r hr)
  unfold register
  refine bind (get ?_)
  simp only [RuleLog.push?, hnew]
  exact h name names hdraws

theorem invoke {rule : String} {args : List Expr} {Q : Expr → Plan → Prop}
    (htakes : p.Takes rule args.length) (h : Q (p.callOf rule args) p) :
    Outcome start (invoke rule args) p Q := by
  obtain ⟨r, hr, harity⟩ := htakes
  unfold Build.invoke arityOf
  refine bind (bind (get ?_))
  rw [hr]
  refine pure ?_
  simp only [Plan.callOf, hr] at h
  by_cases hzero : r.arity = 0
  · rw [if_pos hzero] at h ⊢
    exact pure h
  · rw [if_neg hzero] at h ⊢
    rw [if_pos (harity.resolve_right hzero)]
    exact pure h

theorem invokeAt {rule : String} {vars : List String} {Q : Expr → Plan → Prop}
    (htakes : p.Takes rule vars.length) (h : Q (p.callOf rule (vars.map .var)) p) :
    Outcome start (invokeAt rule vars) p Q :=
  invoke (by rwa [List.length_map]) h

theorem invokeAtOrigin {rule : String} {count : Nat} {Q : Expr → Plan → Prop}
    (htakes : p.Takes rule count) (h : Q (p.callAtOrigin rule) p) :
    Outcome start (invokeAtOrigin rule) p Q := by
  obtain ⟨r, hr, _⟩ := htakes
  unfold Build.invokeAtOrigin arityOf
  refine bind (bind (get ?_))
  simp only [Plan.callAtOrigin, hr] at h ⊢
  exact pure h

end Outcome

end Build

end ArrayPlan
