import ArrayPlan.Expr.Walk
import ArrayPlan.Plan.Elementwise
import ArrayPlan.Plan.Reduction
import ArrayPlan.Plan.Reshape
import ArrayPlan.Plan.Selection
import ArrayPlan.Proofs.Growth

/-!
Scoping of expressions. An expression is in scope when its calls have as many arguments as the rules have
parameters, its loads as many indices as the arrays have axes, its free variables are given, and its sums run
over variables that a domain bounds. Every expression that an operation builds is in scope where it is put.
-/

namespace ArrayPlan

namespace Expr

mutual

/-- Calls and loads have the right number of arguments, free variables are among those given, and sums bind
variables that are bounded. -/
def InScope (takes ranked : String → Nat → Prop) (bounded : String → Prop) (given : String → Prop) :
    Expr → Prop
  | .int _ | .real _ => True
  | .var name => given name
  | .call rule args => takes rule args.length ∧ InScopeAll takes ranked bounded given args
  | .load array index => ranked array index.length ∧ InScopeAll takes ranked bounded given index
  | .arith _ lhs rhs => InScope takes ranked bounded given lhs ∧ InScope takes ranked bounded given rhs
  | .compare _ lhs rhs => InScope takes ranked bounded given lhs ∧ InScope takes ranked bounded given rhs
  | .sum vars body =>
    (∀ v ∈ vars, bounded v) ∧ InScope takes ranked bounded (fun v => given v ∨ v ∈ vars) body

def InScopeAll (takes ranked : String → Nat → Prop) (bounded : String → Prop) (given : String → Prop) :
    List Expr → Prop
  | [] => True
  | e :: es => InScope takes ranked bounded given e ∧ InScopeAll takes ranked bounded given es

end

section Laws

variable {takes takes' ranked ranked' : String → Nat → Prop} {bounded bounded' : String → Prop}

theorem inScopeAll_iff {given : String → Prop} {es : List Expr} :
    InScopeAll takes ranked bounded given es ↔ ∀ e ∈ es, e.InScope takes ranked bounded given := by
  induction es with
  | nil => simp [InScopeAll]
  | cons e es ih => simp [InScopeAll, ih]

theorem inScopeAll_vars {given : String → Prop} {names : List String} (h : ∀ v ∈ names, given v) :
    InScopeAll takes ranked bounded given (names.map .var) := by
  rw [inScopeAll_iff]
  intro e he
  obtain ⟨name, hname, rfl⟩ := List.mem_map.1 he
  exact h name hname

mutual

theorem InScope.mono (ht : ∀ r n, takes r n → takes' r n) (hr : ∀ a n, ranked a n → ranked' a n)
    (hb : ∀ v, bounded v → bounded' v) : ∀ {e : Expr} {given given' : String → Prop}, (∀ v, given v → given' v) →
      e.InScope takes ranked bounded given → e.InScope takes' ranked' bounded' given'
  | .int _, _, _, _, _ => trivial
  | .real _, _, _, _, _ => trivial
  | .var _, _, _, hg, h => hg _ h
  | .call _ _, _, _, hg, h => ⟨ht _ _ h.1, InScopeAll.mono ht hr hb hg h.2⟩
  | .load _ _, _, _, hg, h => ⟨hr _ _ h.1, InScopeAll.mono ht hr hb hg h.2⟩
  | .arith _ _ _, _, _, hg, h => ⟨InScope.mono ht hr hb hg h.1, InScope.mono ht hr hb hg h.2⟩
  | .compare _ _ _, _, _, hg, h => ⟨InScope.mono ht hr hb hg h.1, InScope.mono ht hr hb hg h.2⟩
  | .sum _ _, _, _, hg, h => ⟨fun v hv => hb v (h.1 v hv), InScope.mono ht hr hb (fun v => Or.imp_left (hg v)) h.2⟩

theorem InScopeAll.mono (ht : ∀ r n, takes r n → takes' r n) (hr : ∀ a n, ranked a n → ranked' a n)
    (hb : ∀ v, bounded v → bounded' v) :
    ∀ {es : List Expr} {given given' : String → Prop}, (∀ v, given v → given' v) →
      InScopeAll takes ranked bounded given es → InScopeAll takes' ranked' bounded' given' es
  | [], _, _, _, _ => trivial
  | _ :: _, _, _, hg, h => ⟨InScope.mono ht hr hb hg h.1, InScopeAll.mono ht hr hb hg h.2⟩

end

variable {rules arrays owned : String → Prop}

mutual

theorem InScope.within (ht : ∀ r n, takes r n → rules r) (hr : ∀ a n, ranked a n → arrays a)
    (hb : ∀ v, bounded v → owned v) : ∀ {e : Expr} {given : String → Prop},
      e.InScope takes ranked bounded given → e.Within rules arrays owned
  | .int _, _, _ => trivial
  | .real _, _, _ => trivial
  | .var _, _, _ => trivial
  | .call _ _, _, h => ⟨ht _ _ h.1, InScopeAll.within ht hr hb h.2⟩
  | .load _ _, _, h => ⟨hr _ _ h.1, InScopeAll.within ht hr hb h.2⟩
  | .arith _ _ _, _, h => ⟨InScope.within ht hr hb h.1, InScope.within ht hr hb h.2⟩
  | .compare _ _ _, _, h => ⟨InScope.within ht hr hb h.1, InScope.within ht hr hb h.2⟩
  | .sum _ _, _, h => ⟨fun v hv => hb v (h.1 v hv), InScope.within ht hr hb h.2⟩

theorem InScopeAll.within (ht : ∀ r n, takes r n → rules r) (hr : ∀ a n, ranked a n → arrays a)
    (hb : ∀ v, bounded v → owned v) : ∀ {es : List Expr} {given : String → Prop},
      InScopeAll takes ranked bounded given es → WithinAll rules arrays owned es
  | [], _, _ => trivial
  | _ :: _, _, h => ⟨InScope.within ht hr hb h.1, InScopeAll.within ht hr hb h.2⟩

end

theorem InScopeAll.withinAll {es : List Expr}
    (h : InScopeAll (fun rule _ => rules rule) (fun array _ => arrays array) owned (fun _ => True) es) :
    WithinAll rules arrays owned es :=
  InScopeAll.within (fun rule _ (h : rules rule) => h) (fun array _ (h : arrays array) => h) (fun v (h : owned v) => h) h

mutual

theorem InScope.of_freeOccurrences : ∀ {e : Expr} {given : String → Prop} {excluded : List String} {v : String},
    e.InScope takes ranked bounded given → v ∈ e.freeOccurrences excluded → given v ∧ v ∉ excluded
  | .int _, _, _, _, _, hv => by simp [freeOccurrences] at hv
  | .real _, _, _, _, _, hv => by simp [freeOccurrences] at hv
  | .var name, given, excluded, v, h, hv => by
    rw [freeOccurrences] at hv
    split at hv
    · cases hv
    · obtain rfl := List.mem_singleton.1 hv
      exact ⟨h, by assumption⟩
  | .call _ _, _, _, _, h, hv => InScopeAll.of_freeOccurrences h.2 hv
  | .load _ _, _, _, _, h, hv => InScopeAll.of_freeOccurrences h.2 hv
  | .arith _ _ _, _, _, _, h, hv =>
    (List.mem_append.1 hv).elim (InScope.of_freeOccurrences h.1) (InScope.of_freeOccurrences h.2)
  | .compare _ _ _, _, _, _, h, hv =>
    (List.mem_append.1 hv).elim (InScope.of_freeOccurrences h.1) (InScope.of_freeOccurrences h.2)
  | .sum vars body, _, excluded, v, h, hv => by
    obtain ⟨hgiven, hnot⟩ := InScope.of_freeOccurrences h.2 hv
    rw [List.mem_append, not_or] at hnot
    exact ⟨hgiven.resolve_right hnot.2, hnot.1⟩

theorem InScopeAll.of_freeOccurrences : ∀ {es : List Expr} {given : String → Prop} {excluded : List String}
    {v : String}, InScopeAll takes ranked bounded given es → v ∈ freeOccurrencesAll excluded es →
      given v ∧ v ∉ excluded
  | [], _, _, _, _, hv => by simp [freeOccurrencesAll] at hv
  | _ :: _, _, _, _, h, hv =>
    (List.mem_append.1 hv).elim (InScope.of_freeOccurrences h.1) (InScopeAll.of_freeOccurrences h.2)

end

theorem InScope.of_freeVars {e : Expr} {given : String → Prop} (h : e.InScope takes ranked bounded given)
    {v : String} (hv : v ∈ e.freeVars) : given v :=
  (h.of_freeOccurrences (List.mem_eraseDups.1 hv)).1

mutual

theorem InScope.of_subterms : ∀ {e : Expr} {given : String → Prop} {part : Expr},
    e.InScope takes ranked bounded given → part ∈ e.subterms →
      ∃ given', part.InScope takes ranked bounded given'
  | .int _, _, _, h, hpart => ⟨_, List.mem_singleton.1 hpart ▸ h⟩
  | .real _, _, _, h, hpart => ⟨_, List.mem_singleton.1 hpart ▸ h⟩
  | .var _, _, _, h, hpart => ⟨_, List.mem_singleton.1 hpart ▸ h⟩
  | .call _ _, _, _, h, hpart =>
    (List.mem_cons.1 hpart).elim (fun hsame => ⟨_, hsame ▸ h⟩) (InScopeAll.of_subterms h.2)
  | .load _ _, _, _, h, hpart =>
    (List.mem_cons.1 hpart).elim (fun hsame => ⟨_, hsame ▸ h⟩) (InScopeAll.of_subterms h.2)
  | .arith _ _ _, _, _, h, hpart =>
    (List.mem_cons.1 hpart).elim (fun hsame => ⟨_, hsame ▸ h⟩) fun hpart =>
      (List.mem_append.1 hpart).elim (InScope.of_subterms h.1) (InScope.of_subterms h.2)
  | .compare _ _ _, _, _, h, hpart =>
    (List.mem_cons.1 hpart).elim (fun hsame => ⟨_, hsame ▸ h⟩) fun hpart =>
      (List.mem_append.1 hpart).elim (InScope.of_subterms h.1) (InScope.of_subterms h.2)
  | .sum _ _, _, _, h, hpart =>
    (List.mem_cons.1 hpart).elim (fun hsame => ⟨_, hsame ▸ h⟩) (InScope.of_subterms h.2)

theorem InScopeAll.of_subterms : ∀ {es : List Expr} {given : String → Prop} {part : Expr},
    InScopeAll takes ranked bounded given es → part ∈ subtermsAll es →
      ∃ given', part.InScope takes ranked bounded given'
  | _ :: _, _, _, h, hpart =>
    (List.mem_append.1 hpart).elim (InScope.of_subterms h.1) (InScopeAll.of_subterms h.2)

end

end Laws

end Expr

section Built

variable {p : Plan} {ranked : String → Nat → Prop} {bounded given : String → Prop}

def RuleTakes (rules : List Rule) (rule : String) (count : Nat) : Prop :=
  ∃ r ∈ rules, r.name = rule ∧ r.arity = count

theorem RuleTakes.of_find? {l : RuleLog} {rule : String} {r : Rule} (h : l.find? rule = some r) :
    RuleTakes l.rules rule r.arity :=
  ⟨r, List.mem_of_find?_eq_some h, by simpa using List.find?_some h, rfl⟩

theorem RuleTakes.mem {rules : List Rule} (rule : String) (count : Nat) (h : RuleTakes rules rule count) :
    rule ∈ ruleNames rules := by
  obtain ⟨r, hr, rfl, _⟩ := h
  exact List.mem_map_of_mem hr

theorem inScope_callOf {rule : String} {args : List Expr} (htakes : p.Takes rule args.length)
    (hargs : Expr.InScopeAll (RuleTakes p.rules.rules) ranked bounded given args) :
    (p.callOf rule args).InScope (RuleTakes p.rules.rules) ranked bounded given := by
  obtain ⟨r, hr, harity⟩ := htakes
  have hfound := RuleTakes.of_find? hr
  unfold Plan.callOf
  rw [hr]
  dsimp only
  split
  · rename_i hzero
    rw [hzero] at hfound
    exact ⟨hfound, trivial⟩
  · rename_i hzero
    rw [harity.resolve_right hzero] at hfound
    exact ⟨hfound, hargs⟩

theorem inScope_callAtOrigin {a : Handle} (ha : p.Live a) :
    (p.callAtOrigin a.rule).InScope (RuleTakes p.rules.rules) ranked bounded given := by
  obtain ⟨r, hr, _⟩ := ha.rule
  unfold Plan.callAtOrigin
  rw [hr]
  refine ⟨by rw [List.length_replicate]; exact RuleTakes.of_find? hr, Expr.inScopeAll_iff.2 fun e he => ?_⟩
  rw [List.eq_of_mem_replicate he]
  trivial

variable {takes : String → Nat → Prop}

theorem inScope_toExpr (value : Literal) : value.toExpr.InScope takes ranked bounded given := by
  cases value <;> trivial

theorem inScope_apply (op : Operator) {lhs rhs : Expr} (hl : lhs.InScope takes ranked bounded given)
    (hr : rhs.InScope takes ranked bounded given) : (op.apply lhs rhs).InScope takes ranked bounded given := by
  cases op <;> exact ⟨hl, hr⟩

theorem inScopeAll_spreadIndex (extents : List Extent) {vars : List String} (h : ∀ v ∈ vars, given v) :
    Expr.InScopeAll takes ranked bounded given (Build.spreadIndex extents vars) := by
  induction extents generalizing vars with
  | nil => exact trivial
  | cons e extents ih =>
    cases vars with
    | nil => exact trivial
    | cons v vars =>
      refine ⟨?_, ih fun w hw => h w (List.mem_cons_of_mem _ hw)⟩
      split
      · trivial
      · exact h v List.mem_cons_self

theorem inScopeAll_linearTerms (vars : List String) (lengths strides : List Nat) (h : ∀ v ∈ vars, given v) :
    Expr.InScopeAll takes ranked bounded given (linearTerms vars lengths strides) := by
  fun_induction linearTerms vars lengths strides with
  | case1 var vars lengths stride strides rest ih => exact ih fun w hw => h w (List.mem_cons_of_mem _ hw)
  | case2 var vars length lengths strides rest hlength ih =>
    exact ⟨h var List.mem_cons_self, ih fun w hw => h w (List.mem_cons_of_mem _ hw)⟩
  | case3 var vars length lengths stride strides rest hlength hstride ih =>
    exact ⟨⟨h var List.mem_cons_self, trivial⟩, ih fun w hw => h w (List.mem_cons_of_mem _ hw)⟩
  | case4 => exact trivial

theorem inScope_linearIndex (vars : List String) (lengths strides : List Nat) (h : ∀ v ∈ vars, given v) :
    (linearIndex vars lengths strides).InScope takes ranked bounded given := by
  have hterms : Expr.InScopeAll takes ranked bounded given (linearTerms vars lengths strides) :=
    inScopeAll_linearTerms vars lengths strides h
  unfold linearIndex
  split
  · trivial
  · rename_i term terms heq
    rw [heq] at hterms
    obtain ⟨hterm, hterms⟩ := hterms
    clear heq
    induction terms generalizing term with
    | nil => exact hterm
    | cons next terms ih => exact ih (.arith .add term next) ⟨hterm, hterms.1⟩ hterms.2

theorem inScope_axisPosition {line : Expr} (hline : line.InScope takes ranked bounded given)
    (total length stride : Nat) : (axisPosition line total length stride).InScope takes ranked bounded given := by
  unfold axisPosition
  split
  · trivial
  · dsimp only
    split <;> split <;> first | exact hline | exact ⟨hline, trivial⟩ | exact ⟨⟨hline, trivial⟩, trivial⟩

theorem inScopeAll_indexAtLine {line : Expr} (hline : line.InScope takes ranked bounded given) (total : Nat)
    (lengths strides : List Nat) :
    Expr.InScopeAll takes ranked bounded given (indexAtLine line total lengths strides) := by
  refine Expr.inScopeAll_iff.2 fun e he => ?_
  obtain ⟨axis, _, rfl⟩ := List.mem_map.1 he
  exact inScope_axisPosition hline _ _ _

end Built

end ArrayPlan
