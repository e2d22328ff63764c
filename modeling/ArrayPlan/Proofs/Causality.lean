import Mathlib.Data.List.Nodup
import ArrayPlan.Proofs.Realization
import ArrayPlan.Proofs.Simultaneous

/-!
Causality of lowering. What a rule or statement of a kernel loads is settled by its registration index alone: a
call goes over to an array that the plan showed at that index before it was lowered, or to the output array of a
requested rule that was registered earlier. Nothing else is replaced.
-/

namespace ArrayPlan

namespace Expr

mutual

/-- The expression with loads in place of the calls of all rules that have an array, also in arguments, in
indices and under sums. A call without arguments becomes a load of the first element. -/
def withLoads (arrayOf : String → Option String) : Expr → Expr
  | call rule args =>
    match arrayOf rule with
    | some array => load array (if args.isEmpty then [int 0] else withLoadsAll arrayOf args)
    | none => call rule (withLoadsAll arrayOf args)
  | load array index => load array (withLoadsAll arrayOf index)
  | arith op lhs rhs => arith op (withLoads arrayOf lhs) (withLoads arrayOf rhs)
  | compare op lhs rhs => compare op (withLoads arrayOf lhs) (withLoads arrayOf rhs)
  | sum vars body => sum vars (withLoads arrayOf body)
  | e => e

def withLoadsAll (arrayOf : String → Option String) : List Expr → List Expr
  | [] => []
  | e :: es => withLoads arrayOf e :: withLoadsAll arrayOf es

end

section Rewriting

variable (t : BackingTable) (i : Nat)

mutual

theorem loadBacked_eq_withLoads : ∀ e : Expr, e.loadBacked t i = e.withLoads fun rule => t.arrayAt? rule i
  | .int _ => rfl
  | .real _ => rfl
  | .var _ => rfl
  | .call rule args => by
    rw [loadBacked_call, withLoads]
    cases t.arrayAt? rule i with
    | none => exact congrArg (call rule) (rebuildAll_eq_withLoadsAll args)
    | some array =>
      have hempty : (rebuildAll (t.loadFor? i) args).isEmpty = args.isEmpty := by cases args <;> rfl
      dsimp only [loadIndex]
      rw [hempty, rebuildAll_eq_withLoadsAll args]
  | .load array index => congrArg (load array) (rebuildAll_eq_withLoadsAll index)
  | .arith op lhs rhs => by
    rw [loadBacked_arith, withLoads, loadBacked_eq_withLoads lhs, loadBacked_eq_withLoads rhs]
  | .compare op lhs rhs => by
    rw [loadBacked_compare, withLoads, loadBacked_eq_withLoads lhs, loadBacked_eq_withLoads rhs]
  | .sum vars body => by
    rw [loadBacked_sum, withLoads, loadBacked_eq_withLoads body]

theorem rebuildAll_eq_withLoadsAll : ∀ es : List Expr,
    rebuildAll (t.loadFor? i) es = withLoadsAll (fun rule => t.arrayAt? rule i) es
  | [] => rfl
  | e :: es => by rw [rebuildAll_cons, withLoadsAll, loadBacked_eq_withLoads e, rebuildAll_eq_withLoadsAll es]

end

end Rewriting

section Mentions

variable {arrayOf : String → Option String} {rule array : String}

theorem mem_subtermsAll {part : Expr} {es : List Expr} : part ∈ subtermsAll es ↔ ∃ e ∈ es, part ∈ e.subterms := by
  induction es with
  | nil => simp [subtermsAll]
  | cons e es ih => simp [subtermsAll, ih]

theorem mem_calls {e : Expr} : rule ∈ e.calls ↔ ∃ args, call rule args ∈ e.subterms := by
  rw [calls, List.mem_eraseDups, List.mem_filterMap]
  constructor
  · rintro ⟨part, hpart, hcall⟩
    cases part with
    | call r args =>
      obtain rfl : r = rule := by simpa using hcall
      exact ⟨args, hpart⟩
    | _ => simp at hcall
  · rintro ⟨args, hpart⟩
    exact ⟨call rule args, hpart, rfl⟩

theorem mem_loads {e : Expr} : array ∈ e.loads ↔ ∃ index, load array index ∈ e.subterms := by
  rw [loads, List.mem_eraseDups, List.mem_filterMap]
  constructor
  · rintro ⟨part, hpart, hload⟩
    cases part with
    | load a index =>
      obtain rfl : a = array := by simpa using hload
      exact ⟨index, hpart⟩
    | _ => simp at hload
  · rintro ⟨index, hpart⟩
    exact ⟨load array index, hpart, rfl⟩

section Parts

attribute [local simp] subterms

variable {r a : String} {args index : List Expr} {op : ArithOp} {cmp : CompareOp} {lhs rhs body : Expr}
  {vars : List String}

@[simp] theorem mem_calls_int {n : Int} : rule ∉ (int n).calls := by simp [mem_calls]

@[simp] theorem mem_calls_real {x : Float} : rule ∉ (real x).calls := by simp [mem_calls]

@[simp] theorem mem_calls_var {name : String} : rule ∉ (var name).calls := by simp [mem_calls]

@[simp] theorem mem_calls_call : rule ∈ (call r args).calls ↔ rule = r ∨ ∃ e ∈ args, rule ∈ e.calls := by
  simp only [mem_calls, subterms, List.mem_cons, mem_subtermsAll, call.injEq]
  grind

@[simp] theorem mem_calls_load : rule ∈ (load a index).calls ↔ ∃ e ∈ index, rule ∈ e.calls := by
  simp only [mem_calls, subterms, List.mem_cons, mem_subtermsAll, reduceCtorEq, false_or]
  grind

@[simp] theorem mem_calls_arith : rule ∈ (arith op lhs rhs).calls ↔ rule ∈ lhs.calls ∨ rule ∈ rhs.calls := by
  simp [mem_calls, exists_or]

@[simp] theorem mem_calls_compare : rule ∈ (compare cmp lhs rhs).calls ↔ rule ∈ lhs.calls ∨ rule ∈ rhs.calls := by
  simp [mem_calls, exists_or]

@[simp] theorem mem_calls_sum : rule ∈ (sum vars body).calls ↔ rule ∈ body.calls := by
  simp [mem_calls]

@[simp] theorem mem_loads_int {n : Int} : array ∉ (int n).loads := by simp [mem_loads]

@[simp] theorem mem_loads_real {x : Float} : array ∉ (real x).loads := by simp [mem_loads]

@[simp] theorem mem_loads_var {name : String} : array ∉ (var name).loads := by simp [mem_loads]

@[simp] theorem mem_loads_call : array ∈ (call r args).loads ↔ ∃ e ∈ args, array ∈ e.loads := by
  simp only [mem_loads, subterms, List.mem_cons, mem_subtermsAll, reduceCtorEq, false_or]
  grind

@[simp] theorem mem_loads_load : array ∈ (load a index).loads ↔ array = a ∨ ∃ e ∈ index, array ∈ e.loads := by
  simp only [mem_loads, subterms, List.mem_cons, mem_subtermsAll, load.injEq]
  grind

@[simp] theorem mem_loads_arith : array ∈ (arith op lhs rhs).loads ↔ array ∈ lhs.loads ∨ array ∈ rhs.loads := by
  simp [mem_loads, exists_or]

@[simp] theorem mem_loads_compare : array ∈ (compare cmp lhs rhs).loads ↔ array ∈ lhs.loads ∨ array ∈ rhs.loads := by
  simp [mem_loads, exists_or]

@[simp] theorem mem_loads_sum : array ∈ (sum vars body).loads ↔ array ∈ body.loads := by
  simp [mem_loads]

end Parts

mutual

theorem mem_calls_withLoads : ∀ {e : Expr},
    rule ∈ (e.withLoads arrayOf).calls ↔ rule ∈ e.calls ∧ arrayOf rule = none
  | .int _ => by simp [withLoads]
  | .real _ => by simp [withLoads]
  | .var _ => by simp [withLoads]
  | .call r args => by
    have hargs := @mem_calls_withLoadsAll args
    rw [withLoads]
    cases hr : arrayOf r with
    | none =>
      dsimp only
      rw [mem_calls_call, mem_calls_call, hargs]
      grind
    | some a =>
      dsimp only
      rw [mem_calls_load, mem_calls_call]
      cases args with
      | nil => grind [mem_calls_int]
      | cons arg args =>
        rw [List.isEmpty_cons, if_neg Bool.false_ne_true, hargs]
        grind
  | .load a index => by
    rw [withLoads, mem_calls_load, mem_calls_load, mem_calls_withLoadsAll]
  | .arith op lhs rhs => by
    rw [withLoads, mem_calls_arith, mem_calls_arith, mem_calls_withLoads, mem_calls_withLoads, or_and_right]
  | .compare op lhs rhs => by
    rw [withLoads, mem_calls_compare, mem_calls_compare, mem_calls_withLoads, mem_calls_withLoads, or_and_right]
  | .sum vars body => by
    rw [withLoads, mem_calls_sum, mem_calls_sum, mem_calls_withLoads]

theorem mem_calls_withLoadsAll : ∀ {es : List Expr},
    (∃ e ∈ withLoadsAll arrayOf es, rule ∈ e.calls) ↔ (∃ e ∈ es, rule ∈ e.calls) ∧ arrayOf rule = none
  | [] => by simp [withLoadsAll]
  | e :: es => by
    simp only [withLoadsAll, List.mem_cons, exists_eq_or_imp]
    rw [mem_calls_withLoads, mem_calls_withLoadsAll, or_and_right]

end

mutual

theorem mem_loads_withLoads : ∀ {e : Expr},
    array ∈ (e.withLoads arrayOf).loads ↔ array ∈ e.loads ∨ ∃ rule ∈ e.calls, arrayOf rule = some array
  | .int _ => by simp [withLoads]
  | .real _ => by simp [withLoads]
  | .var _ => by simp [withLoads]
  | .call r args => by
    have hargs := @mem_loads_withLoadsAll args
    rw [withLoads]
    cases hr : arrayOf r with
    | none =>
      dsimp only
      rw [mem_loads_call, mem_loads_call, hargs]
      simp only [mem_calls_call]
      grind
    | some a =>
      dsimp only
      rw [mem_loads_load, mem_loads_call]
      simp only [mem_calls_call]
      cases args with
      | nil => grind [mem_loads_int]
      | cons arg args =>
        rw [List.isEmpty_cons, if_neg Bool.false_ne_true, hargs]
        grind
  | .load a index => by
    rw [withLoads, mem_loads_load, mem_loads_load, mem_loads_withLoadsAll, or_assoc]
    simp only [mem_calls_load]
  | .arith op lhs rhs => by
    rw [withLoads, mem_loads_arith, mem_loads_arith, mem_loads_withLoads, mem_loads_withLoads]
    simp only [mem_calls_arith]
    grind
  | .compare op lhs rhs => by
    rw [withLoads, mem_loads_compare, mem_loads_compare, mem_loads_withLoads, mem_loads_withLoads]
    simp only [mem_calls_compare]
    grind
  | .sum vars body => by
    rw [withLoads, mem_loads_sum, mem_loads_sum, mem_loads_withLoads]
    simp only [mem_calls_sum]

theorem mem_loads_withLoadsAll : ∀ {es : List Expr},
    (∃ e ∈ withLoadsAll arrayOf es, array ∈ e.loads) ↔
      (∃ e ∈ es, array ∈ e.loads) ∨ ∃ rule, (∃ e ∈ es, rule ∈ e.calls) ∧ arrayOf rule = some array
  | [] => by simp [withLoadsAll]
  | e :: es => by
    simp only [withLoadsAll, List.mem_cons, exists_eq_or_imp]
    rw [mem_loads_withLoads, mem_loads_withLoadsAll]
    grind

end

section Within

variable {rules arrays vars : String → Prop}

mutual

theorem Within.mem_of_calls : ∀ {e : Expr}, e.Within rules arrays vars → rule ∈ e.calls → rules rule
  | .int _, _, h => absurd h mem_calls_int
  | .real _, _, h => absurd h mem_calls_real
  | .var _, _, h => absurd h mem_calls_var
  | .call _ _, hw, h => (mem_calls_call.1 h).elim (fun hsame => hsame ▸ hw.1) (WithinAll.mem_of_calls hw.2)
  | .load _ _, hw, h => WithinAll.mem_of_calls hw.2 (mem_calls_load.1 h)
  | .arith _ _ _, hw, h => (mem_calls_arith.1 h).elim hw.1.mem_of_calls hw.2.mem_of_calls
  | .compare _ _ _, hw, h => (mem_calls_compare.1 h).elim hw.1.mem_of_calls hw.2.mem_of_calls
  | .sum _ _, hw, h => hw.2.mem_of_calls (mem_calls_sum.1 h)

theorem WithinAll.mem_of_calls : ∀ {es : List Expr}, WithinAll rules arrays vars es →
    (∃ e ∈ es, rule ∈ e.calls) → rules rule
  | _ :: _, hw, ⟨_, he, h⟩ => (List.mem_cons.1 he).elim (fun hsame => hw.1.mem_of_calls (hsame ▸ h))
    fun he => WithinAll.mem_of_calls hw.2 ⟨_, he, h⟩

end

mutual

theorem Within.mem_of_loads : ∀ {e : Expr}, e.Within rules arrays vars → array ∈ e.loads → arrays array
  | .int _, _, h => absurd h mem_loads_int
  | .real _, _, h => absurd h mem_loads_real
  | .var _, _, h => absurd h mem_loads_var
  | .call _ _, hw, h => WithinAll.mem_of_loads hw.2 (mem_loads_call.1 h)
  | .load _ _, hw, h => (mem_loads_load.1 h).elim (fun hsame => hsame ▸ hw.1) (WithinAll.mem_of_loads hw.2)
  | .arith _ _ _, hw, h => (mem_loads_arith.1 h).elim hw.1.mem_of_loads hw.2.mem_of_loads
  | .compare _ _ _, hw, h => (mem_loads_compare.1 h).elim hw.1.mem_of_loads hw.2.mem_of_loads
  | .sum _ _, hw, h => hw.2.mem_of_loads (mem_loads_sum.1 h)

theorem WithinAll.mem_of_loads : ∀ {es : List Expr}, WithinAll rules arrays vars es →
    (∃ e ∈ es, array ∈ e.loads) → arrays array
  | _ :: _, hw, ⟨_, he, h⟩ => (List.mem_cons.1 he).elim (fun hsame => hw.1.mem_of_loads (hsame ▸ h))
    fun he => WithinAll.mem_of_loads hw.2 ⟨_, he, h⟩

end

end Within

end Mentions

end Expr

def Rule.withLoads (arrayOf : String → Option String) (r : Rule) : Rule :=
  { r with body := r.body.withLoads arrayOf }

def Statement.withLoads (arrayOf : String → Option String) (s : Statement) : Statement :=
  { s with target := s.target.withLoads arrayOf, value := s.value.withLoads arrayOf }

namespace Plan

theorem bindingOf_eq_ok_iff {backing : BackingTable} {a : Handle} {b : Binding} :
    bindingOf backing a = .ok b ↔ a.rule = b.rule ∧ backing.array? b.rule = some b.array := by
  unfold bindingOf
  cases harray : backing.array? a.rule <;> cases b <;> grind

theorem mem_of_bindings {backing : BackingTable} {outputs : List Handle} {bound : List Binding}
    (h : bindings backing outputs = .ok bound) {b : Binding} :
    b ∈ bound ↔ ∃ a ∈ outputs, a.rule = b.rule ∧ backing.array? b.rule = some b.array := by
  obtain ⟨bs, hbs, rfl⟩ := map_eq_ok h
  simp only [List.mem_eraseDups, mem_iff_of_mapM_ok hbs, bindingOf_eq_ok_iff]

theorem mem_ruleNames_take {rules : List Rule} {i : Nat} {name : String} :
    name ∈ ruleNames (rules.take i) ↔ ∃ j r, j < i ∧ rules[j]? = some r ∧ r.name = name := by
  rw [ruleNames, List.map_take, List.mem_iff_getElem?]
  simp only [List.getElem?_take, List.getElem?_map]
  grind

/-- The array that a call of a rule goes over to at a registration index: the one that the plan shows there, or
the output array of an earlier rule that was requested and had none. -/
def arraySeen? (p : Plan) (outputs : List Handle) (k : Kernel) (i : Nat) (rule : String) : Option String :=
  match p.backing.find? rule with
  | some entry => if entry.visibleFrom ≤ i then some entry.array else none
  | none =>
    if (∃ h ∈ outputs, h.rule = rule) ∧ rule ∈ ruleNames (p.rules.rules.take i) then
      (k.outputs.find? fun b => b.rule = rule).map Binding.array
    else none

/-- The stores of a kernel: one for each requested rule that had no array. -/
structure StoresOf (p : Plan) (outputs : List Handle) (k : Kernel) (os : List Realization) : Prop where
  sorted : (os.map Realization.index).Pairwise (· < ·)
  sound : ∀ o ∈ os, p.rules.rules[o.index]? = some o.rule ∧ o.handle ∈ outputs ∧ o.handle.rule = o.rule.name ∧
    p.backing.find? o.rule.name = none ∧ ⟨o.rule.name, o.array⟩ ∈ k.outputs
  complete : ∀ h ∈ outputs, p.backing.find? h.rule = none → ∃ o ∈ os, o.rule.name = h.rule

theorem sublist_flatMap_of_forall {α β : Type} {f g : α → List β} {l : List α} (h : ∀ a ∈ l, (f a).Sublist (g a)) :
    (l.flatMap f).Sublist (l.flatMap g) := by
  induction l with
  | nil => exact List.Sublist.refl []
  | cons a l ih =>
    rw [List.flatMap_cons, List.flatMap_cons]
    exact (h a List.mem_cons_self).append (ih fun b hb => h b (List.mem_cons_of_mem a hb))

namespace Lowers

variable {p p' : Plan} {outputs : List Handle} {os : List Realization} {k : Kernel}

theorem realization_inj (hp : p.WellFormed) (h : p.Lowers outputs os k p') {o o' : Realization} (ho : o ∈ os)
    (ho' : o' ∈ os) (hname : o.rule.name = o'.rule.name) : o = o' := by
  have hindex := hp.index_inj (h.sound o ho).1 (h.sound o' ho').1 hname
  exact List.inj_on_of_nodup_map (h.sorted.imp Nat.ne_of_lt) ho ho' hindex

theorem exists_realization (h : p.Lowers outputs os k p') {a : Handle} (ha : a ∈ outputs)
    (hnone : p.backing.find? a.rule = none) : ∃ o ∈ os, o.rule.name = a.rule := by
  obtain ⟨r, hr, hname⟩ := List.mem_map.1 (h.registered a ha)
  obtain ⟨i, hi⟩ := List.mem_iff_getElem?.1 hr
  obtain ⟨o, ho, rfl⟩ := h.complete i r hi (hname ▸ requestedIn_isSome ha hnone)
  have hrule := (h.sound o ho).1
  rw [hi, Option.some.injEq] at hrule
  exact ⟨o, ho, hrule ▸ hname⟩

theorem find?_backed (h : p.Lowers outputs os k p') {rule : String} {entry : BackingEntry}
    (hentry : p.backing.find? rule = some entry) : p'.backing.find? rule = some entry := by
  rw [BackingTable.find?, h.backing, List.lookup_append]
  rw [BackingTable.find?] at hentry
  rw [hentry]
  rfl

theorem find?_eq_some_iff (hp : p.WellFormed) (h : p.Lowers outputs os k p') {rule : String} {entry : BackingEntry}
    (hnone : p.backing.find? rule = none) :
    p'.backing.find? rule = some entry ↔ ∃ o ∈ os, o.rule.name = rule ∧ entry = ⟨o.array, o.index + 1⟩ := by
  have hlater : p'.backing.find? rule = (os.map Realization.entry).lookup rule := by
    rw [BackingTable.find?] at hnone
    rw [BackingTable.find?, h.backing, List.lookup_append, hnone]
    rfl
  have hsound : ∀ e, p'.backing.find? rule = some e → ∃ o ∈ os, o.rule.name = rule ∧ e = ⟨o.array, o.index + 1⟩ := by
    intro e he
    obtain ⟨before, after, hsplit, _⟩ := List.lookup_eq_some_iff.1 (hlater ▸ he)
    obtain ⟨o, ho, heq⟩ := List.mem_map.1 (show (rule, e) ∈ os.map Realization.entry by simp [hsplit])
    exact ⟨o, ho, congrArg Prod.fst heq, (congrArg Prod.snd heq).symm⟩
  refine ⟨hsound entry, ?_⟩
  rintro ⟨o, ho, hname, rfl⟩
  cases hfind : p'.backing.find? rule with
  | none =>
    refine absurd ?_ (BackingTable.find?_eq_none_iff.1 hfind)
    rw [h.backing, List.map_append, List.map_map]
    exact List.mem_append_right _ (hname ▸ List.mem_map_of_mem ho)
  | some e =>
    obtain ⟨o', ho', hname', rfl⟩ := hsound e hfind
    rw [h.realization_inj hp ho ho' (hname.trans hname'.symm)]

theorem array?_of_realization (hp : p.WellFormed) (h : p.Lowers outputs os k p') {o : Realization} (ho : o ∈ os) :
    p'.backing.array? o.rule.name = some o.array := by
  have hnone := (requestedIn_eq_some (h.sound o ho).2.1).2.2
  rw [BackingTable.array?, (h.find?_eq_some_iff hp hnone).2 ⟨o, ho, rfl, rfl⟩]
  rfl

theorem mem_outputs (h : p.Lowers outputs os k p') {rule array : String} :
    ⟨rule, array⟩ ∈ k.outputs ↔ (∃ a ∈ outputs, a.rule = rule) ∧ p'.backing.array? rule = some array := by
  rw [mem_of_bindings h.bound]
  grind

theorem find?_outputs (h : p.Lowers outputs os k p') {rule array : String} (hreq : ∃ a ∈ outputs, a.rule = rule)
    (harray : p'.backing.array? rule = some array) :
    (k.outputs.find? fun b => b.rule = rule).map Binding.array = some array := by
  cases hfind : k.outputs.find? fun b => b.rule = rule with
  | none => simpa using List.find?_eq_none.1 hfind _ (h.mem_outputs.2 ⟨hreq, harray⟩)
  | some b =>
    have hrule : b.rule = rule := by simpa using List.find?_some hfind
    have hb := (h.mem_outputs.1 (List.mem_of_find?_eq_some hfind)).2
    rw [hrule, harray] at hb
    exact hb.symm

theorem exists_output (hp : p.WellFormed) (h : p.Lowers outputs os k p') {a : Handle} (ha : a ∈ outputs) :
    ∃ entry, p'.backing.find? a.rule = some entry ∧ k.outputArray? a = some entry.array := by
  obtain ⟨entry, hentry⟩ : ∃ entry, p'.backing.find? a.rule = some entry := by
    cases hfind : p.backing.find? a.rule with
    | some entry => exact ⟨entry, h.find?_backed hfind⟩
    | none =>
      obtain ⟨o, ho, hname⟩ := h.exists_realization ha hfind
      exact ⟨_, (h.find?_eq_some_iff hp hfind).2 ⟨o, ho, hname, rfl⟩⟩
  have harray : p'.backing.array? a.rule = some entry.array := by
    rw [BackingTable.array?, hentry]
    rfl
  exact ⟨entry, hentry, h.find?_outputs ⟨a, ha, rfl⟩ harray⟩

theorem arrayAt?_eq (hp : p.WellFormed) (h : p.Lowers outputs os k p') (i : Nat) (rule : String) :
    p'.backing.arrayAt? rule i = p.arraySeen? outputs k i rule := by
  unfold BackingTable.arrayAt? arraySeen?
  cases hfind : p.backing.find? rule with
  | some entry => rw [h.find?_backed hfind]
  | none =>
    cases hfind' : p'.backing.find? rule with
    | none =>
      dsimp only
      rw [if_neg]
      rintro ⟨⟨a, ha, rfl⟩, _⟩
      obtain ⟨o, ho, hname⟩ := h.exists_realization ha hfind
      have hsome := (h.find?_eq_some_iff hp hfind).2 ⟨o, ho, hname, rfl⟩
      rw [hfind'] at hsome
      cases hsome
    | some entry =>
      obtain ⟨o, ho, hname, rfl⟩ := (h.find?_eq_some_iff hp hfind).1 hfind'
      obtain ⟨hrule, hreq, _⟩ := h.sound o ho
      obtain ⟨hmem, hsame, _⟩ := requestedIn_eq_some hreq
      have hrequested : ∃ a ∈ outputs, a.rule = rule := ⟨o.handle, hmem, hsame.trans hname⟩
      have hbefore : rule ∈ ruleNames (p.rules.rules.take i) ↔ o.index + 1 ≤ i := by
        rw [mem_ruleNames_take]
        constructor
        · rintro ⟨j, r, hj, hr, hrname⟩
          rw [hp.index_inj hrule hr (hname.trans hrname.symm)]
          exact hj
        · exact fun hlt => ⟨o.index, o.rule, hlt, hrule, hname⟩
      dsimp only
      rw [h.find?_outputs hrequested (hname ▸ h.array?_of_realization hp ho)]
      simp only [hrequested, hbefore, true_and]

theorem storesOf (hp : p.WellFormed) (h : p.Lowers outputs os k p') : p.StoresOf outputs k os where
  sorted := h.sorted
  sound o ho := by
    obtain ⟨hrule, hreq, _⟩ := h.sound o ho
    obtain ⟨hmem, hsame, hnone⟩ := requestedIn_eq_some hreq
    exact ⟨hrule, hmem, hsame, hnone, h.mem_outputs.2 ⟨⟨o.handle, hmem, hsame⟩, h.array?_of_realization hp ho⟩⟩
  complete a ha hnone := h.exists_realization ha hnone

theorem array_unused (hp : p.WellFormed) (h : p.Lowers outputs os k p') {o : Realization} (ho : o ∈ os) :
    o.array ∉ arrayNames p.arrays := fun hmem =>
  h.draws.unused o.array (List.mem_flatMap.2 ⟨o, ho, List.mem_cons_self⟩) (hp.arrays_taken _ hmem)

theorem array_inj (h : p.Lowers outputs os k p') {o o' : Realization} (ho : o ∈ os) (ho' : o' ∈ os)
    (harray : o.array = o'.array) : o = o' := by
  have hnodup : (os.map Realization.array).Nodup := by
    refine List.pairwise_map.2 ((List.nodup_flatMap.1 h.draws.nodup).2.imp fun hdisjoint heq => ?_)
    exact hdisjoint List.mem_cons_self (heq ▸ List.mem_cons_self)
  exact List.inj_on_of_nodup_map hnodup ho ho' harray

/-- An output array is loaded where its rule was called, in rules behind it. -/
theorem mem_loads_iff (hp : p.WellFormed) (h : p.Lowers outputs os k p') {o : Realization} (ho : o ∈ os) {i : Nat}
    {r : Rule} (hr : p.rules.rules[i]? = some r) :
    o.array ∈ (r.loadBacked p'.backing i).body.loads ↔ o.rule.name ∈ r.body.calls := by
  have hbody := hp.bodies i r hr
  have hown : o.array ∉ r.body.loads := fun hload => h.array_unused hp ho (hbody.mem_of_loads hload)
  have hnone := (requestedIn_eq_some (h.sound o ho).2.1).2.2
  rw [Rule.loadBacked, Expr.loadBacked_eq_withLoads, Expr.mem_loads_withLoads, or_iff_right hown]
  constructor
  · rintro ⟨rule, hcall, harray⟩
    -- No other rule has that array, neither in the plan nor among the stored ones.
    obtain ⟨entry, hentry, _, hsame⟩ := BackingTable.exists_entry_of_arrayAt? harray
    rw [h.backing] at hentry
    rcases List.mem_append.1 hentry with hentry | hentry
    · exact absurd (hsame ▸ (hp.backed _ hentry).2.1) (h.array_unused hp ho)
    · obtain ⟨o', ho', heq⟩ := List.mem_map.1 hentry
      obtain rfl := h.array_inj ho ho' (by rw [← hsame, ← congrArg (·.2.array) heq]; rfl)
      rwa [show o.rule.name = rule from congrArg Prod.fst heq]
  · intro hcall
    refine ⟨o.rule.name, hcall, ?_⟩
    obtain ⟨j, r', hj, hr', hname⟩ := mem_ruleNames_take.1 (hbody.mem_of_calls hcall)
    have hindex := hp.index_inj hr' (h.sound o ho).1 hname
    unfold BackingTable.arrayAt?
    rw [(h.find?_eq_some_iff hp hnone).2 ⟨o, ho, rfl, rfl⟩]
    exact if_pos (hindex ▸ hj)

theorem vars_nodup (hp : p.WellFormed) (h : p.Lowers outputs os k p') : (k.domains.flatMap Domain.vars).Nodup := by
  have hvars : ∀ o ∈ os, o.domains.flatMap Domain.vars = if o.handle.shape.isUnit then [] else o.vars := by
    intro o ho
    unfold Realization.domains
    split
    · rfl
    · rename_i hunit
      have hlen := (h.sound o ho).2.2 (by simpa using hunit)
      rw [List.flatMap_singleton, Domain.vars_box, List.map_fst_zip (Nat.le_of_eq hlen)]
  have hsub : (os.flatMap fun o => if o.handle.shape.isUnit then [] else o.vars).Sublist
      (os.flatMap fun o => o.array :: o.vars) :=
    sublist_flatMap_of_forall fun o _ => by
      split
      · exact List.nil_sublist _
      · exact List.sublist_cons_self o.array o.vars
  have hnew : (os.flatMap Realization.domains).flatMap Domain.vars =
      os.flatMap fun o => if o.handle.shape.isUnit then [] else o.vars := by
    rw [List.flatMap_assoc]
    exact List.flatMap_congr hvars
  rw [h.domains, List.flatMap_append, hnew]
  refine List.nodup_append.2 ⟨hp.vars_nodup, hsub.nodup h.draws.nodup, fun v hv w hw hvw => ?_⟩
  exact h.draws.unused w (hsub.subset hw) (hvw ▸ hp.vars_taken v hv)

end Lowers

/-- Lowering replaces exactly the calls of rules whose arrays are seen at the place, by loads of those arrays.
The rules, the statements queued and the stores are otherwise left as they are. -/
theorem finalize_loads_exactly {p p' : Plan} {handles outputs : List Handle} {withStores : Bool} {k : Kernel}
    (hreach : p.Reachable handles)
    (hfinalize : (Build.finalize outputs withStores).runOn p = (.ok k, p')) :
    (∀ i rule, (p.arraySeen? outputs k i rule).isSome ↔
      (∃ entry, p.backing.find? rule = some entry ∧ entry.visibleFrom ≤ i) ∨
        p.backing.find? rule = none ∧ (∃ h ∈ outputs, h.rule = rule) ∧
          ∃ j r, j < i ∧ p.rules.rules[j]? = some r ∧ r.name = rule) ∧
    k.rules = p.rules.rules.mapIdx (fun i r => r.withLoads (p.arraySeen? outputs k i)) ∧
    (∃ os, p.StoresOf outputs k os ∧ k.statements = (agenda p.pending os (p.rules.size + 1)).map fun e =>
      e.2.withLoads (p.arraySeen? outputs k e.1)) ∧
    ∀ h ∈ outputs, p.backing.find? h.rule = none → ∃ array, k.outputArray? h = some array ∧
      ∀ i r r', p.rules.rules[i]? = some r → k.rules[i]? = some r' →
        (array ∈ r'.body.loads ↔ h.rule ∈ r.body.calls) ∧ h.rule ∉ r'.body.calls ∧
        (h.rule ∈ r.body.calls → h.rule ∈ ruleNames (p.rules.rules.take i)) := by
  have hp := hreach.wellFormed
  obtain ⟨os, hlowers⟩ := finalize_lowers hp hfinalize
  have hseen : ∀ i, (fun rule => p'.backing.arrayAt? rule i) = p.arraySeen? outputs k i :=
    fun i => funext (hlowers.arrayAt?_eq hp i)
  refine ⟨fun i rule => ?_, ?_, ⟨os, hlowers.storesOf hp, ?_⟩, fun h hh hnone => ?_⟩
  · unfold arraySeen?
    cases hfind : p.backing.find? rule with
    | some entry =>
      dsimp only
      split <;> simp [*]
    | none =>
      dsimp only
      rw [← mem_ruleNames_take]
      split
      · rename_i hcond
        obtain ⟨⟨h, hh, rfl⟩, hbefore⟩ := hcond
        obtain ⟨o, ho, hname⟩ := hlowers.exists_realization hh hfind
        rw [hlowers.find?_outputs ⟨h, hh, rfl⟩ (hname ▸ hlowers.array?_of_realization hp ho)]
        exact iff_of_true rfl (.inr ⟨rfl, ⟨h, hh, rfl⟩, hbefore⟩)
      · rename_i hcond
        simpa using hcond
  · rw [hlowers.rules]
    refine List.mapIdx_eq_mapIdx_iff.2 fun i hi => ?_
    rw [Rule.loadBacked, Expr.loadBacked_eq_withLoads, hseen]
    rfl
  · rw [hlowers.statements]
    refine List.map_congr_left fun e _ => ?_
    rw [Statement.loadBacked, Expr.loadBacked_eq_withLoads, Expr.loadBacked_eq_withLoads, hseen]
    rfl
  · obtain ⟨o, ho, hname⟩ := hlowers.exists_realization hh hnone
    have harray := hname ▸ hlowers.array?_of_realization hp ho
    refine ⟨o.array, hlowers.find?_outputs ⟨h, hh, rfl⟩ harray, fun i r r' hr hr' => ?_⟩
    have hearlier : h.rule ∈ r.body.calls → h.rule ∈ ruleNames (p.rules.rules.take i) :=
      (hp.bodies i r hr).mem_of_calls
    obtain ⟨r₀, hr₀, rfl⟩ := hlowers.rule_at hr'
    obtain rfl : r = r₀ := Option.some.inj (hr ▸ hr₀)
    refine ⟨hname ▸ hlowers.mem_loads_iff hp ho hr, ?_, hearlier⟩
    rw [Rule.loadBacked, Expr.loadBacked_eq_withLoads, Expr.mem_calls_withLoads]
    rintro ⟨hcall, hunseen⟩
    obtain ⟨j, r', hj, hr', hname'⟩ := mem_ruleNames_take.1 (hearlier hcall)
    have hindex := hp.index_inj hr' (hlowers.sound o ho).1 (hname'.trans hname.symm)
    rw [BackingTable.arrayAt?, (hlowers.find?_eq_some_iff hp hnone).2 ⟨o, ho, hname, rfl⟩] at hunseen
    exact absurd hunseen (by simpa using hindex ▸ hj)

def doubled : Progress :=
  (Progress.start (.empty 0 .default)).run
    [.fill (.extents [.fixed 2]) (.int 3), .combine .add 0 (.literal (.int 1)),
      .combine .mul 1 (.literal (.int 2))]

theorem finalize_loads_doubled :
    ∃ (k : Kernel) (p' : Plan) (array : String) (r : Rule),
      (Build.finalize [pairHandle "subst2" .float64, pairHandle "subst1" .float64] false).runOn doubled.plan =
        (.ok k, p') ∧
      k.outputArray? (pairHandle "subst1" .float64) = some array ∧ k.rules[2]? = some r ∧
      array ∈ r.body.loads ∧ "subst1" ∉ r.body.calls := by
  obtain ⟨k, p', hfinalize⟩ := exists_ok_of_isOk (x := (Build.finalize
    [pairHandle "subst2" .float64, pairHandle "subst1" .float64] false).runOn doubled.plan) (by decide +kernel)
  obtain ⟨_, hrules, _, houtputs⟩ := finalize_loads_exactly (p := doubled.plan) (Progress.run_reachable 0 .default _)
    hfinalize
  obtain ⟨array, harray, hloads⟩ := houtputs (pairHandle "subst1" .float64) (by simp) (by decide +kernel)
  obtain ⟨r, hr, hcalls⟩ : ∃ r, doubled.plan.rules.rules[2]? = some r ∧ "subst1" ∈ r.body.calls :=
    ⟨_, List.getElem?_eq_getElem (by decide +kernel), by decide +kernel⟩
  obtain ⟨r', hr'⟩ : ∃ r', k.rules[2]? = some r' := by
    rw [hrules, List.getElem?_mapIdx, hr]
    exact ⟨_, rfl⟩
  obtain ⟨hload, hcall, _⟩ := hloads 2 r r' hr hr'
  exact ⟨k, p', array, r', hfinalize, harray, hr', hload.2 hcalls, hcall⟩

end Plan

end ArrayPlan
