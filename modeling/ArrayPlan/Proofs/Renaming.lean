import ArrayPlan.Plan.Elementwise
import ArrayPlan.Plan.Lowering
import ArrayPlan.Plan.Reduction
import ArrayPlan.Plan.Reshape
import ArrayPlan.Proofs.Rewriting
import Mathlib.Data.List.Nodup
import Mathlib.Data.Prod.Basic

/-!
Renaming. Everything that is built from names can be renamed, and what is computed from it under an injective renaming is
what was computed before, renamed. Names are compared in a few places only: where terms of an affine form are merged, where
a constraint is looked for, and where tables, rules and bindings are searched.
-/

namespace ArrayPlan

variable {f : String → String}

section Rename

variable (f : String → String)

mutual

def Expr.rename : Expr → Expr
  | .int n => .int n
  | .real x => .real x
  | .var name => .var (f name)
  | .call rule args => .call (f rule) (renameAll args)
  | .load array index => .load (f array) (renameAll index)
  | .arith op lhs rhs => .arith op (rename lhs) (rename rhs)
  | .compare op lhs rhs => .compare op (rename lhs) (rename rhs)
  | .sum vars body => .sum (vars.map f) (rename body)

def Expr.renameAll : List Expr → List Expr
  | [] => []
  | e :: es => rename e :: renameAll es

end

def Rule.rename (r : Rule) : Rule :=
  ⟨f r.name, r.params.map f, r.body.rename f⟩

def RuleLog.rename (l : RuleLog) : RuleLog :=
  ⟨l.rules.map (Rule.rename f)⟩

def Affine.rename (a : Affine) : Affine :=
  a.terms.foldl (fun b t => b.addTerm (f t.1) t.2) (ofConstant a.constant)

def Constraint.rename (c : Constraint) : Constraint :=
  ⟨c.form.rename f⟩

def Domain.rename (d : Domain) : Domain :=
  ⟨d.vars.map f, d.constraints.map (Constraint.rename f)⟩

def Statement.rename (s : Statement) : Statement :=
  ⟨s.target.rename f, s.value.rename f, s.within.map f⟩

def Declaration.rename (d : Declaration) : Declaration :=
  { d with name := f d.name }

def BackingEntry.rename (e : BackingEntry) : BackingEntry :=
  { e with array := f e.array }

def BackingTable.rename (t : BackingTable) : BackingTable :=
  ⟨t.entries.map (Prod.map f (BackingEntry.rename f))⟩

def Binding.rename (b : Binding) : Binding :=
  ⟨f b.rule, f b.array⟩

def Kernel.rename (k : Kernel) : Kernel where
  domains := k.domains.map (Domain.rename f)
  statements := k.statements.map (Statement.rename f)
  arrays := k.arrays.map (Declaration.rename f)
  rules := k.rules.map (Rule.rename f)
  outputs := k.outputs.map (Binding.rename f)
  stores := k.stores.map (List.map (Prod.map f (List.map f)))

end Rename

def Shape.Fixed (s : Shape) : Prop :=
  ∀ e ∈ s.extents, ∃ n, e = .fixed n

section Lists

variable {β γ : Type}

theorem lookup_map (hf : Function.Injective f) (g : β → γ) (entries : List (String × β)) (name : String) :
    (entries.map (Prod.map f g)).lookup (f name) = (entries.lookup name).map g := by
  induction entries with
  | nil => rfl
  | cons e entries ih =>
    rw [List.map_cons, Prod.map, List.lookup_cons, List.lookup_cons, hf.beq_eq, ih]
    cases name == e.1 <;> rfl

theorem filter_ne_map (hf : Function.Injective f) (g : β → γ) (entries : List (String × β)) (name : String) :
    ((entries.map (Prod.map f g)).filter fun e => e.1 ≠ f name) =
      (entries.filter fun e => e.1 ≠ name).map (Prod.map f g) := by
  rw [List.filter_map]
  refine congrArg _ (List.filter_congr fun e _ => ?_)
  simp [hf.eq_iff]

theorem eraseDups_map [BEq β] [LawfulBEq β] [BEq γ] [LawfulBEq γ] {g : β → γ} (hg : Function.Injective g) (l : List β) :
    (l.map g).eraseDups = l.eraseDups.map g := by
  induction hn : l.length using Nat.strongRecOn generalizing l with
  | ind n ih =>
    cases l with
    | nil => rfl
    | cons a l =>
      rw [List.map_cons, List.eraseDups_cons, List.eraseDups_cons, List.map_cons, List.filter_map]
      have hsame : (fun b => !b == g a) ∘ g = fun b => !b == a := by
        funext b
        simp only [Function.comp_apply, hg.beq_eq]
      have hlen : (l.filter fun b => !b == a).length < n := by
        rw [← hn]
        exact Nat.lt_succ_of_le (List.length_filter_le _ _)
      rw [hsame, ih _ hlen _ rfl]

end Lists

namespace Expr

@[simp] theorem renameAll_eq_map (es : List Expr) : renameAll f es = es.map (rename f) := by
  induction es with
  | nil => rfl
  | cons e es ih => rw [renameAll, ih, List.map_cons]

@[simp] theorem rename_vars (vars : List String) : (vars.map .var).map (rename f) = (vars.map f).map .var := by
  rw [List.map_map, List.map_map]
  rfl

theorem rename_toExpr (value : Literal) : value.toExpr.rename f = value.toExpr := by
  cases value <;> rfl

theorem rename_apply (op : Operator) (lhs rhs : Expr) :
    (op.apply lhs rhs).rename f = op.apply (lhs.rename f) (rhs.rename f) := by
  cases op <;> rfl

theorem rename_ite {p : Prop} [Decidable p] (a b : Expr) :
    (if p then a else b).rename f = if p then a.rename f else b.rename f := by
  split <;> rfl

theorem linearTerms_rename (vars : List String) (lengths strides : List Nat) :
    linearTerms (vars.map f) lengths strides = (linearTerms vars lengths strides).map (rename f) := by
  induction vars generalizing lengths strides with
  | nil => rfl
  | cons v vars ih =>
    cases lengths with
    | nil => rfl
    | cons n lengths =>
      cases strides with
      | nil => rfl
      | cons stride strides =>
        simp only [List.map_cons, linearTerms, ih]
        split
        · rfl
        · split <;> rfl

theorem rename_foldl_add (terms : List Expr) (e : Expr) :
    (terms.foldl (.arith .add) e).rename f = (terms.map (rename f)).foldl (.arith .add) (e.rename f) := by
  induction terms generalizing e with
  | nil => rfl
  | cons term terms ih =>
    rw [List.foldl_cons, ih, List.map_cons, List.foldl_cons]
    rfl

theorem linearIndex_rename (vars : List String) (lengths strides : List Nat) :
    linearIndex (vars.map f) lengths strides = (linearIndex vars lengths strides).rename f := by
  rw [linearIndex, linearIndex, linearTerms_rename]
  cases linearTerms vars lengths strides with
  | nil => rfl
  | cons term terms => exact (rename_foldl_add terms term).symm

theorem axisPosition_rename (line : Expr) (total length stride : Nat) :
    axisPosition (line.rename f) total length stride = (axisPosition line total length stride).rename f := by
  unfold axisPosition
  split
  · rfl
  · dsimp only
    split <;> split <;> rfl

theorem indexAtLine_rename (line : Expr) (total : Nat) (lengths strides : List Nat) :
    indexAtLine (line.rename f) total lengths strides = (indexAtLine line total lengths strides).map (rename f) := by
  rw [indexAtLine, indexAtLine, List.map_map]
  exact List.map_congr_left fun axis _ => axisPosition_rename line total axis.1 axis.2

theorem spreadIndex_rename (extents : List Extent) (vars : List String) :
    Build.spreadIndex extents (vars.map f) = (Build.spreadIndex extents vars).map (rename f) := by
  induction extents generalizing vars with
  | nil => rfl
  | cons e extents ih =>
    cases vars with
    | nil => rfl
    | cons v vars =>
      rw [List.map_cons, Build.spreadIndex, Build.spreadIndex, List.map_cons, ih, rename_ite]
      rfl

end Expr

namespace Affine

theorem terms_addTerm_of_not_mem {a : Affine} {name : String} {c : Int} (hname : name ∉ a.terms.map Prod.fst)
    (hc : c ≠ 0) : (a.addTerm name c).terms = a.terms ++ [(name, c)] := by
  have hmerge : ∀ terms : List (String × Int), name ∉ terms.map Prod.fst →
      mergeTerm name c terms = terms ++ [(name, c)] := by
    intro terms hnot
    induction terms with
    | nil => rfl
    | cons t terms ih =>
      rw [List.map_cons, List.mem_cons, not_or] at hnot
      rw [mergeTerm, if_neg (Ne.symm hnot.1), ih hnot.2]
      rfl
  rw [terms_addTerm, hmerge a.terms hname]
  refine List.filter_eq_self.2 fun t ht => ?_
  rcases List.mem_append.1 ht with ht | ht
  · simpa using a.nonzero t ht
  · obtain rfl := List.mem_singleton.1 ht
    simpa using hc

theorem foldl_addTerm {terms : List (String × Int)} {b : Affine} (hnodup : ((b.terms ++ terms).map Prod.fst).Nodup)
    (hnonzero : ∀ t ∈ terms, t.2 ≠ 0) :
    (terms.foldl (fun b t => b.addTerm t.1 t.2) b).terms = b.terms ++ terms ∧
      (terms.foldl (fun b t => b.addTerm t.1 t.2) b).constant = b.constant := by
  induction terms generalizing b with
  | nil => exact ⟨(List.append_nil _).symm, rfl⟩
  | cons t terms ih =>
    obtain ⟨hzero, hnonzero⟩ := List.forall_mem_cons.1 hnonzero
    have hname : t.1 ∉ b.terms.map Prod.fst := by
      rw [List.map_append, List.map_cons] at hnodup
      exact fun hmem => (List.nodup_append.1 hnodup).2.2 t.1 hmem t.1 List.mem_cons_self rfl
    have hterms := terms_addTerm_of_not_mem hname hzero
    have happend : (b.addTerm t.1 t.2).terms ++ terms = b.terms ++ t :: terms := by
      rw [hterms, List.append_assoc]
      rfl
    rw [List.foldl_cons, ← happend]
    exact ih (happend ▸ hnodup) hnonzero

theorem rename_eq (hf : Function.Injective f) (a : Affine) :
    (a.rename f).terms = a.terms.map (Prod.map f id) ∧ (a.rename f).constant = a.constant := by
  have hfold : a.rename f = (a.terms.map (Prod.map f id)).foldl (fun b t => b.addTerm t.1 t.2) (ofConstant a.constant) := by
    rw [rename, List.foldl_map]
    rfl
  rw [hfold]
  refine foldl_addTerm ?_ ?_
  · have hnames : (a.terms.map (Prod.map f id)).map Prod.fst = (a.terms.map Prod.fst).map f := by
      rw [List.map_map, List.map_map]
      rfl
    rw [ofConstant, List.nil_append, hnames]
    exact List.Nodup.map hf a.distinct
  · intro t ht
    obtain ⟨t', ht', rfl⟩ := List.mem_map.1 ht
    exact a.nonzero t' ht'

theorem rename_injective (hf : Function.Injective f) : Function.Injective (rename f) := by
  intro a b h
  have hpairs : Function.Injective (Prod.map f (id : Int → Int)) := hf.prodMap Function.injective_id
  refine Affine.ext (List.map_injective_iff.2 hpairs ?_) ?_
  · rw [← (rename_eq hf a).1, ← (rename_eq hf b).1, h]
  · rw [← (rename_eq hf a).2, ← (rename_eq hf b).2, h]

theorem mergeTerm_rename (hf : Function.Injective f) (name : String) (coefficient : Int) (terms : List (String × Int)) :
    mergeTerm (f name) coefficient (terms.map (Prod.map f id)) = (mergeTerm name coefficient terms).map (Prod.map f id) := by
  induction terms with
  | nil => rfl
  | cons t terms ih =>
    rw [List.map_cons, Prod.map, mergeTerm, mergeTerm, ih]
    simp only [hf.eq_iff]
    split <;> rfl

theorem addTerm_rename (hf : Function.Injective f) (a : Affine) (name : String) (coefficient : Int) :
    (a.addTerm name coefficient).rename f = (a.rename f).addTerm (f name) coefficient := by
  refine Affine.ext ?_ ?_
  · rw [(rename_eq hf _).1, terms_addTerm, terms_addTerm, (rename_eq hf a).1, mergeTerm_rename hf, List.filter_map]
    rfl
  · exact (rename_eq hf _).2.trans (rename_eq hf a).2.symm

theorem addConstant_rename (hf : Function.Injective f) (a : Affine) (c : Int) :
    (a.addConstant c).rename f = (a.rename f).addConstant c := by
  refine Affine.ext ((rename_eq hf _).1.trans (rename_eq hf a).1.symm) ?_
  rw [(rename_eq hf _).2, addConstant, addConstant, (rename_eq hf a).2]

theorem sub_rename (hf : Function.Injective f) (a b : Affine) : (a.sub b).rename f = (a.rename f).sub (b.rename f) := by
  have hfold : ∀ (terms : List (String × Int)) (a : Affine),
      (terms.foldl (fun d t => d.addTerm t.1 (-t.2)) a).rename f =
        (terms.map (Prod.map f id)).foldl (fun d t => d.addTerm t.1 (-t.2)) (a.rename f) := by
    intro terms
    induction terms with
    | nil => exact fun _ => rfl
    | cons t terms ih =>
      intro a
      rw [List.foldl_cons, ih, addTerm_rename hf]
      rfl
  rw [sub, sub, hfold, addConstant_rename hf, (rename_eq hf b).1, (rename_eq hf b).2]

theorem coefficient_rename (hf : Function.Injective f) (a : Affine) (name : String) :
    (a.rename f).coefficient (f name) = a.coefficient name := by
  rw [coefficient, coefficient, (rename_eq hf a).1, coefficientIn, coefficientIn, List.find?_map]
  have hsame : ((fun t : String × Int => decide (t.1 = f name)) ∘ Prod.map f id) = fun t => decide (t.1 = name) := by
    funext t
    simp [hf.eq_iff]
  rw [hsame]
  cases a.terms.find? fun t => decide (t.1 = name) <;> rfl

theorem sumFrom?_rename {lookup lookup' : String → Option Int} (h : ∀ name, lookup' (f name) = lookup name) (start : Int)
    (terms : List (String × Int)) : sumFrom? lookup' start (terms.map (Prod.map f id)) = sumFrom? lookup start terms := by
  induction terms generalizing start with
  | nil => rfl
  | cons t terms ih =>
    rw [sumFrom?, sumFrom?, List.map_cons, List.foldlM_cons, List.foldlM_cons]
    simp only [Prod.map, h, id_eq]
    exact congrArg _ (funext fun total => ih total)

theorem value?_rename (hf : Function.Injective f) {lookup lookup' : String → Option Int}
    (h : ∀ name, lookup' (f name) = lookup name) (a : Affine) : (a.rename f).value? lookup' = a.value? lookup := by
  rw [value?, value?, (rename_eq hf a).1, (rename_eq hf a).2, sumFrom?_rename h]

end Affine

theorem Constraint.rename_injective (hf : Function.Injective f) : Function.Injective (Constraint.rename f) := by
  intro c d h
  cases c
  cases d
  exact congrArg Constraint.mk (Affine.rename_injective hf (congrArg Constraint.form h))

theorem Constraint.le_rename (hf : Function.Injective f) (a b : Affine) :
    (Constraint.le a b).rename f = .le (a.rename f) (b.rename f) :=
  congrArg Constraint.mk (Affine.sub_rename hf b a)

namespace Domain

theorem constrain_rename (hf : Function.Injective f) (d : Domain) (c : Constraint) :
    (d.constrain c).rename f = (d.rename f).constrain (c.rename f) := by
  unfold constrain
  have hmem : c.rename f ∈ (d.rename f).constraints ↔ c ∈ d.constraints :=
    List.mem_map_of_injective (Constraint.rename_injective hf)
  by_cases h : c ∈ d.constraints
  · rw [if_pos h, if_pos (hmem.2 h)]
  · rw [if_neg h, if_neg (mt hmem.1 h), rename, rename, List.map_append]
    rfl

theorem between_rename (hf : Function.Injective f) (d : Domain) (low : Int) (var : String) {extent : Extent}
    (hextent : ∃ n, extent = .fixed n) : (d.between low var extent).rename f = (d.rename f).between low (f var) extent := by
  obtain ⟨n, rfl⟩ := hextent
  rw [between, between, constrain_rename hf, constrain_rename hf, Constraint.le_rename hf, Constraint.le_rename hf]
  rfl

theorem box_rename (hf : Function.Injective f) {axes : List (String × Extent)} (hfixed : ∀ a ∈ axes, ∃ n, a.2 = .fixed n) :
    (box axes).rename f = box (axes.map (Prod.map f id)) := by
  have hfold : ∀ d : Domain,
      (axes.foldl (fun d a => { d with vars := d.vars ++ [a.1] }.between 0 a.1 a.2) d).rename f =
        (axes.map (Prod.map f id)).foldl (fun d a => { d with vars := d.vars ++ [a.1] }.between 0 a.1 a.2) (d.rename f) := by
    induction axes with
    | nil => exact fun _ => rfl
    | cons a axes ih =>
      intro d
      rw [List.foldl_cons, ih fun b hb => hfixed b (List.mem_cons_of_mem a hb),
        between_rename hf _ _ _ (hfixed a List.mem_cons_self), List.map_cons, List.foldl_cons]
      simp only [rename, List.map_append, List.map_cons, List.map_nil, Prod.map, id_eq]
  exact hfold _

theorem box_zip_rename (hf : Function.Injective f) (vars : List String) {extents : List Extent}
    (hfixed : ∀ e ∈ extents, ∃ n, e = .fixed n) : (box (vars.zip extents)).rename f = box ((vars.map f).zip extents) := by
  rw [box_rename hf fun a ha => hfixed a.2 (List.of_mem_zip ha).2, List.zip_map_left]

end Domain

theorem prefixSumDomain_rename (hf : Function.Injective f) (i j : String) {extent : Extent}
    (hextent : ∃ n, extent = .fixed n) : (prefixSumDomain i j extent).rename f = prefixSumDomain (f i) (f j) extent := by
  rw [prefixSumDomain, prefixSumDomain, Domain.constrain_rename hf, Domain.constrain_rename hf,
    Domain.between_rename hf _ _ _ hextent, Constraint.le_rename hf, Constraint.le_rename hf]
  rfl

namespace BackingTable

theorem find?_rename (hf : Function.Injective f) (t : BackingTable) (rule : String) :
    (t.rename f).find? (f rule) = (t.find? rule).map (BackingEntry.rename f) :=
  lookup_map hf _ _ _

theorem contains_rename (hf : Function.Injective f) (t : BackingTable) (rule : String) :
    (t.rename f).contains (f rule) = t.contains rule := by
  rw [contains, contains, find?_rename hf, Option.isSome_map]

theorem insert_rename (hf : Function.Injective f) (t : BackingTable) (rule array : String) (visibleFrom : Nat) :
    (t.insert rule array visibleFrom).rename f = (t.rename f).insert (f rule) (f array) visibleFrom := by
  rw [insert, insert, contains_rename hf]
  split
  · rfl
  · rw [rename, rename, List.map_append]
    rfl

theorem array?_rename (hf : Function.Injective f) (t : BackingTable) (rule : String) :
    (t.rename f).array? (f rule) = (t.array? rule).map f := by
  rw [array?, array?, find?_rename hf, Option.map_map, Option.map_map]
  rfl

theorem arrayAt?_rename (hf : Function.Injective f) (t : BackingTable) (rule : String) (index : Nat) :
    (t.rename f).arrayAt? (f rule) index = (t.arrayAt? rule index).map f := by
  rw [arrayAt?, arrayAt?, find?_rename hf]
  cases t.find? rule with
  | none => rfl
  | some entry =>
    show (if entry.visibleFrom ≤ index then some (f entry.array) else none) =
      Option.map f (if entry.visibleFrom ≤ index then some entry.array else none)
    split <;> rfl

end BackingTable

namespace RuleLog

theorem find?_rename (hf : Function.Injective f) (l : RuleLog) (name : String) :
    (l.rename f).find? (f name) = (l.find? name).map (Rule.rename f) := by
  rw [find?, find?, rename, List.find?_map]
  refine congrArg _ (congrArg (l.rules.find? ·) (funext fun r => ?_))
  simp [Rule.rename, hf.eq_iff]

theorem contains_rename (hf : Function.Injective f) (l : RuleLog) (name : String) :
    (l.rename f).contains (f name) = l.contains name := by
  rw [contains, contains, rename, List.any_map]
  refine congrArg (l.rules.any ·) (funext fun r => ?_)
  simp [Rule.rename, hf.eq_iff]

theorem push?_rename (hf : Function.Injective f) (l : RuleLog) (r : Rule) :
    (l.rename f).push? (r.rename f) = (l.push? r).map (RuleLog.rename f) := by
  have hcontains : (l.rename f).contains (r.rename f).name = l.contains r.name := contains_rename hf l r.name
  rw [push?, push?, hcontains]
  split
  · rfl
  · simp [rename]

end RuleLog

section Loading

variable {t : BackingTable} {i : Nat}

mutual

theorem Expr.loadBacked_rename (hf : Function.Injective f) :
    ∀ e : Expr, (e.rename f).loadBacked (t.rename f) i = (e.loadBacked t i).rename f
  | .int _ => rfl
  | .real _ => rfl
  | .var _ => rfl
  | .call rule args => by
    have hargs := rebuildAll_rename hf args
    rw [Expr.rename, Expr.loadBacked_call, Expr.loadBacked_call, BackingTable.arrayAt?_rename hf, hargs]
    cases t.arrayAt? rule i with
    | none => rfl
    | some array =>
      dsimp only [Option.map_some]
      unfold Expr.loadIndex
      cases Expr.rebuildAll (t.loadFor? i) args <;> rfl
  | .load array index => by
    rw [Expr.rename, Expr.loadBacked_load, Expr.loadBacked_load, rebuildAll_rename hf index]
    rfl
  | .arith op lhs rhs => by
    rw [Expr.rename, Expr.loadBacked_arith, Expr.loadBacked_arith, loadBacked_rename hf lhs, loadBacked_rename hf rhs]
    rfl
  | .compare op lhs rhs => by
    rw [Expr.rename, Expr.loadBacked_compare, Expr.loadBacked_compare, loadBacked_rename hf lhs,
      loadBacked_rename hf rhs]
    rfl
  | .sum vars body => by
    rw [Expr.rename, Expr.loadBacked_sum, Expr.loadBacked_sum, loadBacked_rename hf body]
    rfl

theorem Expr.rebuildAll_rename (hf : Function.Injective f) :
    ∀ es : List Expr, Expr.rebuildAll ((t.rename f).loadFor? i) (Expr.renameAll f es) =
      Expr.renameAll f (Expr.rebuildAll (t.loadFor? i) es)
  | [] => rfl
  | e :: es => by
    rw [Expr.renameAll, Expr.rebuildAll_cons, Expr.rebuildAll_cons, loadBacked_rename hf e, rebuildAll_rename hf es]
    rfl

end

theorem Rule.loadBacked_rename (hf : Function.Injective f) (r : Rule) :
    (r.rename f).loadBacked (t.rename f) i = (r.loadBacked t i).rename f := by
  rw [Rule.loadBacked, Rule.rename, Expr.loadBacked_rename hf]
  rfl

theorem Statement.loadBacked_rename (hf : Function.Injective f) (s : Statement) :
    (s.rename f).loadBacked (t.rename f) i = (s.loadBacked t i).rename f := by
  rw [Statement.loadBacked, Statement.rename, Expr.loadBacked_rename hf, Expr.loadBacked_rename hf]
  rfl

end Loading

end ArrayPlan
