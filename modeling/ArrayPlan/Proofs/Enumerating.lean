import ArrayPlan.Plan.Reduction
import ArrayPlan.Proofs.Bindings
import ArrayPlan.Proofs.Box
import ArrayPlan.Proofs.Shapes
import Mathlib.Data.List.Nodup

/-!
Points of a box. When each variable runs from zero to below a length, whatever was bound before it, the points
over the variables are the indices of a box in lexicographic order, and no binding is left over.
-/

namespace ArrayPlan

def Env.at (env : Env) (vars : List String) (index : List Int) : Env :=
  env.bindAll (vars.zip index)

/-- Each variable runs from zero to below its length under all bindings of those before it. -/
def Boxed (domains : List Domain) : Env → List String → List Nat → Prop
  | _, [], [] => True
  | env, var :: vars, n :: lengths =>
    env.value? var = none ∧ ∃ d high, ownerOf domains var = .ok d ∧ d.bounds var env = .ok (0, high) ∧
      (high + 1).toNat = n ∧ ∀ x : Int, 0 ≤ x → x < n → d.admits (env.bind var x) = true ∧ Boxed domains (env.bind var x) vars lengths
  | _, _, _ => False

theorem bind_congr_of_unbind {env base : Env} {var : String} (h : env.unbind var = base.unbind var) (x : Int) :
    env.bind var x = base.bind var x := by
  rw [Env.bind, Env.bind, h]

theorem unbind_bind_of_unbind (base : Env) (var : String) (x : Int) :
    (base.bind var x).unbind var = base.unbind var := by
  simp [Env.bind, Env.unbind]

theorem sweep_eq {var : String} {keep : Env → Bool} {inner : Env → Except ExecutionFault (List Env × Env)}
    {base : Env} {found : Int → List Env} (count : Nat) (value : Int) (env : Env)
    (henv : env.unbind var = base.unbind var)
    (hinner : ∀ x, value ≤ x → x < value + count →
      keep (base.bind var x) = true ∧ inner (base.bind var x) = .ok (found x, base.bind var x)) :
    ∃ env', sweep var keep inner count value env =
        .ok ((List.range count).flatMap fun (i : Nat) => found (value + i), env') ∧
      env'.unbind var = base.unbind var := by
  induction count generalizing value env with
  | zero => exact ⟨env, rfl, henv⟩
  | succ count ih =>
    obtain ⟨hkeep, hfound⟩ := hinner value (Int.le_refl _) (by omega)
    obtain ⟨env', hrest, henv'⟩ := ih (value + 1) (base.bind var value) (unbind_bind_of_unbind base var value)
      fun x hlow hhigh => hinner x (by omega) (by omega)
    refine ⟨env', ?_, henv'⟩
    rw [sweep]
    simp only [bind_congr_of_unbind henv, hkeep, if_true, hfound, Bind.bind, Except.bind, hrest, pure, Except.pure]
    rw [List.range_succ_eq_map, List.flatMap_cons, List.flatMap_map]
    have hshift : ∀ i : Nat, value + 1 + (i : Int) = value + ((i + 1 : Nat) : Int) := by intro i; omega
    simp [hshift]

theorem enumerate_of_boxed {domains : List Domain} {env : Env} {vars : List String} {lengths : List Nat}
    (h : Boxed domains env vars lengths) :
    enumerate domains vars env = .ok ((boxPoints lengths).map (env.at vars), env) := by
  induction vars generalizing env lengths with
  | nil =>
    cases lengths with
    | nil => rfl
    | cons _ _ => cases h
  | cons var vars ih =>
    cases lengths with
    | nil => cases h
    | cons n lengths =>
      obtain ⟨hfree, d, high, howner, hbounds, hsize, hinner⟩ := h
      have hfound : ∀ x : Int, 0 ≤ x → x < 0 + (n : Int) → d.admits (env.bind var x) = true ∧
          enumerate domains vars (env.bind var x) =
            .ok ((boxPoints lengths).map ((env.bind var x).at vars), env.bind var x) := by
        intro x hlow hhigh
        obtain ⟨hadmits, hrest⟩ := hinner x hlow (by omega)
        exact ⟨hadmits, ih hrest⟩
      obtain ⟨env', hsweep, henv'⟩ := sweep_eq n 0 env rfl hfound
      have hcount : (high - 0 + 1).toNat = n := by omega
      rw [enumerate]
      simp only [howner, hbounds, Bind.bind, Except.bind, hcount, hsweep, pure, Except.pure]
      rw [henv', Env.unbind_eq_self hfree, boxPoints, List.map_flatMap]
      simp only [List.map_map, Int.zero_add]
      rfl

theorem pointsOver_of_boxed {domains : List Domain} {env : Env} {vars : List String} {lengths : List Nat}
    (h : Boxed domains env vars lengths) :
    pointsOver domains vars env = .ok ((boxPoints lengths).map (env.at vars)) := by
  rw [pointsOver, enumerate_of_boxed h]
  rfl

namespace Extent

/-- The variable of the axis stays below this number under the bindings, and binding the variables does not
change that. -/
def Counts (env : Env) (vars : List String) (n : Int) : Extent → Prop
  | fixed k => Word.signed k = n
  | symbolic name => env.value? name = some n ∧ name ∉ vars

theorem Counts.bind {env : Env} {vars : List String} {n : Int} {e : Extent} (h : e.Counts env vars n)
    {var : String} (hvar : var ∈ vars) (x : Int) : e.Counts (env.bind var x) vars n := by
  cases e with
  | fixed k => exact h
  | symbolic name =>
    have hne : name ≠ var := fun heq => h.2 (heq ▸ hvar)
    exact ⟨(Env.value?_bind_of_ne env x hne).trans h.1, h.2⟩

end Extent

namespace Domain

theorem form_lower (v : String) : (lower v).form.terms = [(v, 1)] ∧ (lower v).form.constant = 0 := by
  simp [lower, Constraint.le, Affine.sub, Affine.ofVar, Affine.ofConstant, Affine.addTerm, Affine.mergeTerm,
    Affine.addConstant]

theorem form_upper_fixed (v : String) (k : Nat) :
    (upper v (.fixed k)).form.terms = [(v, -1)] ∧ (upper v (.fixed k)).form.constant = Word.signed k - 1 := by
  simp [upper, lastPosition, Constraint.le, Affine.sub, Affine.ofVar, Affine.ofConstant, Affine.addTerm,
    Affine.mergeTerm, Affine.addConstant]

theorem form_upper_symbolic {v name : String} (h : name ≠ v) :
    (upper v (.symbolic name)).form.terms = [(name, 1), (v, -1)] ∧ (upper v (.symbolic name)).form.constant = -1 := by
  simp [upper, lastPosition, Constraint.le, Affine.sub, Affine.ofVar, Affine.ofConstant, Affine.addTerm,
    Affine.mergeTerm, Affine.addConstant, h]

/-- Of the variables, the form bounds one: it is its sign times the variable, plus a rest that is known. -/
structure Bounding (a : Affine) (vars : List String) (v : String) (sign r : Int) (env : Env) : Prop where
  coefficient : ∀ w ∈ vars, a.coefficient w = if w = v then sign else 0
  rest : a.rest? v env = some r
  value : a.value? env.value? = (env.value? v).map fun x => r + sign * x

theorem bounding_lower (vars : List String) (v : String) (env : Env) : Bounding (lower v).form vars v 1 0 env where
  coefficient w _ := by
    by_cases h : v = w
    · simp [form_lower, Affine.coefficient, Affine.coefficientIn, h]
    · simp [form_lower, Affine.coefficient, Affine.coefficientIn, h, Ne.symm h]
  rest := by simp [form_lower, Affine.rest?, Affine.sumFrom?]
  value := by simp [form_lower, Affine.value?, Affine.sumFrom?]

theorem bounding_upper {v : String} {e : Extent} {n : Int} {env : Env} {vars : List String}
    (hcounts : e.Counts env vars n) (hv : v ∈ vars) : Bounding (upper v e).form vars v (-1) (n - 1) env := by
  cases e with
  | fixed k =>
    have hsigned : Word.signed k = n := hcounts
    refine ⟨fun w _ => ?_, ?_, ?_⟩
    · by_cases h : v = w
      · simp [form_upper_fixed, Affine.coefficient, Affine.coefficientIn, h]
      · simp [form_upper_fixed, Affine.coefficient, Affine.coefficientIn, h, Ne.symm h]
    · simp [form_upper_fixed, Affine.rest?, Affine.sumFrom?, hsigned]
    · simp [form_upper_fixed, Affine.value?, Affine.sumFrom?, hsigned]
  | symbolic name =>
    obtain ⟨hname, hnot⟩ := hcounts
    have hne : name ≠ v := fun heq => hnot (heq ▸ hv)
    refine ⟨fun w hw => ?_, ?_, ?_⟩
    · have hwn : name ≠ w := fun heq => hnot (heq ▸ hw)
      rw [Affine.coefficient, (form_upper_symbolic hne).1]
      by_cases h : v = w
      · simp [Affine.coefficientIn, hwn, h]
      · simp [Affine.coefficientIn, hwn, h, Ne.symm h]
    · simp only [form_upper_symbolic hne, Affine.rest?, Affine.sumFrom?, hne, ne_eq, not_false_eq_true, decide_true,
        List.filter_cons_of_pos, not_true, decide_false, Bool.false_eq_true, List.filter_cons_of_neg, List.filter_nil,
        List.foldlM_cons, List.foldlM_nil, hname, Option.map_some, Option.bind_eq_bind, Option.bind_some,
        Option.pure_def, Option.some.injEq]
      omega
    · simp only [form_upper_symbolic hne, Affine.value?, Affine.sumFrom?, List.foldlM_cons, List.foldlM_nil, hname, Option.map_some,
        Option.bind_eq_bind, Option.bind_some]
      cases env.value? v with
      | none => rfl
      | some x =>
        simp only [Option.map_some, Option.bind_some, Option.pure_def, Option.some.injEq]
        omega

theorem mem_boundsOf {positive : Bool} {constraints : List Constraint} {v : String} {env : Env} {x : Int} :
    x ∈ boundsOf positive constraints v env ↔ ∃ c ∈ constraints,
      (if positive then 0 < c.form.coefficient v else c.form.coefficient v < 0) ∧
        (c.form.rest? v env).map (boundValue (c.form.coefficient v)) = some x := by
  rw [boundsOf, List.mem_filterMap]
  refine exists_congr fun c => and_congr_right fun _ => ?_
  cases positive <;> simp

theorem bounds_eq {d : Domain} {v : String} {env : Env} {low high : Int}
    (hlow : ∀ x, x ∈ boundsOf true d.constraints v env ↔ x = low)
    (hhigh : ∀ x, x ∈ boundsOf false d.constraints v env ↔ x = high) : d.bounds v env = .ok (low, high) := by
  have hmax : (boundsOf true d.constraints v env).max? = some low :=
    List.max?_eq_some_iff.2 ⟨(hlow low).2 rfl, fun x hx => by have := (hlow x).1 hx; omega⟩
  have hmin : (boundsOf false d.constraints v env).min? = some high :=
    List.min?_eq_some_iff.2 ⟨(hhigh high).2 rfl, fun x hx => by have := (hhigh x).1 hx; omega⟩
  rw [bounds, hmax, hmin]

section Box

variable {axes : List (String × Extent)} {env : Env} {size : Extent → Int}

theorem bounds_box (hcounts : ∀ a ∈ axes, a.2.Counts env (axes.map Prod.fst) (size a.2))
    (hnodup : (axes.map Prod.fst).Nodup) {a : String × Extent} (ha : a ∈ axes) :
    (box axes).bounds a.1 env = .ok (0, size a.2 - 1) := by
  have hvar : ∀ b ∈ axes, b.1 ∈ axes.map Prod.fst := fun b hb => List.mem_map_of_mem hb
  have hsame : ∀ b ∈ axes, a.1 = b.1 → b = a := fun b hb heq =>
    (List.inj_on_of_nodup_map hnodup ha hb heq).symm
  have hlower : ∀ b ∈ axes, (lower b.1).form.coefficient a.1 = if a.1 = b.1 then 1 else 0 :=
    fun b _ => (bounding_lower (axes.map Prod.fst) b.1 env).coefficient a.1 (hvar a ha)
  have hupper : ∀ b ∈ axes, (upper b.1 b.2).form.coefficient a.1 = if a.1 = b.1 then -1 else 0 :=
    fun b hb => (bounding_upper (hcounts b hb) (hvar b hb)).coefficient a.1 (hvar a ha)
  have hlow : (lower a.1).form.rest? a.1 env = some 0 := (bounding_lower (axes.map Prod.fst) a.1 env).rest
  have hhigh : (upper a.1 a.2).form.rest? a.1 env = some (size a.2 - 1) :=
    (bounding_upper (hcounts a ha) (hvar a ha)).rest
  refine bounds_eq (fun x => ?_) fun x => ?_
  · rw [mem_boundsOf]
    constructor
    · rintro ⟨c, hc, hsign, hx⟩
      obtain ⟨b, hb, rfl | rfl⟩ := mem_box.1 hc
      · rw [hlower b hb] at hsign hx
        by_cases heq : a.1 = b.1
        · rw [← heq, if_pos rfl, hlow] at hx
          simpa [boundValue] using hx.symm
        · simp [heq] at hsign
      · rw [hupper b hb] at hsign
        by_cases heq : a.1 = b.1
        · simp [heq] at hsign
        · simp [heq] at hsign
    · rintro rfl
      refine ⟨lower a.1, mem_box.2 ⟨a, ha, .inl rfl⟩, ?_⟩
      rw [hlower a ha, if_pos rfl, hlow]
      simp [boundValue]
  · rw [mem_boundsOf]
    constructor
    · rintro ⟨c, hc, hsign, hx⟩
      obtain ⟨b, hb, rfl | rfl⟩ := mem_box.1 hc
      · rw [hlower b hb] at hsign
        by_cases heq : a.1 = b.1
        · simp [heq] at hsign
        · simp [heq] at hsign
      · rw [hupper b hb] at hsign hx
        by_cases heq : a.1 = b.1
        · obtain rfl := hsame b hb heq
          rw [if_pos rfl, hhigh] at hx
          simpa [boundValue] using hx.symm
        · simp [heq] at hsign
    · rintro rfl
      refine ⟨upper a.1 a.2, mem_box.2 ⟨a, ha, .inr rfl⟩, ?_⟩
      rw [hupper a ha, if_pos rfl, hhigh]
      simp [boundValue]

theorem admits_box (hcounts : ∀ a ∈ axes, a.2.Counts env (axes.map Prod.fst) (size a.2))
    (hin : ∀ a ∈ axes, ∀ x, env.value? a.1 = some x → 0 ≤ x ∧ x < size a.2) : (box axes).admits env = true := by
  refine List.all_eq_true.2 fun c hc => ?_
  obtain ⟨a, ha, rfl | rfl⟩ := mem_box.1 hc
  · rw [Constraint.holds?, (bounding_lower (axes.map Prod.fst) a.1 env).value]
    cases hx : env.value? a.1 with
    | none => rfl
    | some x =>
      have hrange := hin a ha x hx
      simp only [Option.map_some, Option.getD_some, decide_eq_true_eq]
      omega
  · rw [Constraint.holds?, (bounding_upper (hcounts a ha) (List.mem_map_of_mem ha)).value]
    cases hx : env.value? a.1 with
    | none => rfl
    | some x =>
      have hrange := hin a ha x hx
      simp only [Option.map_some, Option.getD_some, decide_eq_true_eq]
      omega

end Box

end Domain

theorem ownerOf_of_mem {domains : List Domain} (hnodup : (domains.flatMap Domain.vars).Nodup) {d : Domain}
    (hd : d ∈ domains) {v : String} (hv : v ∈ d.vars) : ownerOf domains v = .ok d := by
  have hfind : domains.find? (fun d => d.vars.contains v) = some d := by
    induction domains with
    | nil => cases hd
    | cons e domains ih =>
      rw [List.flatMap_cons, List.nodup_append] at hnodup
      rcases List.mem_cons.1 hd with rfl | hd
      · simp [hv]
      · have hnot : v ∉ e.vars := fun hin => hnodup.2.2 v hin v (List.mem_flatMap.2 ⟨d, hd, hv⟩) rfl
        rw [List.find?_cons_of_neg (by simpa using hnot)]
        exact ih hnodup.2.1 hd
  rw [ownerOf, hfind]

theorem boxed_of_box {domains : List Domain} (hdomains : (domains.flatMap Domain.vars).Nodup)
    {axes : List (String × Extent)} (hbox : .box axes ∈ domains) (size : Extent → Int)
    (free : List (String × Extent)) {env : Env} (hfree : free.Sublist axes)
    (hcounts : ∀ a ∈ axes, a.2.Counts env (axes.map Prod.fst) (size a.2))
    (hin : ∀ a ∈ axes, ∀ x, env.value? a.1 = some x → 0 ≤ x ∧ x < size a.2)
    (hunbound : ∀ a ∈ free, env.value? a.1 = none) :
    Boxed domains env (free.map Prod.fst) (free.map fun a => (size a.2).toNat) := by
  have hnodup : (axes.map Prod.fst).Nodup := by
    rw [List.flatMap_def] at hdomains
    rw [← Domain.vars_box]
    exact (List.sublist_flatten_of_mem (List.mem_map_of_mem hbox)).nodup hdomains
  induction free generalizing env with
  | nil => trivial
  | cons a free ih =>
    have ha : a ∈ axes := hfree.subset List.mem_cons_self
    have howner : ownerOf domains a.1 = .ok (.box axes) :=
      ownerOf_of_mem hdomains hbox (by rw [Domain.vars_box]; exact List.mem_map_of_mem ha)
    refine ⟨hunbound a List.mem_cons_self, _, _, howner, Domain.bounds_box hcounts hnodup ha,
      by rw [Int.sub_add_cancel], fun x hlow hhigh => ?_⟩
    have hhigh : x < size a.2 := by
      have hcount : x < ((size a.2).toNat : Int) := hhigh
      omega
    have hcounts' : ∀ b ∈ axes, b.2.Counts (env.bind a.1 x) (axes.map Prod.fst) (size b.2) :=
      fun b hb => (hcounts b hb).bind (List.mem_map_of_mem ha) x
    have hin' : ∀ b ∈ axes, ∀ y, (env.bind a.1 x).value? b.1 = some y → 0 ≤ y ∧ y < size b.2 := by
      intro b hb y hy
      rw [Env.value?_bind] at hy
      by_cases heq : b.1 = a.1
      · obtain rfl := List.inj_on_of_nodup_map hnodup hb ha heq
        rw [if_pos rfl] at hy
        obtain rfl := Option.some.inj hy
        exact ⟨hlow, hhigh⟩
      · rw [if_neg heq] at hy
        exact hin b hb y hy
    refine ⟨Domain.admits_box hcounts' hin', ?_⟩
    refine ih ((List.sublist_cons_self a free).trans hfree) hcounts' hin' fun b hb => ?_
    have hne : b.1 ≠ a.1 := by
      have hnodup' : ((a :: free).map Prod.fst).Nodup := (hfree.map Prod.fst).nodup hnodup
      rw [List.map_cons, List.nodup_cons] at hnodup'
      exact fun heq => hnodup'.1 (heq ▸ List.mem_map_of_mem hb)
    rw [Env.value?_bind_of_ne env x hne]
    exact hunbound b (List.mem_cons_of_mem a hb)

theorem enumerate_append {domains later : List Domain} {vars : List String}
    (howned : ∀ v ∈ vars, ∃ d ∈ domains, v ∈ d.vars) : enumerate (domains ++ later) vars = enumerate domains vars := by
  induction vars with
  | nil => rfl
  | cons v vars ih =>
    obtain ⟨d, hd, hv⟩ := howned v List.mem_cons_self
    have howner : ownerOf (domains ++ later) v = ownerOf domains v := by
      have hsome : (domains.find? fun d => d.vars.contains v).isSome := by
        rw [List.find?_isSome]
        exact ⟨d, hd, by simpa using hv⟩
      rw [ownerOf, ownerOf, List.find?_append, Option.or_of_isSome hsome]
    funext env
    rw [enumerate, enumerate, howner, ih fun w hw => howned w (List.mem_cons_of_mem v hw)]

theorem pointsOver_append {domains later : List Domain} {vars : List String}
    (howned : ∀ v ∈ vars, ∃ d ∈ domains, v ∈ d.vars) (env : Env) :
    pointsOver (domains ++ later) vars env = pointsOver domains vars env := by
  rw [pointsOver, enumerate_append howned, pointsOver]

section PrefixSums

variable {i j : String} {extent : Extent} {n : Int} {env : Env}

theorem mem_prefixSumDomain {c : Constraint} : c ∈ (prefixSumDomain i j extent).constraints ↔
    c = Domain.lower i ∨ c = Domain.upper i extent ∨ c = Domain.lower j ∨ c = .le (.ofVar j) (.ofVar i) := by
  rw [prefixSumDomain, Domain.mem_constrain, Domain.mem_constrain, Domain.mem_between]
  simp only [Domain.unconstrained, List.not_mem_nil, false_or, or_assoc]
  rfl

theorem form_le_vars (hij : i ≠ j) : (Constraint.le (.ofVar j) (.ofVar i)).form.terms = [(i, 1), (j, -1)] ∧
    (Constraint.le (.ofVar j) (.ofVar i)).form.constant = 0 := by
  simp [Constraint.le, Affine.sub, Affine.ofVar, Affine.ofConstant, Affine.addTerm, Affine.mergeTerm,
    Affine.addConstant, hij]

theorem bounds_prefixSum_outer (hij : i ≠ j) (hcounts : extent.Counts env [i, j] n) (hj : env.value? j = none) :
    (prefixSumDomain i j extent).bounds i env = .ok (0, n - 1) := by
  have hlower := Domain.bounding_lower [i, j] i env
  have hupper := Domain.bounding_upper hcounts (List.mem_cons_self (a := i))
  have hj₀ : (Domain.lower j).form.coefficient i = 0 := by
    simp [Domain.form_lower, Affine.coefficient, Affine.coefficientIn, Ne.symm hij]
  have hrest : (Constraint.le (.ofVar j) (.ofVar i)).form.rest? i env = none := by
    simp [form_le_vars hij, Affine.rest?, Affine.sumFrom?, Ne.symm hij, hj]
  have hcoefficient : (Constraint.le (.ofVar j) (.ofVar i)).form.coefficient i = 1 := by
    simp [form_le_vars hij, Affine.coefficient, Affine.coefficientIn]
  have hone := hlower.coefficient i List.mem_cons_self
  have hminus := hupper.coefficient i List.mem_cons_self
  refine Domain.bounds_eq (fun x => ?_) fun x => ?_
  · simp [Domain.mem_boundsOf, mem_prefixSumDomain, hone, hminus, hj₀, hcoefficient, hrest, hlower.rest, boundValue,
      eq_comm]
  · simp [Domain.mem_boundsOf, mem_prefixSumDomain, hone, hminus, hj₀, hcoefficient, hupper.rest, boundValue,
      eq_comm]

theorem bounds_prefixSum_inner (hij : i ≠ j) (hcounts : extent.Counts env [i, j] n) {x : Int}
    (hi : env.value? i = some x) : (prefixSumDomain i j extent).bounds j env = .ok (0, x) := by
  have hlower := Domain.bounding_lower [i, j] j env
  have hi₀ : (Domain.lower i).form.coefficient j = 0 := by
    simp [Domain.form_lower, Affine.coefficient, Affine.coefficientIn, hij]
  have hupper := (Domain.bounding_upper hcounts (List.mem_cons_self (a := i))).coefficient j (by simp)
  rw [if_neg (Ne.symm hij)] at hupper
  have hrest : (Constraint.le (.ofVar j) (.ofVar i)).form.rest? j env = some x := by
    simp [form_le_vars hij, Affine.rest?, Affine.sumFrom?, hij, hi]
  have hcoefficient : (Constraint.le (.ofVar j) (.ofVar i)).form.coefficient j = -1 := by
    simp [form_le_vars hij, Affine.coefficient, Affine.coefficientIn, hij]
  have hone := hlower.coefficient j (by simp)
  refine Domain.bounds_eq (fun y => ?_) fun y => ?_
  · simp [Domain.mem_boundsOf, mem_prefixSumDomain, hone, hupper, hi₀, hcoefficient, hlower.rest, boundValue, eq_comm]
  · simp [Domain.mem_boundsOf, mem_prefixSumDomain, hone, hupper, hi₀, hcoefficient, hrest, boundValue, eq_comm]

theorem admits_prefixSum (hij : i ≠ j) (hcounts : extent.Counts env [i, j] n) {x : Int}
    (hi : env.value? i = some x) (hx : 0 ≤ x ∧ x < n) (hj : ∀ y, env.value? j = some y → 0 ≤ y ∧ y ≤ x) :
    (prefixSumDomain i j extent).admits env = true := by
  refine List.all_eq_true.2 fun c hc => ?_
  obtain rfl | rfl | rfl | rfl := mem_prefixSumDomain.1 hc
  · rw [Constraint.holds?, (Domain.bounding_lower [i, j] i env).value, hi]
    simp only [Option.map_some, Option.getD_some, decide_eq_true_eq]
    omega
  · rw [Constraint.holds?, (Domain.bounding_upper hcounts List.mem_cons_self).value, hi]
    simp only [Option.map_some, Option.getD_some, decide_eq_true_eq]
    omega
  · rw [Constraint.holds?, (Domain.bounding_lower [i, j] j env).value]
    cases hy : env.value? j with
    | none => rfl
    | some y =>
      have hrange := hj y hy
      simp only [Option.map_some, Option.getD_some, decide_eq_true_eq]
      omega
  · cases hy : env.value? j with
    | none => simp [Constraint.holds?, form_le_vars hij, Affine.value?, Affine.sumFrom?, hi, hy]
    | some y =>
      have hrange := hj y hy
      simp only [Constraint.holds?, form_le_vars hij, Affine.value?, Affine.sumFrom?, List.foldlM_cons, List.foldlM_nil, hi, hy,
        Option.map_some, Option.bind_eq_bind, Option.bind_some, Option.pure_def, Option.getD_some, decide_eq_true_eq]
      omega

theorem boxed_prefixSum {domains : List Domain} (hij : i ≠ j) (hi : ownerOf domains i = .ok (prefixSumDomain i j extent))
    (hj : ownerOf domains j = .ok (prefixSumDomain i j extent)) (hcounts : extent.Counts env [i, j] n)
    (hfree : env.value? i = none) (hfree' : env.value? j = none) :
    Boxed domains env [i] [n.toNat] ∧
      ∀ x : Int, 0 ≤ x → x < n → Boxed domains (env.bind i x) [j] [x.toNat + 1] := by
  have hfree'' : ∀ x, (env.bind i x).value? j = none := fun x =>
    (Env.value?_bind_of_ne env x (Ne.symm hij)).trans hfree'
  constructor
  · refine ⟨hfree, _, _, hi, bounds_prefixSum_outer hij hcounts hfree', by omega, fun x hlow hhigh => ⟨?_, trivial⟩⟩
    refine admits_prefixSum hij (hcounts.bind List.mem_cons_self x) (Env.value?_bind_self env i x) ⟨hlow, by omega⟩ ?_
    intro y hy
    rw [hfree''] at hy
    cases hy
  · intro x hlow hhigh
    have hcounts' := hcounts.bind (List.mem_cons_self (a := i)) x
    have hbounds := bounds_prefixSum_inner hij hcounts' (Env.value?_bind_self env i x)
    refine ⟨hfree'' x, _, _, hj, hbounds, by omega, fun y hy hy' => ⟨?_, trivial⟩⟩
    · have hi' : ((env.bind i x).bind j y).value? i = some x :=
        (Env.value?_bind_of_ne _ y hij).trans (Env.value?_bind_self env i x)
      refine admits_prefixSum hij (hcounts'.bind (by simp) y) hi' ⟨hlow, hhigh⟩ fun z hz => ?_
      rw [Env.value?_bind_self] at hz
      obtain rfl := Option.some.inj hz
      omega

end PrefixSums

end ArrayPlan
