import ArrayPlan.Proofs.Enumerating
import ArrayPlan.Proofs.Exactness
import ArrayPlan.Proofs.Inlining
import ArrayPlan.Proofs.Script

/-!
Coverage of enumeration. Each bound of a variable follows from a constraint that its value has to meet in the end, so
no point is lost between the bounds, and what a constraint says once its names are bound is checked at the last
variable again, so no point is left that fails it. The points come out in lexicographic order. An enumeration can only
fail where a variable has no bounds, and a variable keeps the bounds it has under further bindings.
-/

namespace ArrayPlan

namespace Affine

section Values

variable {lookup lookup' : String → Option Int} {a : Affine} {env : Env} {var : String}

theorem sumFrom?_add (lookup : String → Option Int) (d k : Int) (terms : List (String × Int)) :
    sumFrom? lookup (d + k) terms = (sumFrom? lookup k terms).map (d + ·) := by
  induction terms generalizing k with
  | nil => rfl
  | cons t terms ih =>
    have ih' := fun v => ih (k + t.2 * v)
    simp only [sumFrom?, List.foldlM_cons] at ih' ⊢
    cases lookup t.1 with
    | none => rfl
    | some v => simpa [Int.add_assoc] using ih' v

theorem sumFrom?_cons (lookup : String → Option Int) (k : Int) (name : String) (c : Int) (terms : List (String × Int)) :
    sumFrom? lookup k ((name, c) :: terms) = (lookup name).bind fun v => (sumFrom? lookup k terms).map (c * v + ·) := by
  cases h : lookup name with
  | none => simp [sumFrom?, h]
  | some v =>
    have hadd := sumFrom?_add lookup (c * v) k terms
    rw [Int.add_comm] at hadd
    simpa [sumFrom?, h] using hadd

theorem sumFrom?_eq_some_cons {name : String} {c : Int} {terms : List (String × Int)} {k r : Int} :
    sumFrom? lookup k ((name, c) :: terms) = some r ↔
      ∃ v s, lookup name = some v ∧ sumFrom? lookup k terms = some s ∧ r = c * v + s := by
  rw [sumFrom?_cons]
  cases lookup name <;> cases sumFrom? lookup k terms <;> simp [eq_comm]

theorem value?_isSome_iff : (a.value? lookup).isSome ↔ ∀ t ∈ a.terms, (lookup t.1).isSome := by
  rw [value?]
  induction a.terms with
  | nil => simp [sumFrom?]
  | cons t terms ih =>
    obtain ⟨name, c⟩ := t
    rw [sumFrom?_cons, List.forall_mem_cons, ← ih]
    cases lookup name <;> simp

theorem sumFrom?_of_extends {terms : List (String × Int)} {k r : Int}
    (h : ∀ t ∈ terms, ∀ v, lookup t.1 = some v → lookup' t.1 = some v) (hr : sumFrom? lookup k terms = some r) :
    sumFrom? lookup' k terms = some r := by
  induction terms generalizing r with
  | nil => exact hr
  | cons t terms ih =>
    obtain ⟨name, c⟩ := t
    obtain ⟨v, s, hv, hs, rfl⟩ := sumFrom?_eq_some_cons.1 hr
    exact sumFrom?_eq_some_cons.2 ⟨v, s, h (name, c) List.mem_cons_self v hv,
      ih (fun t ht => h t (List.mem_cons_of_mem _ ht)) hs, rfl⟩

theorem rest?_of_extends {env' : Env} (h : ∀ name, name ≠ var → ∀ v, env.value? name = some v → env'.value? name = some v)
    {r : Int} (hr : a.rest? var env = some r) : a.rest? var env' = some r :=
  sumFrom?_of_extends (fun t ht => h t.1 (by simpa using (List.mem_filter.1 ht).2)) hr

theorem value?_bind_of_rest {r : Int} (hrest : a.rest? var env = some r) (x : Int) :
    a.value? (env.bind var x).value? = some (r + a.coefficient var * x) := by
  have hdistinct := a.distinct
  rw [rest?] at hrest
  rw [value?, coefficient]
  generalize a.terms = terms at hdistinct hrest ⊢
  induction terms generalizing r with
  | nil =>
    obtain rfl : a.constant = r := Option.some.inj hrest
    simp [sumFrom?, coefficientIn]
  | cons t terms ih =>
    obtain ⟨name, c⟩ := t
    obtain ⟨hname, hterms⟩ := List.nodup_cons.1 hdistinct
    by_cases hvar : name = var
    · -- The other terms are of other names, so the variable does not count in them.
      subst hvar
      have hothers : ∀ t ∈ terms, t.1 ≠ name := fun t ht heq => hname (List.mem_map.2 ⟨t, ht, heq⟩)
      have hfilter : terms.filter (fun t => t.1 ≠ name) = terms :=
        List.filter_eq_self.2 fun t ht => by simpa using hothers t ht
      rw [List.filter_cons_of_neg (by simp), hfilter] at hrest
      have hvalue : sumFrom? (env.bind name x).value? a.constant terms = some r :=
        sumFrom?_of_extends (fun t ht v hv => (Env.value?_bind_of_ne env x (hothers t ht)).trans hv) hrest
      refine sumFrom?_eq_some_cons.2 ⟨x, r, Env.value?_bind_self env name x, hvalue, ?_⟩
      simp [coefficientIn, Int.add_comm]
    · rw [List.filter_cons_of_pos (by simpa using hvar)] at hrest
      obtain ⟨v, s, hv, hs, rfl⟩ := sumFrom?_eq_some_cons.1 hrest
      refine sumFrom?_eq_some_cons.2 ⟨v, _, (Env.value?_bind_of_ne env x hvar).trans hv, ih hterms hs, ?_⟩
      have hcoefficient : coefficientIn ((name, c) :: terms) var = coefficientIn terms var := by
        simp [coefficientIn, hvar]
      rw [hcoefficient, Int.add_assoc]

end Values

end Affine

namespace Domain

variable {d : Domain} {env env' : Env} {var : String}

theorem admits_iff : d.admits env = true ↔ ∀ c ∈ d.constraints,
    (∀ t ∈ c.form.terms, (env.value? t.1).isSome) → c.holds? env.value? = some true := by
  rw [admits, List.all_eq_true]
  refine forall₂_congr fun c _ => ?_
  rw [← Affine.value?_isSome_iff, Constraint.holds?]
  cases c.form.value? env.value? <;> simp

theorem admits_of_extends (h : ∀ name v, env.value? name = some v → env'.value? name = some v)
    (hadmits : d.admits env' = true) : d.admits env = true := by
  refine admits_iff.2 fun c hc hbound => ?_
  obtain ⟨v, hv⟩ := Option.isSome_iff_exists.1 (Affine.value?_isSome_iff.2 hbound)
  have hv' : c.form.value? env'.value? = some v := Affine.sumFrom?_of_extends (fun t _ => h t.1) hv
  have hholds := admits_iff.1 hadmits c hc (Affine.value?_isSome_iff.1 (by rw [hv']; rfl))
  rw [Constraint.holds?, hv'] at hholds
  rw [Constraint.holds?, hv]
  exact hholds

theorem boundValue_le {a r x : Int} (ha : 0 < a) (h : 0 ≤ r + a * x) : boundValue a r ≤ x := by
  rw [boundValue, if_pos ha]
  have hle : -x ≤ r / a := (Int.le_ediv_iff_mul_le ha).2 (by rw [Int.neg_mul, Int.mul_comm]; omega)
  omega

theorem le_boundValue {a r x : Int} (ha : a < 0) (h : 0 ≤ r + a * x) : x ≤ boundValue a r := by
  rw [boundValue, if_neg (by omega)]
  exact (Int.le_ediv_iff_mul_le (by omega)).2 (by rw [Int.mul_neg, Int.mul_comm]; omega)

theorem bounds_of_admits {low high : Int} (hbounds : d.bounds var env = .ok (low, high)) {x : Int}
    (hadmits : d.admits (env.bind var x) = true) : low ≤ x ∧ x ≤ high := by
  have hvalue : ∀ c ∈ d.constraints, ∀ r, c.form.rest? var env = some r → 0 ≤ r + c.form.coefficient var * x := by
    intro c hc r hr
    have hv := Affine.value?_bind_of_rest hr x
    have hholds := admits_iff.1 hadmits c hc (Affine.value?_isSome_iff.1 (by rw [hv]; rfl))
    simpa [Constraint.holds?, hv] using hholds
  rw [bounds] at hbounds
  split at hbounds
  · rename_i l h hlow hhigh
    obtain ⟨rfl, rfl⟩ := Prod.mk.inj (Except.ok.inj hbounds)
    obtain ⟨c, hc, hsign, hbound⟩ := mem_boundsOf.1 (List.max?_eq_some_iff.1 hlow).1
    obtain ⟨c', hc', hsign', hbound'⟩ := mem_boundsOf.1 (List.min?_eq_some_iff.1 hhigh).1
    obtain ⟨r, hr, rfl⟩ := Option.map_eq_some_iff.1 hbound
    obtain ⟨r', hr', rfl⟩ := Option.map_eq_some_iff.1 hbound'
    exact ⟨boundValue_le (by simpa using hsign) (hvalue c hc r hr),
      le_boundValue (by simpa using hsign') (hvalue c' hc' r' hr')⟩
  · cases hbounds

theorem exists_bounds_iff : (∃ b, d.bounds var env = .ok b) ↔
    (∃ c ∈ d.constraints, 0 < c.form.coefficient var ∧ ∃ r, c.form.rest? var env = some r) ∧
      ∃ c ∈ d.constraints, c.form.coefficient var < 0 ∧ ∃ r, c.form.rest? var env = some r := by
  have hside : ∀ positive, (∃ x, x ∈ boundsOf positive d.constraints var env) ↔ ∃ c ∈ d.constraints,
      (if positive then 0 < c.form.coefficient var else c.form.coefficient var < 0) ∧
        ∃ r, c.form.rest? var env = some r := by
    intro positive
    simp only [mem_boundsOf, Option.map_eq_some_iff]
    constructor
    · rintro ⟨x, c, hc, hsign, r, hr, _⟩
      exact ⟨c, hc, hsign, r, hr⟩
    · rintro ⟨c, hc, hsign, r, hr⟩
      exact ⟨_, c, hc, hsign, r, hr, rfl⟩
  have hlow := hside true
  have hhigh := hside false
  simp only [if_true, Bool.false_eq_true, if_false] at hlow hhigh
  rw [← hlow, ← hhigh, bounds]
  cases hmax : (boundsOf true d.constraints var env).max? with
  | none => simp [List.max?_eq_none_iff.1 hmax]
  | some low =>
    have hsome : ∃ x, x ∈ boundsOf true d.constraints var env := ⟨low, (List.max?_eq_some_iff.1 hmax).1⟩
    cases hmin : (boundsOf false d.constraints var env).min? with
    | none => simp [List.min?_eq_none_iff.1 hmin]
    | some high =>
      have hsome' : ∃ x, x ∈ boundsOf false d.constraints var env := ⟨high, (List.min?_eq_some_iff.1 hmin).1⟩
      simp [hsome, hsome']

theorem exists_bounds_of_extends (h : ∀ name, name ≠ var → ∀ v, env.value? name = some v → env'.value? name = some v)
    (hbounds : ∃ b, d.bounds var env = .ok b) : ∃ b, d.bounds var env' = .ok b := by
  obtain ⟨⟨c, hc, hsign, r, hr⟩, c', hc', hsign', r', hr'⟩ := exists_bounds_iff.1 hbounds
  exact exists_bounds_iff.2 ⟨⟨c, hc, hsign, r, Affine.rest?_of_extends h hr⟩,
    c', hc', hsign', r', Affine.rest?_of_extends h hr'⟩

theorem contains?_eq_true_iff {lookup : String → Option Int} :
    d.contains? lookup = some true ↔ ∀ c ∈ d.constraints, c.holds? lookup = some true := by
  have hfold : ∀ (constraints : List Constraint) (all : Bool),
      constraints.foldlM (fun all c => (c.holds? lookup).map (all && ·)) all = some true ↔
        all = true ∧ ∀ c ∈ constraints, c.holds? lookup = some true := by
    intro constraints
    induction constraints with
    | nil => intro all; simp
    | cons c constraints ih =>
      intro all
      rw [List.foldlM_cons, List.forall_mem_cons]
      cases hholds : c.holds? lookup with
      | none => simp
      | some b => simpa [and_assoc] using ih (all && b)
  rw [contains?, hfold]
  simp

theorem mem_parameters {name : String} :
    name ∈ d.parameters ↔ name ∉ d.vars ∧ ∃ c ∈ d.constraints, ∃ t ∈ c.form.terms, t.1 = name := by
  simp only [parameters, List.mem_eraseDups, List.mem_filter, List.mem_flatMap, List.mem_map, decide_eq_true_eq]
  exact and_comm

theorem admits_iff_contains? (hvars : ∀ v ∈ d.vars, (env.value? v).isSome)
    (hparameters : ∀ p ∈ d.parameters, (env.value? p).isSome) :
    d.admits env = true ↔ d.contains? env.value? = some true := by
  rw [admits_iff, contains?_eq_true_iff]
  refine forall₂_congr fun c hc => ⟨fun h => h fun t ht => ?_, fun h _ => h⟩
  by_cases hvar : t.1 ∈ d.vars
  · exact hvars t.1 hvar
  · exact hparameters t.1 (mem_parameters.2 ⟨hvar, c, hc, t, ht, rfl⟩)

/-- The points are the extensions of the bindings to the variables that are admitted, in lexicographic order. -/
def Visits (d : Domain) (vars : List String) (env : Env) (points : List Env) : Prop :=
  ∃ indices : List (List Int), points = indices.map (env.at vars) ∧ indices.Pairwise (List.Lex (· < ·)) ∧
    ∀ index, index ∈ indices ↔ index.length = vars.length ∧ d.admits (env.at vars index) = true

end Domain

theorem Env.value?_at_of_some {env : Env} {vars : List String} (hfree : ∀ v ∈ vars, env.value? v = none) (index : List Int)
    {name : String} {v : Int} (hv : env.value? name = some v) : (env.at vars index).value? name = some v := by
  rw [value?_at_of_not_mem env fun hmem => ?_, hv]
  rw [hfree name hmem] at hv
  cases hv

theorem Env.value?_bind_of_some {env : Env} {var : String} (hfree : env.value? var = none) (x : Int) {name : String} {v : Int}
    (hv : env.value? name = some v) : (env.bind var x).value? name = some v :=
  value?_at_of_some (List.forall_mem_singleton.2 hfree) [x] hv

theorem Env.value?_bind_eq_none {env : Env} {var : String} {vars : List String} (hvar : var ∉ vars)
    (hfree : ∀ v ∈ vars, env.value? v = none) (x : Int) : ∀ v ∈ vars, (env.bind var x).value? v = none := by
  intro v hv
  have hne : v ≠ var := fun heq => hvar (heq ▸ hv)
  exact (value?_bind_of_ne env x hne).trans (hfree v hv)

theorem Env.isSome_value?_at (env : Env) {vars : List String} {index : List Int} (hnodup : vars.Nodup)
    (hlength : index.length = vars.length) {v : String} (hv : v ∈ vars) : ((env.at vars index).value? v).isSome := by
  obtain ⟨i, hi, rfl⟩ := List.getElem_of_mem hv
  have hbound := (List.forall₂_iff_get.1 (env.binds_at hnodup hlength.symm)).2 i hi (hlength ▸ hi)
  exact Option.isSome_iff_exists.2 ⟨_, hbound⟩

section Sweeps

variable {var : String} {keep : Env → Bool} {inner : Env → Except ExecutionFault (List Env × Env)} {base : Env}

theorem sweep_succ (count : Nat) (value : Int) {env : Env} (henv : env.unbind var = base.unbind var) :
    sweep var keep inner (count + 1) value env =
      (if keep (base.bind var value) then inner (base.bind var value) else .ok ([], base.bind var value)) >>= fun first =>
        sweep var keep inner count (value + 1) first.2 >>= fun rest => .ok (first.1 ++ rest.1, rest.2) := by
  rw [sweep, bind_congr_of_unbind henv]
  dsimp only
  split <;> rfl

theorem sweep_succ_ok (hsame : ∀ x points env', keep (base.bind var x) = true →
      inner (base.bind var x) = .ok (points, env') → env' = base.bind var x)
    {count : Nat} {value : Int} {env env' : Env} {points : List Env} (henv : env.unbind var = base.unbind var)
    (hrun : sweep var keep inner (count + 1) value env = .ok (points, env')) :
    ∃ found later, points = found ++ later ∧
      (keep (base.bind var value) = true → inner (base.bind var value) = .ok (found, base.bind var value)) ∧
      (keep (base.bind var value) = false → found = []) ∧
      sweep var keep inner count (value + 1) (base.bind var value) = .ok (later, env') := by
  rw [sweep_succ count value henv] at hrun
  obtain ⟨⟨found, env₁⟩, hfound, hrun⟩ := exists_of_bind_eq_ok hrun
  obtain ⟨⟨later, env₂⟩, hlater, hrun⟩ := exists_of_bind_eq_ok hrun
  obtain ⟨rfl, rfl⟩ := Prod.mk.inj (Except.ok.inj hrun)
  cases hkeep : keep (base.bind var value) with
  | true =>
    rw [hkeep, if_pos rfl] at hfound
    obtain rfl := hsame value found env₁ hkeep hfound
    exact ⟨found, later, rfl, fun _ => hfound, nofun, hlater⟩
  | false =>
    rw [hkeep, if_neg Bool.false_ne_true] at hfound
    obtain ⟨rfl, rfl⟩ := Prod.mk.inj (Except.ok.inj hfound)
    exact ⟨[], later, rfl, nofun, fun _ => rfl, hlater⟩

theorem sweep_visits {vars : List String} {Q : Int → List Int → Prop}
    (hinner : ∀ x points env', keep (base.bind var x) = true → inner (base.bind var x) = .ok (points, env') →
      env' = base.bind var x ∧ ∃ rests : List (List Int), points = rests.map ((base.bind var x).at vars) ∧
        rests.Pairwise (List.Lex (· < ·)) ∧ ∀ rest, rest ∈ rests ↔ Q x rest)
    {count : Nat} {value : Int} {env env' : Env} {points : List Env} (henv : env.unbind var = base.unbind var)
    (hrun : sweep var keep inner count value env = .ok (points, env')) :
    env'.unbind var = base.unbind var ∧
      ∃ indices : List (List Int), points = indices.map (base.at (var :: vars)) ∧ indices.Pairwise (List.Lex (· < ·)) ∧
        ∀ index, index ∈ indices ↔ ∃ x rest, index = x :: rest ∧ value ≤ x ∧ x < value + count ∧
          keep (base.bind var x) = true ∧ Q x rest := by
  induction count generalizing value env points with
  | zero =>
    obtain ⟨rfl, rfl⟩ := Prod.mk.inj (Except.ok.inj hrun)
    refine ⟨henv, [], rfl, List.Pairwise.nil, fun index => ⟨nofun, ?_⟩⟩
    rintro ⟨x, rest, _, hlow, hhigh, _⟩
    omega
  | succ count ih =>
    obtain ⟨found, later, rfl, hkept, hdropped, hlater⟩ :=
      sweep_succ_ok (fun x points env' hkeep hok => (hinner x points env' hkeep hok).1) henv hrun
    obtain ⟨henv', indices, rfl, hsorted, hmem⟩ := ih (unbind_bind_of_unbind base var value) hlater
    refine ⟨henv', ?_⟩
    -- The points under the first value, all of which come before those under later values.
    obtain ⟨rests, rfl, hrests, hQ⟩ : ∃ rests : List (List Int), found = rests.map ((base.bind var value).at vars) ∧
        rests.Pairwise (List.Lex (· < ·)) ∧ ∀ rest, rest ∈ rests ↔ keep (base.bind var value) = true ∧ Q value rest := by
      cases hkeep : keep (base.bind var value) with
      | true =>
        obtain ⟨_, rests, hfound, hrests, hQ⟩ := hinner value found _ hkeep (hkept hkeep)
        exact ⟨rests, hfound, hrests, fun rest => (hQ rest).trans (by simp)⟩
      | false => exact ⟨[], hdropped hkeep, List.Pairwise.nil, fun rest => by simp⟩
    refine ⟨rests.map (value :: ·) ++ indices, ?_, ?_, fun index => ?_⟩
    · rw [List.map_append, List.map_map]
      rfl
    · refine List.pairwise_append.2 ⟨List.pairwise_map.2 (hrests.imp List.Lex.cons), hsorted, ?_⟩
      rintro first hfirst second hsecond
      obtain ⟨rest, _, rfl⟩ := List.mem_map.1 hfirst
      obtain ⟨x, rest', rfl, hlow, _⟩ := (hmem second).1 hsecond
      exact List.Lex.rel (by omega)
    · rw [List.mem_append, List.mem_map, hmem]
      constructor
      · rintro (⟨rest, hrest, rfl⟩ | ⟨x, rest, rfl, hlow, hhigh, hfits⟩)
        · exact ⟨value, rest, rfl, by omega, by omega, (hQ rest).1 hrest⟩
        · exact ⟨x, rest, rfl, by omega, by omega, hfits⟩
      · rintro ⟨x, rest, rfl, hlow, hhigh, hfits⟩
        by_cases hfirst : x = value
        · subst hfirst
          exact .inl ⟨rest, (hQ rest).2 hfits, rfl⟩
        · exact .inr ⟨x, rest, rfl, by omega, by omega, hfits⟩

theorem sweep_isOk (hinner : ∀ x, ∃ points, inner (base.bind var x) = .ok (points, base.bind var x)) (count : Nat)
    (value : Int) {env : Env} (henv : env.unbind var = base.unbind var) :
    ∃ points env', sweep var keep inner count value env = .ok (points, env') ∧ env'.unbind var = base.unbind var := by
  induction count generalizing value env with
  | zero => exact ⟨[], env, rfl, henv⟩
  | succ count ih =>
    obtain ⟨later, env', hlater, henv'⟩ := ih (value + 1) (unbind_bind_of_unbind base var value)
    obtain ⟨found, hfound⟩ := hinner value
    rw [sweep_succ count value henv]
    cases keep (base.bind var value) with
    | true =>
      rw [if_pos rfl, hfound]
      exact ⟨found ++ later, env', by simp only [Bind.bind, Except.bind, hlater], henv'⟩
    | false =>
      rw [if_neg Bool.false_ne_true]
      exact ⟨later, env', by simp only [Bind.bind, Except.bind, hlater, List.nil_append], henv'⟩

end Sweeps

section Enumerations

variable {domains : List Domain} {d : Domain}

/-- An enumeration leaves the bindings as they were, and whatever it returns are the points that are admitted. -/
theorem enumerate_visits (vars : List String) {env env' : Env} {points : List Env}
    (howned : ∀ v ∈ vars, ownerOf domains v = .ok d) (hnodup : vars.Nodup) (hfree : ∀ v ∈ vars, env.value? v = none)
    (hstart : vars = [] → d.admits env = true) (hrun : enumerate domains vars env = .ok (points, env')) :
    env' = env ∧ d.Visits vars env points := by
  induction vars generalizing env env' points with
  | nil =>
    obtain ⟨rfl, rfl⟩ := Prod.mk.inj (Except.ok.inj hrun)
    refine ⟨rfl, [[]], rfl, List.pairwise_singleton _ _, fun index => ?_⟩
    rw [List.mem_singleton, List.length_nil, List.length_eq_zero_iff]
    exact ⟨fun h => ⟨h, h ▸ hstart rfl⟩, And.left⟩
  | cons var vars ih =>
    obtain ⟨hvar, hnodup⟩ := List.nodup_cons.1 hnodup
    obtain ⟨hfreeVar, hfree⟩ := List.forall_mem_cons.1 hfree
    obtain ⟨howner, howned⟩ := List.forall_mem_cons.1 howned
    have hfree' : ∀ x, ∀ v ∈ vars, (env.bind var x).value? v = none := Env.value?_bind_eq_none hvar hfree
    have hkept : ∀ x rest, d.admits ((env.bind var x).at vars rest) = true → d.admits (env.bind var x) = true :=
      fun x rest => Domain.admits_of_extends fun name v hv => Env.value?_at_of_some (hfree' x) rest hv
    rw [enumerate] at hrun
    obtain ⟨d', hd', hrun⟩ := exists_of_bind_eq_ok hrun
    obtain rfl := Except.ok.inj (howner.symm.trans hd')
    obtain ⟨⟨low, high⟩, hbounds, hrun⟩ := exists_of_bind_eq_ok hrun
    obtain ⟨⟨points', env₁⟩, hsweep, hrun⟩ := exists_of_bind_eq_ok hrun
    obtain ⟨rfl, rfl⟩ := Prod.mk.inj (Except.ok.inj hrun)
    obtain ⟨henv, indices, rfl, hsorted, hmem⟩ := sweep_visits (fun x points env' hkeep hok =>
      ih howned hnodup (hfree' x) (fun _ => hkeep) hok) rfl hsweep
    refine ⟨?_, indices, rfl, hsorted, fun index => (hmem index).trans ⟨?_, ?_⟩⟩
    · rw [henv, Env.unbind_eq_self hfreeVar]
    · rintro ⟨x, rest, rfl, _, _, _, hlength, hadmits⟩
      exact ⟨congrArg (· + 1) hlength, hadmits⟩
    · rintro ⟨hlength, hadmits⟩
      obtain ⟨x, rest, rfl⟩ := List.exists_cons_of_length_eq_add_one hlength
      have hfirst := hkept x rest hadmits
      obtain ⟨hlow, hhigh⟩ := Domain.bounds_of_admits hbounds hfirst
      exact ⟨x, rest, rfl, hlow, by omega, hfirst, Nat.succ.inj hlength, hadmits⟩

theorem enumerate_isOk (vars : List String) {env : Env} (howned : ∀ v ∈ vars, ownerOf domains v = .ok d)
    (hnodup : vars.Nodup) (hfree : ∀ v ∈ vars, env.value? v = none) (hbounds : ∀ v ∈ vars, ∃ b, d.bounds v env = .ok b) :
    ∃ points, enumerate domains vars env = .ok (points, env) := by
  induction vars generalizing env with
  | nil => exact ⟨[env], rfl⟩
  | cons var vars ih =>
    obtain ⟨hvar, hnodup⟩ := List.nodup_cons.1 hnodup
    obtain ⟨hfreeVar, hfree⟩ := List.forall_mem_cons.1 hfree
    obtain ⟨howner, howned⟩ := List.forall_mem_cons.1 howned
    obtain ⟨⟨⟨low, high⟩, hvarBounds⟩, hbounds⟩ := List.forall_mem_cons.1 hbounds
    have hinner : ∀ x, ∃ points, enumerate domains vars (env.bind var x) = .ok (points, env.bind var x) := fun x =>
      ih howned hnodup (Env.value?_bind_eq_none hvar hfree x) fun v hv =>
        Domain.exists_bounds_of_extends (fun name _ _ => Env.value?_bind_of_some hfreeVar x) (hbounds v hv)
    obtain ⟨points, env', hsweep, henv'⟩ : ∃ points env', sweep var d.admits (enumerate domains vars)
        (high - low + 1).toNat low env = .ok (points, env') ∧ env'.unbind var = env.unbind var :=
      sweep_isOk hinner _ low rfl
    refine ⟨points, ?_⟩
    rw [enumerate]
    simp only [howner, hvarBounds, Bind.bind, Except.bind, hsweep, pure, Except.pure]
    rw [henv', Env.unbind_eq_self hfreeVar]

end Enumerations

namespace Domain

/-- The symbolic extents are bound, and none of them is a variable. -/
def ExtentsBound (extents : List Extent) (vars : List String) (env : Env) : Prop :=
  ∀ name, .symbolic name ∈ extents → (env.value? name).isSome ∧ name ∉ vars

variable {env : Env}

theorem ExtentsBound.exists_counts {extents : List Extent} {vars : List String} (h : ExtentsBound extents vars env)
    {extent : Extent} (hextent : extent ∈ extents) : ∃ n, extent.Counts env vars n := by
  cases extent with
  | fixed k => exact ⟨_, rfl⟩
  | symbolic name =>
    obtain ⟨hbound, hnot⟩ := h name hextent
    obtain ⟨n, hn⟩ := Option.isSome_iff_exists.1 hbound
    exact ⟨n, hn, hnot⟩

theorem exists_bounds_axis {d : Domain} {vars : List String} {v : String} {extent : Extent} {n : Int}
    (hlower : lower v ∈ d.constraints) (hupper : upper v extent ∈ d.constraints) (hcounts : extent.Counts env vars n)
    (hv : v ∈ vars) : ∃ b, d.bounds v env = .ok b := by
  have hlow := bounding_lower vars v env
  have hhigh := bounding_upper hcounts hv
  refine exists_bounds_iff.2 ⟨⟨_, hlower, ?_, _, hlow.rest⟩, _, hupper, ?_, _, hhigh.rest⟩
  · rw [hlow.coefficient v hv, if_pos rfl]
    decide
  · rw [hhigh.coefficient v hv, if_pos rfl]
    decide

theorem exists_bounds_box {axes : List (String × Extent)} {v : String} (hv : v ∈ axes.map Prod.fst)
    (hextents : ExtentsBound (axes.map Prod.snd) (axes.map Prod.fst) env) : ∃ b, (box axes).bounds v env = .ok b := by
  obtain ⟨a, ha, rfl⟩ := List.mem_map.1 hv
  obtain ⟨n, hcounts⟩ := hextents.exists_counts (List.mem_map_of_mem ha)
  exact exists_bounds_axis (mem_box.2 ⟨a, ha, .inl rfl⟩) (mem_box.2 ⟨a, ha, .inr rfl⟩) hcounts hv

end Domain

section PrefixSums

variable {i j : String} {extent : Extent} {env : Env}

theorem exists_bounds_prefixSum_outer (hextent : Domain.ExtentsBound [extent] [i, j] env) :
    ∃ b, (prefixSumDomain i j extent).bounds i env = .ok b := by
  obtain ⟨n, hcounts⟩ := hextent.exists_counts (List.mem_singleton.2 rfl)
  exact Domain.exists_bounds_axis (mem_prefixSumDomain.2 (.inl rfl)) (mem_prefixSumDomain.2 (.inr (.inl rfl))) hcounts
    List.mem_cons_self

theorem exists_bounds_prefixSum_inner (hij : i ≠ j) {x : Int} (hi : env.value? i = some x) :
    ∃ b, (prefixSumDomain i j extent).bounds j env = .ok b := by
  have hlow := Domain.bounding_lower [j] j env
  refine Domain.exists_bounds_iff.2 ⟨⟨_, mem_prefixSumDomain.2 (.inr (.inr (.inl rfl))), ?_, _, hlow.rest⟩,
    _, mem_prefixSumDomain.2 (.inr (.inr (.inr rfl))), ?_, x, ?_⟩
  · rw [hlow.coefficient j (List.mem_singleton.2 rfl), if_pos rfl]
    decide
  · simp [form_le_vars hij, Affine.coefficient, Affine.coefficientIn, hij]
  · simp [form_le_vars hij, Affine.rest?, Affine.sumFrom?, hij, hi]

end PrefixSums

/-- Unbound variables, each named once, that the domain owns among the domains. -/
structure Domain.Owns (d : Domain) (domains : List Domain) (vars : List String) (env : Env) : Prop where
  some_var : vars ≠ []
  nodup : vars.Nodup
  owner : ∀ v ∈ vars, ownerOf domains v = .ok d
  free : ∀ v ∈ vars, env.value? v = none

section Owned

variable {domains : List Domain} {d : Domain} {vars : List String} {env : Env}

theorem ownerOf_ok {v : String} (h : ownerOf domains v = .ok d) : d ∈ domains ∧ v ∈ d.vars := by
  unfold ownerOf at h
  split at h
  · rename_i d' hfind
    obtain rfl := Except.ok.inj h
    exact ⟨List.mem_of_find?_eq_some hfind, by simpa using List.find?_some hfind⟩
  · cases h

theorem Domain.Owns.mem (h : d.Owns domains vars env) : d ∈ domains := by
  obtain ⟨v, hv⟩ := List.exists_mem_of_ne_nil vars h.some_var
  exact (ownerOf_ok (h.owner v hv)).1

theorem Domain.Owns.visits (h : d.Owns domains vars env) {points : List Env}
    (hrun : pointsOver domains vars env = .ok points) : d.Visits vars env points := by
  obtain ⟨⟨found, env'⟩, henumerate, rfl⟩ := map_eq_ok hrun
  exact (enumerate_visits vars h.owner h.nodup h.free (fun hnil => absurd hnil h.some_var) henumerate).2

theorem Domain.Owns.isOk (h : d.Owns domains vars env) (hbounds : ∀ v ∈ vars, ∃ b, d.bounds v env = .ok b) :
    ∃ points, pointsOver domains vars env = .ok points := by
  obtain ⟨points, henumerate⟩ := enumerate_isOk vars h.owner h.nodup h.free hbounds
  refine ⟨points, ?_⟩
  rw [pointsOver, henumerate]
  rfl

theorem Domain.Owns.isOk_prefixSum {i j : String} {extent : Extent} (hi : (prefixSumDomain i j extent).Owns domains [i] env)
    (hj : (prefixSumDomain i j extent).Owns domains [j] env) (hij : i ≠ j) (hextent : ExtentsBound [extent] [i, j] env) :
    ∃ points, pointsOver domains [i] env = .ok points ∧
      ∀ point ∈ points, ∃ inner, pointsOver domains [j] point = .ok inner := by
  obtain ⟨points, hrun⟩ := hi.isOk (List.forall_mem_singleton.2 (exists_bounds_prefixSum_outer hextent))
  refine ⟨points, hrun, fun point hpoint => ?_⟩
  obtain ⟨indices, rfl, _, hmem⟩ := hi.visits hrun
  obtain ⟨index, hindex, rfl⟩ := List.mem_map.1 hpoint
  obtain ⟨x, rfl⟩ := List.length_eq_one_iff.1 ((hmem index).1 hindex).1
  have hfree : ∀ v ∈ [j], (env.bind i x).value? v = none :=
    Env.value?_bind_eq_none (fun hmem => hij (List.mem_singleton.1 hmem)) hj.free x
  have hbounds : ∃ b, (prefixSumDomain i j extent).bounds j (env.bind i x) = .ok b :=
    exists_bounds_prefixSum_inner hij (Env.value?_bind_self env i x)
  have howns : (prefixSumDomain i j extent).Owns domains [j] (env.bind i x) := ⟨hj.some_var, hj.nodup, hj.owner, hfree⟩
  exact howns.isOk (List.forall_mem_singleton.2 hbounds)

end Owned

/-- An enumeration that does not fail visits each point of the domain once, in lexicographic order, and nothing else.
It never fails over boxes, nor over the places of a prefix sum and the elements up to each. -/
theorem Kernel.pointsOver_exact (k : Kernel) (env : Env) :
    (∀ (d : Domain) (vars : List String) (points : List Env), d.Owns k.domains vars env →
      pointsOver k.domains vars env = .ok points →
      ∃ indices : List (List Int), points = indices.map (env.at vars) ∧ indices.Pairwise (List.Lex (· < ·)) ∧
        (∀ index, index ∈ indices ↔ index.length = vars.length ∧ ∀ c ∈ d.constraints,
          (∀ t ∈ c.form.terms, ((env.at vars index).value? t.1).isSome) →
            c.holds? (env.at vars index).value? = some true) ∧
        ((∀ v ∈ d.vars, v ∈ vars) → (∀ p ∈ d.parameters, (env.value? p).isSome) →
          ∀ index, index ∈ indices ↔ index.length = vars.length ∧
            d.contains? (env.at vars index).value? = some true)) ∧
    (∀ (axes : List (String × Extent)) (vars : List String), (Domain.box axes).Owns k.domains vars env →
      Domain.ExtentsBound (axes.map Prod.snd) (axes.map Prod.fst) env →
      ∃ points, pointsOver k.domains vars env = .ok points) ∧
    ∀ (i j : String) (extent : Extent), (prefixSumDomain i j extent).Owns k.domains [i] env →
      (prefixSumDomain i j extent).Owns k.domains [j] env → i ≠ j → Domain.ExtentsBound [extent] [i, j] env →
      ∃ points, pointsOver k.domains [i] env = .ok points ∧
        ∀ point ∈ points, ∃ inner, pointsOver k.domains [j] point = .ok inner := by
  refine ⟨fun d vars points howns hrun => ?_, fun axes vars howns hextents => ?_,
    fun i j extent hi hj hij hextent => ?_⟩
  · obtain ⟨indices, hpoints, hsorted, hmem⟩ := howns.visits hrun
    refine ⟨indices, hpoints, hsorted, fun index => (hmem index).trans (and_congr_right fun _ => Domain.admits_iff),
      fun hall hparameters index => (hmem index).trans (and_congr_right fun hlength => ?_)⟩
    exact Domain.admits_iff_contains? (fun v hv => env.isSome_value?_at howns.nodup hlength (hall v hv)) fun p hp => by
      obtain ⟨v, hv⟩ := Option.isSome_iff_exists.1 (hparameters p hp)
      exact Option.isSome_iff_exists.2 ⟨v, Env.value?_at_of_some howns.free index hv⟩
  · refine howns.isOk fun v hv => Domain.exists_bounds_box ?_ hextents
    rw [← Domain.vars_box]
    exact (ownerOf_ok (howns.owner v hv)).2
  · exact hi.isOk_prefixSum hj hij hextent

/-- Variables whose bounds are rounded: zero to half of `n`, and a third of the first to half of what it leaves of five. -/
def skewed : Domain :=
  ((((Domain.unconstrained ["i", "j"]).constrain (.le (.ofConstant 0) (.ofVar "i"))).constrain
    (.le ((Affine.ofConstant 0).addTerm "i" 2) (.ofVar "n"))).constrain
    (.le (.ofVar "i") ((Affine.ofConstant 0).addTerm "j" 3))).constrain
    (.le ((Affine.ofConstant 0).addTerm "j" 2) ((Affine.ofConstant 5).addTerm "i" (-1)))

def threeDomains : Kernel :=
  ⟨[skewed, .box [("k", .symbolic "n")], prefixSumDomain "p" "q" (.symbolic "n")], [], [], [], [], none⟩

def threeDomainsStart : Env :=
  ⟨[("n", 5)]⟩

theorem owns_threeDomains {d : Domain} {vars : List String} (hvars : vars ≠ [] ∧ vars.Nodup)
    (howner : ∀ v ∈ vars, (ownerOf threeDomains.domains v).toOption = some d)
    (hfree : ∀ v ∈ vars, threeDomainsStart.value? v = none) : d.Owns threeDomains.domains vars threeDomainsStart :=
  ⟨hvars.1, hvars.2, fun v hv => toOption_eq_some.1 (howner v hv), hfree⟩

theorem Kernel.pointsOver_exact_threeDomains :
    (∃ indices : List (List Int), pointsOver threeDomains.domains ["i", "j"] threeDomainsStart =
        .ok (indices.map (threeDomainsStart.at ["i", "j"])) ∧ indices.Pairwise (List.Lex (· < ·)) ∧
      ∀ index, index ∈ indices ↔ index.length = 2 ∧
        skewed.contains? (threeDomainsStart.at ["i", "j"] index).value? = some true) ∧
    (∃ points, pointsOver threeDomains.domains ["k"] threeDomainsStart = .ok points) ∧
    ∃ points, pointsOver threeDomains.domains ["p"] threeDomainsStart = .ok points ∧
      ∀ point ∈ points, ∃ inner, pointsOver threeDomains.domains ["q"] point = .ok inner := by
  obtain ⟨hexact, hbox, hprefix⟩ := threeDomains.pointsOver_exact threeDomainsStart
  refine ⟨?_, ?_, ?_⟩
  · obtain ⟨points, hrun⟩ := Option.isSome_iff_exists.1
      (by decide +kernel : (pointsOver threeDomains.domains ["i", "j"] threeDomainsStart).toOption.isSome = true)
    rw [toOption_eq_some] at hrun
    obtain ⟨indices, rfl, hsorted, _, hall⟩ := hexact skewed ["i", "j"] points
      (owns_threeDomains (by decide) (by decide +kernel) (by decide)) hrun
    exact ⟨indices, hrun, hsorted, hall (by decide) (by decide +kernel)⟩
  · refine hbox [("k", .symbolic "n")] ["k"] (owns_threeDomains (by decide) (by decide +kernel) (by decide)) ?_
    intro name hname
    obtain rfl := Extent.symbolic.inj (List.mem_singleton.1 hname)
    decide
  · refine hprefix "p" "q" (.symbolic "n") (owns_threeDomains (by decide) (by decide +kernel) (by decide))
      (owns_threeDomains (by decide) (by decide +kernel) (by decide)) (by decide) ?_
    intro name hname
    obtain rfl := Extent.symbolic.inj (List.mem_singleton.1 hname)
    decide

example : (pointsOver [skewed] ["i", "j"] ⟨[("n", 5)]⟩).toOption =
    some ([[0, 0], [0, 1], [0, 2], [1, 1], [1, 2], [2, 1]].map ((Env.mk [("n", 5)]).at ["i", "j"])) := by
  decide +kernel

end ArrayPlan
