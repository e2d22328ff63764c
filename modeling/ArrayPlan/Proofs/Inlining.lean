import ArrayPlan.Proofs.Contents
import ArrayPlan.Proofs.Interpretation

/-!
Execution as interpretation. Rules that call only earlier rules nest at most as deep as there are rules, so
the depth to which calls are followed does not matter, and a call has the value of the body of its rule. What
a statement does at a point is then a position and a value, both read off the memory before the store.
-/

namespace ArrayPlan

theorem toOption_bind {ε β γ : Type} (x : Except ε β) (f : β → Except ε γ) :
    (x >>= f).toOption = x.toOption.bind fun b => (f b).toOption := by
  cases x <;> rfl

theorem toOption_map {ε β γ : Type} (x : Except ε β) (f : β → γ) :
    (x.map f).toOption = x.toOption.map f := by
  cases x <;> rfl

theorem toOption_eq_some {ε β : Type} {x : Except ε β} {b : β} : x.toOption = some b ↔ x = .ok b := by
  cases x <;> simp [Except.toOption]

theorem toOption_foldlM {ε β γ : Type} (f : β → γ → Except ε β) (cs : List γ) (b : β) :
    (cs.foldlM f b).toOption = cs.foldlM (fun b c => (f b c).toOption) b := by
  induction cs generalizing b with
  | nil => rfl
  | cons c cs ih =>
    rw [List.foldlM_cons, List.foldlM_cons, toOption_bind]
    exact congrArg _ (funext ih)

variable {α : Type} [Scalar α]

namespace Setting

/-- The answers of an interpretation to calls are the values of rule bodies under `inline`, and its loads
and points are those of the setting. -/
structure Answers (s : Setting α) (inline : Rule → Env → Except ExecutionFault α) (I : Interpretation α) :
    Prop where
  call : ∀ name index, I.call name index =
    (s.rules.find? fun r => r.name = name).bind fun r =>
      if r.params.length = index.length then
        (inline r (s.parameters.bindAll (r.params.zip index))).toOption
      else none
  load : I.load = s.memory.load?
  points : ∀ vars env, I.points vars env = (pointsOver s.domains vars env).toOption

variable {s : Setting α} {inline : Rule → Env → Except ExecutionFault α} {I : Interpretation α}

omit [Scalar α] in
theorem toOption_rule (name : String) :
    (s.rule name).toOption = s.rules.find? fun r => r.name = name := by
  unfold rule
  cases s.rules.find? fun r => r.name = name <;> rfl

mutual

theorem toOption_valueWith (h : s.Answers inline I) :
    ∀ (e : Expr) (env : Env), (s.valueWith inline e env).toOption = I.value? e env
  | .int _, _ => rfl
  | .real _, _ => rfl
  | .var name, env => by
    simp only [valueWith, Interpretation.value?]
    cases env.value? name <;> rfl
  | .call name args, env => by
    have hargs := toOption_valuesWith h args env
    simp only [valueWith, Interpretation.value?, toOption_bind, toOption_rule, h.call, ← hargs]
    cases s.rules.find? fun r => r.name = name with
    | none => cases (s.valuesWith inline args env).toOption <;> rfl
    | some r =>
      cases hvs : (s.valuesWith inline args env).toOption with
      | none =>
        simp only [Option.bind_some, Option.bind_none]
        split
        · rw [toOption_bind, hvs, Option.bind_none]
        · rfl
      | some vs =>
        have hlen : vs.length = args.length := Interpretation.length_values? (hargs.symm.trans hvs)
        simp only [Option.bind_some, List.length_map, hlen]
        split
        · rw [toOption_bind, hvs, Option.bind_some]
        · rfl
  | .load array index, env => by
    have hindex := toOption_valuesWith h index env
    simp only [valueWith, Interpretation.value?, toOption_bind, ← hindex, h.load, Memory.load?]
    cases (s.valuesWith inline index env).toOption with
    | none => rfl
    | some vs => exact (toOption_bind _ _).symm
  | .arith op lhs rhs, env => by
    simp only [valueWith, Interpretation.value?, toOption_bind, toOption_valueWith h lhs env,
      toOption_valueWith h rhs env]
    cases I.value? lhs env <;> cases I.value? rhs env <;> rfl
  | .compare op lhs rhs, env => by
    simp only [valueWith, Interpretation.value?, toOption_bind, toOption_valueWith h lhs env,
      toOption_valueWith h rhs env]
    cases I.value? lhs env <;> cases I.value? rhs env <;> rfl
  | .sum vars body, env => by
    simp only [valueWith, Interpretation.value?, toOption_bind, h.points, toOption_foldlM,
      toOption_valueWith h body]
    refine congrArg _ (funext fun points => congrArg (fun f => List.foldlM f _ points) ?_)
    funext total point
    cases I.value? body point <;> rfl

theorem toOption_valuesWith (h : s.Answers inline I) :
    ∀ (es : List Expr) (env : Env), (s.valuesWith inline es env).toOption = I.values? es env
  | [], _ => rfl
  | e :: es, env => by
    simp only [valuesWith, Interpretation.values?, toOption_bind, toOption_valueWith h e env,
      toOption_valuesWith h es env]
    cases I.value? e env <;> cases I.values? es env <;> rfl

end

end Setting

namespace Kernel

def readingTo (k : Kernel) (parameters : Env) (load : String → List Int → Option α) : Nat → Interpretation α
  | 0 => ⟨fun _ _ => none, load, fun vars env => (pointsOver k.domains vars env).toOption⟩
  | depth + 1 =>
    { readingTo k parameters load depth with
      call := fun name index =>
        (k.rule? name).bind fun (r : Rule) =>
          if r.params.length = index.length then
            (readingTo k parameters load depth).value? r.body (parameters.bindAll (r.params.zip index))
          else none }

def reading (k : Kernel) (parameters : Env) (load : String → List Int → Option α) : Interpretation α :=
  k.readingTo parameters load k.rules.length

/-- Rules have distinct names and call only rules before them. -/
structure Layered (rules : List Rule) : Prop where
  nodup : (rules.map Rule.name).Nodup
  earlier : ∀ (i : Nat) (r : Rule), rules[i]? = some r →
    r.body.Within (fun name => name ∈ (rules.take i).map Rule.name) (fun _ => True) (fun _ => True)

section

variable (k : Kernel) (parameters : Env) (load : String → List Int → Option α)

theorem readingTo_load (depth : Nat) : (k.readingTo parameters load depth).load = load := by
  cases depth with
  | zero => rfl
  | succ depth => exact readingTo_load depth

theorem readingTo_points (depth : Nat) : (k.readingTo parameters load depth).points =
    fun vars env => (pointsOver k.domains vars env).toOption := by
  cases depth with
  | zero => rfl
  | succ depth => exact readingTo_points depth

@[simp] theorem reading_load : (k.reading parameters load).load = load :=
  k.readingTo_load parameters load _

@[simp] theorem reading_points : (k.reading parameters load).points =
    fun vars env => (pointsOver k.domains vars env).toOption :=
  k.readingTo_points parameters load _

end

theorem toOption_valueTo (k : Kernel) (parameters : Env) (m : Memory α) (depth : Nat) (e : Expr) (env : Env) :
    ((k.setting parameters m).valueTo depth e env).toOption =
      (k.readingTo parameters m.load? depth).value? e env := by
  induction depth generalizing e env with
  | zero =>
    refine Setting.toOption_valueWith ⟨fun name index => ?_, rfl, fun _ _ => rfl⟩ e env
    cases hr : (k.setting parameters m).rules.find? fun r => r.name = name with
    | none => rfl
    | some r => simp [readingTo, Except.toOption]
  | succ depth ih =>
    refine Setting.toOption_valueWith ⟨fun name index => ?_, ?_, fun vars env => ?_⟩ e env
    · have hinline : ∀ (r : Rule) (env : Env), ((k.setting parameters m).valueTo depth r.body env).toOption =
          (k.readingTo parameters m.load? depth).value? r.body env := fun r env => ih r.body env
      simp only [hinline]
      rfl
    · exact k.readingTo_load parameters m.load? _
    · rw [readingTo_points]
      rfl

theorem readingTo_below (k : Kernel) (parameters : Env) (load : String → List Int → Option α) (depth : Nat) :
    (k.readingTo parameters load depth).BelowOn (fun _ => True) (fun _ => True) (fun _ => True)
      (k.readingTo parameters load (depth + 1)) := by
  induction depth with
  | zero => exact ⟨fun _ _ _ _ hv => (Option.some_ne_none _ hv.symm).elim, fun _ _ _ _ hv => hv, fun _ _ _ _ hps => hps⟩
  | succ depth ih =>
    refine ⟨fun name _ index v hv => ?_, fun _ _ _ _ hv => hv, fun _ _ _ _ hps => hps⟩
    obtain ⟨r, hr, hv⟩ := Option.bind_eq_some_iff.1 hv
    refine Option.bind_eq_some_iff.2 ⟨r, hr, ?_⟩
    split at hv
    · rename_i hlen
      rw [if_pos hlen]
      exact Interpretation.value?_mono ih r.body (Expr.within_true r.body) _ v hv
    · cases hv

section Depth

variable {k : Kernel} (parameters : Env) (load : String → List Int → Option α)

theorem rule?_eq_of_getElem? (h : Layered k.rules) {i : Nat} {r : Rule} (hr : k.rules[i]? = some r) :
    k.rule? r.name = some r := by
  obtain ⟨hi, hget⟩ := List.getElem?_eq_some_iff.1 hr
  refine List.find?_eq_some_iff_getElem.2 ⟨by simp, i, hi, hget, fun j hj => ?_⟩
  have hne := List.pairwise_iff_getElem.1 h.nodup j i (by simp; omega) (by simpa using hi) hj
  simpa [hget] using hne

/-- A rule at place `i` needs no more depth than `i + 1`. -/
theorem call_readingTo_eq (h : Layered k.rules) {i : Nat} {r : Rule} (hr : k.rules[i]? = some r)
    {depth depth' : Nat} (hd : i < depth) (hd' : i < depth') :
    (k.readingTo parameters load depth).call r.name = (k.readingTo parameters load depth').call r.name := by
  induction i using Nat.strongRecOn generalizing r depth depth' with
  | ind i ih =>
    obtain ⟨d, rfl⟩ : ∃ d, depth = d + 1 := ⟨depth - 1, by omega⟩
    obtain ⟨d', rfl⟩ : ∃ d', depth' = d' + 1 := ⟨depth' - 1, by omega⟩
    have hagree : (k.readingTo parameters load d).AgreeOn
        (fun name => name ∈ (k.rules.take i).map Rule.name) (fun _ => True) (fun _ => True)
        (k.readingTo parameters load d') := by
      refine ⟨fun name hname => ?_, fun _ _ => ?_, fun _ _ => ?_⟩
      · obtain ⟨r', hr', rfl⟩ := List.mem_map.1 hname
        obtain ⟨j, hj, hget⟩ := List.mem_take_iff_getElem.1 hr'
        exact ih j (by omega) (List.getElem?_eq_some_iff.2 ⟨by omega, hget⟩) (by omega) (by omega)
      · rw [readingTo_load, readingTo_load]
      · rw [readingTo_points, readingTo_points]
    funext index
    simp only [readingTo, rule?_eq_of_getElem? h hr, Option.bind_some]
    rw [Interpretation.value?_congr hagree (h.earlier i r hr)]

theorem call_reading (h : Layered k.rules) {i : Nat} {r : Rule} (hr : k.rules[i]? = some r)
    (index : List Int) :
    (k.reading parameters load).call r.name index =
      if r.params.length = index.length then
        (k.reading parameters load).value? r.body (parameters.bindAll (r.params.zip index))
      else none := by
  have hi : i < k.rules.length := (List.getElem?_eq_some_iff.1 hr).1
  rw [reading, call_readingTo_eq parameters load h hr hi (Nat.lt_succ_of_lt hi)]
  simp only [readingTo, rule?_eq_of_getElem? h hr, Option.bind_some]

theorem call_readingTo_unknown {name : String} (hname : k.rule? name = none) (depth : Nat) :
    (k.readingTo parameters load depth).call name = fun _ => none := by
  cases depth with
  | zero => rfl
  | succ depth =>
    funext index
    simp [readingTo, hname]

theorem readingTo_eq_reading (h : Layered k.rules) {depth : Nat} (hd : k.rules.length ≤ depth) :
    k.readingTo parameters load depth = k.reading parameters load := by
  apply Interpretation.ext
  · funext name
    cases hname : k.rule? name with
    | none => rw [reading, call_readingTo_unknown parameters load hname, call_readingTo_unknown parameters load hname]
    | some r =>
      obtain ⟨hsame, i, hi, hget, _⟩ := List.find?_eq_some_iff_getElem.1 hname
      obtain rfl : r.name = name := by simpa using hsame
      exact call_readingTo_eq parameters load h (List.getElem?_eq_some_iff.2 ⟨hi, hget⟩) (by omega) hi
  · rw [readingTo_load, reading_load]
  · rw [readingTo_points, reading_points]

theorem exists_rule_or_unknown (k : Kernel) (name : String) :
    (∃ (i : Nat) (r : Rule), k.rules[i]? = some r ∧ r.name = name) ∨ k.rule? name = none := by
  cases hname : k.rule? name with
  | none => exact .inr rfl
  | some r =>
    obtain ⟨hsame, i, hi, hget, _⟩ := List.find?_eq_some_iff_getElem.1 hname
    exact .inl ⟨i, r, List.getElem?_eq_some_iff.2 ⟨hi, hget⟩, by simpa using hsame⟩

/-- If the rules before a place load only arrays of a kind, then more elements in arrays of that kind keep
the values of what calls these rules. -/
theorem reading_below {load' : String → List Int → Option α} {arrays : String → Prop} {n : Nat}
    (h : Layered k.rules) (hbody : ∀ (i : Nat) (r : Rule), i < n → k.rules[i]? = some r →
      r.body.Within (fun name => name ∈ (k.rules.take i).map Rule.name) arrays (fun _ => True))
    (hload : ∀ array, arrays array → ∀ index v, load array index = some v → load' array index = some v) :
    (k.reading parameters load).BelowOn
      (fun name => name ∈ (k.rules.take n).map Rule.name ∨ k.rule? name = none) arrays (fun _ => True)
      (k.reading parameters load') := by
  have hcall : ∀ (i : Nat) (r : Rule), i < n → k.rules[i]? = some r → ∀ index v,
      (k.reading parameters load).call r.name index = some v →
        (k.reading parameters load').call r.name index = some v := by
    intro i
    induction i using Nat.strongRecOn with
    | ind i ih =>
      intro r hi hr index v hv
      rw [call_reading parameters load h hr] at hv
      rw [call_reading parameters load' h hr]
      split at hv
      · rename_i hlen
        rw [if_pos hlen]
        refine Interpretation.value?_mono ⟨fun name hname => ?_, ?_, ?_⟩ r.body (hbody i r hi hr) _ v hv
        · obtain ⟨r', hr', rfl⟩ := List.mem_map.1 hname
          obtain ⟨j, hj, hget⟩ := List.mem_take_iff_getElem.1 hr'
          exact ih j (by omega) r' (by omega) (List.getElem?_eq_some_iff.2 ⟨by omega, hget⟩)
        · simpa using hload
        · simp
      · cases hv
  refine ⟨fun name hname index v hv => ?_, by simpa using hload, by simp⟩
  rcases hname with hname | hname
  · obtain ⟨r, hr, rfl⟩ := List.mem_map.1 hname
    obtain ⟨j, hj, hget⟩ := List.mem_take_iff_getElem.1 hr
    exact hcall j r (by omega) (List.getElem?_eq_some_iff.2 ⟨by omega, hget⟩) index v hv
  · rw [reading, call_readingTo_unknown parameters load hname] at hv
    cases hv

theorem reading_below_all {load' : String → List Int → Option α} (h : Layered k.rules)
    (hload : ∀ array index v, load array index = some v → load' array index = some v) :
    (k.reading parameters load).BelowOn (fun _ => True) (fun _ => True) (fun _ => True)
      (k.reading parameters load') := by
  have hbelow : (k.reading parameters load).BelowOn
      (fun name => name ∈ (k.rules.take k.rules.length).map Rule.name ∨ k.rule? name = none) (fun _ => True)
      (fun _ => True) (k.reading parameters load') :=
    reading_below parameters load h (fun i r _ hr => h.earlier i r hr) fun array _ => hload array
  refine ⟨fun name _ => hbelow.call name ?_, fun array _ => hbelow.load array trivial,
    fun vs _ => hbelow.points vs fun _ _ => trivial⟩
  rw [List.take_length]
  refine (exists_rule_or_unknown k name).imp_left ?_
  rintro ⟨i, r, hr, rfl⟩
  exact List.mem_map_of_mem (List.mem_of_getElem? hr)

end Depth

theorem toOption_value_readingTo (k : Kernel) (parameters : Env) (m : Memory α) (e : Expr) (env : Env) :
    ((k.setting parameters m).value e env).toOption =
      (k.readingTo parameters m.load? (k.setting parameters m).depth).value? e env :=
  toOption_valueTo k parameters m _ e env

theorem toOption_value {k : Kernel} (h : Layered k.rules) (parameters : Env) (m : Memory α) (e : Expr)
    (env : Env) :
    ((k.setting parameters m).value e env).toOption = (k.reading parameters m.load?).value? e env := by
  have hdepth : k.rules.length ≤ (k.setting parameters m).depth := Nat.le_add_right _ _
  rw [toOption_value_readingTo, readingTo_eq_reading parameters m.load? h hdepth]

theorem toOption_position_readingTo (k : Kernel) (parameters : Env) (m : Memory α) (index : List Expr) (env : Env) :
    ((k.setting parameters m).position index env).toOption =
      (k.readingTo parameters m.load? (k.setting parameters m).depth).position? index env := by
  unfold Setting.position Interpretation.position?
  induction index with
  | nil => rfl
  | cons e index ih =>
    simp only [List.mapM_cons, Interpretation.values?, toOption_bind, toOption_map, ih,
      toOption_value_readingTo k parameters m e env]
    cases (k.readingTo parameters m.load? _).value? e env with
    | none => rfl
    | some v => cases (k.readingTo parameters m.load? _).values? index env <;> rfl

theorem toOption_position {k : Kernel} (h : Layered k.rules) (parameters : Env) (m : Memory α)
    (index : List Expr) (env : Env) :
    ((k.setting parameters m).position index env).toOption =
      (k.reading parameters m.load?).position? index env := by
  have hdepth : k.rules.length ≤ (k.setting parameters m).depth := Nat.le_add_right _ _
  rw [toOption_position_readingTo, readingTo_eq_reading parameters m.load? h hdepth]

/-- What a statement stores at a point: the array, the position and the value. -/
def outcome? (k : Kernel) (parameters : Env) (load : String → List Int → Option α) (s : Statement)
    (point : Env) : Option (String × List Int × α) :=
  match s.target with
  | .load array index =>
    ((k.reading parameters load).value? s.value point).bind fun v =>
      ((k.reading parameters load).position? index point).map fun position => (array, position, v)
  | _ => none

theorem outcome?_mono {k : Kernel} {parameters : Env} {load load' : String → List Int → Option α} {s : Statement}
    {point : Env} {rules arrays vars : String → Prop}
    (hbelow : (k.reading parameters load).BelowOn rules arrays vars (k.reading parameters load'))
    (hvalue : s.value.Within rules arrays vars)
    (htarget : ∀ array index, s.target = .load array index → Expr.WithinAll rules arrays vars index)
    {o : String × List Int × α} (ho : k.outcome? parameters load s point = some o) :
    k.outcome? parameters load' s point = some o := by
  unfold outcome? at ho ⊢
  split at ho
  · rename_i array index hs
    obtain ⟨v, hv, ho⟩ := Option.bind_eq_some_iff.1 ho
    obtain ⟨position, hposition, rfl⟩ := Option.map_eq_some_iff.1 ho
    rw [Interpretation.value?_mono hbelow s.value hvalue point v hv,
      Interpretation.position?_mono hbelow (htarget array index hs) hposition]
    rfl
  · cases ho

theorem toOption_storeAt {k : Kernel} (h : Layered k.rules) (parameters : Env) (s : Statement) (m : Memory α)
    (point : Env) :
    (k.storeAt parameters s m point).toOption =
      (k.outcome? parameters m.load? s point).bind fun o => (m.store o.1 o.2.1 o.2.2).toOption := by
  unfold storeAt outcome?
  rw [toOption_bind, toOption_value h]
  cases s.target with
  | load array index =>
    simp only [toOption_bind, toOption_position h, Option.bind_assoc]
    cases (k.reading parameters m.load?).value? s.value point with
    | none => rfl
    | some v => cases (k.reading parameters m.load?).position? index point <;> rfl
  | _ => cases (k.reading parameters m.load?).value? s.value point <;> rfl

theorem storeAt_ok_iff {k : Kernel} (h : Layered k.rules) {parameters : Env} {s : Statement} {m m' : Memory α}
    {point : Env} :
    k.storeAt parameters s m point = .ok m' ↔ ∃ array position v,
      k.outcome? parameters m.load? s point = some (array, position, v) ∧
        m.store array position v = .ok m' := by
  rw [← toOption_eq_some, toOption_storeAt h, Option.bind_eq_some_iff]
  simp only [toOption_eq_some, Prod.exists]

end Kernel

end ArrayPlan
