import ArrayPlan.Execution.Run
import ArrayPlan.Proofs.Renaming

/-!
Runs of renamed kernels. Executing a kernel whose names were exchanged for others, one for one, does what executing the
kernel does: it stores the same numbers under the new names, or fails for the same reason.
-/

namespace ArrayPlan

variable {f : String → String}

section Rename

variable (f : String → String)

def Env.rename (env : Env) : Env :=
  ⟨env.bindings.map (Prod.map f id)⟩

def Memory.rename {α : Type} (m : Memory α) : Memory α :=
  ⟨m.buffers.map (Prod.map f id)⟩

def Setting.rename {α : Type} (s : Setting α) : Setting α :=
  ⟨s.domains.map (Domain.rename f), s.rules.map (Rule.rename f), s.parameters.rename f, s.memory.rename f⟩

def ExecutionFault.rename : ExecutionFault → ExecutionFault
  | unboundParameter name => unboundParameter (f name)
  | wrongInputSize array => wrongInputSize (f array)
  | notAnElement target => notAnElement (target.rename f)
  | unknownArray array => unknownArray (f array)
  | rankMismatch index lengths => rankMismatch index lengths
  | outOfBounds index lengths => outOfBounds index lengths
  | noDomain var => noDomain (f var)
  | unbounded var domain => unbounded (f var) (domain.rename f)
  | unboundName name => unboundName (f name)
  | unknownRule rule => unknownRule (f rule)
  | arityMismatch rule => arityMismatch (f rule)
  | nestedTooDeep rule => nestedTooDeep (f rule)

/-- An outcome with its names exchanged. -/
def renamed {β γ : Type} (g : β → γ) : Except ExecutionFault β → Except ExecutionFault γ
  | .ok b => .ok (g b)
  | .error e => .error (e.rename f)

end Rename

section Renamed

variable {β γ δ ε : Type} {g : β → γ} {g' : δ → ε}

theorem renamed_bind {x : Except ExecutionFault β} {x' : Except ExecutionFault γ} {k : β → Except ExecutionFault δ}
    {k' : γ → Except ExecutionFault ε} (hx : x' = renamed f g x) (hk : ∀ b, k' (g b) = renamed f g' (k b)) :
    (x' >>= k') = renamed f g' (x >>= k) := by
  subst hx
  cases x with
  | error e => rfl
  | ok b => exact hk b

theorem renamed_map {x : Except ExecutionFault β} {x' : Except ExecutionFault γ} {k : β → δ} {k' : γ → ε}
    (hx : x' = renamed f g x) (hk : ∀ b, k' (g b) = g' (k b)) : x'.map k' = renamed f g' (x.map k) := by
  subst hx
  cases x with
  | error e => rfl
  | ok b => exact congrArg Except.ok (hk b)

theorem renamed_foldlM {step : β → δ → Except ExecutionFault β} {step' : γ → ε → Except ExecutionFault γ}
    (hstep : ∀ b d, step' (g b) (g' d) = renamed f g (step b d)) (ds : List δ) (b : β) :
    (ds.map g').foldlM step' (g b) = renamed f g (ds.foldlM step b) := by
  induction ds generalizing b with
  | nil => rfl
  | cons d ds ih =>
    rw [List.map_cons, List.foldlM_cons, List.foldlM_cons]
    exact renamed_bind (hstep b d) ih

end Renamed

namespace Env

theorem value?_rename (hf : Function.Injective f) (env : Env) (name : String) :
    (env.rename f).value? (f name) = env.value? name := by
  rw [value?, value?, rename, lookup_map hf, Option.map_id]
  rfl

theorem unbind_rename (hf : Function.Injective f) (env : Env) (name : String) :
    (env.rename f).unbind (f name) = (env.unbind name).rename f :=
  congrArg Env.mk (filter_ne_map hf id env.bindings name)

theorem bind_rename (hf : Function.Injective f) (env : Env) (name : String) (value : Int) :
    (env.rename f).bind (f name) value = (env.bind name value).rename f := by
  rw [bind, bind, unbind_rename hf]
  rfl

theorem bindAll_rename (hf : Function.Injective f) (env : Env) (bindings : List (String × Int)) :
    (env.rename f).bindAll (bindings.map (Prod.map f id)) = (env.bindAll bindings).rename f := by
  induction bindings generalizing env with
  | nil => rfl
  | cons b bindings ih =>
    rw [List.map_cons, bindAll, List.foldl_cons, Prod.map, bind_rename hf]
    exact ih _

end Env

section Enumeration

theorem Affine.rest?_rename (hf : Function.Injective f) (a : Affine) (var : String) (env : Env) :
    (a.rename f).rest? (f var) (env.rename f) = a.rest? var env := by
  rw [rest?, rest?, (rename_eq hf a).1, (rename_eq hf a).2, filter_ne_map hf, sumFrom?_rename (env.value?_rename hf)]

theorem boundsOf_rename (hf : Function.Injective f) (positive : Bool) (constraints : List Constraint) (var : String)
    (env : Env) :
    boundsOf positive (constraints.map (Constraint.rename f)) (f var) (env.rename f) =
      boundsOf positive constraints var env := by
  rw [boundsOf, boundsOf, List.filterMap_map]
  refine congrArg (List.filterMap · constraints) (funext fun c => ?_)
  simp only [Function.comp_apply, Constraint.rename, Affine.coefficient_rename hf, Affine.rest?_rename hf]

namespace Domain

theorem bounds_rename (hf : Function.Injective f) (d : Domain) (var : String) (env : Env) :
    (d.rename f).bounds (f var) (env.rename f) = renamed f id (d.bounds var env) := by
  rw [bounds, bounds, rename, boundsOf_rename hf, boundsOf_rename hf]
  cases (boundsOf true d.constraints var env).max? <;> cases (boundsOf false d.constraints var env).min? <;> rfl

theorem admits_rename (hf : Function.Injective f) (d : Domain) (env : Env) :
    (d.rename f).admits (env.rename f) = d.admits env := by
  rw [admits, admits, rename, List.all_map]
  refine congrArg (List.all d.constraints) (funext fun c => ?_)
  simp only [Function.comp_apply, Constraint.rename, Constraint.holds?, Affine.value?_rename hf (env.value?_rename hf)]

end Domain

theorem ownerOf_rename (hf : Function.Injective f) (domains : List Domain) (var : String) :
    ownerOf (domains.map (Domain.rename f)) (f var) = renamed f (Domain.rename f) (ownerOf domains var) := by
  have hsame : ((fun d : Domain => d.vars.contains (f var)) ∘ Domain.rename f) = fun d => d.vars.contains var := by
    funext d
    rw [Function.comp_apply, Bool.eq_iff_iff, List.contains_iff_mem, List.contains_iff_mem]
    exact List.mem_map_of_injective hf
  rw [ownerOf, ownerOf, List.find?_map, hsame]
  cases domains.find? fun d => d.vars.contains var <;> rfl

theorem sweep_rename (hf : Function.Injective f) (var : String) {keep keep' : Env → Bool}
    {inner inner' : Env → Except ExecutionFault (List Env × Env)} (hkeep : ∀ env, keep' (env.rename f) = keep env)
    (hinner : ∀ env, inner' (env.rename f) = renamed f (Prod.map (List.map (Env.rename f)) (Env.rename f)) (inner env))
    (count : Nat) (value : Int) (env : Env) :
    sweep (f var) keep' inner' count value (env.rename f) =
      renamed f (Prod.map (List.map (Env.rename f)) (Env.rename f)) (sweep var keep inner count value env) := by
  induction count generalizing value env with
  | zero => rfl
  | succ count ih =>
    rw [sweep, sweep, Env.bind_rename hf, hkeep]
    have hskip : Except.ok ([], (env.bind var value).rename f) =
        renamed f (Prod.map (List.map (Env.rename f)) (Env.rename f)) (.ok ([], env.bind var value)) := rfl
    cases keep (env.bind var value)
    · refine renamed_bind hskip fun (found, env) => renamed_bind (ih (value + 1) env) fun (later, env) => ?_
      exact congrArg Except.ok (congrArg (·, env.rename f) List.map_append.symm)
    · refine renamed_bind (hinner _) fun (found, env) => renamed_bind (ih (value + 1) env) fun (later, env) => ?_
      exact congrArg Except.ok (congrArg (·, env.rename f) List.map_append.symm)

theorem enumerate_rename (hf : Function.Injective f) (domains : List Domain) (vars : List String) (env : Env) :
    enumerate (domains.map (Domain.rename f)) (vars.map f) (env.rename f) =
      renamed f (Prod.map (List.map (Env.rename f)) (Env.rename f)) (enumerate domains vars env) := by
  induction vars generalizing env with
  | nil => rfl
  | cons var vars ih =>
    rw [List.map_cons, enumerate, enumerate]
    refine renamed_bind (ownerOf_rename hf domains var) fun d => renamed_bind (d.bounds_rename hf var env) fun bounds => ?_
    refine renamed_bind (sweep_rename hf var (d.admits_rename hf) ih _ _ env) fun (points, env) => ?_
    exact congrArg Except.ok (congrArg (points.map (Env.rename f), ·) (env.unbind_rename hf var))

theorem pointsOver_rename (hf : Function.Injective f) (domains : List Domain) (vars : List String) (env : Env) :
    pointsOver (domains.map (Domain.rename f)) (vars.map f) (env.rename f) =
      renamed f (List.map (Env.rename f)) (pointsOver domains vars env) :=
  renamed_map (enumerate_rename hf domains vars env) fun _ => rfl

end Enumeration

namespace Memory

variable {α : Type}

theorem buffer?_rename (hf : Function.Injective f) (m : Memory α) (array : String) :
    (m.rename f).buffer? (f array) = m.buffer? array := by
  rw [buffer?, buffer?, rename, lookup_map hf, Option.map_id]
  rfl

theorem buffer_rename (hf : Function.Injective f) (m : Memory α) (array : String) :
    (m.rename f).buffer (f array) = renamed f id (m.buffer array) := by
  rw [buffer, buffer, buffer?_rename hf]
  cases m.buffer? array <;> rfl

theorem set_rename (hf : Function.Injective f) (m : Memory α) (array : String) (b : Buffer α) :
    (m.rename f).set (f array) b = (m.set array b).rename f := by
  have hassign : ∀ buffers : List (String × Buffer α),
      assign (f array) b (buffers.map (Prod.map f id)) = (assign array b buffers).map (Prod.map f id) := by
    intro buffers
    induction buffers with
    | nil => rfl
    | cons e buffers ih =>
      rw [List.map_cons, Prod.map, assign, assign, ih]
      simp only [hf.eq_iff]
      split <;> rfl
  exact congrArg Memory.mk (hassign m.buffers)

theorem store_rename (hf : Function.Injective f) (m : Memory α) (array : String) (index : List Int) (value : α) :
    (m.rename f).store (f array) index value = renamed f (rename f) (m.store array index value) := by
  have hwrite : ∀ b : Buffer α, b.write index value = renamed f id (b.write index value) := by
    intro b
    have hoffset : b.offset index = renamed f id (b.offset index) := by
      unfold Buffer.offset
      split
      · split <;> rfl
      · rfl
    exact renamed_map hoffset fun _ => rfl
  have hmodify : ∀ buffers : List (String × Buffer α),
      modify (f array) (fun b => b.write index value) (buffers.map (Prod.map f id)) =
        renamed f (List.map (Prod.map f id)) (modify array (fun b => b.write index value) buffers) := by
    intro buffers
    induction buffers with
    | nil => rfl
    | cons e buffers ih =>
      rw [List.map_cons, Prod.map, modify, modify]
      simp only [hf.eq_iff]
      split
      · exact renamed_bind (hwrite e.2) fun _ => rfl
      · exact renamed_bind ih fun _ => rfl
  exact renamed_bind (hmodify m.buffers) fun _ => rfl

theorem ofInputs_rename (hf : Function.Injective f) (inputs : List (String × Array α)) :
    ofInputs (inputs.map (Prod.map f id)) = (ofInputs inputs).rename f := by
  have hfold : ∀ m : Memory α,
      (inputs.map (Prod.map f id)).foldl (fun m i => m.set i.1 (Buffer.ofArray i.2)) (m.rename f) =
        (inputs.foldl (fun m i => m.set i.1 (Buffer.ofArray i.2)) m).rename f := by
    induction inputs with
    | nil => exact fun _ => rfl
    | cons i inputs ih =>
      intro m
      rw [List.map_cons, List.foldl_cons, List.foldl_cons, Prod.map, set_rename hf]
      exact ih _
  exact hfold .empty

theorem lengthIn_fixed {shape : Shape} (hfixed : shape.Fixed) (parameters : Env) :
    shape.extents.mapM (Extent.lengthIn (parameters.rename f)) =
      renamed f id (shape.extents.mapM (Extent.lengthIn parameters)) := by
  have hall : ∀ extents : List Extent, (∀ e ∈ extents, ∃ n, e = .fixed n) →
      extents.mapM (Extent.lengthIn (parameters.rename f)) = renamed f id (extents.mapM (Extent.lengthIn parameters)) := by
    intro extents hextents
    induction extents with
    | nil => rfl
    | cons e extents ih =>
      obtain ⟨n, rfl⟩ := hextents e List.mem_cons_self
      rw [List.mapM_cons, List.mapM_cons]
      have hhead : Extent.lengthIn (parameters.rename f) (.fixed n) =
          renamed f id (Extent.lengthIn parameters (.fixed n)) := rfl
      refine renamed_bind hhead fun _ => renamed_bind (ih fun e he => hextents e (List.mem_cons_of_mem _ he)) fun _ => rfl
  exact hall _ hfixed

theorem declare_rename (hf : Function.Injective f) (parameters : Env) (m : Memory α) {d : Declaration}
    (hfixed : d.shape.Fixed) :
    (m.rename f).declare (parameters.rename f) (d.rename f) = renamed f (rename f) (m.declare parameters d) := by
  refine renamed_bind (lengthIn_fixed hfixed parameters) fun lengths => ?_
  have hname : (d.rename f).name = f d.name := rfl
  rw [hname, buffer?_rename hf]
  cases m.buffer? d.name with
  | none => exact congrArg Except.ok (set_rename hf m d.name _)
  | some b =>
    dsimp only [id_eq]
    split
    · exact congrArg Except.ok (set_rename hf m d.name _)
    · rfl

end Memory

section Values

variable {α : Type} [Scalar α]

namespace Setting

omit [Scalar α] in
theorem rule_rename (hf : Function.Injective f) (s : Setting α) (name : String) :
    (s.rename f).rule (f name) = renamed f (Rule.rename f) (s.rule name) := by
  have hfind := RuleLog.find?_rename hf ⟨s.rules⟩ name
  rw [rule, rule]
  rw [RuleLog.find?, RuleLog.find?] at hfind
  have hrules : (s.rename f).rules = s.rules.map (Rule.rename f) := rfl
  rw [hrules]
  rw [RuleLog.rename] at hfind
  rw [hfind]
  cases s.rules.find? fun r => r.name = name <;> rfl

section Walk

variable {s : Setting α} {inline inline' : Rule → Env → Except ExecutionFault α}

mutual

theorem valueWith_rename (hf : Function.Injective f)
    (hinline : ∀ r env, inline' (r.rename f) (env.rename f) = renamed f id (inline r env)) :
    ∀ (e : Expr) (env : Env),
      (s.rename f).valueWith inline' (e.rename f) (env.rename f) = renamed f id (s.valueWith inline e env)
  | .int _, _ => rfl
  | .real _, _ => rfl
  | .var name, env => by
    rw [Expr.rename, valueWith, valueWith, env.value?_rename hf]
    cases env.value? name <;> rfl
  | .call rule args, env => by
    rw [Expr.rename, valueWith, valueWith]
    refine renamed_bind (s.rule_rename hf rule) fun r => ?_
    have hparams : (r.rename f).params.length = r.params.length := List.length_map _
    rw [hparams, Expr.renameAll_eq_map, List.length_map, ← Expr.renameAll_eq_map]
    split
    · refine renamed_bind (valuesWith_rename hf hinline args env) fun values => ?_
      have hbind : (s.rename f).parameters.bindAll ((r.rename f).params.zip ((id values).map Scalar.toIndex)) =
          (s.parameters.bindAll (r.params.zip (values.map Scalar.toIndex))).rename f := by
        rw [← Env.bindAll_rename hf, ← List.zip_map_left]
        rfl
      rw [hbind]
      exact hinline r _
    · rfl
  | .load array index, env => by
    rw [Expr.rename, valueWith, valueWith]
    refine renamed_bind (valuesWith_rename hf hinline index env) fun values => ?_
    refine renamed_bind (s.memory.buffer_rename hf array) fun b => ?_
    unfold Buffer.read Buffer.offset
    dsimp only [id_eq]
    split
    · split <;> rfl
    · rfl
  | .arith op lhs rhs, env => by
    rw [Expr.rename, valueWith, valueWith]
    exact renamed_bind (valueWith_rename hf hinline lhs env) fun a =>
      renamed_bind (valueWith_rename hf hinline rhs env) fun b => rfl
  | .compare op lhs rhs, env => by
    rw [Expr.rename, valueWith, valueWith]
    exact renamed_bind (valueWith_rename hf hinline lhs env) fun a =>
      renamed_bind (valueWith_rename hf hinline rhs env) fun b => rfl
  | .sum vars body, env => by
    rw [Expr.rename, valueWith, valueWith]
    refine renamed_bind (pointsOver_rename hf s.domains vars env) fun points => ?_
    refine @renamed_foldlM f α α Env Env id (Env.rename f) _ _ (fun total point => ?_) points Scalar.zero
    exact renamed_bind (valueWith_rename hf hinline body point) fun _ => rfl

theorem valuesWith_rename (hf : Function.Injective f)
    (hinline : ∀ r env, inline' (r.rename f) (env.rename f) = renamed f id (inline r env)) :
    ∀ (es : List Expr) (env : Env),
      (s.rename f).valuesWith inline' (Expr.renameAll f es) (env.rename f) = renamed f id (s.valuesWith inline es env)
  | [], _ => rfl
  | e :: es, env => by
    rw [Expr.renameAll, valuesWith, valuesWith]
    exact renamed_bind (valueWith_rename hf hinline e env) fun v =>
      renamed_bind (valuesWith_rename hf hinline es env) fun vs => rfl

end

end Walk

theorem value_rename (hf : Function.Injective f) (s : Setting α) (e : Expr) (env : Env) :
    (s.rename f).value (e.rename f) (env.rename f) = renamed f id (s.value e env) := by
  have hdepth : ∀ (depth : Nat) (e : Expr) (env : Env),
      (s.rename f).valueTo depth (e.rename f) (env.rename f) = renamed f id (s.valueTo depth e env) := by
    intro depth
    induction depth with
    | zero => exact fun e env => valueWith_rename hf (fun _ _ => rfl) e env
    | succ depth ih => exact fun e env => valueWith_rename hf (fun r env => ih r.body env) e env
  have hsame : (s.rename f).depth = s.depth :=
    congrArg (· + recursionAllowance) (List.length_map _)
  rw [value, value, hsame]
  exact hdepth _ e env

theorem position_rename (hf : Function.Injective f) (s : Setting α) (index : List Expr) (env : Env) :
    (s.rename f).position (index.map (Expr.rename f)) (env.rename f) = renamed f id (s.position index env) := by
  unfold position
  induction index with
  | nil => rfl
  | cons e index ih =>
    rw [List.map_cons, List.mapM_cons, List.mapM_cons]
    have hhead : ((s.rename f).value (e.rename f) (env.rename f)).map Scalar.toIndex =
        renamed f id ((s.value e env).map Scalar.toIndex) := renamed_map (s.value_rename hf e env) fun _ => rfl
    exact renamed_bind hhead fun x => renamed_bind ih fun xs => rfl

end Setting

namespace Kernel

theorem storeAt_rename (hf : Function.Injective f) (k : Kernel) (parameters : Env) (s : Statement) (m : Memory α)
    (point : Env) :
    (k.rename f).storeAt (parameters.rename f) (s.rename f) (m.rename f) (point.rename f) =
      renamed f (Memory.rename f) (k.storeAt parameters s m point) := by
  have hsetting : (k.rename f).setting (parameters.rename f) (m.rename f) = (k.setting parameters m).rename f := rfl
  rw [storeAt, storeAt, hsetting]
  refine renamed_bind ((k.setting parameters m).value_rename hf s.value point) fun value => ?_
  have htarget : (s.rename f).target = s.target.rename f := rfl
  rw [htarget]
  cases s.target with
  | load array index =>
    rw [Expr.rename, Expr.renameAll_eq_map]
    exact renamed_bind ((k.setting parameters m).position_rename hf index point) fun position => m.store_rename hf _ _ _
  | _ => rfl

theorem executeStatement_rename (hf : Function.Injective f) (k : Kernel) (parameters : Env) (m : Memory α) (s : Statement) :
    (k.rename f).executeStatement (parameters.rename f) (m.rename f) (s.rename f) =
      renamed f (Memory.rename f) (k.executeStatement parameters m s) := by
  refine renamed_bind (pointsOver_rename hf k.domains s.within parameters) fun points => ?_
  exact renamed_foldlM (fun m point => k.storeAt_rename hf parameters s m point) points m

theorem execute_rename (hf : Function.Injective f) (k : Kernel) (hfixed : ∀ d ∈ k.arrays, d.shape.Fixed) (parameters : Env)
    (inputs : List (String × Array α)) :
    (k.rename f).execute (parameters.rename f) (inputs.map (Prod.map f id)) =
      renamed f (Memory.rename f) (k.execute parameters inputs) := by
  have hdeclare : ∀ (arrays : List Declaration), (∀ d ∈ arrays, d.shape.Fixed) → ∀ m : Memory α,
      (arrays.map (Declaration.rename f)).foldlM (Memory.declare (parameters.rename f)) (m.rename f) =
        renamed f (Memory.rename f) (arrays.foldlM (Memory.declare parameters) m) := by
    intro arrays hfixed
    induction arrays with
    | nil => exact fun _ => rfl
    | cons d arrays ih =>
      intro m
      rw [List.map_cons, List.foldlM_cons, List.foldlM_cons]
      exact renamed_bind (m.declare_rename hf parameters (hfixed d List.mem_cons_self))
        (ih fun d hd => hfixed d (List.mem_cons_of_mem _ hd))
  rw [execute, execute, Memory.ofInputs_rename hf]
  refine renamed_bind (hdeclare k.arrays hfixed _) fun m => ?_
  exact renamed_foldlM (fun m s => k.executeStatement_rename hf parameters m s) k.statements m

theorem contents_rename (hf : Function.Injective f) (k : Kernel) (m : Memory α) :
    (k.rename f).contents (m.rename f) = (k.contents m).map (Prod.map f id) := by
  have harrays : (k.rename f).arrays = k.arrays.map (Declaration.rename f) := rfl
  rw [contents, contents, harrays, List.map_map, List.map_map]
  refine List.map_congr_left fun d _ => ?_
  simp only [Function.comp_apply, Declaration.rename, Memory.buffer?_rename hf, Prod.map, id_eq]

end Kernel

end Values

end ArrayPlan
