import ArrayPlan.Execution.Evaluation

/-!
Values of expressions over any answers to their calls and loads. An interpretation may leave answers out; an
expression has a value when every answer that it asks for is there. Three laws are used throughout: more
answers keep a value, answers that agree on what an expression mentions give it one value, and values under
two interpretations agree wherever their answers do.
-/

namespace ArrayPlan

/-- How calls and loads are answered, and the points that sums run over. -/
@[ext] structure Interpretation (α : Type) where
  call : String → List Int → Option α
  load : String → List Int → Option α
  points : List String → Env → Option (List Env)

namespace Interpretation

variable {α : Type} [Scalar α]

mutual

def value? (I : Interpretation α) : Expr → Env → Option α
  | .int n, _ => some (Scalar.ofInt n)
  | .real x, _ => some (Scalar.ofReal x)
  | .var name, env => (env.value? name).map Scalar.ofInt
  | .call rule args, env => (I.values? args env).bind fun vs => I.call rule (vs.map Scalar.toIndex)
  | .load array index, env => (I.values? index env).bind fun vs => I.load array (vs.map Scalar.toIndex)
  | .arith op lhs rhs, env => (I.value? lhs env).bind fun a => (I.value? rhs env).map (Scalar.arith op a)
  | .compare op lhs rhs, env =>
    (I.value? lhs env).bind fun a => (I.value? rhs env).map (Scalar.compare op a)
  | .sum vars body, env =>
    (I.points vars env).bind fun points =>
      points.foldlM (fun total point => (I.value? body point).map (Scalar.add total)) Scalar.zero

def values? (I : Interpretation α) : List Expr → Env → Option (List α)
  | [], _ => some []
  | e :: es, env => (I.value? e env).bind fun v => (I.values? es env).map (v :: ·)

end

def position? (I : Interpretation α) (index : List Expr) (env : Env) : Option (List Int) :=
  (I.values? index env).map (List.map Scalar.toIndex)

theorem length_values? {I : Interpretation α} {env : Env} {es : List Expr} {vs : List α}
    (h : I.values? es env = some vs) : vs.length = es.length := by
  induction es generalizing vs with
  | nil =>
    simp only [values?, Option.some.injEq] at h
    simp [← h]
  | cons e es ih =>
    simp only [values?] at h
    obtain ⟨v, _, htail⟩ := Option.bind_eq_some_iff.1 h
    obtain ⟨ws, hes, rfl⟩ := Option.map_eq_some_iff.1 htail
    rw [List.length_cons, List.length_cons, ih hes]

end Interpretation

namespace Expr

mutual

/-- The expression calls rules among `rules`, loads arrays among `arrays`, and binds variables among `vars`
in its sums. -/
def Within (rules arrays vars : String → Prop) : Expr → Prop
  | .call rule args => rules rule ∧ WithinAll rules arrays vars args
  | .load array index => arrays array ∧ WithinAll rules arrays vars index
  | .arith _ lhs rhs => Within rules arrays vars lhs ∧ Within rules arrays vars rhs
  | .compare _ lhs rhs => Within rules arrays vars lhs ∧ Within rules arrays vars rhs
  | .sum vs body => (∀ v ∈ vs, vars v) ∧ Within rules arrays vars body
  | _ => True

def WithinAll (rules arrays vars : String → Prop) : List Expr → Prop
  | [] => True
  | e :: es => Within rules arrays vars e ∧ WithinAll rules arrays vars es

end

variable {rules rules' arrays arrays' vars vars' : String → Prop}

theorem withinAll_iff {es : List Expr} :
    WithinAll rules arrays vars es ↔ ∀ e ∈ es, e.Within rules arrays vars := by
  induction es with
  | nil => simp [WithinAll]
  | cons e es ih => simp [WithinAll, ih]

theorem withinAll_vars (names : List String) : WithinAll rules arrays vars (names.map .var) := by
  rw [withinAll_iff]
  intro e he
  obtain ⟨name, _, rfl⟩ := List.mem_map.1 he
  exact trivial

mutual

theorem within_true : ∀ e : Expr, e.Within (fun _ => True) (fun _ => True) (fun _ => True)
  | .int _ => trivial
  | .real _ => trivial
  | .var _ => trivial
  | .call _ args => ⟨trivial, withinAll_true args⟩
  | .load _ index => ⟨trivial, withinAll_true index⟩
  | .arith _ lhs rhs => ⟨within_true lhs, within_true rhs⟩
  | .compare _ lhs rhs => ⟨within_true lhs, within_true rhs⟩
  | .sum _ body => ⟨fun _ _ => trivial, within_true body⟩

theorem withinAll_true : ∀ es : List Expr, WithinAll (fun _ => True) (fun _ => True) (fun _ => True) es
  | [] => trivial
  | e :: es => ⟨within_true e, withinAll_true es⟩

end

mutual

theorem Within.mono (hr : ∀ r, rules r → rules' r) (ha : ∀ a, arrays a → arrays' a)
    (hv : ∀ v, vars v → vars' v) : ∀ {e : Expr}, e.Within rules arrays vars → e.Within rules' arrays' vars'
  | .int _, _ => trivial
  | .real _, _ => trivial
  | .var _, _ => trivial
  | .call r _, h => ⟨hr r h.1, WithinAll.mono hr ha hv h.2⟩
  | .load a _, h => ⟨ha a h.1, WithinAll.mono hr ha hv h.2⟩
  | .arith _ _ _, h => ⟨Within.mono hr ha hv h.1, Within.mono hr ha hv h.2⟩
  | .compare _ _ _, h => ⟨Within.mono hr ha hv h.1, Within.mono hr ha hv h.2⟩
  | .sum _ _, h => ⟨fun v hm => hv v (h.1 v hm), Within.mono hr ha hv h.2⟩

theorem WithinAll.mono (hr : ∀ r, rules r → rules' r) (ha : ∀ a, arrays a → arrays' a)
    (hv : ∀ v, vars v → vars' v) :
    ∀ {es : List Expr}, WithinAll rules arrays vars es → WithinAll rules' arrays' vars' es
  | [], _ => trivial
  | _ :: _, h => ⟨Within.mono hr ha hv h.1, WithinAll.mono hr ha hv h.2⟩

end

end Expr

namespace Interpretation

variable {α : Type} {rules arrays vars : String → Prop}

/-- On these rules, arrays and variables, every answer of the first is an answer of the second. -/
structure BelowOn (rules arrays vars : String → Prop) (I J : Interpretation α) : Prop where
  call : ∀ rule, rules rule → ∀ index v, I.call rule index = some v → J.call rule index = some v
  load : ∀ array, arrays array → ∀ index v, I.load array index = some v → J.load array index = some v
  points : ∀ vs, (∀ v ∈ vs, vars v) → ∀ env ps, I.points vs env = some ps → J.points vs env = some ps

structure AgreeOn (rules arrays vars : String → Prop) (I J : Interpretation α) : Prop where
  call : ∀ rule, rules rule → I.call rule = J.call rule
  load : ∀ array, arrays array → I.load array = J.load array
  points : ∀ vs, (∀ v ∈ vs, vars v) → I.points vs = J.points vs

theorem AgreeOn.symm {I J : Interpretation α} (h : I.AgreeOn rules arrays vars J) :
    J.AgreeOn rules arrays vars I :=
  ⟨fun r hr => (h.call r hr).symm, fun a ha => (h.load a ha).symm, fun vs hvs => (h.points vs hvs).symm⟩

theorem AgreeOn.below {I J : Interpretation α} (h : I.AgreeOn rules arrays vars J) :
    I.BelowOn rules arrays vars J where
  call r hr _ _ hv := h.call r hr ▸ hv
  load a ha _ _ hv := h.load a ha ▸ hv
  points vs hvs _ _ hps := h.points vs hvs ▸ hps

theorem foldlM_mono {β γ : Type} {f g : β → γ → Option β} {cs : List γ}
    (hfg : ∀ c ∈ cs, ∀ b b', f b c = some b' → g b c = some b') {b b' : β}
    (h : cs.foldlM f b = some b') : cs.foldlM g b = some b' := by
  induction cs generalizing b with
  | nil => exact h
  | cons c cs ih =>
    rw [List.foldlM_cons] at h ⊢
    obtain ⟨mid, hmid, hrest⟩ := Option.bind_eq_some_iff.1 h
    have hlater : ∀ c ∈ cs, ∀ b b', f b c = some b' → g b c = some b' :=
      fun c hc => hfg c (List.mem_cons_of_mem _ hc)
    exact Option.bind_eq_some_iff.2 ⟨mid, hfg c List.mem_cons_self b mid hmid, ih hlater hrest⟩

variable [Scalar α]

mutual

theorem value?_mono {I J : Interpretation α} (hIJ : I.BelowOn rules arrays vars J) :
    ∀ (e : Expr), e.Within rules arrays vars → ∀ (env : Env) (v : α),
      I.value? e env = some v → J.value? e env = some v
  | .int _, _, env, v, h => by simpa only [value?] using h
  | .real _, _, env, v, h => by simpa only [value?] using h
  | .var _, _, env, v, h => by simpa only [value?] using h
  | .call rule args, hw, env, v, h => by
    simp only [value?] at h ⊢
    obtain ⟨vs, hvs, hv⟩ := Option.bind_eq_some_iff.1 h
    exact Option.bind_eq_some_iff.2
      ⟨vs, values?_mono hIJ args hw.2 env vs hvs, hIJ.call rule hw.1 _ _ hv⟩
  | .load array index, hw, env, v, h => by
    simp only [value?] at h ⊢
    obtain ⟨vs, hvs, hv⟩ := Option.bind_eq_some_iff.1 h
    exact Option.bind_eq_some_iff.2
      ⟨vs, values?_mono hIJ index hw.2 env vs hvs, hIJ.load array hw.1 _ _ hv⟩
  | .arith op lhs rhs, hw, env, v, h => by
    simp only [value?] at h ⊢
    obtain ⟨a, ha, hab⟩ := Option.bind_eq_some_iff.1 h
    obtain ⟨b, hb, rfl⟩ := Option.map_eq_some_iff.1 hab
    rw [value?_mono hIJ lhs hw.1 env a ha, value?_mono hIJ rhs hw.2 env b hb]
    rfl
  | .compare op lhs rhs, hw, env, v, h => by
    simp only [value?] at h ⊢
    obtain ⟨a, ha, hab⟩ := Option.bind_eq_some_iff.1 h
    obtain ⟨b, hb, rfl⟩ := Option.map_eq_some_iff.1 hab
    rw [value?_mono hIJ lhs hw.1 env a ha, value?_mono hIJ rhs hw.2 env b hb]
    rfl
  | .sum vs body, hw, env, v, h => by
    simp only [value?] at h ⊢
    obtain ⟨ps, hps, hv⟩ := Option.bind_eq_some_iff.1 h
    refine Option.bind_eq_some_iff.2 ⟨ps, hIJ.points vs hw.1 _ _ hps, foldlM_mono ?_ hv⟩
    intro point _ total total' hstep
    obtain ⟨w, hbody, rfl⟩ := Option.map_eq_some_iff.1 hstep
    rw [value?_mono hIJ body hw.2 point w hbody]
    rfl

theorem values?_mono {I J : Interpretation α} (hIJ : I.BelowOn rules arrays vars J) :
    ∀ (es : List Expr), Expr.WithinAll rules arrays vars es → ∀ (env : Env) (vs : List α),
      I.values? es env = some vs → J.values? es env = some vs
  | [], _, env, vs, h => h
  | e :: es, hw, env, vs, h => by
    simp only [values?] at h ⊢
    obtain ⟨w, he, htail⟩ := Option.bind_eq_some_iff.1 h
    obtain ⟨ws, hes, rfl⟩ := Option.map_eq_some_iff.1 htail
    rw [value?_mono hIJ e hw.1 env w he, values?_mono hIJ es hw.2 env ws hes]
    rfl

end

theorem position?_mono {I J : Interpretation α} (hIJ : I.BelowOn rules arrays vars J)
    {index : List Expr} (hw : Expr.WithinAll rules arrays vars index) {env : Env} {position : List Int}
    (h : I.position? index env = some position) : J.position? index env = some position := by
  obtain ⟨vs, hvs, rfl⟩ := Option.map_eq_some_iff.1 h
  rw [position?, values?_mono hIJ index hw env vs hvs]
  rfl

def Indexing (α : Type) [Scalar α] (index : List Int) : Prop :=
  ∃ vs : List α, index = vs.map Scalar.toIndex

/-- On these rules, arrays and variables, the two interpretations never give different answers. -/
structure CompatibleOn (rules arrays vars : String → Prop) (I J : Interpretation α) : Prop where
  call : ∀ rule, rules rule → ∀ index, Indexing α index → ∀ v w,
    I.call rule index = some v → J.call rule index = some w → v = w
  load : ∀ array, arrays array → ∀ index v w, I.load array index = some v → J.load array index = some w → v = w
  points : ∀ vs, (∀ v ∈ vs, vars v) → ∀ env ps qs, I.points vs env = some ps → J.points vs env = some qs → ps = qs

omit [Scalar α] in
theorem foldlM_compatible {β γ : Type} {f g : β → γ → Option β}
    (hfg : ∀ b c b₁ b₂, f b c = some b₁ → g b c = some b₂ → b₁ = b₂) (cs : List γ) {b b₁ b₂ : β}
    (hf : cs.foldlM f b = some b₁) (hg : cs.foldlM g b = some b₂) : b₁ = b₂ := by
  induction cs generalizing b with
  | nil => exact Option.some.inj (hf.symm.trans hg)
  | cons c cs ih =>
    rw [List.foldlM_cons] at hf hg
    obtain ⟨mid, hmid, hf⟩ := Option.bind_eq_some_iff.1 hf
    obtain ⟨mid', hmid', hg⟩ := Option.bind_eq_some_iff.1 hg
    obtain rfl := hfg b c mid mid' hmid hmid'
    exact ih hf hg

mutual

theorem value?_compatible {I J : Interpretation α} (hIJ : I.CompatibleOn rules arrays vars J) :
    ∀ (e : Expr), e.Within rules arrays vars → ∀ (env : Env) (v w : α),
      I.value? e env = some v → J.value? e env = some w → v = w
  | .int _, _, _, _, _, hv, hw => Option.some.inj (hv.symm.trans hw)
  | .real _, _, _, _, _, hv, hw => Option.some.inj (hv.symm.trans hw)
  | .var name, _, env, v, w, hv, hw => by
    simp only [value?] at hv hw
    exact Option.some.inj (hv.symm.trans hw)
  | .call rule args, he, env, v, w, hv, hw => by
    simp only [value?] at hv hw
    obtain ⟨vs, hvs, hv⟩ := Option.bind_eq_some_iff.1 hv
    obtain ⟨ws, hws, hw⟩ := Option.bind_eq_some_iff.1 hw
    obtain rfl := values?_compatible hIJ args he.2 env vs ws hvs hws
    exact hIJ.call rule he.1 _ ⟨vs, rfl⟩ v w hv hw
  | .load array index, he, env, v, w, hv, hw => by
    simp only [value?] at hv hw
    obtain ⟨vs, hvs, hv⟩ := Option.bind_eq_some_iff.1 hv
    obtain ⟨ws, hws, hw⟩ := Option.bind_eq_some_iff.1 hw
    obtain rfl := values?_compatible hIJ index he.2 env vs ws hvs hws
    exact hIJ.load array he.1 _ v w hv hw
  | .arith op lhs rhs, he, env, v, w, hv, hw => by
    simp only [value?] at hv hw
    obtain ⟨a, ha, hv⟩ := Option.bind_eq_some_iff.1 hv
    obtain ⟨b, hb, rfl⟩ := Option.map_eq_some_iff.1 hv
    obtain ⟨a', ha', hw⟩ := Option.bind_eq_some_iff.1 hw
    obtain ⟨b', hb', rfl⟩ := Option.map_eq_some_iff.1 hw
    rw [value?_compatible hIJ lhs he.1 env a a' ha ha', value?_compatible hIJ rhs he.2 env b b' hb hb']
  | .compare op lhs rhs, he, env, v, w, hv, hw => by
    simp only [value?] at hv hw
    obtain ⟨a, ha, hv⟩ := Option.bind_eq_some_iff.1 hv
    obtain ⟨b, hb, rfl⟩ := Option.map_eq_some_iff.1 hv
    obtain ⟨a', ha', hw⟩ := Option.bind_eq_some_iff.1 hw
    obtain ⟨b', hb', rfl⟩ := Option.map_eq_some_iff.1 hw
    rw [value?_compatible hIJ lhs he.1 env a a' ha ha', value?_compatible hIJ rhs he.2 env b b' hb hb']
  | .sum vs body, he, env, v, w, hv, hw => by
    simp only [value?] at hv hw
    obtain ⟨ps, hps, hv⟩ := Option.bind_eq_some_iff.1 hv
    obtain ⟨qs, hqs, hw⟩ := Option.bind_eq_some_iff.1 hw
    obtain rfl := hIJ.points vs he.1 env ps qs hps hqs
    refine foldlM_compatible (fun total point t₁ t₂ h₁ h₂ => ?_) ps hv hw
    obtain ⟨x, hx, rfl⟩ := Option.map_eq_some_iff.1 h₁
    obtain ⟨y, hy, rfl⟩ := Option.map_eq_some_iff.1 h₂
    rw [value?_compatible hIJ body he.2 point x y hx hy]

theorem values?_compatible {I J : Interpretation α} (hIJ : I.CompatibleOn rules arrays vars J) :
    ∀ (es : List Expr), Expr.WithinAll rules arrays vars es → ∀ (env : Env) (vs ws : List α),
      I.values? es env = some vs → J.values? es env = some ws → vs = ws
  | [], _, _, _, _, hvs, hws => Option.some.inj (hvs.symm.trans hws)
  | e :: es, he, env, vs, ws, hvs, hws => by
    simp only [values?] at hvs hws
    obtain ⟨v, hv, hvs⟩ := Option.bind_eq_some_iff.1 hvs
    obtain ⟨vs, hrest, rfl⟩ := Option.map_eq_some_iff.1 hvs
    obtain ⟨w, hw, hws⟩ := Option.bind_eq_some_iff.1 hws
    obtain ⟨ws, hrest', rfl⟩ := Option.map_eq_some_iff.1 hws
    rw [value?_compatible hIJ e he.1 env v w hv hw, values?_compatible hIJ es he.2 env vs ws hrest hrest']

end

theorem position?_compatible {I J : Interpretation α} (hIJ : I.CompatibleOn rules arrays vars J)
    {index : List Expr} (hw : Expr.WithinAll rules arrays vars index) {env : Env} {position position' : List Int}
    (h : I.position? index env = some position) (h' : J.position? index env = some position') :
    position = position' := by
  obtain ⟨vs, hvs, rfl⟩ := Option.map_eq_some_iff.1 h
  obtain ⟨ws, hws, rfl⟩ := Option.map_eq_some_iff.1 h'
  rw [values?_compatible hIJ index hw env vs ws hvs hws]

theorem value?_congr {I J : Interpretation α} (h : I.AgreeOn rules arrays vars J) {e : Expr}
    (hw : e.Within rules arrays vars) (env : Env) : I.value? e env = J.value? e env :=
  Option.ext fun v =>
    ⟨value?_mono h.below e hw env v, value?_mono h.symm.below e hw env v⟩

end Interpretation

end ArrayPlan
