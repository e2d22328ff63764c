import ArrayPlan.Proofs.Executions
import ArrayPlan.Proofs.Readiness

/-!
What rules read and what statements store. A call depends on the arrays that the rule reads, directly or through
other rules, and these are there before the rule. A statement changes one array only; the store of a rule goes over
the indices of its handle, and puts at each of them the call of the rule there.
-/

namespace ArrayPlan

section Folding

variable {ε β γ δ κ : Type}

theorem foldlM_invariant {f : β → γ → Except ε β} {P : β → Prop} (cs : List γ)
    (hstep : ∀ c ∈ cs, ∀ b b', P b → f b c = .ok b' → P b') {b b' : β} (hb : P b) (h : cs.foldlM f b = .ok b') :
    P b' := by
  induction cs generalizing b with
  | nil =>
    cases h
    exact hb
  | cons c cs ih =>
    rw [List.foldlM_cons] at h
    obtain ⟨mid, hmid, h⟩ := exists_of_bind_eq_ok h
    exact ih (fun d hd => hstep d (List.mem_cons_of_mem c hd)) (hstep c List.mem_cons_self b mid hb hmid) h

theorem foldlM_forall₂ {f : β → γ → Except ε β} {g : δ → κ → Except ε δ} {R : β → δ → Prop} {S : γ → κ → Prop}
    {cs : List γ} {ds : List κ} (hlists : List.Forall₂ S cs ds)
    (hstep : ∀ c d, S c d → ∀ b b' x x', R b x → f b c = .ok b' → g x d = .ok x' → R b' x') {b b' : β} {x x' : δ}
    (hb : R b x) (hf : cs.foldlM f b = .ok b') (hg : ds.foldlM g x = .ok x') : R b' x' := by
  induction hlists generalizing b x with
  | nil =>
    cases hf
    cases hg
    exact hb
  | cons hcd _ ih =>
    rw [List.foldlM_cons] at hf hg
    obtain ⟨mid, hmid, hf⟩ := exists_of_bind_eq_ok hf
    obtain ⟨mid', hmid', hg⟩ := exists_of_bind_eq_ok hg
    exact ih (hstep _ _ hcd b mid x mid' hb hmid hmid') hf hg

theorem forall₂_join {P : β → γ → Prop} {Q : β → δ → Prop} {bs : List β} {cs : List γ} {ds : List δ}
    (hP : List.Forall₂ P bs cs) (hQ : List.Forall₂ Q bs ds) :
    List.Forall₂ (fun c d => ∃ b, P b c ∧ Q b d) cs ds := by
  induction hP generalizing ds with
  | nil =>
    cases hQ
    exact .nil
  | cons hp _ ih =>
    cases hQ with
    | cons hq hQ => exact .cons ⟨_, hp, hq⟩ (ih hQ)

end Folding

namespace Expr

variable {rules rules' arrays arrays' vars : String → Prop}

mutual

/-- An expression is within whatever holds of the rules that it calls and of the arrays that it loads. -/
theorem Within.restrict : ∀ {e : Expr}, e.Within rules arrays vars → (∀ rule ∈ e.calls, rules' rule) →
    (∀ array ∈ e.loads, arrays' array) → e.Within rules' arrays' vars
  | .int _, _, _, _ => trivial
  | .real _, _, _, _ => trivial
  | .var _, h, _, _ => h
  | .call rule _, h, hr, ha => ⟨hr rule (mem_calls_call.2 (.inl rfl)),
      h.2.restrict (fun r h => hr r (mem_calls_call.2 (.inr h))) fun a h => ha a (mem_loads_call.2 h)⟩
  | .load array _, h, hr, ha => ⟨ha array (mem_loads_load.2 (.inl rfl)),
      h.2.restrict (fun r h => hr r (mem_calls_load.2 h)) fun a h => ha a (mem_loads_load.2 (.inr h))⟩
  | .arith _ _ _, h, hr, ha =>
    ⟨h.1.restrict (fun r h => hr r (mem_calls_arith.2 (.inl h))) fun a h => ha a (mem_loads_arith.2 (.inl h)),
      h.2.restrict (fun r h => hr r (mem_calls_arith.2 (.inr h))) fun a h => ha a (mem_loads_arith.2 (.inr h))⟩
  | .compare _ _ _, h, hr, ha =>
    ⟨h.1.restrict (fun r h => hr r (mem_calls_compare.2 (.inl h))) fun a h => ha a (mem_loads_compare.2 (.inl h)),
      h.2.restrict (fun r h => hr r (mem_calls_compare.2 (.inr h))) fun a h => ha a (mem_loads_compare.2 (.inr h))⟩
  | .sum _ _, h, hr, ha =>
    ⟨h.1, h.2.restrict (fun r h => hr r (mem_calls_sum.2 h)) fun a h => ha a (mem_loads_sum.2 h)⟩

theorem WithinAll.restrict : ∀ {es : List Expr}, WithinAll rules arrays vars es →
    (∀ rule, (∃ e ∈ es, rule ∈ e.calls) → rules' rule) → (∀ array, (∃ e ∈ es, array ∈ e.loads) → arrays' array) →
      WithinAll rules' arrays' vars es
  | [], _, _, _ => trivial
  | e :: _, h, hr, ha =>
    ⟨h.1.restrict (fun r h => hr r ⟨e, List.mem_cons_self, h⟩) fun a h => ha a ⟨e, List.mem_cons_self, h⟩,
      h.2.restrict (fun r ⟨e', he', h⟩ => hr r ⟨e', List.mem_cons_of_mem e he', h⟩)
        fun a ⟨e', he', h⟩ => ha a ⟨e', List.mem_cons_of_mem e he', h⟩⟩

end

end Expr

variable {α : Type} [Scalar α]

namespace Kernel

variable {k : Kernel} {parameters : Env} {array name : String} {t : BackingTable} {i : Nat} {s : Statement}
  {m m' : Memory α}

theorem reads_call_iff : k.Reads array (.call name []) ↔ ∃ r ∈ k.rules, r.name = name ∧ k.Reads array r.body := by
  constructor
  · rintro (hload | ⟨hr, hcall, hbody⟩)
    · simp at hload
    · exact ⟨_, hr, by simpa using hcall, hbody⟩
  · rintro ⟨r, hr, rfl, hbody⟩
    exact .call hr (by simp) hbody

theorem call_reading_congr {load load' : String → List Int → Option α} (h : Layered k.rules)
    (hsame : ∀ array, k.Reads array (.call name []) → load array = load' array) :
    (k.reading parameters load).call name = (k.reading parameters load').call name := by
  rcases exists_rule_or_unknown k name with ⟨i, r, hr, rfl⟩ | hnone
  · induction i using Nat.strongRecOn generalizing r with
    | ind i ih =>
      have hmem := List.mem_of_getElem? hr
      have hagree : (k.reading parameters load).AgreeOn (· ∈ r.body.calls) (· ∈ r.body.loads) (fun _ => True)
          (k.reading parameters load') := by
        refine ⟨fun name' hname' => ?_, fun a ha => ?_, fun _ _ => ?_⟩
        · obtain ⟨r', hr', rfl⟩ := List.mem_map.1 ((h.earlier i r hr).mem_of_calls hname')
          obtain ⟨j, hj, hget⟩ := List.mem_take_iff_getElem.1 hr'
          refine ih j (by omega) r' (List.getElem?_eq_some_iff.2 ⟨by omega, hget⟩) fun a ha => hsame a ?_
          obtain ⟨r'', hr'', hsame, hbody⟩ := reads_call_iff.1 ha
          exact reads_call_iff.2 ⟨r, hmem, rfl, .call hr'' (hsame ▸ hname') hbody⟩
        · rw [reading_load, reading_load]
          exact hsame a (reads_call_iff.2 ⟨r, hmem, rfl, .load ha⟩)
        · rw [reading_points, reading_points]
      funext index
      rw [call_reading parameters load h hr, call_reading parameters load' h hr,
        Interpretation.value?_congr hagree ((Expr.within_true r.body).restrict (fun _ h => h) fun _ h => h)]
  · rw [reading, reading, call_readingTo_unknown parameters load hnone, call_readingTo_unknown parameters load' hnone]

theorem exists_points_of_execute (hexecute : k.executeStatement parameters m s = .ok m') :
    ∃ points, pointsOver k.domains s.within parameters = .ok points ∧
      points.foldlM (k.storeAt parameters s) m = .ok m' :=
  exists_of_bind_eq_ok hexecute

theorem alters_execute (h : Layered k.rules) {index : List Expr} (htarget : s.target = .load array index)
    (hexecute : k.executeStatement parameters m (s.loadBacked t i) = .ok m') : m.Alters m' array := by
  obtain ⟨points, _, hfold⟩ := exists_points_of_execute hexecute
  refine foldlM_invariant (P := fun m' => m.Alters m' array) points (fun point _ m₁ m₂ halters hstore => ?_)
    (.refl m array) hfold
  obtain ⟨_, _, _, _, hstore⟩ := (storeAt_loadBacked_iff h htarget).1 hstore
  exact halters.trans (Memory.alters_store hstore)

end Kernel

namespace Extent

variable {parameters : Env} {e : Extent}

def bound (parameters : Env) : Extent → Int
  | fixed n => Word.signed n
  | symbolic name => (parameters.value? name).getD 0

theorem counts_bound {vars : List String} {n : Nat} (hlength : e.lengthIn parameters = .ok n)
    (hfree : ∀ v ∈ vars, parameters.value? v = none) : e.Counts parameters vars (e.bound parameters) := by
  cases e with
  | fixed k => rfl
  | symbolic name =>
    cases hv : parameters.value? name with
    | none => simp [lengthIn, hv] at hlength
    | some v =>
      refine ⟨by simp [bound, hv], fun hmem => ?_⟩
      rw [hfree name hmem] at hv
      cases hv

end Extent

namespace Realization

open Interpretation

def indices (parameters : Env) (o : Realization) : List (List Int) :=
  if o.handle.shape.isUnit then [[0]]
  else boxPoints (o.handle.shape.extents.map fun e => (e.bound parameters).toNat)

def argument (o : Realization) (index : List Int) : List Int :=
  if o.handle.shape.isUnit then List.replicate o.rule.arity 0 else index

def StoresAt (o : Realization) (α : Type) [Scalar α] (index : List Int) (point : Env) : Prop :=
  ∃ target, o.store.target = .load o.array target ∧ ∀ I : Interpretation α,
    I.position? target point = some (rounded α index) ∧
      I.value? o.store.value point = I.call o.rule.name (rounded α (o.argument index))

end Realization

namespace Plan.Lowers

variable {p p' : Plan} {outputs : List Handle} {os : List Realization} {k : Kernel} {parameters : Env}
  {array : String} {i : Nat} {o : Realization} {m m' : Memory α}

theorem loadable_of_reads (hp : p.WellFormed) (h : p.Lowers outputs os k p') {e : Expr} (hreads : k.Reads array e)
    (hloads : ∀ a ∈ e.loads, Loadable p os i a) (hcalls : ∀ name ∈ e.calls, name ∈ ruleNames (k.rules.take i)) :
    Loadable p os i array := by
  induction hreads generalizing i with
  | load hload => exact hloads _ hload
  | @call e r hr hcall _ ih =>
    obtain ⟨j, r', hj, hr', hname⟩ := mem_ruleNames_take.1 (hcalls _ hcall)
    obtain rfl : r' = r := List.inj_on_of_nodup_map (h.layered hp).nodup (List.mem_of_getElem? hr') hr hname
    have hbody := h.body_within hp hr'
    refine (ih (fun a ha => hbody.mem_of_loads ha) fun name hname => hbody.mem_of_calls hname).imp_right ?_
    rintro ⟨o, ho, hlt, hsame⟩
    exact ⟨o, ho, Nat.lt_trans hlt hj, hsame⟩

theorem loadable_of_rule (hp : p.WellFormed) (h : p.Lowers outputs os k p') {r : Rule}
    (hr : p.rules.rules[i]? = some r) (hreads : k.Reads array (.call r.name [])) : Loadable p os i array := by
  have hr' : k.rules[i]? = some (r.loadBacked p'.backing i) := by
    rw [h.rules, List.getElem?_mapIdx, hr]
    rfl
  obtain ⟨r', hmem, hname, hreads⟩ := Kernel.reads_call_iff.1 hreads
  obtain rfl : r' = r.loadBacked p'.backing i :=
    List.inj_on_of_nodup_map (h.layered hp).nodup hmem (List.mem_of_getElem? hr') hname
  have hbody := h.body_within hp hr'
  exact h.loadable_of_reads hp hreads (fun a ha => hbody.mem_of_loads ha) fun name hname => hbody.mem_of_calls hname

theorem exists_points (hp : p.WellFormed) (h : p.Lowers outputs os k p') (ho : o ∈ os)
    (hfree : ∀ v ∈ k.domains.flatMap Domain.vars, parameters.value? v = none)
    (hlengths : ∀ e ∈ o.handle.shape.extents, ∃ n, e.lengthIn parameters = .ok n) :
    ∃ points, pointsOver k.domains o.store.within parameters = .ok points ∧
      List.Forall₂ (o.StoresAt α) (o.indices parameters) points := by
  unfold Realization.StoresAt Realization.indices Realization.argument Realization.store
  cases hunit : o.handle.shape.isUnit with
  | true =>
    refine ⟨[parameters], rfl, .cons ⟨_, rfl, fun I => ⟨rfl, ?_⟩⟩ .nil⟩
    simp only [if_true, Interpretation.value?_call_eq, Interpretation.position?_replicate, Option.bind_some]
  | false =>
    have hlen := (h.sound o ho).2.2 hunit
    have hdomain : .box (o.vars.zip o.handle.shape.extents) ∈ k.domains := by
      rw [h.domains]
      refine List.mem_append_right _ (List.mem_flatMap.2 ⟨o, ho, ?_⟩)
      simp [Realization.domains, hunit]
    have hkeys : (o.vars.zip o.handle.shape.extents).map Prod.fst = o.vars := List.map_fst_zip (Nat.le_of_eq hlen)
    have hunbound : ∀ v ∈ o.vars, parameters.value? v = none := fun v hv =>
      hfree v (List.mem_flatMap.2 ⟨_, hdomain, by rwa [Domain.vars_box, hkeys]⟩)
    have hnodup : o.vars.Nodup := (List.nodup_cons.1 ((List.nodup_flatMap.1 h.draws.nodup).1 o ho)).2
    have hboxed := boxed_of_box (h.vars_nodup hp) hdomain (Extent.bound parameters) _ (.refl _)
      (fun a ha => by
        obtain ⟨n, hn⟩ := hlengths a.2 (List.of_mem_zip ha).2
        exact Extent.counts_bound hn (by rwa [hkeys]))
      (fun a ha x hx => by
        rw [hunbound a.1 (List.of_mem_zip ha).1] at hx
        cases hx)
      fun a ha => hunbound a.1 (List.of_mem_zip ha).1
    have hsizes : (o.vars.zip o.handle.shape.extents).map (fun a => (a.2.bound parameters).toNat) =
        o.handle.shape.extents.map fun e => (e.bound parameters).toNat := by
      rw [show (fun a : String × Extent => (a.2.bound parameters).toNat) =
          (fun e : Extent => (e.bound parameters).toNat) ∘ Prod.snd from rfl,
        ← List.map_map, List.map_snd_zip (Nat.le_of_eq hlen.symm)]
    rw [hkeys, hsizes] at hboxed
    refine ⟨_, pointsOver_of_boxed hboxed, ?_⟩
    simp only [Bool.false_eq_true, if_false]
    rw [List.forall₂_map_right_iff, List.forall₂_same]
    intro index hindex
    have hbinds := Env.binds_at parameters hnodup (by
      rw [(mem_boxPoints.1 hindex).length_eq, List.length_map]
      exact hlen)
    refine ⟨_, rfl, fun I => ⟨Interpretation.position?_vars_rounded hbinds, ?_⟩⟩
    rw [Interpretation.value?_call_eq, Interpretation.position?_vars_rounded hbinds, Option.bind_some]

theorem store_of_storeAt (hp : p.WellFormed) (h : p.Lowers outputs os k p') {index : List Int} {point : Env}
    (hstores : o.StoresAt α index point)
    (hok : k.storeAt parameters (o.store.loadBacked p'.backing i) m point = .ok m') :
    ∃ v, (k.readingAt parameters p'.backing m i).call o.rule.name (Interpretation.rounded α (o.argument index)) =
      some v ∧ m.store o.array (Interpretation.rounded α index) v = .ok m' := by
  obtain ⟨target, htarget, hvalues⟩ := hstores
  obtain ⟨position, v, hposition, hv, hstore⟩ := (Kernel.storeAt_loadBacked_iff (h.layered hp) htarget).1 hok
  obtain ⟨hposition', hv'⟩ := hvalues (k.readingAt parameters p'.backing m i)
  obtain rfl := Option.some.inj (hposition'.symm.trans hposition)
  exact ⟨v, hv'.symm.trans hv, hstore⟩

end Plan.Lowers

end ArrayPlan
