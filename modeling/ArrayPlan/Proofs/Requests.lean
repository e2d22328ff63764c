import ArrayPlan.Proofs.Refinement
import ArrayPlan.Proofs.Stages

/-!
Requests. Lowering asks for the handles of a request by the names of their rules, while it visits the rules in
registration order. So a request is a set of names: how the handles are listed shows in the order of the bindings only.
-/

namespace ArrayPlan.Plan

variable {p : Plan} {handles outputs outputs' : List Handle}

/-- The bindings of requested handles when their rules have these arrays: one for each rule, where the rule is listed
first. -/
def firstBindings (arrayOf : String → String) (outputs : List Handle) : List Binding :=
  (outputs.map fun h => ⟨h.rule, arrayOf h.rule⟩).eraseDups

/-- The handles of a request that have the same rule are one handle, so any of them will do. -/
theorem requestedIn_eq_some_iff (hdistinct : ∀ a ∈ outputs, ∀ b ∈ outputs, a.rule = b.rule → a = b) {rule : String}
    {h : Handle} : p.requestedIn outputs rule = some h ↔ h ∈ outputs ∧ h.rule = rule ∧ p.backing.find? rule = none := by
  refine ⟨requestedIn_eq_some, fun ⟨hmem, hrule, hnone⟩ => ?_⟩
  obtain ⟨h', hh'⟩ := Option.isSome_iff_exists.1 (requestedIn_isSome hmem (hrule ▸ hnone))
  obtain ⟨hmem', hrule', _⟩ := requestedIn_eq_some hh'
  rw [← hrule, hh', hdistinct h' hmem' h hmem hrule']

theorem Intact.requestedIn_congr (hp : p.Intact handles) (houtputs : ∀ h ∈ outputs, h ∈ handles)
    (houtputs' : ∀ h ∈ outputs', h ∈ handles)
    (hsame : ∀ rule, rule ∈ outputs.map Handle.rule ↔ rule ∈ outputs'.map Handle.rule) :
    p.requestedIn outputs = p.requestedIn outputs' := by
  have hmem : ∀ h, h ∈ outputs ↔ h ∈ outputs' := by
    have hone : ∀ {l l' : List Handle} {h : Handle}, (∀ a ∈ l, a ∈ handles) → (∀ a ∈ l', a ∈ handles) → h ∈ l →
        h.rule ∈ l'.map Handle.rule → h ∈ l' := by
      intro l l' h hl hl' hh hrule
      obtain ⟨h', hh', hname⟩ := List.mem_map.1 hrule
      rwa [hp.distinct h (hl h hh) h' (hl' h' hh') hname.symm]
    exact fun h => ⟨fun hh => hone houtputs houtputs' hh ((hsame _).1 (List.mem_map_of_mem hh)),
      fun hh => hone houtputs' houtputs hh ((hsame _).2 (List.mem_map_of_mem hh))⟩
  funext rule
  refine Option.ext fun h => ?_
  rw [requestedIn_eq_some_iff (fun a ha b hb => hp.distinct a (houtputs a ha) b (houtputs b hb)),
    requestedIn_eq_some_iff (fun a ha b hb => hp.distinct a (houtputs' a ha) b (houtputs' b hb)), hmem]

def arrayName (backing : BackingTable) (rule : String) : String :=
  (backing.array? rule).getD ""

theorem eq_firstBindings {backing : BackingTable} {bound : List Binding} (h : bindings backing outputs = .ok bound) :
    bound = firstBindings (arrayName backing) outputs ∧
      ∀ a ∈ outputs, backing.array? a.rule = some (arrayName backing a.rule) := by
  obtain ⟨bs, hbs, rfl⟩ := map_eq_ok h
  have hone : ∀ a b, bindingOf backing a = .ok b → (⟨a.rule, arrayName backing a.rule⟩ : Binding) = b := by
    intro a b hb
    obtain ⟨hrule, harray⟩ := bindingOf_eq_ok_iff.1 hb
    rw [arrayName, hrule, harray]
    rfl
  obtain ⟨rfl, hall⟩ := eq_map_of_mapM_ok hone hbs
  exact ⟨rfl, fun a ha => (bindingOf_eq_ok_iff.1 (hall a ha)).2⟩

theorem mem_firstBindings {arrayOf : String → String} {b : Binding} :
    b ∈ firstBindings arrayOf outputs ↔ b.rule ∈ outputs.map Handle.rule ∧ b.array = arrayOf b.rule := by
  rw [firstBindings, List.mem_eraseDups, List.mem_map, List.mem_map]
  constructor
  · rintro ⟨h, hh, rfl⟩
    exact ⟨⟨h, hh, rfl⟩, rfl⟩
  · rintro ⟨⟨h, hh, hrule⟩, harray⟩
    exact ⟨h, hh, by rw [hrule, ← harray]⟩

/-- Requests for the same rules lower to one kernel and leave one plan. Each lists the bindings of these rules, in the
order of its own first places. -/
theorem finalize_ignores_listing {arrays : List Declaration} (hreach : Stages p handles arrays)
    (hopen : p.finalized = false) (houtputs : ∀ h ∈ outputs, h ∈ handles) (houtputs' : ∀ h ∈ outputs', h ∈ handles)
    (hsame : ∀ rule, rule ∈ outputs.map Handle.rule ↔ rule ∈ outputs'.map Handle.rule) (withStores : Bool) :
    ∃ (k k' : Kernel) (p' : Plan) (arrayOf : String → String),
      (Build.finalize outputs withStores).runOn p = (.ok k, p') ∧
      (Build.finalize outputs' withStores).runOn p = (.ok k', p') ∧
      (k'.statements = k.statements ∧ k'.rules = k.rules ∧ k'.domains = k.domains ∧ k'.arrays = k.arrays ∧
        k'.stores = k.stores) ∧
      k.outputs = firstBindings arrayOf outputs ∧ k'.outputs = firstBindings arrayOf outputs' ∧
      (∀ b, b ∈ k.outputs ↔ b ∈ k'.outputs) ∧
      ∀ h ∈ outputs, p'.backing.array? h.rule = some (arrayOf h.rule) := by
  obtain ⟨_, hintact, _⟩ | ⟨hclosed, _⟩ := hreach.framed
  case inr => rw [hopen] at hclosed; cases hclosed
  have hp := hintact.wellFormed
  obtain ⟨k, q, hk⟩ := Build.exists_finalized hp hopen (fun a ha => hintact.live a (houtputs a ha)) withStores
  obtain ⟨k', q', hk'⟩ := Build.exists_finalized hp hopen (fun a ha => hintact.live a (houtputs' a ha)) withStores
  obtain ⟨_, hbound, hkernel, hplan⟩ := (Build.Outcome.finalize_lowered hp outputs withStores).of_runOn_ok hk
  obtain ⟨_, hbound', hkernel', hplan'⟩ := (Build.Outcome.finalize_lowered hp outputs' withStores).of_runOn_ok hk'
  have hlowered : p.lowered outputs' = p.lowered outputs := by
    rw [lowered, lowered, hintact.requestedIn_congr houtputs houtputs' hsame]
  rw [hlowered] at hbound' hkernel' hplan'
  obtain ⟨hfirst, harrays⟩ := eq_firstBindings hbound
  obtain ⟨hfirst', _⟩ := eq_firstBindings hbound'
  refine ⟨k, k', q, arrayName (p.lowered outputs).backing, hk, by rw [hk', hplan, hplan'], ?_, hfirst, hfirst',
    fun b => ?_, ?_⟩
  · rw [hkernel, hkernel']
    exact ⟨rfl, rfl, rfl, rfl, rfl⟩
  · rw [hfirst, hfirst', mem_firstBindings, mem_firstBindings, hsame]
  · rw [hplan]
    exact harrays

theorem finalize_ignores_listing_doubled :
    ∃ (k k' : Kernel) (p' : Plan),
      (Build.finalize [pairHandle "subst2" .float64, pairHandle "subst1" .float64, pairHandle "subst2" .float64] true).runOn
        doubled.plan = (.ok k, p') ∧
      (Build.finalize [pairHandle "subst1" .float64, pairHandle "subst2" .float64] true).runOn doubled.plan =
        (.ok k', p') ∧
      k'.statements = k.statements ∧ k'.arrays = k.arrays ∧ k'.stores = k.stores ∧
      k.outputs.map Binding.rule = ["subst2", "subst1"] ∧ k'.outputs.map Binding.rule = ["subst1", "subst2"] := by
  obtain ⟨arrays, hstages⟩ := (Progress.run_reachable 0 .default _ : doubled.plan.Reachable doubled.handles).stages
  have hsame : ∀ rule, rule ∈ [pairHandle "subst2" .float64, pairHandle "subst1" .float64,
      pairHandle "subst2" .float64].map Handle.rule ↔
      rule ∈ [pairHandle "subst1" .float64, pairHandle "subst2" .float64].map Handle.rule := by
    simp [pairHandle]
  obtain ⟨k, k', p', _, hk, hk', ⟨hstatements, _, _, harrays, hstores⟩, _⟩ :=
    finalize_ignores_listing hstages (by decide +kernel) (by decide +kernel) (by decide +kernel) hsame true
  have hrules : ∀ outputs : List Handle, ∀ expected : List String,
      succeedsWith ((Build.finalize outputs true).runOn doubled.plan) (fun k _ => k.outputs.map Binding.rule = expected) = true →
        ∀ k p', (Build.finalize outputs true).runOn doubled.plan = (.ok k, p') → k.outputs.map Binding.rule = expected :=
    fun _ _ hcheck _ _ hrun => of_decide_eq_true (check_of_succeedsWith hcheck hrun)
  exact ⟨k, k', p', hk, hk', hstatements, harrays, hstores, hrules _ _ (by decide +kernel) k p' hk,
    hrules _ _ (by decide +kernel) k' p' hk'⟩

end ArrayPlan.Plan
