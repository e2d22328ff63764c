import ArrayPlan.Proofs.Script
import ArrayPlan.Proofs.Stages
import ArrayPlan.Session
import Mathlib.Logic.Relation

/-!
Sessions change by whole steps. A step that fails leaves all plans as they were, up to names drawn, and the handles
under their names. A step that succeeds appends to one plan. Lowering closes a plan: nothing changes it from then on.
-/

namespace ArrayPlan

namespace Plan

/-- The second plan is what a refusal leaves of the first: names may be drawn, unless the plan was lowered before. -/
structure Spared (p p' : Plan) : Prop where
  draws : p.OnlyDraws p'
  closed : p.finalized = true → p' = p

theorem Spared.refl (p : Plan) : p.Spared p :=
  ⟨.refl p, fun _ => rfl⟩

/-- The second plan is the first one lowered: the queue is empty, rules may have gained arrays, and no more is
different. -/
structure Closes (p p' : Plan) : Prop where
  open_before : p.finalized = false
  finalized : p'.finalized = true
  rules : p'.rules = p.rules
  domains : p'.domains = p.domains
  arrays : p'.arrays = p.arrays
  pending : p'.pending = []
  backed : ∃ later, p'.backing.entries = p.backing.entries ++ later
  id : p'.id = p.id

section Stages

variable {p p' : Plan} {handles : List Handle} {arrays : List Declaration}

theorem Stages.perform_atomic (h : Stages p handles arrays) {op : Operation Handle} {outcome : Except PlanError Handle}
    (hrefs : ∀ a ∈ op.refs, a.plan = p.id → a ∈ handles) (hrun : op.perform.runOn p = (outcome, p')) :
    (∀ e, outcome = .error e → p.Spared p') ∧
      ∀ a, outcome = .ok a → p.Extends p' ∧ p.finalized = false ∧ a.plan = p.id := by
  rcases h.framed with ⟨hopen, hintact, _⟩ | ⟨hclosed, _⟩
  · have hout := perform_outcome hintact.wellFormed op fun a ha hown => hintact.live a (hrefs a ha hown)
    unfold Build.Outcome at hout
    rw [hrun] at hout
    cases outcome with
    | error e => exact ⟨fun _ _ => ⟨hout, fun hclosed => by rw [hopen] at hclosed; cases hclosed⟩, fun a ha => nomatch ha⟩
    | ok a =>
      refine ⟨fun _ he => (nomatch he), fun a' ha => ?_⟩
      obtain rfl := Except.ok.inj ha
      exact ⟨hout.extends_, hopen, hout.live.own.trans hout.extends_.id⟩
  · obtain ⟨e, hhalts⟩ := Build.Halts.perform hclosed op
    obtain ⟨rfl, rfl⟩ := Prod.mk.inj (hhalts.symm.trans hrun)
    exact ⟨fun _ _ => .refl _, fun a ha => nomatch ha⟩

theorem Stages.finalize_atomic (h : Stages p handles arrays) {outputs : List Handle} {withStores : Bool}
    {outcome : Except PlanError Kernel} (hrun : (Build.finalize outputs withStores).runOn p = (outcome, p')) :
    (∀ e, outcome = .error e → p.Spared p') ∧ ∀ k, outcome = .ok k → p.Closes p' := by
  rcases h.framed with ⟨hopen, hintact, _⟩ | ⟨hclosed, _⟩
  · have hout := Build.Outcome.finalize hintact.wellFormed outputs withStores
    have hsame := finalize_same hintact.wellFormed outputs withStores
    unfold Build.Outcome at hout hsame
    rw [hrun] at hout hsame
    cases outcome with
    | error e => exact ⟨fun _ _ => ⟨hout, fun hclosed => by rw [hopen] at hclosed; cases hclosed⟩, fun k hk => nomatch hk⟩
    | ok k =>
      obtain ⟨os, hlowers⟩ := hout
      refine ⟨fun _ he => (nomatch he), fun _ _ => ⟨hopen, ?_, ?_, ?_, ?_, ?_, ⟨_, hlowers.backing⟩, ?_⟩⟩ <;> rw [hsame]
  · obtain ⟨e, hhalts⟩ := Build.Halts.finalize outputs withStores hclosed
    obtain ⟨rfl, rfl⟩ := Prod.mk.inj (hhalts.symm.trans hrun)
    exact ⟨fun _ _ => .refl _, fun k hk => nomatch hk⟩

end Stages

end Plan

namespace Session

/-- One step: an operation, whose result may be kept under a name, or a handle kept under one more name, or lowering.
Each may fail. -/
inductive Step (s : Session) : Session → Prop where
  | performed {s' : Session} {h : Handle} (id? : Option Nat) (op : Operation String) (kept : Option String)
      (hrun : s.perform id? op = (.ok h, s')) : Step s (kept.elim s' fun name => s'.keep name h)
  | refused {s' : Session} {e : SessionError} (id? : Option Nat) (op : Operation String)
      (hrun : s.perform id? op = (.error e, s')) : Step s s'
  | shared {h : Handle} (name other : String) (hfind : s.find name = .ok h) : Step s (s.keep other h)
  | lowered {s' : Session} {outcome : Except SessionError Kernel} (id : Nat) (outputs : List String)
      (withStores : Bool) (hrun : s.finalize id outputs withStores = (outcome, s')) : Step s s'

abbrev Steps : Session → Session → Prop :=
  Relation.ReflTransGen Step

def Reachable (s : Session) : Prop :=
  ∃ settings, Steps (start settings) s

/-- All handles and all plans are as before, up to names drawn from the supplies of plans that are not lowered. -/
structure Unchanged (s s' : Session) : Prop where
  handles : s'.handles = s.handles
  kernel : s'.kernel = s.kernel
  plans : List.Forall₂ Plan.Spared s.plans s'.plans

/-- One plan is another one now, the other plans and all handles are as before. -/
structure Changes (s s' : Session) (id : Nat) (p p' : Plan) : Prop where
  handles : s'.handles = s.handles
  before : s.plan? id = some p
  plans : s'.plans = s.plans.set id p'

def Sound (s : Session) : Prop :=
  ∀ id p, s.plan? id = some p → p.id = id ∧ ∃ handles arrays, Plan.Stages p handles arrays ∧
    ∀ e ∈ s.handles, e.2.plan = id → e.2 ∈ handles

section Steps

variable {s s' : Session} {id : Nat} {p p' : Plan} {h : Handle}

theorem Unchanged.refl (s : Session) : s.Unchanged s :=
  ⟨rfl, rfl, List.forall₂_same.2 fun p _ => .refl p⟩

theorem Changes.unchanged (h : s.Changes s' id p p') (hkernel : s'.kernel = s.kernel) (hspared : p.Spared p') :
    s.Unchanged s' := by
  refine ⟨h.handles, hkernel, ?_⟩
  rw [h.plans]
  refine List.forall₂_iff_get.2 ⟨by rw [List.length_set], fun i hi hi' => ?_⟩
  simp only [List.get_eq_getElem, List.getElem_set]
  split
  · rename_i heq
    subst heq
    obtain ⟨_, hsame⟩ := List.getElem?_eq_some_iff.1 h.before
    rwa [hsame]
  · exact .refl _

theorem exists_entry_of_find {name : String} (hfind : s.find name = .ok h) : ∃ e ∈ s.handles, e.2 = h := by
  unfold find at hfind
  split at hfind
  · rename_i h' hlookup
    obtain rfl := Except.ok.inj hfind
    obtain ⟨before, after, hsplit, _⟩ := List.lookup_eq_some_iff.1 hlookup
    exact ⟨(name, h'), by simp [hsplit], rfl⟩
  · cases hfind

theorem step_cases {α : Type} {b : Build α} {outcome : Except SessionError α} (hrun : s.step id b = (outcome, s')) :
    (∃ e, outcome = .error e ∧ s' = s) ∨ ∃ p result p', b.runOn p = (result, p') ∧ s.Changes s' id p p' ∧
      s'.kernel = s.kernel ∧ outcome = result.mapError .refused := by
  unfold step at hrun
  split at hrun
  · cases hrun
    exact .inl ⟨_, rfl, rfl⟩
  · rename_i p hp
    cases hb : b.runOn p with
    | mk result p' =>
      rw [hb] at hrun
      cases hrun
      exact .inr ⟨p, result, p', hb, ⟨rfl, hp, rfl⟩, rfl, rfl⟩

theorem Sound.update {handles : List Handle} {arrays : List Declaration} {s'' : Session} (hs : s.Sound)
    (hchanges : s.Changes s' id p p') (hid : p'.id = id) (hstage : Plan.Stages p' handles arrays)
    (hkept : ∀ e ∈ s.handles, e.2.plan = id → e.2 ∈ handles) (hplans : s''.plans = s'.plans)
    (hhandles : ∀ e ∈ s''.handles, e ∈ s.handles ∨ e.2.plan = id ∧ e.2 ∈ handles) : s''.Sound := by
  intro i q hq
  rw [plan?, hplans, hchanges.plans, List.getElem?_set] at hq
  split at hq
  · rename_i heq
    subst heq
    have hsame : q = p' := by
      split at hq
      · exact (Option.some.inj hq).symm
      · cases hq
    subst hsame
    refine ⟨hid, handles, arrays, hstage, fun e he hown => ?_⟩
    rcases hhandles e he with hbefore | ⟨_, hnew⟩
    · exact hkept e hbefore hown
    · exact hnew
  · rename_i hne
    obtain ⟨hqid, handles', arrays', hstage', hkept'⟩ := hs i q hq
    refine ⟨hqid, handles', arrays', hstage', fun e he hown => ?_⟩
    rcases hhandles e he with hbefore | ⟨hother, _⟩
    · exact hkept' e hbefore hown
    · exact absurd (hother.symm.trans hown) hne

theorem mem_handles_keep {name : String} {e : String × Handle} (he : e ∈ (s.keep name h).handles) :
    e ∈ s.handles ∨ e.2 = h := by
  rcases List.mem_cons.1 he with rfl | he
  · exact .inr rfl
  · exact .inl (List.mem_filter.1 he).1

theorem Sound.perform (hs : s.Sound) {id? : Option Nat} {op : Operation String} {outcome : Except SessionError Handle}
    (hrun : s.perform id? op = (outcome, s')) :
    (∀ e, outcome = .error e → s.Unchanged s' ∧ s'.Sound) ∧ ∀ h, outcome = .ok h →
      (∃ p p', s.Changes s' h.plan p p' ∧ s'.kernel = s.kernel ∧ p.Extends p' ∧ p.finalized = false) ∧
        ∀ kept : Option String, (kept.elim s' fun name => s'.keep name h).Sound := by
  unfold Session.perform at hrun
  cases hresolve : op.resolve s.find with
  | error e =>
    rw [hresolve] at hrun
    cases hrun
    exact ⟨fun _ _ => ⟨.refl s, hs⟩, fun _ h => nomatch h⟩
  | ok op' =>
    rw [hresolve] at hrun
    rcases step_cases hrun with ⟨e, rfl, rfl⟩ | ⟨p, result, p', hb, hchanges, hkernel, rfl⟩
    · exact ⟨fun _ _ => ⟨.refl _, hs⟩, fun _ h => nomatch h⟩
    obtain ⟨hid, handles, arrays, hstage, hkept⟩ := hs _ p hchanges.before
    have hrefs : ∀ a ∈ op'.refs, a.plan = p.id → a ∈ handles := by
      intro a ha hown
      obtain ⟨name, hname⟩ := refs_resolve hresolve ha
      obtain ⟨e, he, rfl⟩ := exists_entry_of_find hname
      exact hkept e he (hown.trans hid)
    obtain ⟨hrefused, hperformed⟩ := hstage.perform_atomic hrefs hb
    have hnext := hstage.perform op' hrefs hb
    have hsub : ∀ e ∈ s.handles, e.2.plan = id?.getD ((op'.subject?.map Handle.plan).getD 0) →
        e.2 ∈ handles ++ result.toOption.toList :=
      fun e he hown => List.mem_append_left _ (hkept e he hown)
    cases result with
    | error e =>
      refine ⟨fun _ _ => ?_, fun _ h => nomatch h⟩
      have hspared := hrefused e rfl
      have hid' := hspared.draws.extends.id.trans hid
      refine ⟨hchanges.unchanged hkernel hspared, hs.update hchanges hid' hnext hsub rfl fun e he => .inl ?_⟩
      rwa [hchanges.handles] at he
    | ok a =>
      refine ⟨fun _ h => (nomatch h), fun h hresult => ?_⟩
      obtain rfl := Except.ok.inj hresult
      obtain ⟨hextends, hopen, hown⟩ := hperformed _ rfl
      have hplan : a.plan = id?.getD ((op'.subject?.map Handle.plan).getD 0) := hown.trans hid
      have hnew : a ∈ handles ++ (Except.ok a : Except PlanError Handle).toOption.toList :=
        List.mem_append_right _ (List.mem_singleton_self a)
      refine ⟨⟨p, p', hplan ▸ hchanges, hkernel, hextends, hopen⟩, fun kept => ?_⟩
      refine hs.update hchanges (hextends.id.trans hid) hnext hsub (by cases kept <;> rfl) fun e he => ?_
      cases kept with
      | none => exact .inl (hchanges.handles ▸ he)
      | some name =>
        rcases mem_handles_keep he with he | rfl
        · exact .inl (hchanges.handles ▸ he)
        · exact .inr ⟨hplan, hnew⟩

theorem Sound.finalize (hs : s.Sound) {outputs : List String} {withStores : Bool}
    {outcome : Except SessionError Kernel} (hrun : s.finalize id outputs withStores = (outcome, s')) :
    s'.Sound ∧ (∀ e, outcome = .error e → s.Unchanged s') ∧
      ∀ k, outcome = .ok k → s'.kernel = some k ∧ ∃ p p', s.Changes s' id p p' ∧ p.Closes p' := by
  unfold Session.finalize at hrun
  cases hresolve : outputs.mapM s.find with
  | error e =>
    rw [hresolve] at hrun
    cases hrun
    exact ⟨hs, fun _ _ => .refl s, fun _ h => nomatch h⟩
  | ok outputs' =>
    rw [hresolve] at hrun
    dsimp only at hrun
    cases hstep : s.step id (Build.finalize outputs' withStores) with
    | mk result s₁ =>
      rw [hstep] at hrun
      rcases step_cases hstep with ⟨e, rfl, rfl⟩ | ⟨p, result', p', hb, hchanges, hkernel, rfl⟩
      · cases hrun
        exact ⟨hs, fun _ _ => .refl _, fun _ h => nomatch h⟩
      obtain ⟨hid, handles, arrays, hstage, hkept⟩ := hs _ p hchanges.before
      have houtputs : ∀ a ∈ outputs', a.plan = p.id → a ∈ handles := by
        intro a ha hown
        obtain ⟨name, _, hname⟩ := (mem_iff_of_mapM_ok hresolve).1 ha
        obtain ⟨e, he, rfl⟩ := exists_entry_of_find hname
        exact hkept e he (hown.trans hid)
      obtain ⟨hrefused, hclosed⟩ := hstage.finalize_atomic hb
      have hnext := hstage.finalize outputs' withStores houtputs hb
      cases result' with
      | error e =>
        cases hrun
        have hspared := hrefused e rfl
        refine ⟨?_, fun _ _ => hchanges.unchanged hkernel hspared, fun _ h => nomatch h⟩
        exact hs.update hchanges (hspared.draws.extends.id.trans hid) hnext hkept rfl
          fun e he => .inl (hchanges.handles ▸ he)
      | ok k =>
        cases hrun
        have hcloses := hclosed k rfl
        refine ⟨?_, fun _ h => (nomatch h), fun k' hresult => ?_⟩
        · exact hs.update hchanges (hcloses.id.trans hid) hnext hkept rfl fun e he => .inl (hchanges.handles ▸ he)
        · obtain rfl := Except.ok.inj hresult
          exact ⟨rfl, p, p', ⟨hchanges.handles, hchanges.before, hchanges.plans⟩, hcloses⟩

theorem Unchanged.plan_eq (h : s.Unchanged s') (hp : s.plan? id = some p) (hclosed : p.finalized = true) :
    s'.plan? id = some p := by
  obtain ⟨hlen, hall⟩ := List.forall₂_iff_get.1 h.plans
  obtain ⟨hi, rfl⟩ := List.getElem?_eq_some_iff.1 hp
  have hi' : id < s'.plans.length := hlen ▸ hi
  have hsame : s'.plans[id] = s.plans[id] := (hall id hi hi').closed hclosed
  rw [plan?, List.getElem?_eq_getElem hi', hsame]

theorem Changes.plan_eq {q q' : Plan} {i : Nat} (h : s.Changes s' i q q') (hopen : q.finalized = false)
    (hp : s.plan? id = some p) (hclosed : p.finalized = true) : s'.plan? id = some p := by
  have hne : i ≠ id := by
    rintro rfl
    rw [Option.some.inj (h.before.symm.trans hp), hclosed] at hopen
    cases hopen
  rw [plan?, h.plans, List.getElem?_set_ne hne]
  exact hp

theorem plan?_kept (kept : Option String) : (kept.elim s' fun name => s'.keep name h).plan? id = s'.plan? id := by
  cases kept <;> rfl

theorem Step.preserves (hstep : Step s s') (hs : s.Sound) :
    s'.Sound ∧ ∀ id p, s.plan? id = some p → p.finalized = true → s'.plan? id = some p := by
  cases hstep with
  | performed id? op kept hrun =>
    obtain ⟨⟨q, q', hchanges, _, _, hopen⟩, hsound⟩ := (hs.perform hrun).2 _ rfl
    refine ⟨hsound kept, fun id p hp hclosed => ?_⟩
    rw [plan?_kept]
    exact hchanges.plan_eq hopen hp hclosed
  | refused id? op hrun =>
    obtain ⟨hunchanged, hsound⟩ := (hs.perform hrun).1 _ rfl
    exact ⟨hsound, fun id p hp hclosed => hunchanged.plan_eq hp hclosed⟩
  | @shared h name other hfind =>
    refine ⟨fun id p hp => ?_, fun id p hp _ => hp⟩
    obtain ⟨hid, handles, arrays, hstage, hkept⟩ := hs id p hp
    refine ⟨hid, handles, arrays, hstage, fun e he hown => ?_⟩
    obtain ⟨e', he', hsame⟩ := exists_entry_of_find hfind
    rcases mem_handles_keep he with he | heq
    · exact hkept e he hown
    · rw [heq, ← hsame] at hown ⊢
      exact hkept e' he' hown
  | @lowered _ outcome id outputs withStores hrun =>
    obtain ⟨hsound, hrefused, hlowered⟩ := hs.finalize hrun
    refine ⟨hsound, fun i p hp hclosed => ?_⟩
    cases outcome with
    | error e => exact (hrefused e rfl).plan_eq hp hclosed
    | ok k =>
      obtain ⟨_, q, q', hchanges, hcloses⟩ := hlowered k rfl
      exact hchanges.plan_eq hcloses.open_before hp hclosed

/-- A plan that was lowered stays as it was, whatever steps follow. -/
theorem Steps.preserves (hsteps : Steps s s') (hs : s.Sound) :
    s'.Sound ∧ ∀ id p, s.plan? id = some p → p.finalized = true → s'.plan? id = some p := by
  induction hsteps with
  | refl => exact ⟨hs, fun id p hp _ => hp⟩
  | tail _ hstep ih =>
    obtain ⟨hsound, hkeep⟩ := ih
    obtain ⟨hsound', hkeep'⟩ := hstep.preserves hsound
    exact ⟨hsound', fun id p hp hclosed => hkeep' id p (hkeep id p hp hclosed) hclosed⟩

theorem sound_start (settings : List Settings) : (start settings).Sound := by
  intro id p hp
  rw [plan?, start, List.getElem?_map] at hp
  obtain ⟨e, he, rfl⟩ := Option.map_eq_some_iff.1 hp
  rw [List.getElem?_zipIdx] at he
  obtain ⟨settings', _, rfl⟩ := Option.map_eq_some_iff.1 he
  exact ⟨Nat.zero_add id, [], [], .empty _ _, by simp [start]⟩

theorem Reachable.sound (hreach : s.Reachable) : s.Sound := by
  obtain ⟨settings, hsteps⟩ := hreach
  exact (hsteps.preserves (sound_start settings)).1

/-- A step of a session that fails leaves everything but the supplies of names as it was. An operation that succeeds
appends to one plan, and lowering empties the queue of one, which is the same plan after any later steps. -/
theorem steps_atomic (hreach : s.Reachable) :
    (∀ id? op outcome s', s.perform id? op = (outcome, s') →
      (∀ e, outcome = .error e → s.Unchanged s') ∧
      ∀ h, outcome = .ok h → ∃ p p', s.Changes s' h.plan p p' ∧ p.Extends p') ∧
    ∀ id outputs withStores outcome s', s.finalize id outputs withStores = (outcome, s') →
      (∀ e, outcome = .error e → s.Unchanged s') ∧
      ∀ k, outcome = .ok k → ∃ p p', s.Changes s' id p p' ∧ p.Closes p' ∧
        ∀ s'', Steps s' s'' → s''.plan? id = some p' := by
  have hs := hreach.sound
  refine ⟨fun id? op outcome s' hrun => ?_, fun id outputs withStores outcome s' hrun => ?_⟩
  · obtain ⟨hrefused, hperformed⟩ := hs.perform hrun
    refine ⟨fun e he => (hrefused e he).1, fun h hh => ?_⟩
    obtain ⟨⟨p, p', hchanges, _, hextends, _⟩, _⟩ := hperformed h hh
    exact ⟨p, p', hchanges, hextends⟩
  · obtain ⟨hsound, hrefused, hlowered⟩ := hs.finalize hrun
    refine ⟨hrefused, fun k hk => ?_⟩
    obtain ⟨_, p, p', hchanges, hcloses⟩ := hlowered k hk
    refine ⟨p, p', hchanges, hcloses, fun s'' hsteps => ?_⟩
    refine (hsteps.preserves hsound).2 id p' ?_ hcloses.finalized
    rw [plan?, hchanges.plans, List.getElem?_set_self]
    exact (List.getElem?_eq_some_iff.1 hchanges.before).1

def carry (s : Session) (id : Nat) (op : Operation String) (name : String) : Session :=
  match s.perform (some id) op with
  | (.ok h, s') => s'.keep name h
  | (.error _, s') => s'

theorem Reachable.carry (hreach : s.Reachable) (id : Nat) (op : Operation String) (name : String) :
    (s.carry id op name).Reachable := by
  obtain ⟨settings, hsteps⟩ := hreach
  refine ⟨settings, hsteps.tail ?_⟩
  unfold Session.carry
  cases hrun : s.perform (some id) op with
  | mk outcome s' =>
    cases outcome with
    | ok h => exact .performed (some id) op (some name) hrun
    | error e => exact .refused (some id) op hrun

end Steps

def twoPlans : Session :=
  ((start [.default, .default]).carry 0 (.fill (.extents [.fixed 2]) (.int 3)) "x").carry 1
    (.fill (.extents [.fixed 2]) (.int 4)) "y"

theorem steps_atomic_twoPlans :
    twoPlans.Reachable ∧
    (∃ e s', twoPlans.perform none (.write "x" [.all] (.array "y")) = (.error e, s') ∧ twoPlans.Unchanged s') ∧
    (∃ h s' p p', twoPlans.perform none (.write "x" [.all] (.literal (.int 1))) = (.ok h, s') ∧
      twoPlans.Changes s' h.plan p p' ∧ p.Extends p') ∧
    ∃ k s' p p', twoPlans.finalize 0 ["x"] false = (.ok k, s') ∧ twoPlans.Changes s' 0 p p' ∧ p.Closes p' ∧
      ∀ s'', Steps s' s'' → s''.plan? 0 = some p' := by
  have hreach : twoPlans.Reachable := ((show (start [.default, .default]).Reachable from ⟨_, .refl⟩).carry 0 _ _).carry 1 _ _
  obtain ⟨hperform, hfinalize⟩ := steps_atomic hreach
  refine ⟨hreach, ?_, ?_, ?_⟩
  · obtain ⟨e, s', hrun⟩ := Plan.exists_error_of_isOk
      (x := twoPlans.perform none (.write "x" [.all] (.array "y"))) (by decide +kernel)
    exact ⟨e, s', hrun, (hperform _ _ _ _ hrun).1 e rfl⟩
  · obtain ⟨h, s', hrun⟩ := Plan.exists_ok_of_isOk
      (x := twoPlans.perform none (.write "x" [.all] (.literal (.int 1)))) (by decide +kernel)
    obtain ⟨p, p', hchanges, hextends⟩ := (hperform _ _ _ _ hrun).2 h rfl
    exact ⟨h, s', p, p', hrun, hchanges, hextends⟩
  · obtain ⟨k, s', hrun⟩ := Plan.exists_ok_of_isOk (x := twoPlans.finalize 0 ["x"] false) (by decide +kernel)
    obtain ⟨p, p', hchanges, hcloses, hstays⟩ := (hfinalize _ _ _ _ _ hrun).2 k rfl
    exact ⟨k, s', p, p', hrun, hchanges, hcloses, hstays⟩

end Session

end ArrayPlan
