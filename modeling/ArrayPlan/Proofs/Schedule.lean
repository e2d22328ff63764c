import ArrayPlan.Proofs.Executions
import ArrayPlan.Proofs.Readiness
import ArrayPlan.Proofs.Stages

/-!
The schedule of a kernel. Its statements are those queued while the plan was built, all of them and in that order,
with one store for each requested rule that had no array. The store of a rule stands behind what was queued before
the rule was registered, and before what was queued later. It fills an array of its own, element by element.
-/

namespace ArrayPlan

inductive Scheduled where
  | queued (e : Nat × Statement)
  | stored (o : Realization)

namespace Scheduled

def due : Scheduled → Nat × Statement
  | queued e => e
  | stored o => (o.index, o.store)

def queued? : Scheduled → Option (Nat × Statement)
  | queued e => some e
  | stored _ => none

def stored? : Scheduled → Option Realization
  | queued _ => none
  | stored o => some o

/-- The one statement may stand before the other. What was queued behind at most as many rules as stand before a rule
comes before the store of the rule, and all else that was queued comes after it. -/
def InOrder : Scheduled → Scheduled → Prop
  | queued e, stored o => e.1 ≤ o.index
  | stored o, queued e => o.index < e.1
  | _, _ => True

end Scheduled

section Schedule

variable {pending : List (Nat × Statement)} {os : List Realization} {stop : Nat}

def scheduledAt (pending : List (Nat × Statement)) (os : List Realization) (index : Nat) : List Scheduled :=
  (pending.filter fun e => e.1 = index).map .queued ++ (os.filter fun o => o.index = index).map .stored

def schedule (pending : List (Nat × Statement)) (os : List Realization) : Nat → List Scheduled
  | 0 => []
  | stop + 1 => schedule pending os stop ++ scheduledAt pending os stop

theorem map_due_schedule (pending : List (Nat × Statement)) (os : List Realization) (stop : Nat) :
    (schedule pending os stop).map Scheduled.due = agenda pending os stop := by
  induction stop with
  | zero => rfl
  | succ stop ih =>
    have hstores : (os.filter fun o => o.index = stop).map (fun o => (o.index, o.store)) =
        (os.filter fun o => o.index = stop).map fun o => (stop, o.store) := by
      refine List.map_congr_left fun o ho => ?_
      rw [show o.index = stop by simpa using (List.mem_filter.1 ho).2]
    rw [schedule, List.map_append, ih, agenda, dueAt, scheduledAt, List.map_append, List.map_map, List.map_map,
      ← hstores]
    exact congrArg (fun l => _ ++ (l ++ _)) (List.map_id _)

theorem queued_schedule (hsorted : (pending.map Prod.fst).Pairwise (· ≤ ·)) :
    (schedule pending os stop).filterMap Scheduled.queued? = pending.filter fun e => e.1 < stop := by
  induction stop with
  | zero => simp [schedule]
  | succ stop ih =>
    have hqueued : Scheduled.queued? ∘ Scheduled.queued = some := rfl
    have hstored : Scheduled.queued? ∘ Scheduled.stored = fun _ => none := rfl
    rw [schedule, scheduledAt, List.filterMap_append, List.filterMap_append, ih, filter_lt_succ hsorted,
      List.filterMap_map, List.filterMap_map, hqueued, hstored, List.filterMap_some, List.filterMap_none,
      List.append_nil]

theorem stored_schedule (hsorted : (os.map Realization.index).Pairwise (· < ·)) :
    (schedule pending os stop).filterMap Scheduled.stored? = os.filter fun o => o.index < stop := by
  induction stop with
  | zero => simp [schedule]
  | succ stop ih =>
    have hqueued : Scheduled.stored? ∘ Scheduled.queued = fun _ => none := rfl
    have hstored : Scheduled.stored? ∘ Scheduled.stored = some := rfl
    rw [schedule, scheduledAt, List.filterMap_append, List.filterMap_append, ih,
      filter_lt_succ (hsorted.imp Nat.le_of_lt), List.filterMap_map, List.filterMap_map, hqueued, hstored,
      List.filterMap_some, List.filterMap_none, List.nil_append]

theorem mem_scheduledAt_iff {index : Nat} {i : Scheduled} :
    i ∈ scheduledAt pending os index ↔ i.due.1 = index ∧ i ∈ pending.map .queued ++ os.map .stored := by
  cases i with
  | queued e => simp [scheduledAt, Scheduled.due, and_comm]
  | stored o => simp [scheduledAt, Scheduled.due, and_comm]

theorem mem_schedule_iff {i : Scheduled} :
    i ∈ schedule pending os stop ↔ i.due.1 < stop ∧ i ∈ pending.map .queued ++ os.map .stored := by
  induction stop with
  | zero => simp [schedule]
  | succ stop ih =>
    rw [schedule, List.mem_append, ih, mem_scheduledAt_iff, ← or_and_right, Nat.lt_succ_iff_lt_or_eq]

theorem mem_of_queued_mem {e : Nat × Statement} (he : .queued e ∈ schedule pending os stop) : e ∈ pending := by
  simpa using (mem_schedule_iff.1 he).2

theorem mem_of_stored_mem {o : Realization} (ho : .stored o ∈ schedule pending os stop) : o ∈ os := by
  simpa using (mem_schedule_iff.1 ho).2

theorem Scheduled.inOrder_of_lt {i j : Scheduled} (h : i.due.1 < j.due.1) : i.InOrder j := by
  cases i <;> cases j
  case queued.stored => exact Nat.le_of_lt h
  case stored.queued => exact h
  all_goals trivial

theorem inOrder_scheduledAt (pending : List (Nat × Statement)) (os : List Realization) (index : Nat) :
    (scheduledAt pending os index).Pairwise Scheduled.InOrder := by
  refine List.pairwise_append.2 ⟨?_, ?_, fun i hi j hj => ?_⟩
  · exact List.pairwise_map.2 (List.pairwise_of_forall fun _ _ => trivial)
  · exact List.pairwise_map.2 (List.pairwise_of_forall fun _ _ => trivial)
  · have hfirst : i ∈ scheduledAt pending os index := List.mem_append_left _ hi
    have hlast : j ∈ scheduledAt pending os index := List.mem_append_right _ hj
    have hsame : i.due.1 = j.due.1 := (mem_scheduledAt_iff.1 hfirst).1.trans (mem_scheduledAt_iff.1 hlast).1.symm
    obtain ⟨e, _, rfl⟩ := List.mem_map.1 hi
    obtain ⟨o, _, rfl⟩ := List.mem_map.1 hj
    exact Nat.le_of_eq hsame

theorem inOrder_schedule (pending : List (Nat × Statement)) (os : List Realization) (stop : Nat) :
    (schedule pending os stop).Pairwise Scheduled.InOrder := by
  induction stop with
  | zero => exact .nil
  | succ stop ih =>
    refine List.pairwise_append.2 ⟨ih, inOrder_scheduledAt pending os stop, fun i hi j hj => Scheduled.inOrder_of_lt ?_⟩
    rw [(mem_scheduledAt_iff.1 hj).1]
    exact (mem_schedule_iff.1 hi).1

end Schedule

namespace Plan

section Queue

variable {p p' : Plan} {handles : List Handle} {h : Handle}

def Queues (p p' : Plan) : Prop :=
  ∃ new : List Statement, p'.pending = p.pending ++ new.map fun s => (p.rules.size, s)

theorem Queues.of_eq (hsame : p'.pending = p.pending) : p.Queues p' :=
  ⟨[], by rw [hsame, List.map_nil, List.append_nil]⟩

theorem Queues.grow {g : Growth} (hgrown : p' = p.grow g) : p.Queues p' :=
  ⟨g.statements, by rw [hgrown]; rfl⟩

theorem Defines.pending_eq {d : Definition} (hdef : p.Defines d h p') : p'.pending = p.pending := by
  rw [hdef.grown]
  exact List.append_nil _

theorem Spreads.pending_eq {a : Handle} {common : Shape} (hspreads : p.Spreads a common h p') :
    p'.pending = p.pending := by
  rcases hspreads with ⟨_, _, rfl⟩ | ⟨_, _, _, _, hdef⟩
  · rfl
  · exact hdef.pending_eq

theorem Combines.pending_eq {op : Operator} {a b : Handle} (hcombines : p.Combines op a b h p') :
    p'.pending = p.pending := by
  cases hcombines with
  | equal vars hshape hlen hdef => exact hdef.pending_eq
  | rightUnit vars hshape hunit hlen hdef => exact hdef.pending_eq
  | leftUnit vars hshape hunit hlen hdef => exact hdef.pending_eq
  | spread vars common left right p₁ p₂ ha hb hcommon hleft hright hlen hdef =>
    rw [hdef.pending_eq, hright.pending_eq, hleft.pending_eq]

theorem perform_queues (hp : p.WellFormed) (op : Operation Handle)
    (hlive : ∀ a ∈ op.refs, a.plan = p.id → p.Live a) : Build.Outcome p op.perform p fun _ p' => p.Queues p' := by
  open Build.Outcome in
  cases op with
  | full shape value elementType =>
    refine (full hp _ value elementType).mono ?_
    rintro h p' ⟨_, _, _, _, _, _, hdef⟩
    exact .of_eq hdef.pending_eq
  | fill shape value =>
    refine bind (get ?_)
    refine (full hp _ value _).mono ?_
    rintro h p' ⟨_, _, _, _, _, _, hdef⟩
    exact .of_eq hdef.pending_eq
  | range stop =>
    refine (range hp stop).mono ?_
    rintro h p' ⟨_, _, _, hdef⟩
    exact .of_eq hdef.pending_eq
  | input shape elementType =>
    refine (input hp _ elementType).mono ?_
    rintro h p' ⟨_, _, _, _, hin⟩
    exact .grow hin.grown
  | inputNamed name shape elementType =>
    refine (inputNamed hp name _ elementType).mono ?_
    rintro h p' ⟨_, _, _, hin⟩
    exact .grow hin.grown
  | combine op a b =>
    have ha := hlive a List.mem_cons_self
    cases b with
    | literal value =>
      refine (combineLiteral op hp ha value false).mono ?_
      rintro h p' ⟨_, _, _, hdef⟩
      exact .of_eq hdef.pending_eq
    | array b =>
      have hb := hlive b (by simp [Operation.refs, Operand.refs])
      refine (combineArrays op hp ha hb).mono ?_
      rintro h p' ⟨_, _, hcombines⟩
      exact .of_eq hcombines.pending_eq
  | combineFrom op value a =>
    refine (combineLiteral op hp (hlive a List.mem_cons_self) value true).mono ?_
    rintro h p' ⟨_, _, _, hdef⟩
    exact .of_eq hdef.pending_eq
  | select a index =>
    refine (select hp (hlive a List.mem_cons_self) index).mono ?_
    rintro h p' ⟨_, _, _, _, _, _, _, hdef⟩
    exact .of_eq hdef.pending_eq
  | reshape a shape layout =>
    refine (reshape hp (hlive a List.mem_cons_self) _ layout).mono ?_
    rintro h p' ⟨_, _, _, _, _, _, _, _, _, _, hdef⟩
    exact .of_eq hdef.pending_eq
  | sum a axes =>
    refine (sum hp (hlive a List.mem_cons_self) axes).mono ?_
    rintro h p' ⟨_, _, _, _, _, _, hdef⟩
    exact .of_eq hdef.pending_eq
  | prefixSums a =>
    refine (prefixSums hp (hlive a List.mem_cons_self)).mono ?_
    rintro h p' ⟨_, _, _, _, _, hsums⟩
    exact .grow hsums.grown
  | write a index value =>
    refine (write_outcome hp hlive).mono fun h p' hwrites => ?_
    cases hwrites with
    | again array axes v vars hrequest hbacked hlen hfits hgrown hhandle => exact .grow hgrown
    | first array axes v copyVars vars params hrequest hbacked hcopy hlen hparams hfits hgrown hhandle =>
      exact .grow hgrown

/-- A plan with its handles and all that its operations ever put behind the queue, call by call, each statement with
the number of rules that were registered before the call. Operations and lowering may have been refused. -/
inductive Logged : Plan → List Handle → List (Nat × Statement) → Prop where
  | empty (id : Nat) (settings : Settings) : Logged (empty id settings) [] []
  | perform {p p' : Plan} {handles : List Handle} {log : List (Nat × Statement)} {outcome : Except PlanError Handle}
      (hbefore : Logged p handles log) (op : Operation Handle)
      (hrefs : ∀ a ∈ op.refs, a.plan = p.id → a ∈ handles) (hrun : op.perform.runOn p = (outcome, p')) :
      Logged p' (handles ++ outcome.toOption.toList)
        (log ++ (p'.pending.drop p.pending.length).map fun e => (p.rules.size, e.2))
  | refused {p p' : Plan} {handles : List Handle} {log : List (Nat × Statement)} {e : PlanError}
      (hbefore : Logged p handles log) (outputs : List Handle) (withStores : Bool)
      (hrun : (Build.finalize outputs withStores).runOn p = (.error e, p')) : Logged p' handles log

theorem Logged.pending_eq {log : List (Nat × Statement)} (h : Logged p handles log) :
    p.Intact handles ∧ p.pending = log := by
  induction h with
  | empty id settings => exact ⟨.empty id settings, rfl⟩
  | @perform p p' handles log outcome hbefore op hrefs hrun ih =>
    obtain ⟨hintact, hlog⟩ := ih
    have hintact' := perform_intact hintact op hrefs
    have hqueues := perform_queues hintact.wellFormed op fun a ha hown => hintact.live a (hrefs a ha hown)
    unfold Build.Outcome at hintact' hqueues
    rw [hrun] at hintact' hqueues
    cases outcome with
    | error e =>
      refine ⟨by simpa [Except.toOption] using hintact.draw hintact', ?_⟩
      rw [hintact'.same]
      simp [hlog]
    | ok a =>
      obtain ⟨new, hnew⟩ := hqueues
      refine ⟨hintact', ?_⟩
      rw [hnew, List.drop_left, List.map_map, hlog]
      rfl
  | @refused p p' handles log e hbefore outputs withStores hrun ih =>
    obtain ⟨hintact, hlog⟩ := ih
    have hout := Build.Outcome.finalize hintact.wellFormed outputs withStores
    unfold Build.Outcome at hout
    rw [hrun] at hout
    exact ⟨hintact.draw hout, by rw [hout.same]; exact hlog⟩

theorem Reachable.exists_log (hreach : p.Reachable handles) : ∃ log, Logged p handles log := by
  obtain ⟨id, settings, hevolves⟩ := hreach
  induction hevolves with
  | refl => exact ⟨_, .empty id settings⟩
  | step hbefore hrefs hrun ih =>
    obtain ⟨log, hlog⟩ := ih
    exact ⟨_, hlog.perform _ hrefs hrun⟩

end Queue

/-- The statements of a kernel are those of the log, interleaved with one store for each requested rule that had no
array. -/
structure Interleaves (p : Plan) (outputs : List Handle) (withStores : Bool) (k : Kernel)
    (log : List (Nat × Statement)) (os : List Realization) (items : List Scheduled) : Prop where
  statements : k.statements = items.map fun i => i.due.2.withLoads (p.arraySeen? outputs k i.due.1)
  queued : items.filterMap Scheduled.queued? = log
  stored : items.filterMap Scheduled.stored? = os
  order : items.Pairwise Scheduled.InOrder
  distinct : (os.map fun o => o.rule.name).Nodup
  requested : ∀ name, name ∈ os.map (fun o => o.rule.name) ↔
    p.backing.array? name = none ∧ ∃ h ∈ outputs, h.rule = name
  /-- A store is that of a registered rule, and has the shape and the element type of all handles of the rule. -/
  registered : ∀ o ∈ os, p.rules.rules[o.index]? = some o.rule ∧
    ∀ h ∈ outputs, h.rule = o.rule.name → h = o.handle
  sorted : (os.map Realization.index).Pairwise (· < ·)
  arrays : k.arrays = p.arrays ++ os.map Realization.declaration
  declared : (arrayNames k.arrays).Nodup
  domains : k.domains = p.domains ++ os.flatMap Realization.domains
  fills : ∀ (t : Nat) (o : Realization), items[t]? = some (.stored o) → ∃ s, k.statements[t]? = some s ∧ k.FillsInOrder s o.declaration
  alone : ∀ o ∈ os, ∀ (t : Nat) (s : Statement) (index : List Expr), k.statements[t]? = some s → s.target = .load o.array index →
    items[t]? = some (.stored o)
  bound : ∀ h ∈ outputs, ∃ array, k.outputArray? h = some array ∧
    (p.backing.array? h.rule = some array ∨ ∃ o ∈ os, o.handle = h ∧ o.array = array)
  stores : k.stores = if withStores then some (os.map fun o => (o.rule.name, o.store.within)) else none

section Interleaving

variable {p p' : Plan} {handles outputs : List Handle} {os : List Realization} {k : Kernel}
  {log : List (Nat × Statement)}

theorem Lowers.target_of_mem (hp : p.WellFormed) (hlowers : p.Lowers outputs os k p') {i : Scheduled}
    (hi : i ∈ schedule p.pending os (p.rules.size + 1)) : ∃ array index, i.due.2.target = .load array index ∧
      ∀ o ∈ os, o.array = array → i = .stored o := by
  cases i with
  | queued e =>
    obtain ⟨array, index, htarget, harray, _⟩ := (hp.pending e (mem_of_queued_mem hi)).2.target
    exact ⟨array, index, htarget, fun o ho hsame => absurd (hsame ▸ harray) (hlowers.array_unused hp ho)⟩
  | stored o' =>
    have htarget : ∃ index, o'.store.target = .load o'.array index := by
      unfold Realization.store
      split <;> exact ⟨_, rfl⟩
    obtain ⟨index, htarget⟩ := htarget
    exact ⟨o'.array, index, htarget, fun o ho hsame =>
      congrArg _ (hlowers.array_inj (mem_of_stored_mem hi) ho hsame.symm)⟩

theorem Lowers.exists_bound (hp : p.Intact handles) (hlowers : p.Lowers outputs os k p')
    (houtputs : ∀ h ∈ outputs, h.plan = p.id → h ∈ handles) {h : Handle} (hh : h ∈ outputs) :
    ∃ array, k.outputArray? h = some array ∧
      (p.backing.array? h.rule = some array ∨ ∃ o ∈ os, o.handle = h ∧ o.array = array) := by
  cases hfind : p.backing.find? h.rule with
  | some entry =>
    have hafter : p'.backing.array? h.rule = some entry.array := by
      rw [BackingTable.array?, hlowers.find?_backed hfind]
      rfl
    exact ⟨entry.array, hlowers.find?_outputs ⟨h, hh, rfl⟩ hafter, .inl (by rw [BackingTable.array?, hfind]; rfl)⟩
  | none =>
    obtain ⟨o, ho, hname⟩ := hlowers.exists_realization hh hfind
    have harray := hname ▸ hlowers.array?_of_realization hp.wellFormed ho
    obtain ⟨hrequested, hrule, _⟩ := requestedIn_eq_some (hlowers.sound o ho).2.1
    have hsame := hp.distinct _ (houtputs _ hrequested (hlowers.own _ hrequested)) _ (houtputs h hh (hlowers.own h hh))
      (hrule.trans hname)
    exact ⟨o.array, hlowers.find?_outputs ⟨h, hh, rfl⟩ harray, .inr ⟨o, ho, hsame, rfl⟩⟩

/-- The kernel's statements are what was queued and the stores of the requested rules, each once and in order, as long
as fixed lengths fit a word and symbolic ones are no index variables. -/
theorem finalize_interleaves {withStores : Bool} (hlog : p.Logged handles log)
    (houtputs : ∀ h ∈ outputs, h.plan = p.id → h ∈ handles)
    (hfinalize : (Build.finalize outputs withStores).runOn p = (.ok k, p'))
    (hnames : ∀ d ∈ k.arrays, ∀ name ∈ d.shape.parameters, name ∉ k.domains.flatMap Domain.vars)
    (hfixed : ∀ d ∈ k.arrays, ∀ n : Nat, Extent.fixed n ∈ d.shape.extents → (n : Int) ≤ Word.greatest) :
    ∃ os items, p.Interleaves outputs withStores k log os items := by
  obtain ⟨hintact, hqueue⟩ := hlog.pending_eq
  have hp := hintact.wellFormed
  obtain ⟨os, hlowers, hstores⟩ := (Build.Outcome.finalize_stores hp outputs withStores).of_runOn_ok hfinalize
  have hseen : ∀ i, (fun rule => p'.backing.arrayAt? rule i) = p.arraySeen? outputs k i :=
    fun i => funext (hlowers.arrayAt?_eq hp i)
  generalize hitems : schedule p.pending os (p.rules.size + 1) = items
  have hstatements : k.statements = items.map fun i => i.due.2.withLoads (p.arraySeen? outputs k i.due.1) := by
    rw [hlowers.statements, ← map_due_schedule, hitems, List.map_map]
    refine List.map_congr_left fun i _ => ?_
    rw [Function.comp_apply, Statement.loadBacked, Expr.loadBacked_eq_withLoads, Expr.loadBacked_eq_withLoads, hseen]
    rfl
  have hstored : items.filterMap Scheduled.stored? = os := by
    rw [← hitems, stored_schedule hlowers.sorted, List.filter_eq_self]
    intro o ho
    have hindex := (List.getElem?_eq_some_iff.1 (hlowers.sound o ho).1).1
    exact decide_eq_true (Nat.lt_succ_of_lt hindex)
  have hmem : ∀ {t : Nat} {i : Scheduled}, items[t]? = some i → i ∈ schedule p.pending os (p.rules.size + 1) :=
    fun ht => hitems ▸ List.mem_of_getElem? ht
  refine ⟨os, items, hstatements, ?_, hstored, ?_, ?_, fun name => ?_, fun o ho => ⟨(hlowers.sound o ho).1, ?_⟩,
    hlowers.sorted, hlowers.arrays, hlowers.arrays_nodup hp, hlowers.domains, fun t o ht => ?_,
    fun o ho t s index hs htarget => ?_, fun h hh => hlowers.exists_bound hintact houtputs hh, hstores⟩
  · rw [← hitems, queued_schedule hp.sorted, hqueue, List.filter_eq_self]
    exact fun e he => decide_eq_true (Nat.lt_succ_of_le (hp.pending e (hqueue ▸ he)).1)
  · rw [← hitems]
    exact inOrder_schedule _ _ _
  · refine List.Nodup.map_on (fun o ho o' ho' hname => hlowers.realization_inj hp ho ho' hname) ?_
    exact List.Nodup.of_map Realization.index (hlowers.sorted.imp Nat.ne_of_lt)
  · rw [BackingTable.array?, Option.map_eq_none_iff]
    constructor
    · intro hname
      obtain ⟨o, ho, rfl⟩ := List.mem_map.1 hname
      obtain ⟨hrequested, hrule, hnone⟩ := requestedIn_eq_some (hlowers.sound o ho).2.1
      exact ⟨hnone, o.handle, hrequested, hrule⟩
    · rintro ⟨hnone, h, hh, rfl⟩
      obtain ⟨o, ho, hname⟩ := hlowers.exists_realization hh hnone
      exact List.mem_map.2 ⟨o, ho, hname⟩
  · intro h hh hrule
    obtain ⟨hrequested, hrule', _⟩ := requestedIn_eq_some (hlowers.sound o ho).2.1
    exact hintact.distinct h (houtputs h hh (hlowers.own h hh)) _ (houtputs _ hrequested (hlowers.own _ hrequested))
      (hrule.trans hrule'.symm)
  · have ho := mem_of_stored_mem (hmem ht)
    have hdeclared : o.declaration ∈ k.arrays := by
      rw [hlowers.arrays]
      exact List.mem_append_right _ (List.mem_map_of_mem ho)
    refine ⟨_, by rw [hstatements, List.getElem?_map, ht]; rfl, ?_⟩
    have hcovers := (hlowers.covers_store ho).loadBacked (t := p'.backing) (i := o.index)
    rw [Statement.loadBacked, Expr.loadBacked_eq_withLoads, Expr.loadBacked_eq_withLoads, hseen] at hcovers
    exact hcovers.fillsInOrder (hlowers.vars_nodup hp) (hnames _ hdeclared) (hfixed _ hdeclared)
  · rw [hstatements, List.getElem?_map] at hs
    obtain ⟨i, hi, rfl⟩ := Option.map_eq_some_iff.1 hs
    obtain ⟨array, index', htarget', halone⟩ := hlowers.target_of_mem hp (hmem hi)
    rw [Statement.withLoads, htarget', Expr.withLoads] at htarget
    rw [hi, halone o ho (Expr.load.inj htarget).1.symm]

end Interleaving

def between : Progress :=
  (Progress.start (.empty 0 .default)).run
    [.fill (.extents [.fixed 2]) (.int 3), .write 0 [.all] (.literal (.int 1)), .combine .add 1 (.literal (.int 1)),
      .prefixSums 2]

theorem finalize_interleaves_between :
    ∃ (log : List (Nat × Statement)) (k : Kernel) (p' : Plan) (os : List Realization) (items : List Scheduled),
      between.plan.Logged between.handles log ∧ log.map Prod.fst = [1, 1, 3] ∧
      (Build.finalize [pairHandle "subst2" .float64, pairHandle "subst1" .float64] true).runOn between.plan =
        (.ok k, p') ∧
      os.map (fun o => o.rule.name) = ["subst2"] ∧
      between.plan.Interleaves [pairHandle "subst2" .float64, pairHandle "subst1" .float64] true k log os items := by
  obtain ⟨log, hlog⟩ := (Progress.run_reachable 0 .default _ : between.plan.Reachable between.handles).exists_log
  have hkeys : log.map Prod.fst = [1, 1, 3] := by
    rw [← hlog.pending_eq.2]
    decide +kernel
  obtain ⟨k, p', hfinalize, hcheck⟩ := @exists_of_succeedsWith _ _
    ((Build.finalize [pairHandle "subst2" .float64, pairHandle "subst1" .float64] true).runOn between.plan)
    (fun k _ => (k.arrays.all fun d => d.shape.extents = [.fixed 2]) &&
      k.stores.map (List.map Prod.fst) = some ["subst2"]) (by decide +kernel)
  simp only [Bool.and_eq_true, List.all_eq_true, decide_eq_true_eq] at hcheck
  obtain ⟨hextents, hinfo⟩ := hcheck
  obtain ⟨os, items, h⟩ := finalize_interleaves hlog (by decide +kernel) hfinalize
    (fun d hd name hname => by
      rw [Shape.parameters, hextents d hd] at hname
      cases hname)
    (fun d hd n hn => by
      obtain rfl : n = 2 := by simpa [hextents d hd] using hn
      decide)
  refine ⟨log, k, p', os, items, hlog, hkeys, hfinalize, ?_, h⟩
  rw [h.stores] at hinfo
  simpa using hinfo

def filled (n : Nat) : Progress :=
  (Progress.start (.empty 0 .default)).run [.fill (.extents [.fixed n]) (.int 3)]

/-- When the length does not fit a word, the store of the fill does not reach its elements. -/
theorem oversized_not_interleaved :
    ∃ (log : List (Nat × Statement)) (k : Kernel) (p' : Plan),
      (filled 9223372036854775810).plan.Logged (filled 9223372036854775810).handles log ∧
      (Build.finalize (filled 9223372036854775810).handles false).runOn (filled 9223372036854775810).plan =
        (.ok k, p') ∧
      ¬ ∃ os items, (filled 9223372036854775810).plan.Interleaves (filled 9223372036854775810).handles false k log
        os items := by
  obtain ⟨log, hlog⟩ := (Progress.run_reachable 0 .default _ :
    (filled 9223372036854775810).plan.Reachable (filled 9223372036854775810).handles).exists_log
  obtain ⟨k, p', hfinalize, hcheck⟩ := @exists_of_succeedsWith _ _
    ((Build.finalize (filled 9223372036854775810).handles false).runOn (filled 9223372036854775810).plan)
    (fun k _ => (k.statements.all fun s => !storesAt k [1] s) && k.arrays.all fun d =>
      d.shape.extents = [.fixed 9223372036854775810]) (by decide +kernel)
  refine ⟨log, k, p', hlog, hfinalize, ?_⟩
  rintro ⟨os, items, h⟩
  simp only [Bool.and_eq_true, List.all_eq_true, decide_eq_true_eq, Bool.not_eq_true'] at hcheck
  obtain ⟨hnever, hextents⟩ := hcheck
  obtain ⟨o, ho, _⟩ := List.mem_map.1 ((h.requested "subst0").2 (by decide +kernel))
  have hitem : o ∈ items.filterMap Scheduled.stored? := h.stored ▸ ho
  obtain ⟨i, hi, hstored⟩ := List.mem_filterMap.1 hitem
  obtain rfl : i = .stored o := by
    cases i with
    | queued e => cases hstored
    | stored o' => exact congrArg _ (Option.some.inj hstored)
  obtain ⟨t, ht⟩ := List.mem_iff_getElem?.1 hi
  obtain ⟨s, hs, hfills⟩ := h.fills t o ht
  have hdeclared : o.declaration ∈ k.arrays := by
    rw [h.arrays]
    exact List.mem_append_right _ (List.mem_map_of_mem ho)
  have hstores : storesAt k [1] s = true :=
    storesAt_of_fills hfills.fills (by rw [hextents _ hdeclared]; rfl) (by decide)
  rw [hnever s (List.mem_of_getElem? hs)] at hstores
  cases hstores

end Plan

end ArrayPlan
