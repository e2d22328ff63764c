import ArrayPlan.Proofs.Simulation

/-!
Independence of outputs. Steps that are taken after a handle was created do not change what is stored for it, and
neither do other requests, as long as no rule that they store early is overtaken by a write.
-/

namespace ArrayPlan

instance : StableIndices Int :=
  ⟨fun _ => rfl⟩

variable {α : Type}

theorem boundData_filter {inputs : List (String × Array α)} {names : List String} {array : String}
    (harray : array ∈ names) : boundData (inputs.filter fun i => i.1 ∈ names) array = boundData inputs array := by
  have hlookup : ∀ bindings : List (String × Array α),
      (bindings.filter fun i => i.1 ∈ names).lookup array = bindings.lookup array := by
    intro bindings
    induction bindings with
    | nil => rfl
    | cons i bindings ih =>
      obtain ⟨name, values⟩ := i
      by_cases hname : array = name
      · subst hname
        rw [List.filter_cons_of_pos (by simpa using harray), List.lookup_cons, List.lookup_cons]
        simp
      · have hne : (array == name) = false := by simpa using hname
        rw [List.lookup_cons, hne, List.filter_cons]
        split
        · rw [List.lookup_cons, hne, ih]
        · exact ih
  rw [boundData, boundData, ← List.filter_reverse, hlookup]

namespace Lowered

theorem exists_of_finalize {p q : Plan} {outputs : List Handle} {withStores : Bool} {k : Kernel} (hp : p.WellFormed)
    (h : (Build.finalize outputs withStores).runOn p = (.ok k, q)) :
    ∃ A : Lowered, A.plan = p ∧ A.outputs = outputs ∧ A.kernel = k := by
  obtain ⟨stores, hlowers⟩ := Plan.finalize_lowers hp h
  exact ⟨⟨p, outputs, stores, k, q, hp, hlowers⟩, rfl, rfl, rfl⟩

theorem outputArray?_of_stored (A : Lowered) {o : Realization} (ho : o ∈ A.stores) {a : Handle} (ha : a ∈ A.outputs)
    (hname : o.rule.name = a.rule) : A.kernel.outputArray? a = some o.array :=
  A.lowers.find?_outputs ⟨a, ha, rfl⟩ (hname ▸ A.lowers.array?_of_realization A.wellFormed ho)

theorem requested (A : Lowered) {o : Realization} (ho : o ∈ A.stores) :
    o.handle ∈ A.outputs ∧ o.handle.rule = o.rule.name ∧ o.handle.plan = A.plan.id := by
  obtain ⟨hmem, hname, _⟩ := Plan.requestedIn_eq_some (A.lowers.sound o ho).2.1
  exact ⟨hmem, hname, A.lowers.own _ hmem⟩

end Lowered

namespace Plan

theorem Extends.unbacked {p p' : Plan} (h : p.Extends p') {rule : String} (hnone : p'.backing.find? rule = none) :
    p.backing.find? rule = none := by
  obtain ⟨later, hlater, _⟩ := h.backed
  rw [BackingTable.find?, hlater, List.lookup_append] at hnone
  exact (Option.or_eq_none_iff.1 hnone).1

section Later

variable [Scalar α] {p p' q q' : Plan} {handles handles' outputs : List Handle} {k k' : Kernel} {parameters : Env}

theorem beside_of_evolves (hreach : p.Reachable handles) (hlater : p.Evolves handles p' handles') {A B : Lowered}
    (hA : A.plan = p') (hB : B.plan = p) (houtputs : ∀ b ∈ A.outputs, b.plan = p'.id → b ∈ handles')
    (hrequested : B.outputs = A.outputs.filter fun b => p'.backing.find? b.rule = none ∧ b ∈ handles)
    (hfree : ∀ v ∈ A.kernel.domains.flatMap Domain.vars, parameters.value? v = none)
    (hfree' : ∀ v ∈ B.kernel.domains.flatMap Domain.vars, parameters.value? v = none) (goal : String) :
    A.Beside B α parameters p.rules.size goal := by
  subst hA hB
  have hintact : A.plan.Intact handles' := by
    obtain ⟨identity, settings, hevolves⟩ := hreach
    exact (Reachable.primed ⟨identity, settings, hevolves.trans hlater⟩).1
  have hlive : ∀ a ∈ handles, B.plan.Live a := fun a ha => hreach.live ha
  have hext := (hlater.invariant B.wellFormed hlive).1
  have hrules : ∀ i < B.plan.rules.size, A.plan.rules.rules[i]? = B.plan.rules.rules[i]? := fun i hi => by
    obtain ⟨later, hrules⟩ := hext.rules
    rw [hrules, List.getElem?_append_left hi]
  refine ⟨hext, Nat.le_succ _, hrules, fun i hi => ?_, fun o' ho' hi => ?_, fun o ho hi halone => ?_, hfree, hfree'⟩
  · obtain ⟨later, hpending, hkeys⟩ := hext.pending
    have hnone : later.filter (fun e => e.1 = i) = [] := List.filter_eq_nil_iff.2 fun e he => by
      have hkey := hkeys e he
      simpa using by omega
    rw [hpending, List.filter_append, hnone, List.append_nil]
  · obtain ⟨hmem, hname, _⟩ := B.requested ho'
    rw [hrequested] at hmem
    obtain ⟨hmem, hcondition⟩ := List.mem_filter.1 hmem
    obtain ⟨hunbacked, _⟩ : A.plan.backing.find? o'.handle.rule = none ∧ o'.handle ∈ handles := by simpa using hcondition
    obtain ⟨o, ho, hsame⟩ := A.lowers.exists_realization hmem hunbacked
    obtain ⟨hmem₁, hname₁, hown₁⟩ := A.requested ho
    refine ⟨o, ho, A.index_of_name ho ((hrules _ hi).trans (B.lowers.sound o' ho').1) (hsame.trans hname), ?_⟩
    refine hintact.distinct _ (houtputs _ hmem₁ hown₁) _ (houtputs _ hmem (A.lowers.own _ hmem)) ?_
    rw [hname₁, hsame]
  -- what the first kernel stores for a rule of the second plan was requested there as well
  · obtain ⟨hmem, hname, hown⟩ := A.requested ho
    have hunbacked : A.plan.backing.find? o.handle.rule = none := hname ▸ A.unbacked ho
    have hrule : B.plan.rules.rules[o.index]? = some o.rule := (hrules _ hi).symm.trans (A.lowers.sound o ho).1
    have hregistered : o.handle.rule ∈ ruleNames B.plan.rules.rules :=
      hname ▸ List.mem_map_of_mem (List.mem_of_getElem? hrule)
    have hbefore : o.handle ∈ handles :=
      (hlater.backed_of_registered B.wellFormed hlive (houtputs _ hmem hown) hregistered).resolve_right
        (BackingTable.find?_eq_none_iff.1 hunbacked)
    have hmem' : o.handle ∈ B.outputs := by
      rw [hrequested]
      exact List.mem_filter.2 ⟨hmem, by simpa using ⟨hunbacked, hbefore⟩⟩
    obtain ⟨o', ho', hsame⟩ := B.lowers.exists_realization hmem' (hext.unbacked hunbacked)
    exact absurd (B.index_of_name ho' hrule (hsame.trans hname)) (halone o' ho')

/-- Steps taken after a handle was created do not change what is stored for it. The plan is lowered as it was when the
handle had been given, for what was requested by then and has no array in the end, and again with all later steps, for
all that is requested. On the same data the two kernels leave the same elements in the arrays of the handle. -/
theorem finalize_ignores_later_steps (hreach : p.Reachable handles) (hlater : p.Evolves handles p' handles')
    (houtputs : ∀ b ∈ outputs, b.plan = p'.id → b ∈ handles') {a : Handle} (ha : a ∈ handles) (hrequested : a ∈ outputs)
    (hunbacked : p'.backing.find? a.rule = none) {withStores withStores' : Bool}
    (hfinalize : (Build.finalize outputs withStores).runOn p' = (.ok k, q))
    (hfinalize' : (Build.finalize (outputs.filter fun b => p'.backing.find? b.rule = none ∧ b ∈ handles)
      withStores').runOn p = (.ok k', q'))
    (hfree : ∀ v ∈ k.domains.flatMap Domain.vars, parameters.value? v = none)
    (hfree' : ∀ v ∈ k'.domains.flatMap Domain.vars, parameters.value? v = none)
    {inputs : List (String × Array α)} (hinputs : ∀ i ∈ inputs, i.1 ∈ arrayNames p'.arrays) {m m' : Memory α}
    (hexecute : k.execute parameters inputs = .ok m)
    (hexecute' : k'.execute parameters (inputs.filter fun i => i.1 ∈ arrayNames p.arrays) = .ok m') :
    ∃ array array', k.outputArray? a = some array ∧ k'.outputArray? a = some array' ∧
      ∀ index, m.load? array index = m'.load? array' index := by
  have hp := hreach.wellFormed
  obtain ⟨hext, hp', _⟩ := hlater.invariant hp fun a ha => hreach.live ha
  obtain ⟨A, rfl, rfl, rfl⟩ := Lowered.exists_of_finalize hp' hfinalize
  obtain ⟨B, rfl, houtputs', rfl⟩ := Lowered.exists_of_finalize hp hfinalize'
  have hbeside : ∀ goal, A.Beside B α parameters B.plan.rules.size goal :=
    beside_of_evolves hreach hlater rfl rfl houtputs houtputs' hfree hfree'
  have hcut : a ∈ B.outputs := by
    rw [houtputs']
    exact List.mem_filter.2 ⟨hrequested, by simpa using ⟨hunbacked, ha⟩⟩
  have hfed : A.Fed B inputs (inputs.filter fun i => i.1 ∈ arrayNames B.plan.arrays) :=
    ⟨hinputs, fun i hi => by simpa using (List.mem_filter.1 hi).2, fun array harray => (boundData_filter harray).symm⟩
  obtain ⟨o', ho', hname'⟩ := B.lowers.exists_realization hcut (hext.unbacked hunbacked)
  have hindex' : o'.index < B.plan.rules.size := (List.getElem?_eq_some_iff.1 (B.lowers.sound o' ho').1).1
  obtain ⟨o, ho, hindex, _⟩ := (hbeside o'.array).shared o' ho' hindex'
  have hrule := (hbeside o'.array).rule_eq ho ho' hindex (hindex ▸ hindex')
  have hloads := (hbeside o'.array).load?_stored (Nat.le_succ_of_le hext.size_le) hfed hexecute hexecute' ho ho' hindex
    (hindex ▸ hindex')
  exact ⟨o.array, o'.array, A.outputArray?_of_stored ho hrequested (hrule ▸ hname'),
    B.outputArray?_of_stored ho' hcut hname', fun index => by rw [hloads]⟩

end Later

section Others

def queuedBefore (p : Plan) (index : Nat) : List (Nat × Statement) :=
  p.pending.filter fun e => e.1 ≤ index

/-- In a kernel of the plan, a statement that was queued after the rule writes what the rule reads, and then the rule
is called for what the array of the handle holds in the end. -/
def Overtaken (p : Plan) (k : Kernel) (h : Handle) (rule : String) : Prop :=
  ∃ i r array, p.rules.rules[i]? = some r ∧ r.name = rule ∧ k.outputArray? h = some array ∧
    k.Overtakes array rule (k.statements.drop (p.queuedBefore i).length)

variable {pending : List (Nat × Statement)} {os : List Realization} {n stop : Nat}

theorem agenda_eq_filter (hsorted : (pending.map Prod.fst).Pairwise (· ≤ ·)) (hlate : ∀ o ∈ os, n ≤ o.index) :
    agenda pending os n = pending.filter fun e => e.1 < n := by
  induction n with
  | zero => simp [agenda]
  | succ n ih =>
    have hnone : os.filter (fun o => o.index = n) = [] := List.filter_eq_nil_iff.2 fun o ho => by
      have hle := hlate o ho
      simpa using by omega
    rw [agenda, dueAt, hnone, List.map_nil, List.append_nil, ih fun o ho => Nat.le_of_succ_le (hlate o ho),
      filter_lt_succ hsorted]

theorem exists_agenda_later (pending : List (Nat × Statement)) (os : List Realization) (hn : n ≤ stop) :
    ∃ rest, agenda pending os stop = agenda pending os n ++ rest ∧ ∀ e ∈ rest, n ≤ e.1 := by
  induction hn with
  | refl => exact ⟨[], (List.append_nil _).symm, by simp⟩
  | @step stop hn ih =>
    obtain ⟨rest, hrest, hlate⟩ := ih
    refine ⟨rest ++ dueAt pending os stop, by rw [agenda, hrest, List.append_assoc], fun e he => ?_⟩
    rcases List.mem_append.1 he with he | he
    · exact hlate e he
    · exact (mem_dueAt_iff.1 he).1.symm ▸ hn

theorem exists_agenda_append (pending : List (Nat × Statement)) (os : List Realization) (hn : n ≤ stop) :
    ∃ rest, agenda pending os stop = agenda pending os n ++ rest :=
  (exists_agenda_later pending os hn).imp fun _ h => h.1

theorem exists_agenda_before {before later : List (Nat × Statement)} {e : Nat × Statement}
    (hsplit : agenda pending os stop = before ++ e :: later) (hn : n ≤ stop) (he : n ≤ e.1) :
    ∃ between, before = agenda pending os n ++ between := by
  obtain ⟨rest, hrest⟩ := exists_agenda_append pending os hn
  rcases List.append_eq_append_iff.1 (hrest.symm.trans hsplit) with ⟨between, hbefore, _⟩ | ⟨between, hagenda, hrest⟩
  · exact ⟨between, hbefore⟩
  · cases between with
    | nil => exact ⟨[], by rw [hagenda, List.append_nil, List.append_nil]⟩
    | cons e' between =>
      obtain rfl := (List.cons.inj hrest).1
      have hlt : e.1 < n := (mem_agenda_iff.1 (hagenda ▸ List.mem_append_right _ List.mem_cons_self)).1
      omega

variable [Scalar α] [StableIndices α] {p q q' : Plan} {handles outputs : List Handle} {h : Handle} {k k' : Kernel}
  {parameters : Env}

omit [Scalar α] [StableIndices α] in
/-- A rule that is not overtaken is current wherever the kernel calls it. -/
theorem not_demands_of_not_overtaken {B : Lowered} {i : Nat} {r : Rule} {goal : String}
    (hr : B.plan.rules.rules[i]? = some r) (hgoal : B.kernel.outputArray? h = some goal)
    (hlate : ∀ o ∈ B.stores, i < o.index) (hcurrent : ¬ B.plan.Overtaken B.kernel h r.name)
    (hi : i < stop) (hstop : stop ≤ B.plan.rules.size + 1) {before later : List (Nat × Statement)} {e : Nat × Statement}
    (hsplit : agenda B.plan.pending B.stores stop = before ++ e :: later) (he : i < e.1) {target : String}
    (htarget : e.2.targets target = true) (hreads : B.kernel.Reads target (.call r.name [])) :
    ¬ B.kernel.Demands goal r.name ((e :: later).map B.rewritten) := by
  intro hdemands
  obtain ⟨between, hbefore⟩ := exists_agenda_before hsplit hi he
  obtain ⟨rest, hrest⟩ := exists_agenda_append B.plan.pending B.stores hstop
  have hqueued : agenda B.plan.pending B.stores (i + 1) = B.plan.queuedBefore i := by
    rw [agenda_eq_filter B.wellFormed.sorted hlate]
    exact List.filter_congr fun e _ => decide_eq_decide.2 Nat.lt_succ_iff
  have hstatements : B.kernel.statements = (B.plan.queuedBefore i).map B.rewritten ++
      (between.map B.rewritten ++ B.rewritten e :: (later.map B.rewritten ++ rest.map B.rewritten)) := by
    rw [B.statements_eq, hrest, hsplit, hbefore, hqueued]
    simp only [List.map_append, List.map_cons, List.append_assoc, List.cons_append]
  obtain ⟨index, hload⟩ := Statement.targets_iff.1 htarget
  have hlater : B.kernel.Demands goal r.name (B.rewritten e :: (later.map B.rewritten ++ rest.map B.rewritten)) :=
    hdemands.append
  refine hcurrent ⟨i, r, goal, hr, rfl, hgoal, between.map B.rewritten, B.rewritten e, _, ?_, hlater, target, ?_, hreads⟩
  · rw [hstatements, List.drop_left' (by rw [List.length_map])]
  · exact Statement.targets_iff.2 ⟨_, Statement.target_loadBacked hload⟩

theorem beside_of_one {A B : Lowered} (hA : A.plan.Intact handles) (hB : B.plan = A.plan)
    (houtputs : ∀ b ∈ A.outputs, b.plan = A.plan.id → b ∈ handles) (hh : h ∈ A.outputs) (hone : B.outputs = [h])
    (hfits : ∀ b ∈ A.outputs, ∀ e ∈ b.shape.extents, e.lengthIn parameters = .ok (e.bound parameters).toNat)
    (hfree : ∀ v ∈ A.kernel.domains.flatMap Domain.vars, parameters.value? v = none)
    (hfree' : ∀ v ∈ B.kernel.domains.flatMap Domain.vars, parameters.value? v = none) {goal : String}
    (hgoal : B.kernel.outputArray? h = some goal) (hcurrent : ∀ b ∈ A.outputs, b.rule ≠ h.rule →
      A.plan.backing.find? b.rule = none → ¬ A.plan.Overtaken B.kernel h b.rule)
    (hstop : stop ≤ A.plan.rules.size + 1) (hlast : ∀ o ∈ B.stores, stop ≤ o.index + 1) :
    A.Beside B α parameters stop goal := by
  have hown : ∀ o ∈ A.stores, o.handle ∈ handles := fun o ho =>
    houtputs _ (A.requested ho).1 (A.requested ho).2.2
  have hrule : ∀ o' ∈ B.stores, o'.rule.name = h.rule := fun o' ho' => by
    obtain ⟨hmem, hname, _⟩ := B.requested ho'
    rw [hone, List.mem_singleton] at hmem
    rw [← hname, hmem]
  refine ⟨hB ▸ .refl B.plan, hB ▸ hstop, fun i _ => by rw [hB], fun i _ => by rw [hB], fun o' ho' _ => ?_,
    fun o ho hi halone => ?_, hfree, hfree'⟩
  · obtain ⟨o, ho, hname⟩ := A.lowers.exists_realization hh (by rw [← hrule o' ho', ← hB]; exact B.unbacked ho')
    obtain ⟨hmem, hsame, _⟩ := B.requested ho'
    refine ⟨o, ho, A.index_of_name ho (hB ▸ (B.lowers.sound o' ho').1) (hname.trans (hrule o' ho').symm), ?_⟩
    rw [hone, List.mem_singleton] at hmem
    rw [hmem]
    refine hA.distinct _ (hown o ho) _ (houtputs h hh (A.lowers.own h hh)) ?_
    rw [(A.requested ho).2.1, hname]
  · obtain ⟨hmem, hname, _⟩ := A.requested ho
    have hr : A.plan.rules.rules[o.index]? = some o.rule := (A.lowers.sound o ho).1
    have hother : o.handle.rule ≠ h.rule := fun heq => by
      obtain ⟨o', ho', hsame⟩ := B.lowers.exists_realization (hone ▸ List.mem_singleton_self h)
        (by rw [hB, ← heq, hname]; exact A.unbacked ho)
      refine halone o' ho' (B.index_of_name ho' (hB ▸ hr) ?_)
      rw [hsame, ← heq, hname]
    refine ⟨inferInstance, ?_, hfits _ hmem, fun before e later hsplit he target htarget hreads => ?_⟩
    · obtain ⟨r, hfind, harity⟩ := (hA.live _ (hown o ho)).rule
      rw [hname, A.wellFormed.find?_of_mem (List.mem_of_getElem? hr)] at hfind
      exact Option.some.inj hfind ▸ harity
    · have hnot := hcurrent _ hmem hother (hname ▸ A.unbacked ho)
      rw [hname, ← hB] at hnot
      refine not_demands_of_not_overtaken (hB ▸ hr) hgoal (fun o' ho' => ?_) hnot hi (hB ▸ hstop) hsplit he htarget hreads
      have hle := hlast o' ho'
      have hne := halone o' ho'
      omega

/-- Other requests do not change what a handle holds in the end, unless the rule of one of them is overtaken. The plan
is lowered for some handles and for one of them alone. On the same data the two kernels leave the same elements in the
arrays of that handle. -/
theorem finalize_ignores_other_outputs (hreach : p.Reachable handles)
    (houtputs : ∀ b ∈ outputs, b.plan = p.id → b ∈ handles) (hrequested : h ∈ outputs) {withStores withStores' : Bool}
    (hfinalize : (Build.finalize outputs withStores).runOn p = (.ok k, q))
    (hfinalize' : (Build.finalize [h] withStores').runOn p = (.ok k', q'))
    (hcurrent : ∀ b ∈ outputs, b.rule ≠ h.rule → p.backing.find? b.rule = none → ¬ p.Overtaken k' h b.rule)
    (hfits : ∀ b ∈ outputs, ∀ e ∈ b.shape.extents, e.lengthIn parameters = .ok (e.bound parameters).toNat)
    (hfree : ∀ v ∈ k.domains.flatMap Domain.vars, parameters.value? v = none)
    (hfree' : ∀ v ∈ k'.domains.flatMap Domain.vars, parameters.value? v = none)
    {inputs : List (String × Array α)} (hinputs : ∀ i ∈ inputs, i.1 ∈ arrayNames p.arrays) {m m' : Memory α}
    (hexecute : k.execute parameters inputs = .ok m) (hexecute' : k'.execute parameters inputs = .ok m') :
    ∃ array array', k.outputArray? h = some array ∧ k'.outputArray? h = some array' ∧
      ∀ index, m.load? array index = m'.load? array' index := by
  have hp := hreach.primed.1
  obtain ⟨A, rfl, rfl, rfl⟩ := Lowered.exists_of_finalize hp.wellFormed hfinalize
  obtain ⟨B, hB, hone, rfl⟩ := Lowered.exists_of_finalize hp.wellFormed hfinalize'
  have hfed : A.Fed B inputs inputs := ⟨hinputs, hB ▸ hinputs, fun _ _ => rfl⟩
  have hh : h ∈ B.outputs := hone ▸ List.mem_singleton_self h
  cases hfind : A.plan.backing.find? h.rule with
  | some entry =>
    have hstored : ∀ L : Lowered, L.plan = A.plan → h ∈ L.outputs → L.kernel.outputArray? h = some entry.array := by
      intro L hL hmem
      have hafter := L.lowers.find?_backed (hL ▸ hfind)
      exact L.lowers.find?_outputs ⟨h, hmem, rfl⟩ (by rw [BackingTable.array?, hafter]; rfl)
    have hnone : ∀ o ∈ B.stores, A.plan.rules.size + 1 ≤ o.index + 1 := fun o ho => by
      have hunbacked := B.unbacked ho
      obtain ⟨hmem, hname, _⟩ := B.requested ho
      rw [hone, List.mem_singleton] at hmem
      rw [← hname, hmem, hB, hfind] at hunbacked
      cases hunbacked
    have harray : entry.array ∈ arrayNames A.plan.arrays :=
      (hp.wellFormed.backed _ (BackingTable.mem_of_find? hfind)).2.1
    have hbeside : A.Beside B α parameters (A.plan.rules.size + 1) entry.array :=
      beside_of_one hp hB houtputs hrequested hone hfits hfree hfree' (hstored B hB hh) hcurrent (Nat.le_refl _) hnone
    refine ⟨entry.array, entry.array, hstored A rfl hrequested, hstored B hB hh, fun index => ?_⟩
    rw [← hB] at hbeside harray
    rw [hbeside.load?_declared (by rw [hB]) hfed hexecute hexecute' harray]
  | none =>
    obtain ⟨o', ho', hname'⟩ := B.lowers.exists_realization hh (hB ▸ hfind)
    have hsize : o'.index < A.plan.rules.size := hB ▸ (List.getElem?_eq_some_iff.1 (B.lowers.sound o' ho').1).1
    have hlast : ∀ o ∈ B.stores, o'.index + 1 ≤ o.index + 1 := fun o ho => by
      obtain ⟨hmem, hname, _⟩ := B.requested ho
      rw [hone, List.mem_singleton] at hmem
      obtain rfl := B.lowers.realization_inj B.wellFormed ho ho' (by rw [hname', ← hname, hmem])
      exact Nat.le_refl _
    have harray := B.outputArray?_of_stored ho' hh hname'
    have hbeside : A.Beside B α parameters (o'.index + 1) o'.array :=
      beside_of_one hp hB houtputs hrequested hone hfits hfree hfree' harray hcurrent (by omega) hlast
    obtain ⟨o, ho, hindex, _⟩ := hbeside.shared o' ho' (Nat.lt_succ_self _)
    have hi : o.index < o'.index + 1 := hindex ▸ Nat.lt_succ_self _
    have hloads := hbeside.load?_stored (by omega) hfed hexecute hexecute' ho ho' hindex hi
    exact ⟨o.array, o'.array, A.outputArray?_of_stored ho hrequested ((hbeside.rule_eq ho ho' hindex hi) ▸ hname'), harray,
      fun index => by rw [hloads]⟩

end Others

def succeeded : Progress :=
  (Progress.start (.empty 0 .default)).run
    [.input (.extents [.fixed 2]) .float64, .combine .add 0 (.literal (.int 1))]

def rewritten : Progress :=
  succeeded.run [.write 0 [.at 0] (.literal (.int 5)), .combine .mul 1 (.literal (.int 2))]

theorem run_succeeded_reachable (ops : List (Operation Nat)) :
    (succeeded.run ops).plan.Reachable (succeeded.run ops).handles := by
  obtain ⟨identity, settings, hevolves⟩ := (Progress.run_reachable 0 .default _ : succeeded.plan.Reachable succeeded.handles)
  exact ⟨identity, settings, hevolves.trans (Progress.run_evolves ops succeeded)⟩

def runsOnPair (x : Except PlanError Kernel × Plan) : Bool :=
  match x.1 with
  | .ok k => (k.execute .empty [("arr0", (#[10, 20] : Array Int))]).isOk
  | .error _ => false

theorem exists_of_runsOnPair {x : Except PlanError Kernel × Plan} (h : runsOnPair x = true) :
    ∃ k q m, x = (.ok k, q) ∧ k.execute .empty [("arr0", (#[10, 20] : Array Int))] = .ok m := by
  obtain ⟨outcome, q⟩ := x
  cases outcome with
  | error e => cases h
  | ok k =>
    cases hexecute : k.execute .empty [("arr0", (#[10, 20] : Array Int))] with
    | error e =>
      simp only [runsOnPair, hexecute] at h
      cases h
    | ok m => exact ⟨k, q, m, rfl, hexecute⟩

theorem finalize_ignores_later_steps_rewritten : ∃ (k k' : Kernel) (q q' : Plan) (m m' : Memory Int) (array array' : String),
    (Build.finalize [pairHandle "subst2" .float64, pairHandle "subst1" .float64] false).runOn rewritten.plan =
      (.ok k, q) ∧
    (Build.finalize [pairHandle "subst1" .float64] false).runOn succeeded.plan = (.ok k', q') ∧
    k.execute .empty [("arr0", #[10, 20])] = .ok m ∧ k'.execute .empty [("arr0", #[10, 20])] = .ok m' ∧
    k.outputArray? (pairHandle "subst1" .float64) = some array ∧
    k'.outputArray? (pairHandle "subst1" .float64) = some array' ∧
    ∀ index, m.load? array index = m'.load? array' index := by
  obtain ⟨k, q, m, hfinalize, hexecute⟩ := exists_of_runsOnPair (x :=
    (Build.finalize [pairHandle "subst2" .float64, pairHandle "subst1" .float64] false).runOn rewritten.plan)
    (by decide +kernel)
  obtain ⟨k', q', m', hfinalize', hexecute'⟩ := exists_of_runsOnPair (x :=
    (Build.finalize [pairHandle "subst1" .float64] false).runOn succeeded.plan) (by decide +kernel)
  have hcut : [pairHandle "subst2" .float64, pairHandle "subst1" .float64].filter (fun b =>
      rewritten.plan.backing.find? b.rule = none ∧ b ∈ succeeded.handles) = [pairHandle "subst1" .float64] := by
    decide +kernel
  have hown : ∀ i ∈ [("arr0", (#[10, 20] : Array Int))], i.1 ∈ arrayNames rewritten.plan.arrays := by decide +kernel
  have hcutInputs : [("arr0", (#[10, 20] : Array Int))].filter (fun i => i.1 ∈ arrayNames succeeded.plan.arrays) =
      [("arr0", #[10, 20])] := by decide +kernel
  have hfree : ∀ vars : List String, ∀ v ∈ vars, Env.empty.value? v = none := fun _ _ _ => rfl
  obtain ⟨array, array', harray, harray', hloads⟩ := finalize_ignores_later_steps (α := Int)
    (a := pairHandle "subst1" .float64) (Progress.run_reachable 0 .default _) (Progress.run_evolves _ succeeded)
    (by decide +kernel) (by decide +kernel) (by decide +kernel) (by decide +kernel) hfinalize (hcut ▸ hfinalize')
    (hfree _) (hfree _) hown hexecute (hcutInputs ▸ hexecute')
  exact ⟨k, k', q, q', m, m', array, array', hfinalize, hfinalize', hexecute, hexecute', harray, harray', hloads⟩

def firstOnPair (x : Except PlanError Kernel × Plan) (h : Handle) : Option Int :=
  match x.1 with
  | .ok k =>
    match k.execute .empty [("arr0", (#[10, 20] : Array Int))] with
    | .ok m => (k.outputArray? h).bind fun array => m.load? array [0]
    | .error _ => none
  | .error _ => none

theorem exists_of_firstOnPair {x : Except PlanError Kernel × Plan} {h : Handle} {v : Int} (hv : firstOnPair x h = some v) :
    ∃ k q m array, x = (.ok k, q) ∧ k.execute .empty [("arr0", (#[10, 20] : Array Int))] = .ok m ∧
      k.outputArray? h = some array ∧ m.load? array [0] = some v := by
  obtain ⟨outcome, q⟩ := x
  cases outcome with
  | error e => cases hv
  | ok k =>
    cases hexecute : k.execute .empty [("arr0", (#[10, 20] : Array Int))] with
    | error e =>
      simp only [firstOnPair, hexecute] at hv
      cases hv
    | ok m =>
      simp only [firstOnPair, hexecute] at hv
      obtain ⟨array, harray, hload⟩ := Option.bind_eq_some_iff.1 hv
      exact ⟨k, q, m, array, rfl, hexecute, harray, hload⟩

/-- The write overtakes the successor. Where that is requested as well, the doubled one is made of what it was before
the write, and else of what it is afterwards. -/
theorem other_outputs_change_doubled : ∃ (k k' : Kernel) (q q' : Plan) (m m' : Memory Int) (array array' : String),
    rewritten.plan.Reachable rewritten.handles ∧
    (Build.finalize [pairHandle "subst2" .float64, pairHandle "subst1" .float64] false).runOn rewritten.plan =
      (.ok k, q) ∧
    (Build.finalize [pairHandle "subst2" .float64] false).runOn rewritten.plan = (.ok k', q') ∧
    k.execute .empty [("arr0", #[10, 20])] = .ok m ∧ k'.execute .empty [("arr0", #[10, 20])] = .ok m' ∧
    k.outputArray? (pairHandle "subst2" .float64) = some array ∧
    k'.outputArray? (pairHandle "subst2" .float64) = some array' ∧
    m.load? array [0] = some 22 ∧ m'.load? array' [0] = some 12 := by
  obtain ⟨k, q, m, array, hfinalize, hexecute, harray, hload⟩ := exists_of_firstOnPair (x :=
    (Build.finalize [pairHandle "subst2" .float64, pairHandle "subst1" .float64] false).runOn rewritten.plan)
    (h := pairHandle "subst2" .float64) (v := 22) (by decide +kernel)
  obtain ⟨k', q', m', array', hfinalize', hexecute', harray', hload'⟩ := exists_of_firstOnPair (x :=
    (Build.finalize [pairHandle "subst2" .float64] false).runOn rewritten.plan)
    (h := pairHandle "subst2" .float64) (v := 12) (by decide +kernel)
  exact ⟨k, k', q, q', m, m', array, array', run_succeeded_reachable _, hfinalize, hfinalize', hexecute,
    hexecute', harray, harray', hload, hload'⟩

def doubledFirst : Progress :=
  succeeded.run [.combine .mul 1 (.literal (.int 2)), .write 0 [.at 0] (.literal (.int 5))]

def doubledAlone : Except PlanError Kernel × Plan :=
  (Build.finalize [pairHandle "subst2" .float64] false).runOn doubledFirst.plan

theorem not_overtaken_doubledFirst {k : Kernel} {q : Plan} (hfinalize : doubledAlone = (.ok k, q)) :
    ¬ doubledFirst.plan.Overtaken k (pairHandle "subst2" .float64) "subst1" := by
  obtain ⟨k', q', hfinalize', hcheck⟩ := @exists_of_succeedsWith _ _ doubledAlone
    (fun k _ => k.outputArray? (pairHandle "subst2" .float64) = some "arr1" &&
      k.statements.map (fun s => (s.targets "arr0", s.targets "arr1")) = [(false, true), (true, false)] &&
      k.rules.all fun r => r.name ≠ "subst1" || (r.body.calls = [] && r.body.loads = ["arr0"])) (by decide +kernel)
  cases hfinalize.symm.trans hfinalize'
  simp only [Bool.and_eq_true, decide_eq_true_eq, List.all_eq_true] at hcheck
  obtain ⟨⟨hgoal, hstatements⟩, hrules⟩ := hcheck
  have hloads : ∀ target, k.Reads target (.call "subst1" []) → target = "arr0" := fun target hreads => by
    obtain ⟨r, hr, hname, hbody⟩ := Kernel.reads_call_iff.1 hreads
    have hr := hrules r hr
    simp only [hname, ne_eq, not_true_eq_false, decide_false, Bool.false_or, Bool.and_eq_true, decide_eq_true_eq] at hr
    cases hbody with
    | load hload => simpa [hr.2] using hload
    | call _ hcall _ => simp [hr.1] at hcall
  rintro ⟨i, r, array, _, _, harray, hovertakes⟩
  obtain rfl := Option.some.inj (hgoal.symm.trans harray)
  have hovertakes := hovertakes.of_drop
  obtain ⟨store, _, heq, hstore, hrest⟩ := List.map_eq_cons_iff.1 hstatements
  obtain ⟨write, _, rfl, hwrite, hrest⟩ := List.map_eq_cons_iff.1 hrest
  obtain rfl := List.map_eq_nil_iff.1 hrest
  rw [heq, Kernel.overtakes_cons_iff, Kernel.overtakes_cons_iff] at hovertakes
  rcases hovertakes with ⟨_, target, htarget, hreads⟩ | ⟨hdemands, _⟩ | hnil
  -- the store does not write what the successor reads
  · rw [hloads target hreads, (Prod.mk.inj hstore).1] at htarget
    cases htarget
  -- the write comes last, and does not store into the array of the doubled successor
  · rcases hdemands with hnil | ⟨target, htarget, rfl, _⟩
    · exact hnil
    · rw [(Prod.mk.inj hwrite).2] at htarget
      cases htarget
  · exact Kernel.not_overtakes_nil hnil

theorem finalize_ignores_other_outputs_doubledFirst :
    ∃ (k k' : Kernel) (q q' : Plan) (m m' : Memory Int) (array array' : String),
      (Build.finalize [pairHandle "subst2" .float64, pairHandle "subst1" .float64] false).runOn doubledFirst.plan =
        (.ok k, q) ∧
      doubledAlone = (.ok k', q') ∧
      k.execute .empty [("arr0", #[10, 20])] = .ok m ∧ k'.execute .empty [("arr0", #[10, 20])] = .ok m' ∧
      k.outputArray? (pairHandle "subst2" .float64) = some array ∧
      k'.outputArray? (pairHandle "subst2" .float64) = some array' ∧
      ∀ index, m.load? array index = m'.load? array' index := by
  obtain ⟨k, q, m, hfinalize, hexecute⟩ := exists_of_runsOnPair (x :=
    (Build.finalize [pairHandle "subst2" .float64, pairHandle "subst1" .float64] false).runOn doubledFirst.plan)
    (by decide +kernel)
  obtain ⟨k', q', m', hfinalize', hexecute'⟩ := exists_of_runsOnPair (x := doubledAlone) (by decide +kernel)
  have hown : ∀ i ∈ [("arr0", (#[10, 20] : Array Int))], i.1 ∈ arrayNames doubledFirst.plan.arrays := by decide +kernel
  have hfree : ∀ vars : List String, ∀ v ∈ vars, Env.empty.value? v = none := fun _ _ _ => rfl
  have hfits : ∀ b ∈ [pairHandle "subst2" .float64, pairHandle "subst1" .float64], ∀ e ∈ b.shape.extents,
      e.lengthIn .empty = .ok (e.bound .empty).toNat := by
    intro b hb e he
    have hextents : b.shape.extents = [.fixed 2] := by
      rcases List.mem_cons.1 hb with rfl | hb
      · rfl
      · rw [List.mem_singleton.1 hb]
        rfl
    obtain rfl := List.mem_singleton.1 (hextents ▸ he)
    rfl
  obtain ⟨array, array', harray, harray', hloads⟩ := finalize_ignores_other_outputs (α := Int)
    (h := pairHandle "subst2" .float64) (run_succeeded_reachable _ : doubledFirst.plan.Reachable doubledFirst.handles)
    (by decide +kernel) (by decide +kernel) hfinalize hfinalize' (fun b hb hne _ => by
      rcases List.mem_cons.1 hb with rfl | hb
      · exact absurd rfl hne
      · rw [List.mem_singleton.1 hb]
        exact not_overtaken_doubledFirst hfinalize') hfits (hfree _) (hfree _) hown hexecute hexecute'
  exact ⟨k, k', q, q', m, m', array, array', hfinalize, hfinalize', hexecute, hexecute', harray, harray', hloads⟩

end Plan

end ArrayPlan
