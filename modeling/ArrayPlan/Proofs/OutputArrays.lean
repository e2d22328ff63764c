import ArrayPlan.Proofs.Independence
import ArrayPlan.Proofs.Reshaping

/-!
Which handles a kernel names an array for, and what these arrays hold. The lookup goes by rules, so it answers for
every handle that has the rule of a requested one; among the handles of the plan that was lowered these are the
requested ones. The array of a rule that had none is filled by one statement, with the elements that the rule has when
the statement is reached, and nothing else is stored there.
-/

namespace ArrayPlan

open Interpretation

namespace Lowered

section Filling

variable {α : Type} [Scalar α] {parameters : Env} {A : Lowered} {o : Realization} {start mid m m' : Memory α}

theorem not_reads_own (A : Lowered) (ho : o ∈ A.stores) : ¬ A.kernel.Reads o.array (.call o.rule.name []) := by
  intro hreads
  rcases A.lowers.loadable_of_rule A.wellFormed (A.lowers.sound o ho).1 hreads with hdeclared | ⟨o', ho', hlt, hsame⟩
  · exact A.lowers.array_unused A.wellFormed ho hdeclared
  · obtain rfl := A.lowers.array_inj ho ho' hsame
    exact Nat.lt_irrefl _ hlt

/-- The array of a store has, at an index, the element of the rule in an earlier memory. -/
def Filled (A : Lowered) (parameters : Env) (o : Realization) (mid m : Memory α) (index : List Int) : Prop :=
  ∃ v, (A.kernel.reading parameters mid.load?).call o.rule.name (rounded α (o.argument index)) = some v ∧
    m.load? o.array (rounded α index) = some v

theorem filled_step (ho : o ∈ A.stores) {x : List Int} {point : Env} (hpoint : o.StoresAt α x point)
    (hsame : ∀ other, other ≠ o.array → m.load? other = mid.load? other)
    (hstore : A.kernel.storeAt parameters (A.rewritten (o.index, o.store)) m point = .ok m') :
    (∀ other, other ≠ o.array → m'.load? other = mid.load? other) ∧ A.Filled parameters o mid m' x ∧
      ∀ index, A.Filled parameters o mid m index → A.Filled parameters o mid m' index := by
  obtain ⟨v, hv, hstored⟩ := A.lowers.store_of_storeAt A.wellFormed hpoint hstore
  have hcall : (A.kernel.reading parameters m.load?).call o.rule.name =
      (A.kernel.reading parameters mid.load?).call o.rule.name :=
    Kernel.call_reading_congr A.layered fun array hreads => hsame array fun heq => A.not_reads_own ho (heq ▸ hreads)
  rw [Kernel.call_readingAt_of_unseen (A.unseen_at_store ho), hcall] at hv
  refine ⟨fun other hother => ?_, ⟨v, hv, ?_⟩, fun index hindex => ?_⟩
  · rw [← hsame other hother]
    funext index
    rw [Memory.load?_store hstored, if_neg fun h => hother h.1]
  · rw [Memory.load?_store hstored, if_pos ⟨rfl, rfl⟩]
  -- an index that is rounded to the place of `x` asks the rule for the same element
  · obtain ⟨w, hw, hload⟩ := hindex
    by_cases hplace : rounded α index = rounded α x
    · have hargument : rounded α (o.argument index) = rounded α (o.argument x) := by
        unfold Realization.argument
        split
        · rfl
        · exact hplace
      exact ⟨v, hargument ▸ hv, by rw [Memory.load?_store hstored, if_pos ⟨rfl, hplace⟩]⟩
    · exact ⟨w, hw, by rw [Memory.load?_store hstored, if_neg fun h => hplace h.2, hload]⟩

theorem filled_fold (ho : o ∈ A.stores) {indices : List (List Int)} {points : List Env}
    (hstores : List.Forall₂ (o.StoresAt α) indices points)
    (hsame : ∀ other, other ≠ o.array → m.load? other = mid.load? other)
    (hfold : points.foldlM (A.kernel.storeAt parameters (A.rewritten (o.index, o.store))) m = .ok m') :
    ∀ index, index ∈ indices ∨ A.Filled parameters o mid m index → A.Filled parameters o mid m' index := by
  induction hstores generalizing m with
  | nil =>
    cases hfold
    exact fun index hindex => hindex.resolve_left (by simp)
  | @cons x point indices points hpoint _ ih =>
    rw [List.foldlM_cons] at hfold
    obtain ⟨next, hstore, hfold⟩ := exists_of_bind_eq_ok hfold
    obtain ⟨hothers, hfilled, hkept⟩ := filled_step ho hpoint hsame hstore
    intro index hindex
    refine ih hothers hfold index ?_
    rcases hindex with hindex | hindex
    · rcases List.mem_cons.1 hindex with rfl | hindex
      · exact .inr hfilled
      · exact .inl hindex
    · exact .inr (hkept index hindex)

theorem filled_of_execute (ho : o ∈ A.stores) (hfree : ∀ v ∈ A.kernel.domains.flatMap Domain.vars, parameters.value? v = none)
    (hlengths : ∀ e ∈ o.handle.shape.extents, ∃ n, e.lengthIn parameters = .ok n)
    (hexecute : A.kernel.executeStatement parameters mid (A.rewritten (o.index, o.store)) = .ok m) :
    ∀ index ∈ o.indices parameters, A.Filled parameters o mid m index := by
  obtain ⟨points, hpoints, hfold⟩ := Kernel.exists_points_of_execute hexecute
  obtain ⟨_, hsame, hstores⟩ := A.lowers.exists_points (α := α) A.wellFormed ho hfree hlengths
  obtain rfl := Except.ok.inj (hsame.symm.trans hpoints)
  exact fun index hindex => filled_fold ho hstores (fun _ _ => rfl) hfold index (.inl hindex)

def before (A : Lowered) (o : Realization) : List (Nat × Statement) :=
  agenda A.plan.pending A.stores o.index ++ A.plan.pending.filter fun e => e.1 = o.index

theorem agenda_succ (ho : o ∈ A.stores) :
    agenda A.plan.pending A.stores (o.index + 1) = A.before o ++ [(o.index, o.store)] := by
  rw [agenda, dueAt, A.stores_at ho, before, List.append_assoc]
  rfl

theorem targets_rewritten (A : Lowered) {e : Nat × Statement} {stored array : String} {index : List Expr}
    (htarget : e.2.target = .load stored index) : (A.rewritten e).targets array = true ↔ stored = array := by
  rw [Statement.targets_iff, rewritten, Statement.target_loadBacked htarget]
  constructor
  · rintro ⟨_, heq⟩
    exact (Expr.load.inj heq).1
  · rintro rfl
    exact ⟨_, rfl⟩

theorem targets_rewritten_store (A : Lowered) {o : Realization} {array : String} :
    (A.rewritten (o.index, o.store)).targets array = true ↔ o.array = array := by
  obtain ⟨index, htarget⟩ := Statement.targets_iff.1 (Plan.Prepared.targets_store.2 (rfl : o.array = o.array))
  exact A.targets_rewritten htarget

theorem exists_split (ho : o ∈ A.stores) : ∃ later,
    agenda A.plan.pending A.stores (A.plan.rules.size + 1) = A.before o ++ (o.index, o.store) :: later ∧
      ∀ e ∈ A.before o ++ later, (A.rewritten e).targets o.array = false := by
  have hsize : o.index + 1 ≤ A.plan.rules.size + 1 :=
    Nat.le_succ_of_le (List.getElem?_eq_some_iff.1 (A.lowers.sound o ho).1).1
  obtain ⟨later, hlater, hlate⟩ := Plan.exists_agenda_later A.plan.pending A.stores hsize
  rw [agenda_succ ho, List.append_assoc, List.singleton_append] at hlater
  have hqueued : ∀ e ∈ A.plan.pending, (A.rewritten e).targets o.array = false := by
    intro e he
    obtain ⟨array, index, htarget, harray, _⟩ := (A.wellFormed.pending e he).2.target
    rw [Bool.eq_false_iff, Ne, A.targets_rewritten htarget]
    rintro rfl
    exact A.lowers.array_unused A.wellFormed ho harray
  have hstored : ∀ o' ∈ A.stores, o'.index ≠ o.index → (A.rewritten (o'.index, o'.store)).targets o.array = false := by
    intro o' ho' hne
    rw [Bool.eq_false_iff, Ne, A.targets_rewritten_store]
    exact fun hsame => hne (congrArg Realization.index (A.lowers.array_inj ho' ho hsame))
  refine ⟨later, hlater, fun e he => ?_⟩
  rcases List.mem_append.1 he with he | he
  · rcases List.mem_append.1 he with he | he
    · have hlt := (mem_agenda_iff.1 he).1
      rcases (mem_agenda_iff.1 he).2 with hpending | ⟨o', ho', rfl⟩
      · exact hqueued e hpending
      · exact hstored o' ho' (Nat.ne_of_lt hlt)
    · exact hqueued e (List.mem_filter.1 he).1
  · have hgt := hlate e he
    have hmem : e ∈ agenda A.plan.pending A.stores (A.plan.rules.size + 1) :=
      hlater ▸ List.mem_append_right _ (List.mem_cons_of_mem _ he)
    rcases (mem_agenda_iff.1 hmem).2 with hpending | ⟨o', ho', rfl⟩
    · exact hqueued e hpending
    · exact hstored o' ho' (Nat.ne_of_gt hgt)

theorem exists_reached (ho : o ∈ A.stores) {inputs : List (String × Array α)}
    (hexecute : A.kernel.execute parameters inputs = .ok m) :
    ∃ mid next, { A.kernel with statements := (A.before o).map A.rewritten }.execute parameters inputs = .ok mid ∧
      A.kernel.executeStatement parameters mid (A.rewritten (o.index, o.store)) = .ok next ∧
      m.load? o.array = next.load? o.array := by
  have hsize : o.index + 1 ≤ A.plan.rules.size + 1 :=
    Nat.le_succ_of_le (List.getElem?_eq_some_iff.1 (A.lowers.sound o ho).1).1
  obtain ⟨start, hstart, hrun⟩ := A.run_of_execute hexecute
  obtain ⟨next, hnext, hload⟩ := A.load?_after ho (Nat.lt_succ_self _) hsize hrun
  rw [agenda_succ ho, List.foldlM_append] at hnext
  obtain ⟨mid, hmid, hstore⟩ := exists_of_bind_eq_ok hnext
  refine ⟨mid, next, ?_, ?_, hload⟩
  · unfold Kernel.execute
    dsimp only
    rw [hstart]
    refine Eq.trans ?_ hmid
    exact List.foldlM_map ..
  · rw [List.foldlM_cons] at hstore
    obtain ⟨last, hlast, hend⟩ := exists_of_bind_eq_ok hstore
    cases hend
    exact hlast

theorem argument_eq (ho : o ∈ A.stores) (hlive : A.plan.Live o.handle) {index : List Int} {lengths : List Nat}
    (hlengths : o.handle.shape.extents.map (fun e => (e.bound parameters).toNat) = lengths) (hindex : InBox index lengths) :
    index ∈ o.indices parameters ∧ A.plan.argsAt o.rule.name (rounded α index) = rounded α (o.argument index) := by
  have hfind : A.plan.rules.find? o.rule.name = some o.rule :=
    A.wellFormed.find?_of_mem (List.mem_of_getElem? (A.lowers.sound o ho).1)
  obtain ⟨r, hr, harity⟩ := hlive.rule
  rw [(A.requested ho).2.1, hfind] at hr
  obtain rfl := Option.some.inj hr
  rw [Plan.argsAt, hfind]
  unfold Realization.indices Realization.argument
  dsimp only
  cases hunit : o.handle.shape.isUnit with
  | true =>
    have hshape : o.handle.shape = .unit := eq_of_beq hunit
    rw [hshape] at hlengths
    subst hlengths
    obtain rfl : index = [0] := eq_of_inBox_unit (show InBox index [1] from hindex)
    refine ⟨List.mem_singleton_self _, ?_⟩
    rcases harity with hrank | ⟨hzero, _⟩
    · have hone : o.rule.arity = 1 := by rw [hrank, Handle.rank, hshape]; rfl
      simp [hone]
    · simp [hzero, rounded]
  | false =>
    have hrank : o.rule.arity ≠ 0 := by
      rcases harity with hrank | ⟨_, hshape⟩
      · exact hrank ▸ Nat.ne_of_gt o.handle.shape.rank_pos
      · rw [hshape] at hunit
        cases hunit
    exact ⟨mem_boxPoints.2 (hlengths ▸ hindex), if_neg hrank⟩

end Filling

end Lowered

/-- One statement stores into the array. In every run in which no index variable is bound from outside and the lengths of
the handle are words, it leaves at each index the element that the handle has when the statement is reached. -/
def Kernel.StoresElements (k : Kernel) (p : Plan) (x : Handle) (array : String) : Prop :=
  ∃ before s later, k.statements = before ++ s :: later ∧ s.targets array = true ∧
    (∀ s' ∈ before ++ later, s'.targets array = false) ∧
    ∀ (α : Type) [Scalar α] (parameters : Env) (inputs : List (String × Array α)) (m : Memory α),
      (∀ v ∈ k.domains.flatMap Domain.vars, parameters.value? v = none) →
      (∀ e ∈ x.shape.extents, e.lengthIn parameters = .ok (e.bound parameters).toNat) →
      k.execute parameters inputs = .ok m →
      ∃ mid, { k with statements := before }.execute parameters inputs = .ok mid ∧
        ∀ index, InBox index (x.shape.extents.map fun e => (e.bound parameters).toNat) → ∃ v,
          (k.setting parameters mid).value (p.callOf x.rule (index.map .int)) .empty = .ok v ∧
          (k.setting parameters m).value (.load array (index.map .int)) .empty = .ok v

theorem Lowered.storesElements (A : Lowered) {o : Realization} (ho : o ∈ A.stores) (hlive : A.plan.Live o.handle) :
    A.kernel.StoresElements A.plan o.handle o.array := by
  obtain ⟨later, hsplit, hothers⟩ := exists_split ho
  refine ⟨(A.before o).map A.rewritten, A.rewritten (o.index, o.store), later.map A.rewritten, ?_, ?_, ?_, ?_⟩
  · rw [A.statements_eq, hsplit, List.map_append, List.map_cons]
  · exact A.targets_rewritten_store.2 rfl
  · intro s hs
    rw [← List.map_append] at hs
    obtain ⟨e, he, rfl⟩ := List.mem_map.1 hs
    exact hothers e he
  · intro α _ parameters inputs m hfree hfits hexecute
    obtain ⟨mid, next, hmid, hnext, hload⟩ := exists_reached ho hexecute
    refine ⟨mid, hmid, fun index hindex => ?_⟩
    obtain ⟨hmem, hargument⟩ := argument_eq (α := α) ho hlive rfl hindex
    obtain ⟨v, hv, hstored⟩ := filled_of_execute ho hfree (fun e he => ⟨_, hfits e he⟩) hnext index hmem
    refine ⟨v, ?_, ?_⟩
    · rw [← toOption_eq_some, Kernel.toOption_value A.layered, (A.requested ho).2.1,
        Plan.value?_callOf (position?_ints_rounded index _), hargument, hv]
    · rw [← toOption_eq_some, Kernel.toOption_value A.layered, value?_load_eq, position?_ints_rounded, Option.bind_some,
        Kernel.reading_load, hload, hstored]

namespace Plan

variable {p q : Plan} {handles outputs : List Handle} {withStores : Bool} {k : Kernel}

theorem Lowers.outputArray?_isSome_iff {os : List Realization} (hp : p.WellFormed) (h : p.Lowers outputs os k q) (x : Handle) :
    (k.outputArray? x).isSome ↔ ∃ a ∈ outputs, a.rule = x.rule := by
  constructor
  · intro hsome
    obtain ⟨b, hb, _⟩ := Option.map_eq_some_iff.1 (Option.eq_some_of_isSome hsome)
    have hrule : b.rule = x.rule := by simpa using List.find?_some hb
    exact hrule ▸ (h.mem_outputs.1 (List.mem_of_find?_eq_some hb)).1
  · rintro ⟨a, ha, hname⟩
    obtain ⟨_, _, houtput⟩ := h.exists_output hp ha
    rw [Kernel.outputArray?, ← hname]
    exact Option.isSome_of_eq_some houtput

/-- A kernel names an array for the handles that have the rule of a requested one. Of the handles of the plan these are
the requested ones. The array is declared with their shape and element type. It is the one that the rule had before, or
the rule had none and the array gets its elements. -/
theorem outputArray?_requested (hp : p.Reachable handles) (houtputs : ∀ a ∈ outputs, a.plan = p.id → a ∈ handles)
    (hfinalize : (Build.finalize outputs withStores).runOn p = (.ok k, q)) :
    (∀ x : Handle, (k.outputArray? x).isSome ↔ ∃ a ∈ outputs, a.rule = x.rule) ∧
      ∀ x ∈ handles, ((k.outputArray? x).isSome ↔ x ∈ outputs) ∧ ∀ array, k.outputArray? x = some array →
        (∃ d ∈ k.arrays, d.name = array ∧ d.shape = x.shape ∧ d.elementType = x.elementType) ∧
          q.backing.array? x.rule = some array ∧
            (p.backing.array? x.rule = some array ∨
              p.backing.array? x.rule = none ∧ k.StoresElements p x array) := by
  have hwf := hp.wellFormed
  have hintact := hp.primed.1
  obtain ⟨stores, hlowers⟩ := finalize_lowers hwf hfinalize
  have hsome := hlowers.outputArray?_isSome_iff hwf
  have hrequested : ∀ x ∈ handles, (k.outputArray? x).isSome → x ∈ outputs := by
    intro x hx hx'
    obtain ⟨a, ha, hname⟩ := (hsome x).1 hx'
    exact hintact.distinct a (houtputs a ha (hlowers.own a ha)) x hx hname ▸ ha
  refine ⟨hsome, fun x hx => ⟨⟨hrequested x hx, fun hmem => (hsome x).2 ⟨x, hmem, rfl⟩⟩, fun array harray => ?_⟩⟩
  have hmem := hrequested x hx (Option.isSome_of_eq_some harray)
  cases hbacked : p.backing.find? x.rule with
  | some entry =>
    have harray? : p.backing.array? x.rule = some entry.array := by rw [BackingTable.array?, hbacked, Option.map_some]
    have hafter : q.backing.array? x.rule = some entry.array := by
      rw [BackingTable.array?, hlowers.find?_backed hbacked, Option.map_some]
    obtain rfl : entry.array = array :=
      Option.some.inj ((hlowers.find?_outputs ⟨x, hmem, rfl⟩ hafter).symm.trans harray)
    obtain ⟨d, hd, hdeclared⟩ := hintact.holds x hx _ harray?
    exact ⟨⟨d, hlowers.arrays ▸ List.mem_append_left _ hd, hdeclared⟩, hafter, .inl harray?⟩
  | none =>
    let A : Lowered := ⟨p, outputs, stores, k, q, hwf, hlowers⟩
    obtain ⟨o, ho, hname⟩ := hlowers.exists_realization hmem hbacked
    obtain rfl : o.array = array := Option.some.inj ((A.outputArray?_of_stored ho hmem hname).symm.trans harray)
    -- the store is made for a handle of the rule, and a plan has one such handle only
    obtain ⟨hrequest, hrule, hown⟩ := A.requested ho
    obtain rfl : o.handle = x := hintact.distinct _ (houtputs _ hrequest hown) x hx (hrule.trans hname)
    refine ⟨⟨o.declaration, hlowers.arrays ▸ List.mem_append_right _ (List.mem_map_of_mem ho), rfl, rfl, rfl⟩,
      hname ▸ hlowers.array?_of_realization hwf ho, .inr ⟨?_, A.storesElements ho (hintact.live _ hx)⟩⟩
    rw [BackingTable.array?, hbacked, Option.map_none]

def pairFilled (id : Nat) : Progress :=
  (Progress.start (.empty id .default)).run [.fill (.extents [.fixed 2]) (.int 3)]

theorem outputArray?_requested_fill :
    ∃ (k : Kernel) (q : Plan), (Build.finalize (pairFilled 0).handles false).runOn (pairFilled 0).plan = (.ok k, q) ∧
      ∀ x ∈ (pairFilled 0).handles, k.outputArray? x = some "arr0" ∧ k.StoresElements (pairFilled 0).plan x "arr0" := by
  obtain ⟨k, q, hrun, hcheck⟩ := @exists_of_succeedsWith _ _
    ((Build.finalize (pairFilled 0).handles false).runOn (pairFilled 0).plan)
    (fun k _ => decide (∀ x ∈ (pairFilled 0).handles, k.outputArray? x = some "arr0")) (by decide +kernel)
  have harrays : ∀ x ∈ (pairFilled 0).handles, k.outputArray? x = some "arr0" := of_decide_eq_true hcheck
  have hreach : (pairFilled 0).plan.Reachable (pairFilled 0).handles := Progress.run_reachable 0 .default _
  have hunbacked : ∀ x ∈ (pairFilled 0).handles, (pairFilled 0).plan.backing.array? x.rule = none := by decide +kernel
  refine ⟨k, q, hrun, fun x hx => ⟨harrays x hx, ?_⟩⟩
  obtain ⟨_, _, hbacked | ⟨_, hstores⟩⟩ :=
    ((outputArray?_requested hreach (fun _ ha _ => ha) hrun).2 x hx).2 _ (harrays x hx)
  · rw [hunbacked x hx] at hbacked
    cases hbacked
  · exact hstores

/-- Plans on their own draw the same names, so a kernel names an array for a handle of another plan. -/
theorem outputArray?_of_other_plan :
    ∃ (k : Kernel) (q : Plan) (x : Handle), (pairFilled 0).plan.Reachable (pairFilled 0).handles ∧
      (Build.finalize (pairFilled 0).handles false).runOn (pairFilled 0).plan = (.ok k, q) ∧
      (pairFilled 1).plan.Reachable (pairFilled 1).handles ∧ x ∈ (pairFilled 1).handles ∧ x.plan ≠ (pairFilled 0).plan.id ∧
      x ∉ (pairFilled 0).handles ∧ k.outputArray? x = some "arr0" := by
  obtain ⟨k, q, hrun, harray⟩ := @exists_of_succeedsWith _ _
    ((Build.finalize (pairFilled 0).handles false).runOn (pairFilled 0).plan)
    (fun k _ => k.outputArray? { pairHandle "subst0" .float64 with plan := 1 } = some "arr0") (by decide +kernel)
  exact ⟨k, q, { pairHandle "subst0" .float64 with plan := 1 }, Progress.run_reachable 0 .default _, hrun,
    Progress.run_reachable 1 .default _, by decide +kernel, by decide +kernel, by decide +kernel, of_decide_eq_true harray⟩

end Plan

end ArrayPlan
