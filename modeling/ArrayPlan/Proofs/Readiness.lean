import ArrayPlan.Proofs.Exactness
import ArrayPlan.Proofs.Integrity
import ArrayPlan.Proofs.Simultaneous

/-!
Definition before use. An array that is loaded anywhere in a kernel is an input, or a statement stores all of
its elements before the first statement that reaches the load: the copy of a first write, the loop of prefix
sums, or the store of a requested rule.
-/

namespace ArrayPlan

/-- A statement with a place for every element of an array: it runs over the box of the axes, over the only
axis in the loop of prefix sums, or once for a scalar. -/
inductive Statement.Covers (domains : List Domain) (s : Statement) (d : Declaration) : Prop where
  | box (htarget : s.target = .load d.name (s.within.map .var)) (hlen : s.within.length = d.shape.rank)
      (hdomain : .box (s.within.zip d.shape.extents) ∈ domains)
  | line (i j : String) (extent : Extent) (hextents : d.shape.extents = [extent]) (hne : i ≠ j)
      (htarget : s.target = .load d.name [.var i]) (hwithin : s.within = [i])
      (hdomain : prefixSumDomain i j extent ∈ domains)
  | scalar (hshape : d.shape = .unit) (htarget : s.target = .load d.name [.int 0]) (hwithin : s.within = [])

theorem Statement.Covers.mono {domains domains' : List Domain} {s : Statement} {d : Declaration}
    (h : s.Covers domains d) (hsub : ∀ e ∈ domains, e ∈ domains') : s.Covers domains' d := by
  cases h with
  | box htarget hlen hdomain => exact .box htarget hlen (hsub _ hdomain)
  | line i j extent hextents hne htarget hwithin hdomain =>
    exact .line i j extent hextents hne htarget hwithin (hsub _ hdomain)
  | scalar hshape htarget hwithin => exact .scalar hshape htarget hwithin

theorem Statement.Covers.loadBacked {domains : List Domain} {s : Statement} {d : Declaration}
    (h : s.Covers domains d) {t : BackingTable} {i : Nat} : (s.loadBacked t i).Covers domains d := by
  have hvars : ∀ vars : List String, (Expr.load d.name (vars.map .var)).loadBacked t i =
      .load d.name (vars.map .var) := by
    intro vars
    rw [Expr.loadBacked_load, Expr.rebuildAll_eq_map, List.map_map]
    rfl
  cases h with
  | box htarget hlen hdomain => exact .box (by rw [Statement.loadBacked, htarget]; exact hvars s.within) hlen hdomain
  | line i' j extent hextents hne htarget hwithin hdomain =>
    exact .line i' j extent hextents hne (by rw [Statement.loadBacked, htarget]; exact hvars [i']) hwithin hdomain
  | scalar hshape htarget hwithin =>
    exact .scalar hshape (by rw [Statement.loadBacked, htarget]; rfl) hwithin

namespace Plan

def Supplied (p : Plan) (index : Nat) (array : String) : Prop :=
  ∃ d ∈ p.arrays, d.name = array ∧ (d.role = .input ∨ ∃ e ∈ p.pending, e.1 < index ∧ e.2.Covers p.domains d)

/-- What a rule loads is supplied by the time that the rule is there, and what holds the values of a rule by
the time that it is seen. -/
structure Primed (p : Plan) : Prop where
  bodies : ∀ (i : Nat) (r : Rule), p.rules.rules[i]? = some r → ∀ array ∈ r.body.loads, p.Supplied (i + 1) array
  backed : ∀ e ∈ p.backing.entries, p.Supplied e.2.visibleFrom e.2.array

section Primed

variable {p p' : Plan} {handles handles' : List Handle} {h : Handle} {g : Growth} {issued : List String}

theorem Supplied.grow {index : Nat} {array : String} (hs : p.Supplied index array) (g : Growth) :
    (p.grow g).Supplied index array := by
  obtain ⟨d, hd, hname, hsource⟩ := hs
  refine ⟨d, List.mem_append_left _ hd, hname, hsource.imp_right fun ⟨e, he, hkey, hcovers⟩ => ?_⟩
  exact ⟨e, List.mem_append_left _ he, hkey, hcovers.mono fun _ => List.mem_append_left _⟩

theorem Primed.grow (hp : p.Primed) (hg : g.Fits p issued)
    (hrule : ∀ r, g.rule = some r → ∀ array ∈ r.body.loads, (p.grow g).Supplied (p.rules.size + 1) array)
    (hbacked : ∀ b ∈ g.backed, (p.grow g).Supplied (p.rules.size + 1) b.2) : (p.grow g).Primed where
  bodies i r hr array harray := by
    rcases rule_of_grow hr with ⟨_, hr⟩ | ⟨rfl, hnew⟩
    · exact (hp.bodies i r hr array harray).grow g
    · exact hrule r hnew array harray
  backed e he := by
    rcases List.mem_append.1 he with he | he
    · exact (hp.backed e he).grow g
    · obtain ⟨b, hb, rfl⟩ := List.mem_map.1 he
      cases hgr : g.rule with
      | none => exact absurd hgr (hg.visible (List.ne_nil_of_mem hb))
      | some r => simpa [RuleLog.size] using hbacked b hb

theorem mem_loads_element {array array' : String} (vars : List String) :
    array ∈ (Expr.load array' (vars.map .var)).loads ↔ array = array' := by
  simp

theorem Definition.InScope.not_mem_loads {d : Definition} (hscope : d.InScope p) {array : String} :
    array ∉ d.body.loads := by
  intro hload
  obtain ⟨index, hindex⟩ := Expr.mem_loads.1 hload
  obtain ⟨_, hranked, _⟩ := Expr.InScope.of_subterms hscope hindex
  exact hranked

theorem Primed.move (hp : p.Primed) (hmove : p.Move handles h p') : p'.Primed := by
  cases hmove with
  | define d hdef hscope =>
    rw [hdef.grown]
    refine hp.grow hdef.growth_fits (fun r hr array harray => ?_) (by simp [Definition.growth])
    obtain rfl : (⟨h.rule, d.params, d.body⟩ : Rule) = r := Option.some.inj hr
    exact absurd harray (Definition.InScope.not_mem_loads hscope)
  | input array shape elementType vars hinput =>
    obtain ⟨_, hfits, hgrown, _⟩ := hinput
    rw [hgrown]
    have hsupplied : ∀ index, (p.grow (inputGrowth p'.names array shape elementType vars h.rule)).Supplied index array :=
      fun index => ⟨⟨array, shape, elementType, .input⟩, by simp [Plan.grow, inputGrowth], rfl, .inl rfl⟩
    refine hp.grow hfits (fun r hr other hload => ?_) fun b hb => ?_
    · obtain rfl := Option.some.inj hr
      rw [(mem_loads_element _).1 hload]
      exact hsupplied _
    · obtain rfl : b = (h.rule, array) := by simpa [inputGrowth] using hb
      exact hsupplied _
  | accumulate a extent array i j t ha hsums =>
    obtain ⟨_, hextents, hfits, hgrown, _⟩ := hsums
    rw [hgrown]
    have hne : i ≠ j := by
      have hnodup := hfits.draws.nodup
      simp only [List.cons_append, List.nil_append, List.nodup_cons, List.mem_cons, not_or] at hnodup
      exact hnodup.1.1
    generalize hg : prefixSumGrowth p'.names a extent array i j t h.rule (p.callOf a.rule [.var j]) = g at *
    have hsupplied : (p.grow g).Supplied (p.rules.size + 1) array := by
      refine ⟨⟨array, a.shape, a.elementType, .temporary⟩, by simp [Plan.grow, ← hg, prefixSumGrowth], rfl, .inr ?_⟩
      refine ⟨(p.rules.size, ⟨.load array [.var i], .sum [j] (p.callOf a.rule [.var j]), [i]⟩), ?_,
        Nat.lt_succ_self _, ?_⟩
      · simp [Plan.grow, ← hg, prefixSumGrowth]
      · exact .line i j extent hextents hne rfl rfl (by simp [Plan.grow, ← hg, prefixSumGrowth])
    refine hp.grow hfits (fun r hr other hload => ?_) fun b hb => ?_
    · obtain rfl : (⟨h.rule, [t], .load array [.var t]⟩ : Rule) = r := by simpa [← hg, prefixSumGrowth] using hr
      rw [(mem_loads_element [t]).1 hload]
      exact hsupplied
    · obtain rfl : b = (h.rule, array) := by simpa [← hg, prefixSumGrowth] using hb
      exact hsupplied
  | write a index value ha hwrite =>
    cases hwrite with
    | again array axes v vars hrequest hbacked hlen hfits hgrown hhandle =>
      rw [hgrown]
      exact hp.grow hfits (by simp [againGrowth]) (by simp [againGrowth])
    | first array axes v copyVars vars params hrequest hbacked hcopy hlen hparams hfits hgrown hhandle =>
      rw [hgrown]
      generalize hg : p.firstGrowth p'.names a array axes v copyVars vars params h.rule = g at *
      have hsupplied : (p.grow g).Supplied (p.rules.size + 1) array := by
        refine ⟨⟨array, a.shape, a.elementType, .temporary⟩, by simp [Plan.grow, ← hg, firstGrowth], rfl, .inr ?_⟩
        refine ⟨(p.rules.size, p.copyOf a array copyVars), ?_, Nat.lt_succ_self _, ?_⟩
        · simp [Plan.grow, ← hg, firstGrowth]
        · exact .box rfl hcopy (by simp [Plan.grow, ← hg, firstGrowth, copyOf])
      refine hp.grow hfits (fun r hr other hload => ?_) fun b hb => ?_
      · obtain rfl : (⟨h.rule, params, .load array (params.map .var)⟩ : Rule) = r := by
          simpa [← hg, firstGrowth] using hr
        rw [(mem_loads_element _).1 hload]
        exact hsupplied
      · have hb : b = (h.rule, array) ∨ b = (a.rule, array) := by simpa [← hg, firstGrowth] using hb
        rcases hb with rfl | rfl <;> exact hsupplied

theorem Primed.draw (hp : p.Primed) (h : p.OnlyDraws p') : p'.Primed := by
  obtain ⟨_, hsame⟩ := h
  rw [hsame]
  exact ⟨hp.bodies, hp.backed⟩

theorem Moves.primed (hmoves : p.Moves handles p' handles') (hp : p.Primed) : p'.Primed := by
  induction hmoves with
  | refl => exact hp
  | step hbefore hmove ih => exact ih.move hmove

theorem Reachable.primed (hreach : p.Reachable handles) : p.Intact handles ∧ p.Primed := by
  obtain ⟨id, settings, hevolves⟩ := hreach
  induction hevolves with
  | refl => exact ⟨.empty id settings, by simp [Plan.empty, RuleLog.empty], by simp [Plan.empty, BackingTable.empty]⟩
  | @step p₁ p₂ handles₁ op outcome hbefore hrefs hrun ih =>
    obtain ⟨hintact, hprimed⟩ := ih
    have hout := perform_intact hintact op hrefs
    have hmoves := perform_moves hintact op hrefs
    unfold Build.Outcome at hout hmoves
    rw [hrun] at hout hmoves
    cases outcome with
    | error e => exact ⟨by simpa [Except.toOption] using hintact.draw hout, hprimed.draw hout⟩
    | ok a =>
      obtain ⟨_, hmoves, _⟩ := hmoves
      exact ⟨hout, hmoves.primed hprimed⟩

end Primed

end Plan

section Agenda

variable {pending : List (Nat × Statement)} {os : List Realization} {stop t : Nat} {e : Nat × Statement}

theorem exists_lt_of_mem {α : Type} {l later : List α} {a : α} (ha : a ∈ l) (ht : l.length ≤ t) :
    ∃ t' < t, (l ++ later)[t']? = some a := by
  obtain ⟨i, hi⟩ := List.mem_iff_getElem?.1 ha
  have hlt := (List.getElem?_eq_some_iff.1 hi).1
  exact ⟨i, by omega, by rw [List.getElem?_append_left hlt, hi]⟩

theorem agenda_order (he : (agenda pending os stop)[t]? = some e) :
    (∀ a ∈ agenda pending os e.1, ∃ t' < t, (agenda pending os stop)[t']? = some a) ∧
      (e ∈ pending ∨ (∃ o ∈ os, e = (o.index, o.store)) ∧
        ∀ a ∈ pending, a.1 = e.1 → ∃ t' < t, (agenda pending os stop)[t']? = some a) := by
  induction stop with
  | zero => cases he
  | succ stop ih =>
    rw [agenda] at he ⊢
    rcases Nat.lt_or_ge t (agenda pending os stop).length with ht | ht
    · have hextend : ∀ a, (∃ t' < t, (agenda pending os stop)[t']? = some a) →
          ∃ t' < t, (agenda pending os stop ++ dueAt pending os stop)[t']? = some a := by
        rintro a ⟨t', ht', ha⟩
        exact ⟨t', ht', by rwa [List.getElem?_append_left (by omega)]⟩
      rw [List.getElem?_append_left ht] at he
      obtain ⟨hbefore, hkind⟩ := ih he
      refine ⟨fun a ha => hextend a (hbefore a ha), hkind.imp_right ?_⟩
      rintro ⟨ho, hqueued⟩
      exact ⟨ho, fun a ha hkey => hextend a (hqueued a ha hkey)⟩
    · rw [List.getElem?_append_right ht] at he
      have hkey : e.1 = stop := (mem_dueAt_iff.1 (List.mem_of_getElem? he)).1
      rw [hkey]
      refine ⟨fun a ha => exists_lt_of_mem ha ht, ?_⟩
      rw [dueAt] at he
      rcases Nat.lt_or_ge (t - (agenda pending os stop).length) (pending.filter fun e => e.1 = stop).length with hd | hd
      · rw [List.getElem?_append_left hd] at he
        exact .inl (List.mem_filter.1 (List.mem_of_getElem? he)).1
      · rw [List.getElem?_append_right hd] at he
        obtain ⟨o, ho, rfl⟩ := List.mem_map.1 (List.mem_of_getElem? he)
        obtain ⟨ho, hindex⟩ := List.mem_filter.1 ho
        refine .inr ⟨⟨o, ho, by rw [show o.index = stop by simpa using hindex]⟩, fun a ha hkey' => ?_⟩
        have hmem : a ∈ agenda pending os stop ++ pending.filter fun e => e.1 = stop :=
          List.mem_append_right _ (List.mem_filter.2 ⟨ha, by simpa using hkey'⟩)
        rw [dueAt, ← List.append_assoc]
        exact exists_lt_of_mem hmem (by rw [List.length_append]; omega)

end Agenda

/-- The expression loads the array, or calls a rule of the kernel that does so, directly or through other rules. -/
inductive Kernel.Reads (k : Kernel) (array : String) : Expr → Prop where
  | load {e : Expr} (hload : array ∈ e.loads) : k.Reads array e
  | call {e : Expr} {r : Rule} (hr : r ∈ k.rules) (hcall : r.name ∈ e.calls) (hbody : k.Reads array r.body) :
      k.Reads array e

def Kernel.StatementReads (k : Kernel) (array : String) (s : Statement) : Prop :=
  k.Reads array s.value ∨ ∃ stored index, s.target = .load stored index ∧ ∃ e ∈ index, k.Reads array e

/-- The statement stores every element of the array, at all bindings of the symbolic lengths to numbers that
fit a word: the points over its variables can be enumerated, and each index of the array is the position of
one of them, whatever the memory holds. -/
def Kernel.Fills (k : Kernel) (s : Statement) (d : Declaration) : Prop :=
  ∀ (parameters : Env) (lengths : List Nat), d.shape.extents.mapM (Extent.lengthIn parameters) = .ok lengths →
    (∀ name ∈ d.shape.parameters, ∀ v, parameters.value? name = some v → 0 ≤ v ∧ v ≤ Word.greatest) →
    (∀ v ∈ k.domains.flatMap Domain.vars, parameters.value? v = none) →
    ∃ points index, pointsOver k.domains s.within parameters = .ok points ∧ s.target = .load d.name index ∧
      ∀ position, InBox position lengths → ∃ point ∈ points,
        ∀ (α : Type) [Scalar α] (load : String → List Int → Option α),
          (∀ x ∈ position, Scalar.toIndex (Scalar.ofInt x : α) = x) →
            (k.reading parameters load).position? index point = some position

/-- The statement stores the elements of the array one after the other, each once, at all bindings of the symbolic
lengths to numbers that fit a word: the points over its variables correspond to the indices of the array in
lexicographic order, and each index is the position of its point, whatever the memory holds. -/
def Kernel.FillsInOrder (k : Kernel) (s : Statement) (d : Declaration) : Prop :=
  ∀ (parameters : Env) (lengths : List Nat), d.shape.extents.mapM (Extent.lengthIn parameters) = .ok lengths →
    (∀ name ∈ d.shape.parameters, ∀ v, parameters.value? name = some v → 0 ≤ v ∧ v ≤ Word.greatest) →
    (∀ v ∈ k.domains.flatMap Domain.vars, parameters.value? v = none) →
    ∃ points index, pointsOver k.domains s.within parameters = .ok points ∧ s.target = .load d.name index ∧
      List.Forall₂ (fun point position => ∀ (α : Type) [Scalar α] (load : String → List Int → Option α),
        (∀ x ∈ position, Scalar.toIndex (Scalar.ofInt x : α) = x) →
          (k.reading parameters load).position? index point = some position) points (boxPoints lengths)

theorem Kernel.FillsInOrder.fills {k : Kernel} {s : Statement} {d : Declaration} (h : k.FillsInOrder s d) :
    k.Fills s d := by
  intro parameters lengths hlengths hrange hfree
  obtain ⟨points, index, hpoints, htarget, hpositions⟩ := h parameters lengths hlengths hrange hfree
  refine ⟨points, index, hpoints, htarget, fun position hposition => ?_⟩
  obtain ⟨i, hi, rfl⟩ := List.mem_iff_get.1 (mem_boxPoints.2 hposition)
  have hi' : (i : Nat) < points.length := Nat.lt_of_lt_of_eq i.isLt hpositions.length_eq.symm
  exact ⟨points.get ⟨i, hi'⟩, List.get_mem .., (List.forall₂_iff_get.1 hpositions).2 i hi' i.isLt⟩

namespace Plan.Lowers

variable {p p' : Plan} {outputs : List Handle} {os : List Realization} {k : Kernel} {queued stored : Nat}
  {array : String}

def Ready (p : Plan) (os : List Realization) (k : Kernel) (queued stored : Nat) (array : String) : Prop :=
  ∃ d ∈ k.arrays, d.name = array ∧ (d.role = .input ∨ (∃ e ∈ p.pending, e.1 < queued ∧ e.2.Covers k.domains d) ∨
    ∃ o ∈ os, o.index < stored ∧ o.store.Covers k.domains d)

theorem Ready.mono {queued' stored' : Nat} (h : Ready p os k queued stored array) (hq : queued ≤ queued')
    (hs : stored ≤ stored') : Ready p os k queued' stored' array := by
  obtain ⟨d, hd, hname, hsource⟩ := h
  refine ⟨d, hd, hname, hsource.imp_right (Or.imp ?_ ?_)⟩
  · exact fun ⟨e, he, hkey, hcovers⟩ => ⟨e, he, by omega, hcovers⟩
  · exact fun ⟨o, ho, hkey, hcovers⟩ => ⟨o, ho, by omega, hcovers⟩

theorem ready_of_supplied (h : p.Lowers outputs os k p') (hs : p.Supplied queued array) :
    Ready p os k queued stored array := by
  obtain ⟨d, hd, hname, hsource⟩ := hs
  refine ⟨d, by rw [h.arrays]; exact List.mem_append_left _ hd, hname, hsource.imp_right fun ⟨e, he, hkey, hcovers⟩ => ?_⟩
  refine .inl ⟨e, he, hkey, hcovers.mono fun d hd => ?_⟩
  rw [h.domains]
  exact List.mem_append_left _ hd

theorem covers_store (h : p.Lowers outputs os k p') {o : Realization} (ho : o ∈ os) :
    o.store.Covers k.domains o.declaration := by
  cases hunit : o.handle.shape.isUnit with
  | true =>
    rw [Realization.store, hunit, if_pos rfl]
    exact .scalar (eq_of_beq hunit) rfl rfl
  | false =>
    have hlen := (h.sound o ho).2.2 hunit
    have hdomain : .box (o.vars.zip o.handle.shape.extents) ∈ k.domains := by
      rw [h.domains]
      refine List.mem_append_right _ (List.mem_flatMap.2 ⟨o, ho, ?_⟩)
      simp [Realization.domains, hunit]
    rw [Realization.store, hunit, if_neg Bool.false_ne_true]
    exact .box rfl hlen hdomain

theorem ready_of_arrayAt? (hprimed : p.Primed) (h : p.Lowers outputs os k p') {rule : String} {i : Nat}
    (harray : p'.backing.arrayAt? rule i = some array) : Ready p os k i i array := by
  obtain ⟨entry, hentry, hvisible, rfl⟩ := BackingTable.exists_entry_of_arrayAt? harray
  rw [h.backing] at hentry
  rcases List.mem_append.1 hentry with hentry | hentry
  · exact (h.ready_of_supplied (hprimed.backed _ hentry)).mono hvisible (Nat.le_refl i)
  · obtain ⟨o, ho, heq⟩ := List.mem_map.1 hentry
    obtain rfl : (⟨o.array, o.index + 1⟩ : BackingEntry) = entry := congrArg Prod.snd heq
    refine ⟨o.declaration, ?_, rfl, .inr (.inr ⟨o, ho, hvisible, h.covers_store ho⟩)⟩
    rw [h.arrays]
    exact List.mem_append_right _ (List.mem_map_of_mem ho)

theorem ready_of_reads (hp : p.WellFormed) (hprimed : p.Primed) (h : p.Lowers outputs os k p') {i : Nat} {e : Expr}
    (hreads : k.Reads array e) (hqueued : i ≤ queued) (hstored : i ≤ stored + 1)
    (hloads : ∀ a ∈ e.loads, Ready p os k queued stored a)
    (hcalls : ∀ name ∈ e.calls, name ∈ ruleNames (k.rules.take i)) : Ready p os k queued stored array := by
  induction hreads generalizing i with
  | load hload => exact hloads _ hload
  | @call e r hr hcall _ ih =>
    obtain ⟨j, r', hj, hr', hname⟩ := mem_ruleNames_take.1 (hcalls _ hcall)
    obtain rfl : r' = r := List.inj_on_of_nodup_map (h.layered hp).nodup (List.mem_of_getElem? hr') hr hname
    have hbody := (h.body_within hp hr')
    refine ih (Nat.le_trans (Nat.le_of_lt hj) hqueued) (by omega) (fun a ha => ?_) fun name hname => hbody.mem_of_calls hname
    obtain ⟨r₀, hr₀, rfl⟩ := h.rule_at hr'
    rw [Rule.loadBacked, Expr.loadBacked_eq_withLoads, Expr.mem_loads_withLoads] at ha
    rcases ha with ha | ⟨rule, _, harray⟩
    · exact (h.ready_of_supplied (hprimed.bodies j r₀ hr₀ a ha)).mono (by omega) (Nat.le_refl _)
    · exact (ready_of_arrayAt? hprimed h harray).mono (by omega) (by omega)

theorem ready_of_rewritten (hp : p.WellFormed) (hprimed : p.Primed) (h : p.Lowers outputs os k p') {key bound : Nat}
    {e : Expr} {vars : String → Prop} (hkey : key ≤ bound) (hbound : bound ≤ key + 1)
    (he : e.Within (· ∈ ruleNames (p.rules.rules.take bound)) (fun _ => False) vars)
    (hreads : k.Reads array (e.loadBacked p'.backing key)) : Ready p os k bound key array := by
  refine h.ready_of_reads hp hprimed hreads (Nat.le_refl _) hbound (fun a ha => ?_) fun name hname => ?_
  · rw [Expr.loadBacked_eq_withLoads, Expr.mem_loads_withLoads] at ha
    rcases ha with ha | ⟨rule, _, hseen⟩
    · exact (he.mem_of_loads ha).elim
    · exact (ready_of_arrayAt? hprimed h hseen).mono hkey (Nat.le_refl _)
  · rw [Expr.loadBacked_eq_withLoads, Expr.mem_calls_withLoads] at hname
    rw [h.ruleNames_take]
    exact he.mem_of_calls hname.1

theorem ready_of_statementReads (hp : p.WellFormed) (hprimed : p.Primed) (h : p.Lowers outputs os k p')
    {key bound : Nat} {s : Statement} {arrays vars : String → Prop} (hkey : key ≤ bound) (hbound : bound ≤ key + 1)
    (hs : s.Scoped (· ∈ ruleNames (p.rules.rules.take bound)) arrays vars)
    (hreads : k.StatementReads array (s.loadBacked p'.backing key)) : Ready p os k bound key array := by
  rcases hreads with hvalue | ⟨stored, index, htarget, e, he, hreads⟩
  · exact h.ready_of_rewritten hp hprimed hkey hbound hs.value hvalue
  · obtain ⟨stored', index', htarget', _, hindex⟩ := hs.target
    rw [Statement.target_loadBacked htarget'] at htarget
    obtain ⟨rfl, rfl⟩ := Expr.load.inj htarget
    obtain ⟨e', he', rfl⟩ := List.mem_map.1 he
    exact h.ready_of_rewritten hp hprimed hkey hbound (Expr.withinAll_iff.1 hindex e' he') hreads

theorem scoped_store (h : p.Lowers outputs os k p') {o : Realization} (ho : o ∈ os) :
    o.store.Scoped (· ∈ ruleNames (p.rules.rules.take (o.index + 1))) (fun _ => True) fun _ => True := by
  have hrule : o.rule.name ∈ ruleNames (p.rules.rules.take (o.index + 1)) :=
    mem_ruleNames_take.2 ⟨o.index, o.rule, Nat.lt_succ_self _, (h.sound o ho).1, rfl⟩
  unfold Realization.store
  split
  · refine ⟨⟨_, _, rfl, trivial, trivial, trivial⟩, ⟨hrule, ?_⟩, fun _ _ => trivial⟩
    refine Expr.withinAll_iff.2 fun e he => ?_
    obtain rfl := List.eq_of_mem_replicate he
    trivial
  · exact ⟨⟨_, _, rfl, trivial, Expr.withinAll_vars _⟩, ⟨hrule, Expr.withinAll_vars _⟩, fun _ _ => trivial⟩

theorem exists_earlier (h : p.Lowers outputs os k p') {t : Nat} {e : Nat × Statement} {bound : Nat}
    (he : (agenda p.pending os (p.rules.size + 1))[t]? = some e)
    (hqueued : ∀ a ∈ p.pending, a.1 < bound → ∃ t' < t, (agenda p.pending os (p.rules.size + 1))[t']? = some a)
    (hready : Ready p os k bound e.1 array) :
    ∃ d ∈ k.arrays, d.name = array ∧ (d.role = .input ∨ ∃ t' < t, ∃ s',
      k.statements[t']? = some s' ∧ s'.Covers k.domains d) := by
  have hstands : ∀ (d : Declaration) (a : Nat × Statement), a.2.Covers k.domains d →
      (∃ t' < t, (agenda p.pending os (p.rules.size + 1))[t']? = some a) →
      ∃ t' < t, ∃ s', k.statements[t']? = some s' ∧ s'.Covers k.domains d := by
    rintro d a hcovers ⟨t', ht', ha⟩
    refine ⟨t', ht', a.2.loadBacked p'.backing a.1, ?_, hcovers.loadBacked⟩
    rw [h.statements, List.getElem?_map, ha]
    rfl
  obtain ⟨d, hd, hname, hsource⟩ := hready
  refine ⟨d, hd, hname, hsource.imp_right ?_⟩
  rintro (⟨a, ha, hkey, hcovers⟩ | ⟨o, ho, hkey, hcovers⟩)
  · exact hstands d a hcovers (hqueued a ha hkey)
  · exact hstands d (o.index, o.store) hcovers ((agenda_order he).1 _ (mem_agenda_iff.2 ⟨hkey, .inr ⟨o, ho, rfl⟩⟩))

theorem covered_before_use (hp : p.WellFormed) (hprimed : p.Primed) (h : p.Lowers outputs os k p') {t : Nat}
    {s : Statement} (hs : k.statements[t]? = some s) (hreads : k.StatementReads array s) :
    ∃ d ∈ k.arrays, d.name = array ∧ (d.role = .input ∨ ∃ t' < t, ∃ s',
      k.statements[t']? = some s' ∧ s'.Covers k.domains d) := by
  rw [h.statements, List.getElem?_map] at hs
  obtain ⟨e, he, rfl⟩ := Option.map_eq_some_iff.1 hs
  have hbefore : ∀ a ∈ p.pending, a.1 < e.1 → ∃ t' < t, (agenda p.pending os (p.rules.size + 1))[t']? = some a :=
    fun a ha hkey => (agenda_order he).1 a (mem_agenda_iff.2 ⟨hkey, .inl ha⟩)
  rcases (agenda_order he).2 with hpending | ⟨⟨o, ho, rfl⟩, hsame⟩
  · have hscoped := (hp.pending e hpending).2
    exact h.exists_earlier he hbefore
      (h.ready_of_statementReads hp hprimed (Nat.le_refl _) (Nat.le_succ _) hscoped hreads)
  -- the store of a rule comes after what was queued at the index of the rule
  · refine h.exists_earlier he (fun a ha hkey => ?_)
      (h.ready_of_statementReads hp hprimed (Nat.le_succ _) (Nat.le_refl _) (h.scoped_store ho) hreads)
    rcases Nat.lt_succ_iff_lt_or_eq.1 hkey with hlt | heq
    · exact hbefore a ha hlt
    · exact hsame a ha heq

end Plan.Lowers

section Fills

variable {k : Kernel} {parameters : Env}

def Extent.lengthAt (parameters : Env) (e : Extent) : Nat :=
  (e.lengthIn parameters).toOption.getD 0

theorem lengths_eq_map {extents : List Extent} {lengths : List Nat}
    (h : extents.mapM (Extent.lengthIn parameters) = .ok lengths) :
    lengths = extents.map (Extent.lengthAt parameters) ∧
      ∀ e ∈ extents, e.lengthIn parameters = .ok (e.lengthAt parameters) := by
  refine eq_map_of_mapM_ok (fun e n hn => ?_) h
  rw [Extent.lengthAt, hn]
  rfl

theorem Extent.counts_lengthAt {e : Extent} {vars : List String} (hlength : e.lengthIn parameters = .ok (e.lengthAt parameters))
    (hfixed : ∀ n, e = .fixed n → (n : Int) ≤ Word.greatest)
    (hsymbolic : ∀ name, e = .symbolic name → name ∉ vars ∧
      ∀ v, parameters.value? name = some v → 0 ≤ v ∧ v ≤ Word.greatest) :
    e.Counts parameters vars (e.lengthAt parameters) := by
  cases e with
  | fixed n => exact Word.signed_of_le_greatest (hfixed n rfl)
  | symbolic name =>
    obtain ⟨hnot, hrange⟩ := hsymbolic name rfl
    refine ⟨?_, hnot⟩
    cases hv : parameters.value? name with
    | none => simp [Extent.lengthIn, hv] at hlength
    | some v =>
      obtain ⟨hlow, hhigh⟩ := hrange v hv
      have hhigh : v ≤ 9223372036854775807 := hhigh
      have hword : ((Word.unsigned v : Nat) : Int) = v := by
        rw [Word.unsigned, Word.modulus]
        omega
      simp [Extent.lengthAt, Extent.lengthIn, hv, Except.toOption, hword]

theorem nodup_vars_of_mem {domains : List Domain} (hnodup : (domains.flatMap Domain.vars).Nodup) {d : Domain}
    (hd : d ∈ domains) : d.vars.Nodup := by
  rw [List.flatMap_def] at hnodup
  exact (List.sublist_flatten_of_mem (List.mem_map_of_mem hd)).nodup hnodup

theorem forall₂_positions {vars : List String} {lengths : List Nat} (hnodup : vars.Nodup)
    (hlen : vars.length = lengths.length) :
    List.Forall₂ (fun point position => ∀ (α : Type) [Scalar α] (load : String → List Int → Option α),
      (∀ x ∈ position, Scalar.toIndex (Scalar.ofInt x : α) = x) →
        (k.reading parameters load).position? (vars.map .var) point = some position)
      ((boxPoints lengths).map (parameters.at vars)) (boxPoints lengths) := by
  rw [List.forall₂_map_left_iff]
  refine List.forall₂_same.2 fun position hposition α _ load hexact => ?_
  refine Interpretation.position?_vars_of_exact (Env.binds_at parameters hnodup ?_) hexact
  exact hlen.trans (mem_boxPoints.1 hposition).length_eq.symm

theorem Statement.Covers.fillsInOrder {s : Statement} {d : Declaration} (hcovers : s.Covers k.domains d)
    (hnodup : (k.domains.flatMap Domain.vars).Nodup)
    (hnames : ∀ name ∈ d.shape.parameters, name ∉ k.domains.flatMap Domain.vars)
    (hfixed : ∀ n : Nat, Extent.fixed n ∈ d.shape.extents → (n : Int) ≤ Word.greatest) : k.FillsInOrder s d := by
  intro parameters lengths hlengths hrange hfree
  obtain ⟨rfl, hlength⟩ := lengths_eq_map hlengths
  have hcounts : ∀ (domain : Domain), domain ∈ k.domains → ∀ e ∈ d.shape.extents,
      e.Counts parameters domain.vars (e.lengthAt parameters) := by
    intro domain hdomain e he
    refine Extent.counts_lengthAt (hlength e he) (fun n hn => hfixed n (hn ▸ he)) fun name hname => ?_
    have hparameter : name ∈ d.shape.parameters := List.mem_filterMap.2 ⟨e, he, by rw [hname]; rfl⟩
    exact ⟨fun hv => hnames name hparameter (List.mem_flatMap.2 ⟨domain, hdomain, hv⟩), hrange name hparameter⟩
  have hunbound : ∀ domain ∈ k.domains, ∀ v ∈ domain.vars, parameters.value? v = none :=
    fun domain hdomain v hv => hfree v (List.mem_flatMap.2 ⟨domain, hdomain, hv⟩)
  cases hcovers with
  | box htarget hlen hdomain =>
    have hvars : (Domain.box (s.within.zip d.shape.extents)).vars = s.within := by
      rw [Domain.vars_box, List.map_fst_zip (Nat.le_of_eq hlen)]
    have hlengths : (s.within.zip d.shape.extents).map (fun a => a.2.lengthAt parameters) =
        d.shape.extents.map (Extent.lengthAt parameters) := by
      rw [show (fun a : String × Extent => a.2.lengthAt parameters) = Extent.lengthAt parameters ∘ Prod.snd from rfl,
        ← List.map_map, List.map_snd_zip (Nat.le_of_eq hlen.symm)]
    have hboxed := boxed_of_box hnodup hdomain (fun e => (e.lengthAt parameters : Int))
      (s.within.zip d.shape.extents) (.refl _) (fun a ha => by
        have hextent := hcounts _ hdomain a.2 (List.of_mem_zip ha).2
        rwa [Domain.vars_box] at hextent)
      (fun a ha x hx => by
        rw [hunbound _ hdomain a.1 (by rw [hvars]; exact (List.of_mem_zip ha).1)] at hx
        cases hx)
      fun a ha => hunbound _ hdomain a.1 (by rw [hvars]; exact (List.of_mem_zip ha).1)
    simp only [Int.toNat_natCast] at hboxed
    rw [List.map_fst_zip (Nat.le_of_eq hlen), hlengths] at hboxed
    refine ⟨_, _, pointsOver_of_boxed hboxed, htarget, forall₂_positions ?_ ?_⟩
    · rw [← hvars]
      exact nodup_vars_of_mem hnodup hdomain
    · rw [List.length_map]
      exact hlen
  | line i j extent hextents hne htarget hwithin hdomain =>
    have hi : i ∈ (prefixSumDomain i j extent).vars := by simp [Build.Outcome.vars_prefixSumDomain]
    have hj : j ∈ (prefixSumDomain i j extent).vars := by simp [Build.Outcome.vars_prefixSumDomain]
    have hextent := hcounts _ hdomain extent (by simp [hextents])
    rw [Build.Outcome.vars_prefixSumDomain] at hextent
    have hboxed := (boxed_prefixSum hne (ownerOf_of_mem hnodup hdomain hi) (ownerOf_of_mem hnodup hdomain hj) hextent
      (hunbound _ hdomain i hi) (hunbound _ hdomain j hj)).1
    rw [← hwithin] at hboxed
    refine ⟨_, _, pointsOver_of_boxed hboxed, htarget, ?_⟩
    rw [hextents, hwithin]
    exact forall₂_positions (List.nodup_singleton i) rfl
  | scalar hshape htarget hwithin =>
    refine ⟨[parameters], _, by rw [hwithin]; rfl, htarget, ?_⟩
    rw [hshape]
    refine .cons (fun α _ load hexact => ?_) .nil
    have hzero := hexact 0 (List.mem_singleton_self 0)
    have hvalue : (k.reading parameters load).value? (.int 0) parameters = some (Scalar.ofInt 0) := rfl
    rw [Interpretation.position?_cons hvalue Interpretation.position?_nil, hzero]
    rfl

end Fills

namespace Plan

/-- Whatever a statement of a kernel reads, directly or through rules, is an input, or filled by a statement at
an earlier position: as long as fixed lengths fit a word and symbolic ones are no index variables. -/
theorem finalize_defined_before_use {p p' : Plan} {handles outputs : List Handle} {withStores : Bool} {k : Kernel}
    (hreach : p.Reachable handles)
    (hfinalize : (Build.finalize outputs withStores).runOn p = (.ok k, p'))
    (hnames : ∀ d ∈ k.arrays, ∀ name ∈ d.shape.parameters, name ∉ k.domains.flatMap Domain.vars)
    (hfixed : ∀ d ∈ k.arrays, ∀ n : Nat, Extent.fixed n ∈ d.shape.extents → (n : Int) ≤ Word.greatest) {t : Nat}
    {s : Statement} {array : String} (hs : k.statements[t]? = some s) (hreads : k.StatementReads array s) :
    ∃ d ∈ k.arrays, d.name = array ∧
      (d.role = .input ∨ ∃ t' < t, ∃ s', k.statements[t']? = some s' ∧ k.Fills s' d) := by
  obtain ⟨hintact, hprimed⟩ := hreach.primed
  have hp := hintact.wellFormed
  obtain ⟨os, hlowers⟩ := finalize_lowers hp hfinalize
  obtain ⟨d, hd, hname, hsource⟩ := hlowers.covered_before_use hp hprimed hs hreads
  refine ⟨d, hd, hname, hsource.imp_right fun ⟨t', ht', s', hs', hcovers⟩ => ⟨t', ht', s', hs', ?_⟩⟩
  exact (hcovers.fillsInOrder (hlowers.vars_nodup hp) (hnames d hd) (hfixed d hd)).fills

def overwrittenFirst (n : Nat) : Progress :=
  (Progress.start (.empty 0 .default)).run
    [.fill (.extents [.fixed n]) (.int 3), .write 0 [.at 0] (.literal (.int 1)), .select 1 [.at 1]]

def secondElement (n : Nat) : Except PlanError Kernel × Plan :=
  (Build.finalize ((overwrittenFirst n).handles.drop 2) false).runOn (overwrittenFirst n).plan

def loadedForValue (k : Kernel) (array : String) (s : Statement) : Bool :=
  k.rules.any fun r => s.value.calls.contains r.name && r.body.loads.contains array

theorem reads_of_loadedForValue {k : Kernel} {array : String} {s : Statement} (h : loadedForValue k array s = true) :
    k.StatementReads array s := by
  obtain ⟨r, hr, hboth⟩ := List.any_eq_true.1 h
  simp only [Bool.and_eq_true, List.contains_iff_mem] at hboth
  exact .inl (.call hr hboth.1 (.load hboth.2))

theorem defined_before_use_second :
    ∃ (k : Kernel) (p' : Plan) (s : Statement), secondElement 2 = (.ok k, p') ∧ k.statements[2]? = some s ∧
      k.StatementReads "arr0" s ∧ ∃ d ∈ k.arrays, d.name = "arr0" ∧
        (d.role = .input ∨ ∃ t' < 2, ∃ s', k.statements[t']? = some s' ∧ k.Fills s' d) := by
  obtain ⟨k, p', hfinalize, hcheck⟩ := @exists_of_succeedsWith _ _ (secondElement 2)
    (fun k _ => (k.arrays.all fun d => d.shape.extents.all fun e => e = .fixed 2 ∨ e = .fixed 1) &&
      k.statements[2]?.any (loadedForValue k "arr0")) (by decide +kernel)
  simp only [Bool.and_eq_true, List.all_eq_true, decide_eq_true_eq, Option.any_eq_true] at hcheck
  obtain ⟨hextents, s, hs, hreads⟩ := hcheck
  refine ⟨k, p', s, hfinalize, hs, reads_of_loadedForValue hreads, ?_⟩
  refine finalize_defined_before_use (Progress.run_reachable 0 .default _) hfinalize (fun d hd name hname => ?_)
    (fun d hd n hn => ?_) hs (reads_of_loadedForValue hreads)
  · obtain ⟨e, he, hsymbolic⟩ := List.mem_filterMap.1 hname
    rcases hextents d hd e he with rfl | rfl <;> cases hsymbolic
  · rcases hextents d hd _ hn with heq | heq <;> cases heq <;> decide

def storesAt (k : Kernel) (position : List Int) (s : Statement) : Bool :=
  match pointsOver k.domains s.within .empty, s.target with
  | .ok points, .load _ index =>
    points.any fun point => (k.reading .empty fun _ _ => (none : Option Int)).position? index point = some position
  | _, _ => false

theorem storesAt_of_fills {k : Kernel} {s : Statement} {d : Declaration} (h : k.Fills s d) {lengths : List Nat}
    (hlengths : d.shape.extents.mapM (Extent.lengthIn .empty) = .ok lengths) {position : List Int}
    (hposition : InBox position lengths) : storesAt k position s = true := by
  obtain ⟨points, index, hpoints, htarget, hfills⟩ :=
    h .empty lengths hlengths (fun _ _ v hv => by cases hv) fun _ _ => rfl
  obtain ⟨point, hpoint, hreading⟩ := hfills position hposition
  rw [storesAt, hpoints, htarget]
  exact List.any_eq_true.2 ⟨point, hpoint, decide_eq_true (hreading Int (fun _ _ => none) fun _ _ => rfl)⟩

/-- When the length does not fit a word, the copy runs over no point at all, and an element that was never
stored is read. -/
theorem oversized_not_defined_before_use :
    ∃ (k : Kernel) (p' : Plan), (overwrittenFirst 9223372036854775810).plan.Reachable
        (overwrittenFirst 9223372036854775810).handles ∧
      secondElement 9223372036854775810 = (.ok k, p') ∧
      ¬ ∀ (t : Nat) (s : Statement) (array : String), k.statements[t]? = some s → k.StatementReads array s →
        ∃ d ∈ k.arrays, d.name = array ∧
          (d.role = .input ∨ ∃ t' < t, ∃ s', k.statements[t']? = some s' ∧ k.Fills s' d) := by
  obtain ⟨k, p', hfinalize, hcheck⟩ := @exists_of_succeedsWith _ _ (secondElement 9223372036854775810)
    (fun k _ => (k.arrays.all fun d => d.name ≠ "arr0" ||
        (d.role = .temporary && d.shape.extents = [.fixed 9223372036854775810])) &&
      k.statements[2]?.any (loadedForValue k "arr0") && (k.statements.take 2).all fun s => !storesAt k [1] s)
    (by decide +kernel)
  refine ⟨k, p', Progress.run_reachable 0 .default _, hfinalize, fun hall => ?_⟩
  simp only [Bool.and_eq_true, List.all_eq_true, Option.any_eq_true, Bool.not_eq_true'] at hcheck
  obtain ⟨⟨harrays, s, hs, hreads⟩, hnever⟩ := hcheck
  obtain ⟨d, hd, hname, hsource⟩ := hall 2 s "arr0" hs (reads_of_loadedForValue hreads)
  have hd := harrays d hd
  simp only [hname, ne_eq, not_true_eq_false, decide_false, Bool.false_or, Bool.and_eq_true, decide_eq_true_eq] at hd
  obtain ⟨hrole, hextents⟩ := hd
  rcases hsource with hinput | ⟨t', ht', s', hs', hfills⟩
  · rw [hrole] at hinput
    cases hinput
  · have hstores : storesAt k [1] s' = true := storesAt_of_fills hfills (by rw [hextents]; rfl) (by decide)
    have hmem : s' ∈ k.statements.take 2 :=
      List.mem_of_getElem? (by rw [List.getElem?_take_of_lt ht', hs'])
    rw [hnever s' hmem] at hstores
    cases hstores

end Plan

end ArrayPlan
