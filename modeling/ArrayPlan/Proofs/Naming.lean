import ArrayPlan.Proofs.Executions
import ArrayPlan.Proofs.Stages
import Mathlib.Data.List.Perm.Basic

/-!
Names by kind. Index variables, rules and arrays share one supply, so no name of one kind is a name of another, whatever
the stems are; lowering keeps it so. The names of symbolic axes are never looked up in the supply. They are other names as
long as the supply has not come to them, and otherwise an index variable may be bounded by itself.
-/

namespace ArrayPlan

namespace Expr

/-- The expression has a sum over the variable. -/
def Reduces (e : Expr) (var : String) : Prop :=
  ∃ vars body, .sum vars body ∈ e.subterms ∧ var ∈ vars

section Reduces

variable {rules arrays owned : String → Prop}

mutual

theorem Within.of_mem_subterms : ∀ {e : Expr}, e.Within rules arrays owned → ∀ e' ∈ e.subterms, e'.Within rules arrays owned
  | .int _, h, _, he' => by rwa [List.mem_singleton.1 he']
  | .real _, h, _, he' => by rwa [List.mem_singleton.1 he']
  | .var _, h, _, he' => by rwa [List.mem_singleton.1 he']
  | .call _ _, h, e', he' => by
    rcases List.mem_cons.1 he' with rfl | he'
    · exact h
    · exact WithinAll.of_mem_subterms h.2 e' he'
  | .load _ _, h, e', he' => by
    rcases List.mem_cons.1 he' with rfl | he'
    · exact h
    · exact WithinAll.of_mem_subterms h.2 e' he'
  | .arith _ _ _, h, e', he' => by
    rcases List.mem_cons.1 he' with rfl | he'
    · exact h
    · rcases List.mem_append.1 he' with he' | he'
      · exact Within.of_mem_subterms h.1 e' he'
      · exact Within.of_mem_subterms h.2 e' he'
  | .compare _ _ _, h, e', he' => by
    rcases List.mem_cons.1 he' with rfl | he'
    · exact h
    · rcases List.mem_append.1 he' with he' | he'
      · exact Within.of_mem_subterms h.1 e' he'
      · exact Within.of_mem_subterms h.2 e' he'
  | .sum _ _, h, e', he' => by
    rcases List.mem_cons.1 he' with rfl | he'
    · exact h
    · exact Within.of_mem_subterms h.2 e' he'

theorem WithinAll.of_mem_subterms :
    ∀ {es : List Expr}, WithinAll rules arrays owned es → ∀ e' ∈ subtermsAll es, e'.Within rules arrays owned
  | [], _, _, he' => nomatch he'
  | _ :: _, h, e', he' => by
    rcases List.mem_append.1 he' with he' | he'
    · exact Within.of_mem_subterms h.1 e' he'
    · exact WithinAll.of_mem_subterms h.2 e' he'

end

theorem Within.reduces {e : Expr} (h : e.Within rules arrays owned) {var : String} (hvar : e.Reduces var) : owned var := by
  obtain ⟨vars, body, hmem, hvar⟩ := hvar
  exact (h.of_mem_subterms _ hmem).1 var hvar

end Reduces

end Expr

structure NamesApart (indices rules arrays : List String) : Prop where
  index_rule : List.Disjoint indices rules
  index_array : List.Disjoint indices arrays
  rule_array : List.Disjoint rules arrays

namespace NamesApart

variable {indices rules arrays indices' rules' arrays' : List String}

theorem of_nodup (h : (arrays ++ indices ++ rules).Nodup) : NamesApart indices rules arrays := by
  obtain ⟨h, _, hrules⟩ := List.nodup_append.1 h
  obtain ⟨_, _, hindices⟩ := List.nodup_append.1 h
  refine ⟨fun name hi hr => ?_, fun name hi ha => ?_, fun name hr ha => ?_⟩
  · exact hrules name (List.mem_append_right _ hi) name hr rfl
  · exact hindices name ha name hi rfl
  · exact hrules name (List.mem_append_left _ ha) name hr rfl

theorem subset (h : NamesApart indices rules arrays) (hi : indices' ⊆ indices) (hr : rules' ⊆ rules)
    (ha : arrays' ⊆ arrays) : NamesApart indices' rules' arrays' :=
  ⟨fun _ hi' hr' => h.index_rule (hi hi') (hr hr'), fun _ hi' ha' => h.index_array (hi hi') (ha ha'),
    fun _ hr' ha' => h.rule_array (hr hr') (ha ha')⟩

theorem append {names names' : NameSupply} {issued : List String} (hdraws : names.Draws names' issued)
    (h : NamesApart indices rules arrays) (h' : NamesApart indices' rules' arrays')
    (htaken : ∀ name ∈ indices ++ rules ++ arrays, name ∈ names.taken)
    (hissued : ∀ name ∈ indices' ++ rules' ++ arrays', name ∈ issued) :
    NamesApart (indices ++ indices') (rules ++ rules') (arrays ++ arrays') := by
  have hnew : ∀ name, name ∈ indices ++ rules ++ arrays → name ∈ indices' ++ rules' ++ arrays' → False :=
    fun name hold hnew => hdraws.unused name (hissued name hnew) (htaken name hold)
  refine ⟨fun name hi hr => ?_, fun name hi ha => ?_, fun name hr ha => ?_⟩
  · rcases List.mem_append.1 hi with hi | hi <;> rcases List.mem_append.1 hr with hr | hr
    · exact h.index_rule hi hr
    · exact hnew name (by simp [hi]) (by simp [hr])
    · exact hnew name (by simp [hr]) (by simp [hi])
    · exact h'.index_rule hi hr
  · rcases List.mem_append.1 hi with hi | hi <;> rcases List.mem_append.1 ha with ha | ha
    · exact h.index_array hi ha
    · exact hnew name (by simp [hi]) (by simp [ha])
    · exact hnew name (by simp [ha]) (by simp [hi])
    · exact h'.index_array hi ha
  · rcases List.mem_append.1 hr with hr | hr <;> rcases List.mem_append.1 ha with ha | ha
    · exact h.rule_array hr ha
    · exact hnew name (by simp [hr]) (by simp [ha])
    · exact hnew name (by simp [ha]) (by simp [hr])
    · exact h'.rule_array hr ha

end NamesApart

structure Growth.Apart (g : Growth) (issued : List String) : Prop where
  params : ∀ v ∈ g.rule.toList.flatMap Rule.params, v ∈ issued
  apart : NamesApart (g.rule.toList.flatMap Rule.params ++ g.domains.flatMap Domain.vars) (ruleNames g.rule.toList)
    (arrayNames g.arrays)

namespace Plan

def indexNames (p : Plan) : List String :=
  p.rules.rules.flatMap Rule.params ++ p.domains.flatMap Domain.vars

structure Apart (p : Plan) : Prop where
  params_taken : ∀ v ∈ p.rules.rules.flatMap Rule.params, v ∈ p.names.taken
  apart : NamesApart p.indexNames (ruleNames p.rules.rules) (arrayNames p.arrays)

theorem empty_apart (id : Nat) (settings : Settings) : (empty id settings).Apart :=
  ⟨by simp [empty, RuleLog.empty], .of_nodup (by simp [empty, RuleLog.empty, indexNames, ruleNames, arrayNames])⟩

section Apart

variable {p p' : Plan} {h : Handle}

theorem OnlyDraws.apart (hdraws : p.OnlyDraws p') (hp : p.Apart) : p'.Apart := by
  obtain ⟨⟨issued, hissued⟩, hsame⟩ := hdraws
  rw [hsame]
  exact ⟨fun v hv => hissued.taken_mono (hp.params_taken v hv), hp.apart⟩

theorem Apart.taken (hp : p.Apart) (hwf : p.WellFormed) :
    ∀ name ∈ p.indexNames ++ ruleNames p.rules.rules ++ arrayNames p.arrays, name ∈ p.names.taken := by
  intro name hname
  rcases List.mem_append.1 hname with hname | hname
  · rcases List.mem_append.1 hname with hname | hname
    · rcases List.mem_append.1 hname with hname | hname
      · exact hp.params_taken name hname
      · exact hwf.vars_taken name hname
    · exact hwf.rules_taken name hname
  · exact hwf.arrays_taken name hname

theorem Apart.grow (hp : p.Apart) (hwf : p.WellFormed) {g : Growth} {issued : List String} (hg : g.Fits p issued)
    (hapart : g.Apart issued) : (p.grow g).Apart := by
  have hrules : (p.grow g).rules.rules = p.rules.rules ++ g.rule.toList := rfl
  constructor
  · intro v hv
    rw [hrules, List.flatMap_append] at hv
    rcases List.mem_append.1 hv with hv | hv
    · exact hg.draws.taken_mono (hp.params_taken v hv)
    · exact hg.draws.mem_taken (hapart.params v hv)
  · refine (hp.apart.append hg.draws hapart.apart (hp.taken hwf) fun name hname => ?_).subset ?_ ?_ ?_
    · rcases List.mem_append.1 hname with hname | hname
      · rcases List.mem_append.1 hname with hname | hname
        · rcases List.mem_append.1 hname with hname | hname
          · exact hapart.params name hname
          · exact hg.domains name hname
        · obtain ⟨r, hr, rfl⟩ := List.mem_map.1 hname
          exact (hg.rule r (by simpa using hr)).1
      · exact hg.arrays name hname
    · intro v hv
      have hv' : v ∈ (p.rules.rules ++ g.rule.toList).flatMap Rule.params ++ (p.domains ++ g.domains).flatMap Domain.vars := hv
      simp only [indexNames, List.flatMap_append, List.mem_append] at hv' ⊢
      tauto
    · rw [hrules, ruleNames, List.map_append]
      exact fun _ h => h
    · exact fun name hname => by simpa [Plan.grow, arrayNames] using hname

theorem Defines.apart {d : Definition} (hd : p.Defines d h p') (hwf : p.WellFormed) (hp : p.Apart) : p'.Apart := by
  rw [hd.grown]
  refine hp.grow hwf hd.growth_fits ⟨fun v hv => ?_, ?_⟩
  · have hv' : v ∈ d.params := by simpa [Definition.growth] using hv
    exact List.mem_append_left _ (hd.fits.params.subset hv')
  · refine (NamesApart.of_nodup (show ([] ++ d.drawn ++ [h.rule]).Nodup from hd.draws.nodup)).subset ?_ ?_ ?_
    · intro v hv
      have hv' : v ∈ d.params ∨ v ∈ d.domains.flatMap Domain.vars := by simpa [Definition.growth] using hv
      exact hv'.elim (fun hv => hd.fits.params.subset hv) (hd.fits.domains v)
    · simp [Definition.growth, ruleNames]
    · simp [Definition.growth, arrayNames]

theorem Inputs.apart {array : String} {shape : Shape} {elementType : ElementType} {vars : List String}
    (hi : p.Inputs array shape elementType vars h p') (hwf : p.WellFormed) (hp : p.Apart) : p'.Apart := by
  rw [hi.grown]
  refine hp.grow hwf hi.fits ⟨fun v hv => ?_, ?_⟩
  · have hv' : v ∈ vars := by simpa [inputGrowth] using hv
    simp [hv']
  · have hnodup : ([array] ++ vars ++ [h.rule]).Nodup := hi.fits.draws.nodup
    exact (NamesApart.of_nodup hnodup).subset (by simp [inputGrowth]) (by simp [inputGrowth, ruleNames])
      (by simp [inputGrowth, arrayNames])

theorem Accumulates.apart {a : Handle} {extent : Extent} {array i j t : String}
    (hs : p.Accumulates a extent array i j t h p') (hwf : p.WellFormed) (hp : p.Apart) : p'.Apart := by
  rw [hs.grown]
  have hvars : (prefixSumDomain i j extent).vars = [i, j] := Build.Outcome.vars_prefixSumDomain i j extent
  refine hp.grow hwf hs.fits ⟨fun v hv => ?_, ?_⟩
  · have hv' : v = t := by simpa [prefixSumGrowth] using hv
    simp [hv']
  · have hnodup : ([array] ++ [i, j, t] ++ [h.rule]).Nodup := by
      refine List.Perm.nodup ?_ hs.fits.draws.nodup
      simp only [List.cons_append, List.nil_append]
      exact (List.perm_middle : ([i, j] ++ array :: [t, h.rule]).Perm (array :: ([i, j] ++ [t, h.rule])))
    exact (NamesApart.of_nodup hnodup).subset (by simp [prefixSumGrowth, hvars]) (by simp [prefixSumGrowth, ruleNames])
      (by simp [prefixSumGrowth, arrayNames])

theorem Writes.apart {a : Handle} {index : List (Index Handle)} {value : Operand Handle}
    (hw : p.Writes a index value h p') (hwf : p.WellFormed) (hp : p.Apart) : p'.Apart := by
  cases hw with
  | again array axes v vars hrequest hbacked hlen hfits hgrown hhandle =>
    rw [hgrown]
    have hvars := vars_regionDomains hlen
    refine hp.grow hwf hfits ⟨by simp [againGrowth], ?_⟩
    have hnodup : ([] ++ vars ++ []).Nodup := by simpa using hfits.draws.nodup
    exact (NamesApart.of_nodup hnodup).subset (by simp [againGrowth, hvars]) (by simp [againGrowth, ruleNames])
      (by simp [againGrowth, arrayNames])
  | first array axes v copyVars vars params hrequest hbacked hcopy hlen hparams hfits hgrown hhandle =>
    rw [hgrown]
    have hvars := vars_regionDomains hlen
    have hcopyVars : (Domain.box (copyVars.zip a.shape.extents)).vars = copyVars := by
      rw [Domain.vars_box, List.map_fst_zip (Nat.le_of_eq hcopy)]
    refine hp.grow hwf hfits ⟨fun v hv => ?_, ?_⟩
    · have hv' : v ∈ params := by simpa [firstGrowth] using hv
      simp [hv']
    · have hnodup : ([array] ++ (copyVars ++ vars ++ params) ++ [h.rule]).Nodup := by
        simpa only [List.append_assoc] using hfits.draws.nodup
      refine (NamesApart.of_nodup hnodup).subset ?_ (by simp [firstGrowth, ruleNames]) (by simp [firstGrowth, arrayNames])
      intro v hv
      simp only [firstGrowth, Option.toList_some, List.flatMap_cons, hvars, hcopyVars, List.mem_append] at hv ⊢
      tauto

theorem Moves.apart {handles handles' : List Handle} (hmoves : p.Moves handles p' handles') (hp : p.Intact handles)
    (hapart : p.Apart) : p'.Apart := by
  induction hmoves with
  | refl => exact hapart
  | step hbefore hmove ih =>
    have hwf := (hbefore.intact hp).wellFormed
    cases hmove with
    | define d hdef hscope => exact hdef.apart hwf ih
    | input array shape elementType vars hinput => exact hinput.apart hwf ih
    | accumulate a extent array i j t ha hsums => exact hsums.apart hwf ih
    | write a index value ha hwrite => exact hwrite.apart hwf ih

end Apart

theorem Stages.apart {p : Plan} {handles : List Handle} {arrays : List Declaration} (h : Stages p handles arrays)
    (hopen : p.finalized = false) : p.Apart := by
  induction h with
  | empty id settings => exact empty_apart id settings
  | @perform p p' handles arrays outcome hbefore op hrefs hrun ih =>
    rcases hbefore.framed with ⟨hopen, hintact, _⟩ | ⟨hclosed, hframed⟩
    · have hout := perform_moves hintact op hrefs
      unfold Build.Outcome at hout
      rw [hrun] at hout
      cases outcome with
      | error e => exact hout.apart (ih hopen)
      | ok a =>
        obtain ⟨_, hmoves, _⟩ := hout
        exact hmoves.apart hintact (ih hopen)
    · obtain ⟨e, hhalts⟩ := Build.Halts.perform hclosed op
      obtain ⟨rfl, rfl⟩ := Prod.mk.inj (hhalts.symm.trans hrun)
      exact ih hopen
  | @finalize p p' handles arrays outcome hbefore outputs withStores houtputs hrun ih =>
    rcases hbefore.framed with ⟨_, hintact, _⟩ | ⟨hclosed, _⟩
    · have hout := finalize_same hintact.wellFormed outputs withStores
      unfold Build.Outcome at hout
      rw [hrun] at hout
      cases outcome with
      | error e =>
        have hsame : p'.finalized = p.finalized := by rw [hout.same]
        exact hout.apart (ih (hsame ▸ hopen))
      | ok k =>
        rw [hout] at hopen
        cases hopen
    · obtain ⟨e, hhalts⟩ := Build.Halts.finalize outputs withStores hclosed
      obtain ⟨rfl, rfl⟩ := Prod.mk.inj (hhalts.symm.trans hrun)
      exact ih hopen

end Plan

/-- An index variable of the kernel. -/
inductive Kernel.Indexes (k : Kernel) (v : String) : Prop where
  | parameter (r : Rule) (hr : r ∈ k.rules) (hv : v ∈ r.params)
  | domain (d : Domain) (hd : d ∈ k.domains) (hv : v ∈ d.vars)
  | loop (s : Statement) (hs : s ∈ k.statements) (hv : v ∈ s.within)
  | reducedByRule (r : Rule) (hr : r ∈ k.rules) (hv : r.body.Reduces v)
  | reducedByStatement (s : Statement) (hs : s ∈ k.statements) (hv : s.value.Reduces v ∨ s.target.Reduces v)

/-- Index variables, rules, arrays and the symbols have different names. -/
structure Kernel.NamedApart (k : Kernel) (symbols : List String) : Prop where
  index : ∀ v, k.Indexes v → v ∉ ruleNames k.rules ∧ v ∉ arrayNames k.arrays
  rule : ∀ name ∈ ruleNames k.rules, name ∉ arrayNames k.arrays
  symbol : ∀ name ∈ symbols, ¬ k.Indexes name ∧ name ∉ ruleNames k.rules ∧ name ∉ arrayNames k.arrays

namespace Plan

section Lowers

variable {p p' : Plan} {outputs : List Handle} {os : List Realization} {k : Kernel}

theorem mem_indexNames_of_owned {v : String} (h : Owned p.domains v) : v ∈ p.indexNames :=
  List.mem_append_right _ (List.mem_flatMap.2 h)

theorem reduces_of_loadBacked {e : Expr} {rules arrays owned : String → Prop} (h : e.Within rules arrays owned)
    {t : BackingTable} {i : Nat} {v : String} (hv : (e.loadBacked t i).Reduces v) : owned v :=
  (h.loadBacked (fun _ _ => trivial) (fun _ _ _ => trivial) fun _ _ _ _ => trivial :
    (e.loadBacked t i).Within (fun _ => True) (fun _ => True) owned).reduces hv

theorem mem_vars_of_store {o : Realization} {t : BackingTable} {i : Nat} {v : String}
    (hv : v ∈ o.store.within ∨ (o.store.loadBacked t i).value.Reduces v ∨ (o.store.loadBacked t i).target.Reduces v) :
    v ∈ o.vars := by
  have hwithin : v ∈ o.store.within → v ∈ o.vars := by
    rw [Realization.store]
    split
    · intro h
      cases h
    · exact fun h => h
  have hvalue : o.store.value.Within (fun _ => True) (fun _ => True) fun _ => False := by
    rw [Realization.store]
    split
    · refine ⟨trivial, Expr.withinAll_iff.2 fun e he => ?_⟩
      rw [List.eq_of_mem_replicate he]
      trivial
    · exact ⟨trivial, Expr.withinAll_vars _⟩
  have htarget : o.store.target.Within (fun _ => True) (fun _ => True) fun _ => False := by
    rw [Realization.store]
    split
    · exact ⟨trivial, trivial, trivial⟩
    · exact ⟨trivial, Expr.withinAll_vars _⟩
  rcases hv with hv | hv | hv
  · exact hwithin hv
  · exact (reduces_of_loadBacked hvalue hv).elim
  · exact (reduces_of_loadBacked htarget hv).elim

theorem Lowers.mem_of_indexes (hp : p.WellFormed) (h : p.Lowers outputs os k p') {v : String} (hv : k.Indexes v) :
    v ∈ p.indexNames ++ os.flatMap Realization.vars := by
  have hstatement : ∀ s ∈ k.statements, v ∈ s.within ∨ s.value.Reduces v ∨ s.target.Reduces v →
      v ∈ p.indexNames ++ os.flatMap Realization.vars := by
    intro s hs hv
    rw [h.statements] at hs
    obtain ⟨e, he, rfl⟩ := List.mem_map.1 hs
    rcases (mem_agenda_iff.1 he).2 with he | ⟨o, ho, rfl⟩
    · have hscoped := (hp.pending e he).2
      refine List.mem_append_left _ (mem_indexNames_of_owned ?_)
      rcases hv with hv | hv | hv
      · exact hscoped.vars v hv
      · exact reduces_of_loadBacked hscoped.value hv
      · obtain ⟨array, index, htarget, _, hindex⟩ := hscoped.target
        have hwithin : e.2.target.Within (fun _ => True) (fun _ => True) (Owned p.domains) := by
          rw [htarget]
          exact ⟨trivial, hindex.mono (fun _ _ => trivial) (fun _ _ => trivial) fun _ h => h⟩
        exact reduces_of_loadBacked hwithin hv
    · exact List.mem_append_right _ (List.mem_flatMap.2 ⟨o, ho, mem_vars_of_store hv⟩)
  cases hv with
  | parameter r hr hv =>
    obtain ⟨i, hi⟩ := List.mem_iff_getElem?.1 hr
    obtain ⟨r', hr', rfl⟩ := h.rule_at hi
    exact List.mem_append_left _ (List.mem_append_left _ (List.mem_flatMap.2 ⟨r', List.mem_of_getElem? hr', hv⟩))
  | domain d hd hv =>
    rw [h.domains] at hd
    rcases List.mem_append.1 hd with hd | hd
    · exact List.mem_append_left _ (mem_indexNames_of_owned ⟨d, hd, hv⟩)
    · obtain ⟨o, ho, hd⟩ := List.mem_flatMap.1 hd
      refine List.mem_append_right _ (List.mem_flatMap.2 ⟨o, ho, ?_⟩)
      rw [Realization.domains] at hd
      split at hd
      · cases hd
      · rw [List.mem_singleton.1 hd, Domain.vars_box] at hv
        obtain ⟨axis, haxis, rfl⟩ := List.mem_map.1 hv
        exact (List.of_mem_zip haxis).1
  | loop s hs hv => exact hstatement s hs (.inl hv)
  | reducedByRule r hr hv =>
    obtain ⟨i, hi⟩ := List.mem_iff_getElem?.1 hr
    exact List.mem_append_left _ (mem_indexNames_of_owned ((h.body_within hp hi).reduces hv))
  | reducedByStatement s hs hv => exact hstatement s hs (.inr hv)

theorem Lowers.namedApart (hwf : p.WellFormed) (hp : p.Apart) (h : p.Lowers outputs os k p') {symbols : List String}
    (hsymbols : ∀ s ∈ symbols, s ∉ p'.names.taken) : k.NamedApart symbols := by
  have hnew : NamesApart (os.flatMap Realization.vars) [] (os.map Realization.array) := by
    refine .of_nodup ?_
    rw [List.append_nil]
    exact (List.map_append_flatMap_perm os Realization.array Realization.vars).nodup_iff.2 h.draws.nodup
  have hissued : ∀ name ∈ os.flatMap Realization.vars ++ [] ++ os.map Realization.array,
      name ∈ os.flatMap fun o => o.array :: o.vars := by
    intro name hname
    simp only [List.append_nil, List.mem_append, List.mem_flatMap, List.mem_map, List.mem_cons] at hname ⊢
    rcases hname with ⟨o, ho, hname⟩ | ⟨o, ho, rfl⟩
    · exact ⟨o, ho, .inr hname⟩
    · exact ⟨o, ho, .inl rfl⟩
  have hapart := hp.apart.append h.draws hnew (hp.taken hwf) hissued
  have hrules : ruleNames k.rules = ruleNames p.rules.rules ++ [] := by
    have hlen : k.rules.length = p.rules.rules.length := by rw [h.rules, List.length_mapIdx]
    have hnames := h.ruleNames_take k.rules.length
    rwa [List.take_length, hlen, List.take_length, ← List.append_nil (ruleNames p.rules.rules)] at hnames
  have harrays : arrayNames k.arrays = arrayNames p.arrays ++ os.map Realization.array := by
    rw [h.arrays, arrayNames, List.map_append, List.map_map]
    rfl
  have htaken : ∀ name, name ∈ p.indexNames ++ os.flatMap Realization.vars ∨ name ∈ ruleNames k.rules ∨
      name ∈ arrayNames k.arrays → name ∈ p'.names.taken := by
    intro name hname
    have hold := fun hmem => h.draws.taken_mono (hp.taken hwf name hmem)
    have hdrawn := fun hmem => h.draws.mem_taken (hissued name hmem)
    simp only [hrules, harrays, List.mem_append, List.append_nil] at hname hold hdrawn
    tauto
  rw [← hrules, ← harrays] at hapart
  refine ⟨fun v hv => ⟨fun hr => ?_, fun ha => ?_⟩, fun name hr ha => hapart.rule_array hr ha, fun s hs => ⟨?_, ?_, ?_⟩⟩
  · exact hapart.index_rule (h.mem_of_indexes hwf hv) hr
  · exact hapart.index_array (h.mem_of_indexes hwf hv) ha
  · exact fun hv => hsymbols s hs (htaken s (.inl (h.mem_of_indexes hwf hv)))
  · exact fun hr => hsymbols s hs (htaken s (.inr (.inl hr)))
  · exact fun ha => hsymbols s hs (htaken s (.inr (.inr ha)))

end Lowers

/-- Whatever the stems are and whatever was asked for, no name in a kernel is of two kinds. Symbolic axes have names apart
from all of these if the supply has not come to them. -/
theorem finalize_namedApart {p p' : Plan} {handles outputs : List Handle} {arrays : List Declaration} {withStores : Bool}
    {k : Kernel} (h : Stages p handles arrays) (hrun : (Build.finalize outputs withStores).runOn p = (.ok k, p'))
    {symbols : List String} (hsymbols : ∀ s ∈ symbols, s ∉ p'.names.taken) : k.NamedApart symbols := by
  rcases h.framed with ⟨hopen, hintact, _⟩ | ⟨hclosed, _⟩
  · obtain ⟨os, hlowers⟩ := finalize_lowers hintact.wellFormed hrun
    exact hlowers.namedApart hintact.wellFormed (h.apart hopen) hsymbols
  · obtain ⟨e, hhalts⟩ := Build.Halts.finalize outputs withStores hclosed
    cases (Prod.mk.inj (hhalts.symm.trans hrun)).1

def filledAlong (axis : String) : Progress :=
  (Progress.start (.empty 0 .default)).run [.fill (.extents [.symbolic axis]) (.int 3)]

theorem finalize_namedApart_filled :
    ∃ (k : Kernel) (p' : Plan), (Build.finalize (filledAlong "n").handles false).runOn (filledAlong "n").plan = (.ok k, p') ∧
      k.NamedApart ["n"] := by
  have hreach : (filledAlong "n").plan.Reachable (filledAlong "n").handles := Progress.run_reachable 0 .default _
  obtain ⟨arrays, hstages⟩ := hreach.stages
  obtain ⟨k, p', hrun⟩ := exists_ok_of_isOk (x := (Build.finalize (filledAlong "n").handles false).runOn
    (filledAlong "n").plan) (by decide +kernel)
  have hunused : "n" ∉ ((Build.finalize (filledAlong "n").handles false).runOn (filledAlong "n").plan).2.names.taken := by
    decide +kernel
  rw [hrun] at hunused
  refine ⟨k, p', hrun, finalize_namedApart hstages hrun fun s hs => ?_⟩
  rwa [List.mem_singleton.1 hs]

/-- An axis called as a later index variable: the variable of the output's domain is bounded by itself, which is to say
not at all, and a number for the axis does not let the kernel be executed. -/
theorem finalize_bounds_variable_by_itself :
    ∃ (k : Kernel) (p' : Plan),
      (filledAlong "i1").plan.Reachable (filledAlong "i1").handles ∧
      (Build.finalize (filledAlong "i1").handles false).runOn (filledAlong "i1").plan = (.ok k, p') ∧
      k.domains = [⟨["i1"], [.le (.ofConstant 0) (.ofVar "i1"), ⟨.ofConstant (-1)⟩]⟩] ∧
      (k.execute (Env.empty.bind "i1" 2) ([] : List (String × Array Int))).toOption.isNone = true ∧
      ¬ k.NamedApart ((filledAlong "i1").handles.flatMap fun h => h.shape.parameters) := by
  obtain ⟨k, p', hrun, hcheck⟩ := @exists_of_succeedsWith _ _
    ((Build.finalize (filledAlong "i1").handles false).runOn (filledAlong "i1").plan)
    (fun k _ => decide (k.domains = [⟨["i1"], [.le (.ofConstant 0) (.ofVar "i1"), ⟨.ofConstant (-1)⟩]⟩]) &&
      (k.execute (Env.empty.bind "i1" 2) ([] : List (String × Array Int))).toOption.isNone) (by decide +kernel)
  obtain ⟨hdomains, hexecute⟩ := Bool.and_eq_true_iff.1 hcheck
  have hdomains := of_decide_eq_true hdomains
  refine ⟨k, p', Progress.run_reachable 0 .default _, hrun, hdomains, hexecute, fun hapart => ?_⟩
  have hsymbol : "i1" ∈ (filledAlong "i1").handles.flatMap fun h => h.shape.parameters := by decide +kernel
  exact (hapart.symbol "i1" hsymbol).1 (.domain _ (hdomains ▸ List.mem_singleton_self _) (List.mem_singleton_self "i1"))

end Plan

end ArrayPlan
