import ArrayPlan.Plan.Lowering
import ArrayPlan.Proofs.Lockstep

/-!
Lowering in lockstep. The walks over the rules of two plans that are abreast of each other stay level: after each rule they
have drawn the same kinds of names, and what the one has lowered is what the other has, renamed.
-/

namespace ArrayPlan

/-- The second lowering has come to the first one renamed. -/
structure Lowering.Twin (f : String → String) (l l' : Lowering) : Prop where
  backing : l'.backing = l.backing.rename f
  domains : l'.domains = l.domains.map (Domain.rename f)
  arrays : l'.arrays = l.arrays.map (Declaration.rename f)
  statements : l'.statements = l.statements.map (Statement.rename f)
  rules : l'.rules = l.rules.map (Rule.rename f)
  stores : l'.stores = l.stores.map (Prod.map f (List.map f))

namespace Labelling

variable {L : Labelling} {D D' : List NameKind} {l l' : Lowering}

def relabel (L : Labelling) (f : String → String) (h : Handle) : Handle :=
  { h with plan := L.plan', rule := f h.rule }

structure Level (L : Labelling) (D : List NameKind) (l l' : Lowering) : Prop where
  names : l.names = L.source.draw D ∧ l'.names = L.target.draw D
  fixed : ∀ d ∈ l.arrays, d.shape.Fixed
  twin : ∀ f, L.Carries D f → Lowering.Twin f l l'

theorem Level.draw (h : L.Level D l l') (kinds : List NameKind) :
    L.Level (D ++ kinds) { l with names := l.names.draw kinds } { l' with names := l'.names.draw kinds } where
  names := by
    rw [NameSupply.draw_append, NameSupply.draw_append, h.names.1, h.names.2]
    exact ⟨rfl, rfl⟩
  fixed := h.fixed
  twin f hf := { h.twin f (hf.mono (List.prefix_append D kinds)) with }

theorem Level.pairs_issue (h : L.Level D l l') (kinds : List NameKind) :
    L.Pairs (D ++ kinds) List.map (l.names.issue kinds) (l'.names.issue kinds) := by
  rw [h.names.1, h.names.2]
  exact L.pairs_issue D kinds

theorem Level.addDomain (h : L.Level D l l') {d d' : Domain} (hd : L.Pairs D Domain.rename d d') :
    L.Level D { l with domains := l.domains ++ [d] } { l' with domains := l'.domains ++ [d'] } where
  names := h.names
  fixed := h.fixed
  twin f hf := by
    refine { h.twin f hf with domains := ?_ }
    rw [(h.twin f hf).domains, hd f hf, List.map_append, List.map_singleton]

section Steps

variable {pending pending' : List (Nat × Statement)} {r r' : Rule}

theorem Level.flush (h : L.Level D l l') (hpending : L.Pairs D (fun f => List.map fun e => (e.1, e.2.rename f)) pending pending')
    (index : Nat) : L.Level D (l.flush pending index) (l'.flush pending' index) where
  names := h.names
  fixed := h.fixed
  twin f hf := by
    have htwin := h.twin f hf
    have hdue : (pending'.filter fun s => s.1 = index).map Prod.snd =
        ((pending.filter fun s => s.1 = index).map Prod.snd).map (Statement.rename f) := by
      rw [hpending f hf, List.filter_map, List.map_map, List.map_map]
      rfl
    have hloaded : ∀ due : List Statement, (due.map (Statement.rename f)).map (Statement.loadBacked l'.backing index) =
        (due.map (Statement.loadBacked l.backing index)).map (Statement.rename f) := by
      intro due
      rw [htwin.backing, List.map_map, List.map_map]
      exact List.map_congr_left fun s _ => Statement.loadBacked_rename hf.injective s
    refine { htwin with statements := ?_ }
    rw [Lowering.flush, Lowering.flush, hdue, hloaded, htwin.statements, List.map_append]

theorem Level.record (h : L.Level D l l') (hr : L.Pairs D Rule.rename r r') (index : Nat) :
    L.Level D (l.record index r) (l'.record index r') where
  names := h.names
  fixed := h.fixed
  twin f hf := by
    have htwin := h.twin f hf
    refine { htwin with rules := ?_ }
    rw [Lowering.record, Lowering.record, htwin.rules, htwin.backing, hr f hf, Rule.loadBacked_rename hf.injective,
      List.map_append, List.map_singleton]

theorem Level.addStore (h : L.Level D l l') (hr : L.Pairs D Rule.rename r r') {a a' : Handle} (ha : a'.shape = a.shape)
    (helementType : a'.elementType = a.elementType) (hfixed : a.shape.Fixed) {array array' : String}
    (harray : L.Pairs D id array array') {target target' args args' : List Expr}
    (htarget : L.Pairs D (fun f => List.map (Expr.rename f)) target target')
    (hargs : L.Pairs D (fun f => List.map (Expr.rename f)) args args') {vars vars' : List String}
    (hvars : L.Pairs D List.map vars vars') (index : Nat) :
    L.Level D (l.addStore index r a array target args vars) (l'.addStore index r' a' array' target' args' vars') where
  names := h.names
  fixed d hd := by
    rcases List.mem_append.1 hd with hd | hd
    · exact h.fixed d hd
    · rw [List.mem_singleton.1 hd]
      exact hfixed
  twin f hf := by
    have htwin := h.twin f hf
    have hname : r'.name = f r.name := congrArg Rule.name (hr f hf)
    refine { htwin with backing := ?_, arrays := ?_, statements := ?_, stores := ?_ }
    · rw [Lowering.addStore, Lowering.addStore, hname, htwin.backing, harray f hf]
      exact (BackingTable.insert_rename hf.injective _ _ _ _).symm
    · rw [Lowering.addStore, Lowering.addStore, htwin.arrays, ha, helementType, harray f hf, List.map_append,
        List.map_singleton]
      rfl
    · have hstore : (⟨.load array' target', .call r'.name args', vars'⟩ : Statement) =
          (⟨.load array target, .call r.name args, vars⟩ : Statement).rename f := by
        rw [hname, harray f hf, htarget f hf, hargs f hf, hvars f hf, Statement.rename, Expr.rename, Expr.rename,
          Expr.renameAll_eq_map, Expr.renameAll_eq_map]
        rfl
      rw [Lowering.addStore, Lowering.addStore]
      dsimp only
      rw [hstore, htwin.statements, htwin.backing, Statement.loadBacked_rename hf.injective, List.map_append,
        List.map_singleton]
    · rw [Lowering.addStore, Lowering.addStore, htwin.stores, hname, hvars f hf, List.map_append, List.map_singleton]
      rfl

theorem Level.realize (h : L.Level D l l') (hr : L.Pairs D Rule.rename r r') {a a' : Handle} (ha : a'.shape = a.shape)
    (helementType : a'.elementType = a.elementType) (hfixed : a.shape.Fixed) (index : Nat) :
    ∃ D', D <+: D' ∧ L.Level D' (l.realize index r a) (l'.realize index r' a') := by
  have harray : L.Pairs (D ++ [.array]) id (l.names.fresh .array).1 (l'.names.fresh .array).1 :=
    fun f hf => (List.cons.inj (h.pairs_issue [.array] f hf)).1
  have hdrawn := h.draw [.array]
  have harity : r'.arity = r.arity := by
    obtain ⟨f, hf⟩ := L.exists_carries D
    rw [hr f hf]
    exact List.length_map _
  unfold Lowering.realize
  rw [ha, harity]
  dsimp only
  split
  · have horigin : L.Pairs (D ++ [.array]) (fun f => List.map (Expr.rename f)) (List.replicate r.arity (.int 0))
        (List.replicate r.arity (.int 0)) := fun f _ => by
      show _ = List.map (Expr.rename f) _
      rw [List.map_replicate]
      rfl
    exact ⟨_, List.prefix_append .., hdrawn.addStore hr.later ha helementType hfixed harray (fun _ _ => rfl) horigin
      (fun _ _ => rfl) index⟩
  · have hvars := hdrawn.pairs_issue (List.replicate a.shape.rank .index)
    have hboxed := hdrawn.draw (List.replicate a.shape.rank .index)
    rw [NameSupply.issue_replicate, NameSupply.issue_replicate] at hvars
    rw [NameSupply.draw_replicate, NameSupply.draw_replicate] at hboxed
    have hbox : L.Pairs (D ++ [.array] ++ List.replicate a.shape.rank .index) Domain.rename _ _ := fun f hf =>
      (congrArg (fun vars => Domain.box (vars.zip a.shape.extents)) (hvars f hf)).trans
        (Domain.box_zip_rename hf.injective _ hfixed).symm
    have hread : L.Pairs (D ++ [.array] ++ List.replicate a.shape.rank .index) (fun f => List.map (Expr.rename f)) _ _ :=
      fun f hf => (congrArg (List.map Expr.var) (hvars f hf)).trans (Expr.rename_vars _).symm
    exact ⟨_, (List.prefix_append ..).trans (List.prefix_append ..), (hboxed.addDomain hbox).addStore hr.later.later ha
      helementType hfixed harray.later hread hread hvars index⟩

end Steps

section Walk

variable {pending pending' : List (Nat × Statement)} {requested requested' : String → Option Handle}

theorem Level.visit (h : L.Level D l l')
    (hpending : L.Pairs D (fun f => List.map fun e => (e.1, e.2.rename f)) pending pending')
    (hrequested : ∀ f, L.Carries D f → ∀ rule, requested' (f rule) = (requested rule).map (L.relabel f))
    (hfixed : ∀ rule a, requested rule = some a → a.shape.Fixed) {r r' : Rule} (hr : L.Pairs D Rule.rename r r')
    (index : Nat) :
    ∃ D', D <+: D' ∧ L.Level D' (l.visit pending requested index r) (l'.visit pending' requested' index r') := by
  have hrecorded := (h.flush hpending index).record hr index
  obtain ⟨f, hf⟩ := L.exists_carries D
  have hrequest : requested' r'.name = (requested r.name).map (L.relabel f) := by
    rw [hr f hf]
    exact hrequested f hf r.name
  unfold Lowering.visit
  rw [hrequest]
  cases hrule : requested r.name with
  | none => exact ⟨D, List.prefix_rfl, hrecorded⟩
  | some a => exact hrecorded.realize hr rfl rfl (hfixed r.name a hrule) index

/-- The walks draw the same kinds of names and keep to each other. -/
theorem Level.walk {rules rules' : List Rule} (hrules : List.Forall₂ (L.Pairs D Rule.rename) rules rules')
    (h : L.Level D l l')
    (hpending : L.Pairs D (fun f => List.map fun e => (e.1, e.2.rename f)) pending pending')
    (hrequested : ∀ f, L.Carries D f → ∀ rule, requested' (f rule) = (requested rule).map (L.relabel f))
    (hfixed : ∀ rule a, requested rule = some a → a.shape.Fixed) (index : Nat) :
    ∃ D', D <+: D' ∧ L.Level D' (.walk pending requested index rules l) (.walk pending' requested' index rules' l') := by
  induction rules generalizing D l l' rules' index with
  | nil =>
    cases hrules
    exact ⟨D, List.prefix_rfl, h.flush hpending index⟩
  | cons r rules ih =>
    cases hrules with
    | cons hr hrules =>
      obtain ⟨D₁, hle, hvisited⟩ := h.visit hpending hrequested hfixed hr index
      obtain ⟨D₂, hle', hwalked⟩ := ih (hrules.imp fun _ _ hr => hr.mono hle) hvisited (hpending.mono hle)
        (fun f hf => hrequested f (hf.mono hle)) (index + 1)
      exact ⟨D₂, hle.trans hle', hwalked⟩

end Walk

end Labelling

section Finalize

variable {L : Labelling} {f : String → String}

theorem Binding.rename_injective (hf : Function.Injective f) : Function.Injective (Binding.rename f) := by
  intro b c h
  cases b
  cases c
  exact congrArg₂ Binding.mk (hf (congrArg Binding.rule h)) (hf (congrArg Binding.array h))

theorem Plan.requestedIn_rename (hf : Function.Injective f) {p q : Plan} (hbacking : q.backing = p.backing.rename f)
    (outputs : List Handle) (rule : String) :
    q.requestedIn (outputs.map (L.relabel f)) (f rule) = (p.requestedIn outputs rule).map (L.relabel f) := by
  have hsame : (fun h : Handle => decide (h.rule = f rule)) ∘ L.relabel f = fun h => decide (h.rule = rule) := by
    funext h
    simp [Labelling.relabel, hf.eq_iff]
  rw [requestedIn, requestedIn, hbacking, BackingTable.contains_rename hf, ← List.map_reverse, List.find?_map, hsame]
  split <;> rfl

theorem Plan.bindings_rename (hf : Function.Injective f) (t : BackingTable) (outputs : List Handle) :
    Alike (fun rule rule' => rule' = f rule) (fun bs bs' => bs' = bs.map (Binding.rename f)) (Plan.bindings t outputs)
      (Plan.bindings (t.rename f) (outputs.map (L.relabel f))) := by
  have hbinding : ∀ h : Handle, Alike (fun rule rule' => rule' = f rule) (fun b b' => Binding.rename f b = b')
      (Plan.bindingOf t h) (Plan.bindingOf (t.rename f) (L.relabel f h)) := by
    intro h
    have harray : (t.rename f).array? (L.relabel f h).rule = (t.array? h.rule).map f := t.array?_rename hf h.rule
    rw [bindingOf, bindingOf, harray]
    cases t.array? h.rule with
    | none => exact .error rfl
    | some array => exact .ok rfl
  refine (Alike.mapM (List.forall₂_map_right_iff.2 (List.forall₂_same.2 fun h _ => hbinding h))).map fun bs bs' hbs => ?_
  have hmap : bs.map (Binding.rename f) = bs' := by
    rw [← List.forall₂_eq_eq_eq]
    exact List.forall₂_map_left_iff.2 hbs
  rw [← hmap, eraseDups_map (Binding.rename_injective hf)]

end Finalize

theorem Labelling.Abreast.lowered {L : Labelling} {D : List NameKind} {p q : Plan} (h : L.Abreast D p q)
    {outputs outputs' : List Handle} (hpairs : L.Pairs D (fun f => List.map (L.relabel f)) outputs outputs')
    (hfixed : ∀ a ∈ outputs, a.shape.Fixed) : ∃ D', D <+: D' ∧ L.Level D' (p.lowered outputs) (q.lowered outputs') := by
  refine Level.walk ?_ ⟨h.names, h.fixed, ?_⟩ ?_ ?_ ?_ 0
  · exact Pairs.forall₂ fun f hf => congrArg RuleLog.rules (h.twin f hf).rules
  · intro f hf
    have htwin := h.twin f hf
    exact ⟨htwin.backing, htwin.domains, htwin.arrays, rfl, rfl, rfl⟩
  · exact fun f hf => (h.twin f hf).pending
  · intro f hf rule
    rw [hpairs f hf]
    exact Plan.requestedIn_rename hf.injective (h.twin f hf).backing outputs rule
  · intro rule a hrequested
    unfold Plan.requestedIn at hrequested
    split at hrequested
    · cases hrequested
    · exact hfixed a (List.mem_reverse.1 (List.mem_of_find?_eq_some hrequested))

namespace Labelling.Tandem

variable {L : Labelling} {D : List NameKind}

theorem requireAllOwn {outputs outputs' : List Handle} (houtputs : List.Forall₂ (L.Matches D) outputs outputs')
    {Q : List NameKind → Unit → Unit → Prop} (h : L.Pairs D (fun f => List.map (L.relabel f)) outputs outputs' → Q D () ()) :
    L.Tandem D (outputs.forM Build.requireOwn) (outputs'.forM Build.requireOwn) Q := by
  induction houtputs generalizing Q with
  | nil => exact pure (h fun _ _ => rfl)
  | cons ha _ ih =>
    obtain ⟨plan', rule', hplan, hfixed, hrule⟩ := ha
    refine bind (requireOwn hplan fun hown => ih fun hpairs => h fun f hf => ?_)
    rw [hpairs f hf, hrule hown f hf, hplan.2 hown]
    rfl

theorem finalize {outputs outputs' : List Handle} (houtputs : List.Forall₂ (L.Matches D) outputs outputs') (withStores : Bool) :
    L.Tandem D (Build.finalize outputs withStores) (Build.finalize outputs' withStores) fun D' k k' =>
      L.Pairs D' Kernel.rename k k' ∧ ∀ d ∈ k.arrays, d.shape.Fixed := by
  have hfixed : ∀ h ∈ outputs, h.shape.Fixed := by
    intro h hmem
    obtain ⟨i, hi, rfl⟩ := List.getElem_of_mem hmem
    exact ((List.forall₂_iff_get.1 houtputs).2 i hi (houtputs.length_eq ▸ hi)).fixed
  refine bind (requireAllOwn houtputs fun hpairs => bind (requireOpen (bind (get fun p q hpq => ?_))))
  obtain ⟨f, hf⟩ := L.exists_carries D
  have hfind : (outputs'.find? fun h => !q.rules.contains h.rule) =
      (outputs.find? fun h => !p.rules.contains h.rule).map (L.relabel f) := by
    rw [hpairs f hf, List.find?_map, (hpq.twin f hf).rules]
    refine congrArg _ (congrArg (outputs.find? ·) (funext fun h => ?_))
    exact congrArg not (RuleLog.contains_rename hf.injective p.rules h.rule)
  rw [hfind]
  cases outputs.find? fun h => !p.rules.contains h.rule with
  | some h => exact throw rfl
  | none =>
    obtain ⟨D', hle, hlevel⟩ := hpq.lowered hpairs hfixed
    have hbindings : ∀ f, L.Carries D' f → Alike (fun rule rule' => rule' = f rule) (fun bs bs' => bs' = bs.map (Binding.rename f))
        (Plan.bindings (p.lowered outputs).backing outputs) (Plan.bindings (q.lowered outputs').backing outputs') := by
      intro f hf
      rw [(hlevel.twin f hf).backing, hpairs f (hf.mono hle)]
      exact Plan.bindings_rename hf.injective _ outputs
    dsimp only [Option.map_none]
    refine bind (set hle {
      own := hpq.own
      elementType := hpq.elementType
      names := hlevel.names
      finalized := hpq.finalized
      fixed := hpq.fixed
      twin := fun f hf => { hpq.twin f (hf.mono hle) with pending := rfl } } ?_)
    generalize Plan.bindings (p.lowered outputs).backing outputs = bindings at hbindings ⊢
    generalize Plan.bindings (q.lowered outputs').backing outputs' = bindings' at hbindings ⊢
    obtain ⟨f', hf'⟩ := L.exists_carries D'
    cases bindings with
    | error rule =>
      cases hbindings f' hf' with
      | error _ => exact throw rfl
    | ok bs =>
      cases hbindings f' hf' with
      | @ok _ bs' _ =>
        have hbs : L.Pairs D' (fun f => List.map (Binding.rename f)) bs bs' := by
          intro f hf
          cases hbindings f hf with
          | ok h => exact h
        refine bind (modify (fun p' q' hpq' => ?_) (pure ⟨fun f hf => ?_, hlevel.fixed⟩))
        · exact { hpq' with
            finalized := rfl
            twin := fun f hf => { hpq'.twin f hf with backing := (hlevel.twin f hf).backing } }
        · have htwin := hlevel.twin f hf
          rw [hbs f hf, htwin.domains, htwin.statements, htwin.arrays, htwin.rules, htwin.stores]
          cases withStores <;> rfl

end Labelling.Tandem

end ArrayPlan
