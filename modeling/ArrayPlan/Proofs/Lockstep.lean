import ArrayPlan.Proofs.Renaming
import ArrayPlan.Proofs.Shapes
import ArrayPlan.Proofs.Steps
import Mathlib.Logic.Equiv.Fintype

/-!
Plans built in lockstep. Two plans that differ in their stems take the same steps. After as many draws of each of the two
supplies they are the same plan, up to any renaming that sends each name drawn for the one to the name drawn for the other
in its place. `Tandem` says this of a step, with one rule for each way in which steps are put together.
-/

namespace ArrayPlan

inductive Alike {ε ε' α α' : Type} (E : ε → ε' → Prop) (Q : α → α' → Prop) : Except ε α → Except ε' α' → Prop where
  | ok {a : α} {a' : α'} (h : Q a a') : Alike E Q (.ok a) (.ok a')
  | error {e : ε} {e' : ε'} (h : E e e') : Alike E Q (.error e) (.error e')

namespace Alike

variable {ε ε' α α' β β' : Type} {E : ε → ε' → Prop} {Q : α → α' → Prop} {R : β → β' → Prop}

theorem mono {Q' : α → α' → Prop} {x : Except ε α} {x' : Except ε' α'} (h : Alike E Q x x') (himp : ∀ a a', Q a a' → Q' a a') :
    Alike E Q' x x' := by
  cases h with
  | ok h => exact .ok (himp _ _ h)
  | error h => exact .error h

theorem bind {x : Except ε α} {x' : Except ε' α'} {next : α → Except ε β} {next' : α' → Except ε' β'} (h : Alike E Q x x')
    (hnext : ∀ a a', Q a a' → Alike E R (next a) (next' a')) : Alike E R (x >>= next) (x' >>= next') := by
  cases h with
  | ok h => exact hnext _ _ h
  | error h => exact .error h

theorem map {x : Except ε α} {x' : Except ε' α'} {g : α → β} {g' : α' → β'} (h : Alike E Q x x')
    (hg : ∀ a a', Q a a' → R (g a) (g' a')) : Alike E R (x.map g) (x'.map g') := by
  cases h with
  | ok h => exact .ok (hg _ _ h)
  | error h => exact .error h

theorem mapError {η η' : Type} {F : η → η' → Prop} {x : Except ε α} {x' : Except ε' α'} {g : ε → η} {g' : ε' → η'}
    (h : Alike E Q x x') (hg : ∀ e e', E e e' → F (g e) (g' e')) : Alike F Q (x.mapError g) (x'.mapError g') := by
  cases h with
  | ok h => exact .ok h
  | error h => exact .error (hg _ _ h)

theorem mapM {γ γ' : Type} {g : γ → Except ε α} {g' : γ' → Except ε' α'} {cs : List γ} {cs' : List γ'}
    (h : List.Forall₂ (fun c c' => Alike E Q (g c) (g' c')) cs cs') : Alike E (List.Forall₂ Q) (cs.mapM g) (cs'.mapM g') := by
  induction h with
  | nil => exact .ok .nil
  | cons hc _ ih =>
    rw [List.mapM_cons, List.mapM_cons]
    exact bind hc fun a a' ha => bind ih fun as as' has => .ok (.cons ha has)

end Alike

/-- Two plans, and the supplies that they draw their names from. -/
structure Labelling where
  plan : Nat
  plan' : Nat
  source : NameSupply
  target : NameSupply

namespace Labelling

variable {L : Labelling} {D D' : List NameKind} {f : String → String}

/-- The renaming sends the names drawn from the first supply to those drawn from the second. -/
structure Carries (L : Labelling) (D : List NameKind) (f : String → String) : Prop where
  injective : Function.Injective f
  issue : (L.source.issue D).map f = L.target.issue D

theorem Carries.mono (hf : L.Carries D' f) (hle : D <+: D') : L.Carries D f := by
  obtain ⟨later, rfl⟩ := hle
  have hissue := hf.issue
  rw [NameSupply.issue_append, NameSupply.issue_append, List.map_append] at hissue
  refine ⟨hf.injective, (List.append_inj hissue ?_).1⟩
  rw [List.length_map, NameSupply.length_issue, NameSupply.length_issue]

theorem exists_carries (L : Labelling) (D : List NameKind) : ∃ f, L.Carries D f := by
  have hnodup := (L.source.issue_draws D).nodup
  have hnodup' := (L.target.issue_draws D).nodup
  have hlen : (L.target.issue D).length = (L.source.issue D).length := by
    rw [NameSupply.length_issue, NameSupply.length_issue]
  obtain ⟨f, hf⟩ := Equiv.Perm.exists_extending_pair (L.source.issue D).get
    (fun i => (L.target.issue D).get (i.cast hlen.symm)) (List.nodup_iff_injective_get.1 hnodup)
    ((List.nodup_iff_injective_get.1 hnodup').comp (Fin.cast_injective hlen.symm))
  refine ⟨f, f.injective, List.ext_getElem (by rw [List.length_map, hlen]) fun i hi hi' => ?_⟩
  rw [List.getElem_map]
  exact hf ⟨i, hlen ▸ hi'⟩

def Pairs (L : Labelling) (D : List NameKind) {X : Type} (rename : (String → String) → X → X) (x x' : X) : Prop :=
  ∀ f, L.Carries D f → x' = rename f x

section Pairs

variable {X : Type} {rename : (String → String) → X → X} {x x' : X} {xs xs' : List X}

theorem Pairs.mono (h : L.Pairs D rename x x') (hle : D <+: D') : L.Pairs D' rename x x' :=
  fun f hf => h f (hf.mono hle)

theorem Pairs.later {kinds : List NameKind} (h : L.Pairs D rename x x') : L.Pairs (D ++ kinds) rename x x' :=
  h.mono (List.prefix_append D kinds)

theorem Pairs.length_eq (h : L.Pairs D (fun f => List.map (rename f)) xs xs') : xs'.length = xs.length := by
  obtain ⟨f, hf⟩ := L.exists_carries D
  rw [h f hf, List.length_map]

theorem Pairs.forall₂ (h : L.Pairs D (fun f => List.map (rename f)) xs xs') : List.Forall₂ (L.Pairs D rename) xs xs' := by
  induction xs generalizing xs' with
  | nil =>
    obtain rfl := List.length_eq_zero_iff.1 h.length_eq
    exact .nil
  | cons x xs ih =>
    cases xs' with
    | nil => cases h.length_eq
    | cons x' xs' =>
      exact .cons (fun f hf => (List.cons.inj (h f hf)).1) (ih fun f hf => (List.cons.inj (h f hf)).2)

theorem Pairs.of_forall₂ (h : List.Forall₂ (L.Pairs D rename) xs xs') : L.Pairs D (fun f => List.map (rename f)) xs xs' := by
  intro f hf
  induction h with
  | nil => rfl
  | cons hx _ ih => exact congrArg₂ List.cons (hx f hf) ih

theorem pairs_issue (L : Labelling) (D kinds : List NameKind) :
    L.Pairs (D ++ kinds) List.map ((L.source.draw D).issue kinds) ((L.target.draw D).issue kinds) := by
  intro f hf
  have hissue := hf.issue
  rw [NameSupply.issue_append, NameSupply.issue_append, List.map_append,
    (hf.mono (List.prefix_append D kinds)).issue] at hissue
  exact (List.append_cancel_left hissue).symm

end Pairs

end Labelling

/-- The second plan is the first one renamed, apart from its supply. -/
structure Plan.Twin (f : String → String) (p q : Plan) : Prop where
  rules : q.rules = p.rules.rename f
  domains : q.domains = p.domains.map (Domain.rename f)
  backing : q.backing = p.backing.rename f
  pending : q.pending = p.pending.map fun e => (e.1, e.2.rename f)
  arrays : q.arrays = p.arrays.map (Declaration.rename f)

namespace Labelling

variable {L : Labelling} {D D' : List NameKind}

structure Abreast (L : Labelling) (D : List NameKind) (p q : Plan) : Prop where
  own : p.id = L.plan ∧ q.id = L.plan'
  elementType : q.settings.elementType = p.settings.elementType
  names : p.names = L.source.draw D ∧ q.names = L.target.draw D
  finalized : q.finalized = p.finalized
  fixed : ∀ d ∈ p.arrays, d.shape.Fixed
  twin : ∀ f, L.Carries D f → Plan.Twin f p q

theorem Abreast.draw {p q : Plan} (h : L.Abreast D p q) (kinds : List NameKind) :
    L.Abreast (D ++ kinds) { p with names := p.names.draw kinds } { q with names := q.names.draw kinds } where
  own := h.own
  elementType := h.elementType
  names := by
    rw [NameSupply.draw_append, NameSupply.draw_append, h.names.1, h.names.2]
    exact ⟨rfl, rfl⟩
  finalized := h.finalized
  fixed := h.fixed
  twin f hf := { h.twin f (hf.mono (List.prefix_append D kinds)) with }

/-- Steps that do the same on two plans that are abreast of each other. They draw the same kinds of names, and both succeed
or are refused for one kind of reason. -/
def Tandem {α α' : Type} (L : Labelling) (D : List NameKind) (step : Build α) (step' : Build α')
    (Q : List NameKind → α → α' → Prop) : Prop :=
  ∀ p q, L.Abreast D p q → ∃ D', D <+: D' ∧ L.Abreast D' (step.runOn p).2 (step'.runOn q).2 ∧
    Alike (fun e e' : PlanError => e'.kind = e.kind) (Q D') (step.runOn p).1 (step'.runOn q).1

/-- Handles that stand for each other: those of the two plans, and those of other plans. -/
inductive Matches (L : Labelling) (D : List NameKind) (a : Handle) : Handle → Prop where
  | intro (plan' : Nat) (rule' : String) (hplan : plan' = L.plan' ↔ a.plan = L.plan) (hfixed : a.shape.Fixed)
      (hrule : a.plan = L.plan → L.Pairs D id a.rule rule') : Matches L D a { a with plan := plan', rule := rule' }

theorem Matches.own {rule rule' : String} {shape : Shape} {elementType : ElementType} {layout : Layout}
    (hrule : L.Pairs D id rule rule') (hfixed : shape.Fixed) :
    L.Matches D ⟨L.plan, rule, shape, elementType, layout⟩ ⟨L.plan', rule', shape, elementType, layout⟩ :=
  .intro L.plan' rule' (iff_of_true rfl rfl) hfixed fun _ => hrule

theorem Matches.fixed {a a' : Handle} (h : L.Matches D a a') : a.shape.Fixed := by
  obtain ⟨_, _, _, hfixed, _⟩ := h
  exact hfixed

theorem Matches.mono {a a' : Handle} (h : L.Matches D a a') (hle : D <+: D') : L.Matches D' a a' := by
  obtain ⟨plan', rule', hplan, hfixed, hrule⟩ := h
  exact .intro plan' rule' hplan hfixed fun hown => (hrule hown).mono hle

end Labelling

namespace Labelling.Tandem

variable {L : Labelling} {D : List NameKind} {α α' β β' : Type} {Q : List NameKind → α → α' → Prop}

theorem pure {a : α} {a' : α'} (h : Q D a a') : L.Tandem D (pure a) (pure a') Q :=
  fun _ _ hpq => ⟨D, List.prefix_rfl, hpq, .ok h⟩

theorem throw {e e' : PlanError} (h : e'.kind = e.kind) : L.Tandem D (throw e : Build α) (throw e' : Build α') Q :=
  fun _ _ hpq => ⟨D, List.prefix_rfl, hpq, .error h⟩

theorem bind {step : Build β} {step' : Build β'} {next : β → Build α} {next' : β' → Build α'}
    (h : L.Tandem D step step' fun D' b b' => L.Tandem D' (next b) (next' b') Q) :
    L.Tandem D (step >>= next) (step' >>= next') Q := by
  intro p q hpq
  obtain ⟨D₁, hle, habreast, halike⟩ := h p q hpq
  rw [Build.runOn_bind_eq, Build.runOn_bind_eq]
  generalize step.runOn p = first at habreast halike
  generalize step'.runOn q = first' at habreast halike
  obtain ⟨outcome, p₁⟩ := first
  obtain ⟨outcome', q₁⟩ := first'
  cases halike with
  | ok hnext =>
    obtain ⟨D₂, hle', hrest⟩ := hnext p₁ q₁ habreast
    exact ⟨D₂, hle.trans hle', hrest⟩
  | error he => exact ⟨D₁, hle, habreast, .error he⟩

theorem mono {step : Build α} {step' : Build α'} {Q' : List NameKind → α → α' → Prop} (h : L.Tandem D step step' Q')
    (himp : ∀ D' a a', D <+: D' → Q' D' a a' → Q D' a a') : L.Tandem D step step' Q := by
  intro p q hpq
  obtain ⟨D', hle, habreast, halike⟩ := h p q hpq
  exact ⟨D', hle, habreast, halike.mono fun a a' => himp D' a a' hle⟩

theorem get {Q : List NameKind → Plan → Plan → Prop} (h : ∀ p q, L.Abreast D p q → Q D p q) : L.Tandem D get get Q :=
  fun p q hpq => ⟨D, List.prefix_rfl, hpq, .ok (h p q hpq)⟩

theorem set {p q : Plan} {D' : List NameKind} {Q : List NameKind → PUnit → PUnit → Prop} (hle : D <+: D')
    (hpq : L.Abreast D' p q) (h : Q D' ⟨⟩ ⟨⟩) : L.Tandem D (set p : Build PUnit) (set q) Q :=
  fun _ _ _ => ⟨D', hle, hpq, .ok h⟩

theorem modify {g g' : Plan → Plan} {Q : List NameKind → PUnit → PUnit → Prop}
    (hg : ∀ p q, L.Abreast D p q → L.Abreast D (g p) (g' q)) (h : Q D ⟨⟩ ⟨⟩) :
    L.Tandem D (modify g : Build PUnit) (modify g') Q :=
  fun p q hpq => ⟨D, List.prefix_rfl, hg p q hpq, .ok h⟩

theorem ofExcept {x : Except PlanError α} {Q : List NameKind → α → α → Prop} (h : ∀ a, x = .ok a → Q D a a) :
    L.Tandem D (Build.ofExcept x) (Build.ofExcept x) Q := by
  cases x with
  | ok a => exact pure (h a rfl)
  | error e => exact throw rfl

section Checks

variable {Q : List NameKind → Unit → Unit → Prop}

theorem requireOwn {a a' : Handle} (hplan : a'.plan = L.plan' ↔ a.plan = L.plan) (h : a.plan = L.plan → Q D () ()) :
    L.Tandem D (Build.requireOwn a) (Build.requireOwn a') Q := by
  refine bind (get fun p q hpq => ?_)
  rw [hpq.own.1, hpq.own.2]
  by_cases hown : a.plan = L.plan
  · rw [if_neg (not_not.2 hown), if_neg (not_not.2 (hplan.2 hown))]
    exact pure (h hown)
  · rw [if_pos hown, if_pos (mt hplan.1 hown)]
    exact throw rfl

theorem requireOpen (h : Q D () ()) : L.Tandem D Build.requireOpen Build.requireOpen Q := by
  refine bind (get fun p q hpq => ?_)
  rw [hpq.finalized]
  split
  · exact throw rfl
  · exact pure h

end Checks

section Changes

variable {Q : List NameKind → Unit → Unit → Prop}

theorem addDomain {d d' : Domain} (hd : L.Pairs D Domain.rename d d') (h : Q D () ()) :
    L.Tandem D (Build.addDomain d) (Build.addDomain d') Q := by
  refine modify (fun p q hpq => ?_) h
  have hempty : d'.vars.isEmpty = d.vars.isEmpty := by
    obtain ⟨f, hf⟩ := L.exists_carries D
    rw [hd f hf]
    exact List.isEmpty_map
  rw [hempty]
  split
  · exact hpq
  · refine { hpq with twin := fun f hf => { hpq.twin f hf with domains := ?_ } }
    rw [(hpq.twin f hf).domains, hd f hf, List.map_append, List.map_singleton]

theorem enqueue {s s' : Statement} (hs : L.Pairs D Statement.rename s s') (h : Q D () ()) :
    L.Tandem D (Build.enqueue s) (Build.enqueue s') Q := by
  refine modify (fun p q hpq => ?_) h
  refine { hpq with twin := fun f hf => { hpq.twin f hf with pending := ?_ } }
  have hsize : (p.rules.rename f).size = p.rules.size := List.length_map _
  rw [(hpq.twin f hf).pending, (hpq.twin f hf).rules, hs f hf, hsize, List.map_append, List.map_singleton]

theorem declare {d d' : Declaration} (hd : L.Pairs D Declaration.rename d d') (hfixed : d.shape.Fixed) (h : Q D () ()) :
    L.Tandem D (Build.declare d) (Build.declare d') Q := by
  refine modify (fun p q hpq => ?_) h
  refine { hpq with
    fixed := fun e he => ?_
    twin := fun f hf => { hpq.twin f hf with arrays := ?_ } }
  · rcases List.mem_append.1 he with he | he
    · exact hpq.fixed e he
    · exact List.mem_singleton.1 he ▸ hfixed
  · rw [(hpq.twin f hf).arrays, hd f hf, List.map_append, List.map_singleton]

theorem back {rule rule' array array' : String} (hrule : L.Pairs D id rule rule') (harray : L.Pairs D id array array')
    (h : Q D () ()) : L.Tandem D (Build.back rule array) (Build.back rule' array') Q := by
  refine modify (fun p q hpq => ?_) h
  refine { hpq with twin := fun f hf => { hpq.twin f hf with backing := ?_ } }
  have hsize : (p.rules.rename f).size = p.rules.size := List.length_map _
  rw [(hpq.twin f hf).backing, (hpq.twin f hf).rules, hrule f hf, harray f hf, hsize,
    BackingTable.insert_rename hf.injective]
  rfl

theorem register {r r' : Rule} (hr : L.Pairs D Rule.rename r r') (h : Q D () ()) :
    L.Tandem D (Build.register r) (Build.register r') Q := by
  refine bind (get fun p q hpq => ?_)
  have hpush : ∀ f, L.Carries D f → q.rules.push? r' = (p.rules.push? r).map (RuleLog.rename f) := by
    intro f hf
    rw [(hpq.twin f hf).rules, hr f hf, RuleLog.push?_rename hf.injective]
  obtain ⟨f, hf⟩ := L.exists_carries D
  cases hrules : p.rules.push? r with
  | none =>
    rw [hpush f hf, hrules]
    exact throw rfl
  | some rules =>
    rw [hpush f hf, hrules]
    refine set List.prefix_rfl { hpq with twin := fun f' hf' => { hpq.twin f' hf' with rules := ?_ } } h
    have hsame := (hpush f hf).symm.trans (hpush f' hf')
    rw [hrules] at hsame
    exact Option.some.inj hsame

end Changes

section Names

theorem fresh {kind : NameKind} {Q : List NameKind → String → String → Prop}
    (h : ∀ name name', L.Pairs (D ++ [kind]) id name name' → Q (D ++ [kind]) name name') :
    L.Tandem D (Build.fresh kind) (Build.fresh kind) Q := by
  intro p q hpq
  refine ⟨D ++ [kind], List.prefix_append D [kind], hpq.draw [kind], .ok (h _ _ fun f hf => ?_)⟩
  have hissue := L.pairs_issue D [kind] f hf
  rw [← hpq.names.1, ← hpq.names.2] at hissue
  exact (List.cons.inj hissue).1

theorem freshIndices {n : Nat} {Q : List NameKind → List String → List String → Prop}
    (h : ∀ vars vars', L.Pairs (D ++ List.replicate n .index) List.map vars vars' →
      Q (D ++ List.replicate n .index) vars vars') :
    L.Tandem D (Build.freshIndices n) (Build.freshIndices n) Q := by
  intro p q hpq
  have hissue := L.pairs_issue D (List.replicate n .index)
  have habreast := hpq.draw (List.replicate n .index)
  rw [← hpq.names.1, ← hpq.names.2, NameSupply.issue_replicate, NameSupply.issue_replicate] at hissue
  rw [NameSupply.draw_replicate, NameSupply.draw_replicate] at habreast
  exact ⟨_, List.prefix_append .., habreast, .ok (h _ _ hissue)⟩

end Names

section Rules

variable {params params' vars vars' : List String} {args args' : List Expr} {body body' : Expr} {rule rule' : String}

theorem define {Q : List NameKind → String → String → Prop} (hparams : L.Pairs D List.map params params')
    (hbody : L.Pairs D Expr.rename body body')
    (h : ∀ name name', L.Pairs (D ++ [.rule]) id name name' → Q (D ++ [.rule]) name name') :
    L.Tandem D (Build.define params body) (Build.define params' body') Q := by
  refine bind (fresh fun name name' hname => bind (register (fun f hf => ?_) (pure (h name name' hname))))
  rw [hname f hf, hparams.later f hf, hbody.later f hf]
  rfl

theorem arityOf {Q : List NameKind → Nat → Nat → Prop} (hrule : L.Pairs D id rule rule') (h : ∀ n, Q D n n) :
    L.Tandem D (Build.arityOf rule) (Build.arityOf rule') Q := by
  refine bind (get fun p q hpq => ?_)
  obtain ⟨f, hf⟩ := L.exists_carries D
  have hfind : q.rules.find? rule' = (p.rules.find? rule).map (Rule.rename f) := by
    rw [(hpq.twin f hf).rules, hrule f hf]
    exact RuleLog.find?_rename hf.injective _ _
  rw [hfind]
  cases p.rules.find? rule with
  | none => exact throw rfl
  | some r =>
    have harity : (r.rename f).arity = r.arity := List.length_map _
    exact pure (harity ▸ h r.arity)

variable {Q : List NameKind → Expr → Expr → Prop}

theorem invoke (hrule : L.Pairs D id rule rule') (hargs : L.Pairs D (fun f => List.map (Expr.rename f)) args args')
    (h : ∀ e e', L.Pairs D Expr.rename e e' → Q D e e') : L.Tandem D (Build.invoke rule args) (Build.invoke rule' args') Q := by
  refine bind (arityOf hrule fun arity => ?_)
  rw [hargs.length_eq]
  split
  · refine pure (h _ _ fun f hf => ?_)
    rw [hrule f hf]
    rfl
  · split
    · refine pure (h _ _ fun f hf => ?_)
      rw [hrule f hf, hargs f hf, Expr.rename, Expr.renameAll_eq_map]
      rfl
    · exact throw rfl

theorem invokeAt (hrule : L.Pairs D id rule rule') (hvars : L.Pairs D List.map vars vars')
    (h : ∀ e e', L.Pairs D Expr.rename e e' → Q D e e') :
    L.Tandem D (Build.invokeAt rule vars) (Build.invokeAt rule' vars') Q := by
  refine invoke hrule (fun f hf => ?_) h
  rw [hvars f hf]
  exact (Expr.rename_vars vars).symm

theorem invokeAtOrigin (hrule : L.Pairs D id rule rule') (h : ∀ e e', L.Pairs D Expr.rename e e' → Q D e e') :
    L.Tandem D (Build.invokeAtOrigin rule) (Build.invokeAtOrigin rule') Q := by
  refine bind (arityOf hrule fun arity => pure (h _ _ fun f hf => ?_))
  rw [hrule f hf, Expr.rename, Expr.renameAll_eq_map, List.map_replicate]
  rfl

end Rules

section Shapes

variable {extents : List Extent} {Q : List NameKind → Shape → Shape → Prop}

theorem shapeOf (h : ∀ shape : Shape, shape.extents = extents → Q D shape shape) :
    L.Tandem D (Build.shapeOf extents) (Build.shapeOf extents) Q := by
  refine ofExcept fun shape hshape => h shape ?_
  cases hof : Shape.ofExtents extents with
  | error fault =>
    rw [hof] at hshape
    cases hshape
  | ok s =>
    rw [hof] at hshape
    cases hshape
    exact Shape.extents_of_ofExtents hof

theorem shapeOfKept (hfixed : ∀ e ∈ extents, ∃ n, e = .fixed n) (h : ∀ shape : Shape, shape.Fixed → Q D shape shape) :
    L.Tandem D (Build.shapeOfKept extents) (Build.shapeOfKept extents) Q := by
  unfold Build.shapeOfKept
  split
  · exact pure (h .unit fun e he => ⟨1, List.mem_singleton.1 he⟩)
  · refine shapeOf fun shape hshape => h shape ?_
    rw [Shape.Fixed, hshape]
    exact hfixed

end Shapes

section Results

variable {params params' : List String} {body body' : Expr} {rule rule' : String} {shape : Shape}
  {elementType : ElementType} {layout : Layout}

theorem handle {Q : List NameKind → Handle → Handle → Prop}
    (h : Q D ⟨L.plan, rule, shape, elementType, layout⟩ ⟨L.plan', rule', shape, elementType, layout⟩) :
    L.Tandem D (Build.handle rule shape elementType layout) (Build.handle rule' shape elementType layout) Q := by
  refine bind (get fun p q hpq => pure ?_)
  rw [hpq.own.1, hpq.own.2]
  exact h

theorem define_handle (hparams : L.Pairs D List.map params params') (hbody : L.Pairs D Expr.rename body body')
    (hfixed : shape.Fixed) :
    L.Tandem D (Build.define params body >>= fun rule => Build.handle rule shape elementType layout)
      (Build.define params' body' >>= fun rule => Build.handle rule shape elementType layout) L.Matches :=
  bind (define hparams hbody fun _ _ hname => handle (.own hname hfixed))

end Results

end Labelling.Tandem

end ArrayPlan
