import ArrayPlan.Proofs.Levels
import ArrayPlan.Proofs.RenamedRuns
import ArrayPlan.Proofs.Tandems

/-!
Generated names are labels. Whatever the stems are, a script of steps gets the same reports and is lowered into the same
kernel, up to the renaming that sends the names drawn for the one plan to those drawn for the other, each to the one drawn in
its place. Runs of the two kernels on the same data store the same values.
-/

namespace ArrayPlan

def NameSupply.issueOf (s : NameSupply) (kinds : List NameKind) (kind : NameKind) : List String :=
  ((kinds.zip (s.issue kinds)).filter fun n => n.1 = kind).map Prod.snd

section Plain

variable {ref : Type}

def ShapeSource.Plain : ShapeSource ref → Prop
  | extents es => ∀ e ∈ es, ∃ n, e = .fixed n
  | like _ => True

/-- No name is given by the caller, neither for an input nor for the length of an axis. -/
def Operation.Plain : Operation ref → Prop
  | full shape _ _ | fill shape _ | input shape _ | reshape _ shape _ => shape.Plain
  | range stop => ∃ n, stop = .fixed n
  | inputNamed .. => False
  | _ => True

end Plain

section Resolve

variable {L : Labelling} {D : List NameKind} {ref ε : Type} {find find' : ref → Except ε Handle}

theorem ShapeSource.resolve_alike (hfind : ∀ r, Alike Eq (L.Matches D) (find r) (find' r)) {source : ShapeSource ref}
    (hplain : source.Plain) :
    Alike Eq (fun es es' => es' = es ∧ ∀ e ∈ es, ∃ n, e = .fixed n) (source.resolve find) (source.resolve find') := by
  cases source with
  | extents es => exact .ok ⟨rfl, hplain⟩
  | like r =>
    refine (hfind r).map fun a a' ha => ?_
    obtain ⟨_, _, _, hfixed, _⟩ := ha
    exact ⟨rfl, hfixed⟩

theorem Operand.resolve_alike (hfind : ∀ r, Alike Eq (L.Matches D) (find r) (find' r)) (b : Operand ref) :
    Alike Eq (L.MatchesOperand D) (b.resolve find) (b.resolve find') := by
  cases b with
  | literal value => exact .ok (.literal value)
  | array r => exact (hfind r).map fun _ _ => .array

theorem Index.resolve_alike (hfind : ∀ r, Alike Eq (L.Matches D) (find r) (find' r)) (entry : Index ref) :
    Alike Eq (L.MatchesIndex D) (entry.resolve find) (entry.resolve find') := by
  cases entry with
  | «at» position => exact .ok (.at position)
  | all => exact .ok .all
  | slice start stop step => exact .ok (.slice start stop step)
  | gather r => exact (hfind r).map fun _ _ => .gather

theorem Operation.resolve_alike (hfind : ∀ r, Alike Eq (L.Matches D) (find r) (find' r)) {op : Operation ref}
    (hplain : op.Plain) :
    Alike Eq (fun op op' => L.Tandem D op.perform op'.perform L.Matches) (op.resolve find) (op.resolve find') := by
  have hindices : ∀ index : List (Index ref), Alike Eq (List.Forall₂ (L.MatchesIndex D)) (index.mapM (Index.resolve find))
      (index.mapM (Index.resolve find')) := fun index =>
    Alike.mapM (List.forall₂_same.2 fun entry _ => entry.resolve_alike hfind)
  cases op with
  | full shape value elementType =>
    refine (ShapeSource.resolve_alike hfind hplain).bind ?_
    rintro es _ ⟨rfl, hes⟩
    exact .ok (Labelling.Tandem.full hes value elementType)
  | fill shape value =>
    refine (ShapeSource.resolve_alike hfind hplain).bind ?_
    rintro es _ ⟨rfl, hes⟩
    exact .ok (Labelling.Tandem.fill hes value)
  | range stop => exact .ok (Labelling.Tandem.range hplain)
  | input shape elementType =>
    refine (ShapeSource.resolve_alike hfind hplain).bind ?_
    rintro es _ ⟨rfl, hes⟩
    exact .ok (Labelling.Tandem.input hes elementType)
  | inputNamed name shape elementType => exact hplain.elim
  | combine op a b =>
    exact (hfind a).bind fun a a' ha => (b.resolve_alike hfind).bind fun b b' hb => .ok (Labelling.Tandem.combine ha hb op)
  | combineFrom op value a => exact (hfind a).bind fun a a' ha => .ok (Labelling.Tandem.combineLiteral ha op value true)
  | select a index =>
    exact (hfind a).bind fun a a' ha => (hindices index).bind fun index index' hindex => .ok (Labelling.Tandem.select ha hindex)
  | reshape a shape layout =>
    refine (hfind a).bind fun a a' ha => (ShapeSource.resolve_alike hfind hplain).bind ?_
    rintro es _ ⟨rfl, hes⟩
    exact .ok (Labelling.Tandem.reshape ha hes layout)
  | sum a axes => exact (hfind a).bind fun a a' ha => .ok (Labelling.Tandem.sum ha axes)
  | prefixSums a => exact (hfind a).bind fun a a' ha => .ok (Labelling.Tandem.prefixSums ha)
  | write a index value =>
    exact (hfind a).bind fun a a' ha => (hindices index).bind fun index index' hindex =>
      (value.resolve_alike hfind).bind fun v v' hv => .ok (Labelling.Tandem.write ha hindex hv)

end Resolve

inductive Act (ref : Type) where
  | operation (op : Operation ref)
  | finalize (outputs : List ref) (withStores : Bool)

inductive Product where
  | array (a : Handle)
  | kernel (k : Kernel)

namespace Act

variable {ref ε : Type}

def resolve (find : ref → Except ε Handle) : Act ref → Except ε (Build Product)
  | operation op => (op.resolve find).map fun op => do
    let a ← op.perform
    return .array a
  | finalize outputs withStores => (outputs.mapM find).map fun outputs => do
    let k ← Build.finalize outputs withStores
    return .kernel k

def Plain : Act ref → Prop
  | operation op => op.Plain
  | finalize .. => True

end Act

structure Stranger (plan plan' : Nat) where
  handle : Handle
  elsewhere : handle.plan ≠ plan ∧ handle.plan ≠ plan'
  fixed : handle.shape.Fixed

/-- An array as a script refers to it: by the place of the step that gave it, or from elsewhere. -/
inductive Reference (plan plan' : Nat) where
  | result (place : Nat)
  | stranger (a : Stranger plan plan')

/-- What the steps of a script gave so far, and the plan that they built. A step that was refused has the kind of refusal; one
that refers to a place without an array has none. -/
structure Trial where
  results : List (Except (Option PlanErrorKind) Product)
  plan : Plan

namespace Trial

variable {plan plan' : Nat}

def start (p : Plan) : Trial :=
  ⟨[], p⟩

def look (t : Trial) : Reference plan plan' → Except (Option PlanErrorKind) Handle
  | .result place =>
    match t.results[place]? with
    | some (.ok (.array a)) => .ok a
    | _ => .error none
  | .stranger a => .ok a.handle

def step (t : Trial) (act : Act (Reference plan plan')) : Trial :=
  match act.resolve t.look with
  | .error e => ⟨t.results ++ [.error e], t.plan⟩
  | .ok step =>
    let (outcome, p) := step.runOn t.plan
    ⟨t.results ++ [outcome.mapError fun e => some e.kind], p⟩

def run (t : Trial) (acts : List (Act (Reference plan plan'))) : Trial :=
  acts.foldl step t

def kernel? (t : Trial) (place : Nat) : Option Kernel :=
  match t.results[place]? with
  | some (.ok (.kernel k)) => some k
  | _ => none

/-- Which steps succeeded, and why the others did not. -/
def reports (t : Trial) : List (Except (Option PlanErrorKind) Unit) :=
  t.results.map fun r => r.map fun _ => ()

end Trial

namespace Labelling

variable {L : Labelling} {D : List NameKind} {f : String → String} {t t' : Trial}

inductive MatchesProduct (L : Labelling) (D : List NameKind) : Product → Product → Prop where
  | array {a a' : Handle} (h : L.Matches D a a') : MatchesProduct L D (.array a) (.array a')
  | kernel {k k' : Kernel} (h : L.Pairs D Kernel.rename k k') (hfixed : ∀ d ∈ k.arrays, d.shape.Fixed) :
      MatchesProduct L D (.kernel k) (.kernel k')

theorem MatchesProduct.mono {D' : List NameKind} {x x' : Product} (h : L.MatchesProduct D x x') (hle : D <+: D') :
    L.MatchesProduct D' x x' := by
  cases h with
  | array h => exact .array (h.mono hle)
  | kernel h hfixed => exact .kernel (h.mono hle) hfixed

structure Trials (L : Labelling) (D : List NameKind) (t t' : Trial) : Prop where
  plan : L.Abreast D t.plan t'.plan
  results : List.Forall₂ (Alike Eq (L.MatchesProduct D)) t.results t'.results

theorem Trials.look (h : L.Trials D t t') (r : Reference L.plan L.plan') :
    Alike Eq (L.Matches D) (t.look r) (t'.look r) := by
  cases r with
  | stranger a =>
    exact .ok (.intro a.handle.plan a.handle.rule (iff_of_false a.elsewhere.2 a.elsewhere.1) a.fixed
      fun hown => absurd hown a.elsewhere.1)
  | result place =>
    have hresults := h.results
    unfold Trial.look
    generalize t.results = results at hresults
    generalize t'.results = results' at hresults
    induction hresults generalizing place with
    | nil => exact .error rfl
    | cons hresult _ ih =>
      cases place with
      | succ place => exact ih place
      | zero =>
        cases hresult with
        | error _ => exact .error rfl
        | ok hproduct =>
          cases hproduct with
          | array ha => exact .ok ha
          | kernel _ _ => exact .error rfl

theorem Trials.resolve (h : L.Trials D t t') {act : Act (Reference L.plan L.plan')} (hplain : act.Plain) :
    Alike Eq (fun step step' => L.Tandem D step step' L.MatchesProduct) (act.resolve t.look) (act.resolve t'.look) := by
  cases act with
  | operation op =>
    exact (op.resolve_alike h.look hplain).map fun op op' hop =>
      Tandem.bind (hop.mono fun _ _ _ _ ha => Tandem.pure (.array ha))
  | finalize outputs withStores =>
    refine (Alike.mapM (List.forall₂_same.2 fun r _ => h.look r)).map fun outputs outputs' houtputs => ?_
    exact Tandem.bind ((Tandem.finalize houtputs withStores).mono fun _ _ _ _ hk => Tandem.pure (.kernel hk.1 hk.2))

theorem Trials.step (h : L.Trials D t t') {act : Act (Reference L.plan L.plan')} (hplain : act.Plain) :
    ∃ D', D <+: D' ∧ L.Trials D' (t.step act) (t'.step act) := by
  have hresolve := h.resolve hplain
  unfold Trial.step
  generalize act.resolve t.look = step at hresolve
  generalize act.resolve t'.look = step' at hresolve
  cases hresolve with
  | error he => exact ⟨D, List.prefix_rfl, h.plan, List.rel_append h.results (.cons (.error he) .nil)⟩
  | ok htandem =>
    obtain ⟨D', hle, habreast, halike⟩ := htandem _ _ h.plan
    refine ⟨D', hle, habreast, List.rel_append ?_ (.cons ?_ .nil)⟩
    · exact h.results.imp fun _ _ hresult => hresult.mono fun _ _ hproduct => hproduct.mono hle
    · exact halike.mapError fun e e' he => congrArg some he.symm

theorem Trials.run (h : L.Trials D t t') {acts : List (Act (Reference L.plan L.plan'))} (hplain : ∀ act ∈ acts, act.Plain) :
    ∃ D', L.Trials D' (t.run acts) (t'.run acts) := by
  induction acts generalizing D t t' with
  | nil => exact ⟨D, h⟩
  | cons act acts ih =>
    obtain ⟨D', _, hstep⟩ := h.step (hplain act List.mem_cons_self)
    exact ih hstep fun act hact => hplain act (List.mem_cons_of_mem _ hact)

theorem Trials.reports_eq (h : L.Trials D t t') : t.reports = t'.reports := by
  have hresults := h.results
  unfold Trial.reports
  generalize t.results = results at hresults
  generalize t'.results = results' at hresults
  induction hresults with
  | nil => rfl
  | cons hresult _ ih =>
    rw [List.map_cons, List.map_cons, ih]
    cases hresult with
    | ok _ => rfl
    | error he => rw [he]

theorem Trials.kernel (h : L.Trials D t t') (hf : L.Carries D f) (place : Nat) :
    t'.kernel? place = (t.kernel? place).map (Kernel.rename f) ∧
      ∀ k, t.kernel? place = some k → ∀ d ∈ k.arrays, d.shape.Fixed := by
  have hresults := h.results
  unfold Trial.kernel?
  generalize t.results = results at hresults
  generalize t'.results = results' at hresults
  induction hresults generalizing place with
  | nil => exact ⟨rfl, fun k hk => by cases hk⟩
  | cons hresult _ ih =>
    cases place with
    | succ place => exact ih place
    | zero =>
      cases hresult with
      | error _ => exact ⟨rfl, fun k hk => by cases hk⟩
      | ok hproduct =>
        cases hproduct with
        | array _ => exact ⟨rfl, fun k hk => by cases hk⟩
        | kernel hpairs hfixed => exact ⟨congrArg some (hpairs f hf), fun k hk => Option.some.inj hk ▸ hfixed⟩

theorem Carries.issueOf (hf : L.Carries D f) (kind : NameKind) :
    (L.source.issueOf D kind).map f = L.target.issueOf D kind := by
  have hzip : D.zip (L.target.issue D) = (D.zip (L.source.issue D)).map (Prod.map id f) := by
    rw [← hf.issue, List.zip_map_right]
  rw [NameSupply.issueOf, NameSupply.issueOf, hzip, List.filter_map, List.map_map, List.map_map]
  rfl

theorem Trials.start (plan plan' : Nat) (stems stems' : PerKind String) (elementType : ElementType) :
    Trials ⟨plan, plan', .ofStems stems, .ofStems stems'⟩ [] (.start (.empty plan ⟨stems, elementType⟩))
      (.start (.empty plan' ⟨stems', elementType⟩)) where
  plan := {
    own := ⟨rfl, rfl⟩
    elementType := rfl
    names := ⟨rfl, rfl⟩
    finalized := rfl
    fixed := fun d hd => by cases hd
    twin := fun f _ => ⟨rfl, rfl, rfl, rfl, rfl⟩ }
  results := .nil

end Labelling

namespace Trial

/-- A script without given names gets the same reports whatever the stems are. What has been drawn for the one plan is sent to
what has been drawn for the other by a renaming that turns each kernel of the one into that of the other, and the values that
a run of the one kernel stores, or its failure, into those of the other. -/
theorem run_relabels {plan plan' : Nat} (stems stems' : PerKind String) (elementType : ElementType)
    {acts : List (Act (Reference plan plan'))} (hplain : ∀ act ∈ acts, act.Plain) :
    let s : Trial := (start (.empty plan ⟨stems, elementType⟩)).run acts
    let s' : Trial := (start (.empty plan' ⟨stems', elementType⟩)).run acts
    s.reports = s'.reports ∧ ∃ (drawn : List NameKind) (f : String → String), Function.Injective f ∧
      s.plan.names = (NameSupply.ofStems stems).draw drawn ∧ s'.plan.names = (NameSupply.ofStems stems').draw drawn ∧
      (∀ kind, ((NameSupply.ofStems stems).issueOf drawn kind).map f = (NameSupply.ofStems stems').issueOf drawn kind) ∧
      ∀ place, s'.kernel? place = (s.kernel? place).map (Kernel.rename f) ∧
        ∀ k, s.kernel? place = some k → ∀ (α : Type) [Scalar α] (parameters : Env) (inputs : List (String × Array α)),
          ((k.rename f).execute (parameters.rename f) (inputs.map (Prod.map f id))).map (k.rename f).contents =
            renamed f (List.map (Prod.map f id)) ((k.execute parameters inputs).map k.contents) := by
  intro s s'
  obtain ⟨D, htrials⟩ := (Labelling.Trials.start plan plan' stems stems' elementType).run hplain
  obtain ⟨f, hf⟩ := Labelling.exists_carries ⟨plan, plan', .ofStems stems, .ofStems stems'⟩ D
  refine ⟨htrials.reports_eq, D, f, hf.injective, htrials.plan.names.1, htrials.plan.names.2, hf.issueOf, fun place => ?_⟩
  obtain ⟨hkernel, hfixed⟩ := htrials.kernel hf place
  refine ⟨hkernel, fun k hk α _ parameters inputs => ?_⟩
  exact renamed_map (k.execute_rename hf.injective (hfixed k hk) parameters inputs) fun m => k.contents_rename hf.injective m

def doubled : List (Act (Reference 0 1)) :=
  [.operation (.input (.extents [.fixed 2]) .float64), .operation (.combine .mul (.result 0) (.literal (.int 2))),
    .finalize [.result 1] false]

def doubledUnder (plan : Nat) (stems : PerKind String) : Trial :=
  (start (.empty plan ⟨stems, .float64⟩)).run doubled

theorem run_relabels_one_stem :
    (∀ act ∈ doubled, act.Plain) ∧ ∃ (f : String → String) (k : Kernel), Function.Injective f ∧
      k.arrays.map Declaration.name = ["arr0", "arr1"] ∧ f "arr0" = "x0" ∧ f "arr1" = "x5" ∧
      (doubledUnder 0 NameSupply.defaultStems).kernel? 2 = some k ∧
      (doubledUnder 1 ⟨"x", "x", "x"⟩).kernel? 2 = some (k.rename f) := by
  have hplain : ∀ act ∈ doubled, act.Plain := by
    simp [doubled, Act.Plain, Operation.Plain, ShapeSource.Plain]
  have hnames : ((doubledUnder 0 NameSupply.defaultStems).kernel? 2).map (fun k => k.arrays.map Declaration.name) =
      some ["arr0", "arr1"] := by decide +kernel
  have hnames' : ((doubledUnder 1 ⟨"x", "x", "x"⟩).kernel? 2).map (fun k => k.arrays.map Declaration.name) =
      some ["x0", "x5"] := by decide +kernel
  obtain ⟨_, drawn, f, hinjective, _, _, _, hkernels⟩ :=
    run_relabels NameSupply.defaultStems ⟨"x", "x", "x"⟩ .float64 hplain
  obtain ⟨k, hk, hk₀⟩ := Option.map_eq_some_iff.1 hnames
  have hk' : (doubledUnder 1 ⟨"x", "x", "x"⟩).kernel? 2 = some (k.rename f) := by
    rw [← Option.map_some, ← hk]
    exact (hkernels 2).1
  have hrenamed : (k.arrays.map Declaration.name).map f = ["x0", "x5"] := by
    rw [hk', Option.map_some] at hnames'
    rw [← Option.some.inj hnames', Kernel.rename, List.map_map, List.map_map]
    rfl
  rw [hk₀] at hrenamed
  obtain ⟨hzero, hfive⟩ : f "arr0" = "x0" ∧ f "arr1" = "x5" := by simpa using hrenamed
  exact ⟨hplain, f, k, hinjective, hk₀, hzero, hfive, hk, hk'⟩

end Trial

end ArrayPlan
