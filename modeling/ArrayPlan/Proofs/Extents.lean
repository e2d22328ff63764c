import ArrayPlan.Proofs.Independence
import ArrayPlan.Proofs.Settling
import ArrayPlan.Proofs.Tracking

/-!
Symbolic extents and the numbers that they are bound to. A script over names and the script with numbers in place of the
names follow one draft, though a unit axis that is gained takes operations to other branches and other rules. So where the
one is carried out the other is, and their kernels leave the same elements.
-/

namespace ArrayPlan

open Interpretation

instance {α : Type} [Scalar α] [ExactIndices α] : ExactOrigin α :=
  ⟨toIndex_zero⟩

def Numbering.settled (N : Numbering) : Numbering :=
  { N with used := fun _ => False }

variable {α : Type} [Scalar α] {N : Numbering}

section Settled

omit [Scalar α] in
theorem Numbering.uses_settled (hcount : ∀ n, N.count n = n) {extents : List Extent} :
    N.settled.Uses (extents.map (Extent.settle N.value)) := by
  intro e he
  obtain ⟨f, _, rfl⟩ := List.mem_map.1 he
  exact hcount _

theorem Operation.uses_settled (hcount : ∀ n, N.count n = n) (op : Operation Nat) :
    N.settled.Uses (op.settle N.value).named := by
  have hshape : ∀ shape : ShapeSource Nat, N.settled.Uses (shape.settle N.value).named := by
    intro shape
    cases shape with
    | extents es => exact N.uses_settled hcount
    | like a => exact fun e he => nomatch he
  cases op with
  | full shape | fill shape | input shape | inputNamed _ shape | reshape _ shape => exact hshape shape
  | range stop => exact @Numbering.uses_settled N hcount [stop]
  | _ => exact fun e he => nomatch he

theorem Numbering.eq_fixed {extents : List Extent} (hused : N.settled.Uses extents) :
    extents = (extents.map (Extent.under N.value)).map .fixed := by
  rw [List.map_map, List.map_congr_left (g := id) fun e he => ?_, List.map_id]
  cases e with
  | fixed n => rfl
  | symbolic name => exact (hused _ he).elim

end Settled

namespace Progress

/-- All operations so far have results, and these are what the draft has. -/
structure Follows (N : Numbering) (s : Progress) (d : Draft α) (places : List Nat) : Prop extends s.Tracks N d places where
  complete : ∀ result ∈ s.results, result.isSome

variable {s : Progress} {d : Draft α} {places : List Nat} {op : Operation Nat}

theorem follows_start (N : Numbering) (id : Nat) (settings : Settings) :
    (start (.empty id settings)).Follows N (Draft.empty : Draft α) [] :=
  ⟨tracks_start N id settings, fun _ h => nomatch h⟩

theorem Follows.step [ExactOrigin α] [StableIndices α] {resolved : Operation Handle} {h : Handle} {p' : Plan}
    (hs : s.Follows N d places) (hresolve : op.resolve s.find = .ok resolved)
    (hrun : resolved.perform.runOn s.plan = (.ok h, p')) (hused : N.Uses op.named) (hbelow : op.Below N.value s.find) :
    s.step op = ⟨s.results ++ [some h], p'⟩ ∧ p'.settings = s.plan.settings ∧ ∃ d' places',
      d.perform? N.value s.plan.settings.elementType op = some d' ∧ (s.step op).Follows N d' places' := by
  obtain ⟨hstep, hsettings, d', places', hd', htracks⟩ := hs.toTracks.step hresolve hrun hused hbelow.withinUnits
  refine ⟨hstep, hsettings, d', places', hd', htracks, fun result hresult => ?_⟩
  rw [hstep] at hresult
  rcases List.mem_append.1 hresult with hresult | hresult
  · exact hs.complete result hresult
  · rw [List.mem_singleton.1 hresult]
    rfl

end Progress

/-- A script over names and the script with numbers, both along one draft. -/
structure Abreast (N : Numbering) (s s' : Progress) (d : Draft α) (places places' : List Nat) : Prop where
  names : s.Follows N d places
  numbers : s'.Follows N.settled d places'
  trails : s'.plan.Trails s.plan
  settings : s'.plan.settings = s.plan.settings

namespace Abreast

variable {s s' : Progress} {d : Draft α} {places places' : List Nat} {op : Operation Nat}

theorem start (N : Numbering) (id : Nat) (settings : Settings) : Abreast N (.start (.empty id settings))
    (.start (.empty id settings)) (Draft.empty : Draft α) [] [] where
  names := Progress.follows_start N id settings
  numbers := Progress.follows_start N.settled id settings
  trails := ⟨Plan.empty_wellFormed id settings, Plan.empty_wellFormed id settings, rfl, rfl, .ofStems _⟩
  settings := rfl

section Pairing

variable (ht : Abreast N s s' d places places')

include ht

theorem counterparts {a a' : Handle} {r : Drafted} (ha : s.plan.Renders N d places a r)
    (ha' : s'.plan.Renders N.settled d places' a' r) : Plan.Counterparts N.value s.plan s'.plan a a' where
  live := ha.live
  live' := ha'.live
  shape := by
    have hextents := Numbering.eq_fixed ha'.used
    have hlengths : a'.shape.extents.map (Extent.under N.value) = r.lengths := ha'.lengths
    rw [hlengths, ← ha.lengths, List.map_map] at hextents
    exact hextents
  elementType := ha'.elementType.trans ha.elementType.symm
  backed := by
    rcases ht.names.plan.array?_eq ha with ⟨hnone, hunheld⟩ | ⟨n, a, _, hsome, hheld⟩ <;>
      rcases ht.numbers.plan.array?_eq ha' with ⟨hnone', hunheld'⟩ | ⟨n', a', _, hsome', hheld'⟩
    · rw [hnone, hnone']
    · rw [hunheld] at hheld'
      cases hheld'
    · rw [hunheld'] at hheld
      cases hheld
    · rw [hsome, hsome']
      rfl

theorem finds : Plan.FindsCounterparts N.value s.plan s'.plan s.find s'.find := by
  intro place a hfind
  obtain ⟨r, hr, hrenders⟩ := ht.names.finds place a hfind
  obtain ⟨a', hfind', hrenders'⟩ := ht.numbers.exists_find ht.numbers.complete hr
  exact ⟨a', hfind', ht.counterparts hrenders hrenders'⟩

theorem below : (op.settle N.value).Below N.value s'.find := by
  have hall : ∀ (place : Nat) (index : List (Index Nat)) h, s'.find place = .ok h →
      ∀ e ∈ index.zip h.shape.extents, e.1.Below N.value e.2 := by
    intro place index h hfind e he
    obtain ⟨r, _, hrenders⟩ := ht.numbers.finds place h hfind
    obtain ⟨entry, extent⟩ := e
    cases extent with
    | fixed n => cases entry <;> trivial
    | symbolic name => exact (hrenders.used _ (List.of_mem_zip he).2).elim
  cases op with
  | select a index => exact hall a index
  | write a index value => exact hall a index
  | _ => trivial

theorem step [ExactOrigin α] [StableIndices α] (hvalues : ∀ name, 0 < N.value name)
    (hcount : ∀ n, N.count n = n) (hsucceeds : ∀ result ∈ (s.step op).results, result.isSome) (hused : N.Uses op.named)
    (hbelow : op.Below N.value s.find) :
    ∃ (d₁ : Draft α) (places₁ places₁' : List Nat),
      Abreast N (s.step op) (s'.step (op.settle N.value)) d₁ places₁ places₁' := by
  cases hresolve : op.resolve s.find with
  | error e =>
    have hlast := hsucceeds none (by simp [Progress.step, hresolve])
    cases hlast
  | ok resolved =>
    cases hrun : resolved.perform.runOn s.plan with
    | mk outcome q =>
      cases outcome with
      | error e =>
        have hlast := hsucceeds none (by simp [Progress.step, hresolve, hrun, Except.toOption])
        cases hlast
      | ok h =>
        obtain ⟨resolved', hresolve', h', q', hrun', hbehind⟩ :=
          ht.trails.perform ht.settings ht.finds hvalues hresolve hbelow hrun
        obtain ⟨hstep, hsettings, d₁, places₁, hd₁, hnames⟩ := ht.names.step hresolve hrun hused hbelow
        obtain ⟨hstep', hsettings', d₁', places₁', hd₁', hnumbers⟩ :=
          ht.numbers.step hresolve' hrun' (op.uses_settled hcount) ht.below
        have hsame : d₁' = d₁ := by
          have hsettle := d.perform?_settle N.value s.plan.settings.elementType op
          rw [ht.settings] at hd₁'
          exact Option.some.inj (hd₁'.symm.trans (hsettle.trans hd₁))
        subst hsame
        have hnamed := hnames.plan
        have hnumbered := hnumbers.plan
        refine ⟨d₁', places₁, places₁', hnames, hnumbers,
          ⟨hnamed.wellFormed, hnumbered.wellFormed, hnamed.isOpen, hnumbered.isOpen, ?_⟩, ?_⟩
        · rw [hstep, hstep']
          exact hbehind
        · rw [hstep, hstep']
          exact hsettings'.trans (ht.settings.trans hsettings.symm)

end Pairing

omit [Scalar α] in
theorem below_of_finds {values : String → Nat} {find find' : Nat → Except Unit Handle}
    (hfinds : ∀ place h, find place = .ok h → find' place = .ok h) (hbelow : op.Below values find') :
    op.Below values find := by
  cases op with
  | select a index => exact fun h hh => hbelow h (hfinds a h hh)
  | write a index value => exact fun h hh => hbelow h (hfinds a h hh)
  | _ => trivial

theorem run [ExactOrigin α] [StableIndices α] (hvalues : ∀ name, 0 < N.value name) (hcount : ∀ n, N.count n = n)
    {ops : List (Operation Nat)} (ht : Abreast N s s' d places places') (hsucceeds : ∀ result ∈ (s.run ops).results, result.isSome)
    (hused : ∀ op ∈ ops, N.Uses op.named) (hbelow : ∀ op ∈ ops, op.Below N.value (s.run ops).find) :
    ∃ (d₁ : Draft α) (places₁ places₁' : List Nat),
      Abreast N (s.run ops) (s'.run (ops.map (Operation.settle N.value))) d₁ places₁ places₁' := by
  induction ops generalizing s s' d places places' with
  | nil => exact ⟨d, places, places', ht⟩
  | cons op ops ih =>
    have hrun : s.run (op :: ops) = (s.step op).run ops := rfl
    rw [hrun] at hsucceeds hbelow
    obtain ⟨later, hlater⟩ := (s.step op).run_results ops
    obtain ⟨d₁, places₁, places₁', ht₁⟩ := ht.step hvalues hcount
      (fun result hresult => hsucceeds result (hlater ▸ List.mem_append_left _ hresult))
      (hused op List.mem_cons_self)
      (below_of_finds (fun place h hfind => Progress.find_run hfind (op :: ops)) (hbelow op List.mem_cons_self))
    exact ih ht₁ hsucceeds (fun op hop => hused op (List.mem_cons_of_mem _ hop))
      fun op hop => hbelow op (List.mem_cons_of_mem _ hop)

theorem exists_results (ht : Abreast N s s' d places places') {outputs : List Nat} {handles : List Handle}
    (hhandles : List.Forall₂ (fun place h => s.find place = .ok h) outputs handles) :
    ∃ handles' rs, outputs.mapM s'.find = .ok handles' ∧ List.Forall₂ (s.plan.Renders N d places) handles rs ∧
      List.Forall₂ (s'.plan.Renders N.settled d places') handles' rs := by
  induction hhandles with
  | nil => exact ⟨[], [], rfl, .nil, .nil⟩
  | @cons place h outputs handles hfind _ ih =>
    obtain ⟨handles', rs, hhandles', hrs, hrs'⟩ := ih
    obtain ⟨r, hr, hrenders⟩ := ht.names.finds place h hfind
    obtain ⟨h', hfind', hrenders'⟩ := ht.numbers.exists_find ht.numbers.complete hr
    refine ⟨h' :: handles', r :: rs, ?_, .cons hrenders hrs, .cons hrenders' hrs'⟩
    rw [List.mapM_cons, hfind', hhandles']
    rfl

end Abreast

theorem Progress.Follows.execute [ExactOrigin α] [StableIndices α] {s : Progress} {d : Draft α} {places : List Nat}
    {handles : List Handle} {rs : List Drafted} {k : Kernel} {q : Plan} {parameters : Env} {withStores : Bool}
    (hs : s.Follows N d places) (hrs : List.Forall₂ (s.plan.Renders N d places) handles rs)
    (hfinalize : (Build.finalize handles withStores).runOn s.plan = (.ok k, q))
    (hunowned : ∀ name, N.used name → name ∉ k.domains.flatMap Domain.vars)
    (hparameters : ∀ name, parameters.value? name = if name ∈ k.parameters then some (Word.signed (N.value name)) else none)
    (data : List (Nat × Array α)) :
    Option.Rel (fun m buffers => List.Forall₂ (fun h value => ∃ array b, k.outputArray? h = some array ∧
        m.buffer? array = some b ∧
          (d.arrayFor? (d.given (rs.map Drafted.value)) value).bind (buffers[·]?) = some b)
        handles (rs.map Drafted.value))
      (k.execute parameters (s.inputsFor q data)).toOption
      (d.execute? N.count (rs.map Drafted.value) (d.inputsFor (d.given (rs.map Drafted.value)) data)) := by
  have hinputs : d.inputsFor (d.given (rs.map Drafted.value)) (data.filter fun x => (s.find x.1).toOption.isSome) =
      d.inputsFor (d.given (rs.map Drafted.value)) data := by
    rw [Draft.inputsFor, Draft.inputsFor, List.filterMap_filter]
    refine congrArg (List.filterMap · data) (funext fun x => ?_)
    split
    · rfl
    · rename_i hnone
      cases hr : d.results[x.1]? with
      | none => rfl
      | some r =>
        obtain ⟨h, hfind, _⟩ := hs.exists_find hs.complete hr
        rw [hfind] at hnone
        exact absurd rfl hnone
  rw [← s.inputsFor_found q data, ← hinputs]
  exact hs.toTracks.execute hrs hfinalize hunowned hparameters (s.exists_found data)

theorem Word.mod_of_le_greatest {n : Nat} (h : (n : Int) ≤ Word.greatest) : n = n % Word.modulus := by
  have hle : (n : Int) ≤ 9223372036854775807 := h
  rw [Word.modulus]
  omega

def Numbering.ofScript (values : String → Nat) (hword : ∀ name, (values name : Int) ≤ Word.greatest)
    (ops : List (Operation Nat)) : Numbering where
  value := values
  used name := ∃ op ∈ ops, .symbolic name ∈ op.named
  count n := n
  count_one := rfl
  count_value name := Word.mod_of_le_greatest (hword name)

namespace Progress

variable {id : Nat} {settings : Settings} {ops : List (Operation Nat)} {s s' : Progress} {values : String → Nat}
  {outputs : List Nat} {withStores : Bool} {handles : List Handle} {k : Kernel} {q : Plan}

/-- Symbolic extents behave as the numbers that they are bound to, whatever positive words these are, as long as positions
on symbolic axes are below them and no index variable of the kernel has the name of a symbolic extent. If all operations
of a script succeed, so do those with numbers in place of the names, and the two kernels, executed on the same data with
no more than their parameters bound, both fail or leave the same elements in the arrays of corresponding results. -/
theorem run_settle_agrees (hvalues : ∀ name, 0 < values name) (hword : ∀ name, (values name : Int) ≤ Word.greatest)
    (hs : (start (.empty id settings)).run ops = s)
    (hs' : (start (.empty id settings)).run (ops.map (Operation.settle values)) = s')
    (hsucceeds : ∀ result ∈ s.results, result.isSome) (hbelow : ∀ op ∈ ops, op.Below values s.find)
    (houtputs : outputs.mapM s.find = .ok handles)
    (hfinalize : (Build.finalize handles withStores).runOn s.plan = (.ok k, q))
    (hnames : ∀ op ∈ ops, ∀ name, .symbolic name ∈ op.named → name ∉ k.domains.flatMap Domain.vars) :
    (∀ result ∈ s'.results, result.isSome) ∧ ∃ handles' k' q', outputs.mapM s'.find = .ok handles' ∧
      (Build.finalize handles' withStores).runOn s'.plan = (.ok k', q') ∧ k'.parameters = [] ∧
      ∀ (α : Type) [Scalar α] [ExactOrigin α] [StableIndices α] (parameters : Env) (data : List (Nat × Array α)),
        (∀ name, parameters.value? name = if name ∈ k.parameters then some (values name : Int) else none) →
          k.AgreeFor k' handles handles' (k.execute parameters (s.inputsFor q data))
            (k'.execute .empty (s'.inputsFor q' data)) := by
  let N := Numbering.ofScript values hword ops
  have hused : ∀ op ∈ ops, N.Uses op.named := fun op hop e he => by
    cases e with
    | fixed n => rfl
    | symbolic name => exact ⟨op, hop, he⟩
  have hunowned : ∀ name, N.used name → name ∉ k.domains.flatMap Domain.vars := fun name ⟨op, hop, hnamed⟩ =>
    hnames op hop name hnamed
  have habreast : ∀ (α : Type) [Scalar α] [ExactOrigin α] [StableIndices α],
      ∃ (d : Draft α) (places places' : List Nat), Abreast N s s' d places places' := by
    intro α _ _ _
    have hrun := (Abreast.start (α := α) N id settings).run hvalues (fun _ => rfl) (hs ▸ hsucceeds) hused (hs ▸ hbelow)
    rwa [hs, show ops.map (Operation.settle N.value) = ops.map (Operation.settle values) from rfl, hs'] at hrun
  obtain ⟨d, places, places', ht⟩ := habreast Int
  obtain ⟨handles', rs, hhandles', _, hrs'⟩ := ht.exists_results (forall₂_of_mapM_ok houtputs)
  have hlive : ∀ a ∈ handles', s'.plan.Live a := fun a ha => by
    obtain ⟨r, _, hr⟩ := exists_of_forall₂ hrs' ha
    exact hr.live
  obtain ⟨k', q', hfinalize'⟩ := Build.exists_finalized ht.trails.wellFormed' ht.trails.isOpen' hlive withStores
  have hnone : k'.parameters = [] := by
    obtain ⟨os, hl⟩ := Plan.finalize_lowers ht.trails.wellFormed' hfinalize'
    refine List.eq_nil_iff_forall_not_mem.2 fun name hname => ?_
    exact ht.numbers.plan.used_of_mem hl (fun a ha => (exists_of_forall₂ hrs' ha).imp fun _ h => h.2) hname
  refine ⟨fun result hresult => ?_, handles', k', q', hhandles', hfinalize', hnone, ?_⟩
  · exact ht.numbers.complete result hresult
  intro α _ _ _ parameters data hparameters
  obtain ⟨d, places, places', ht⟩ := habreast α
  obtain ⟨handles'', rs, hhandles'', hrs, hrs'⟩ := ht.exists_results (forall₂_of_mapM_ok houtputs)
  obtain rfl := Except.ok.inj (hhandles'.symm.trans hhandles'')
  have hwords : ∀ name, parameters.value? name = if name ∈ k.parameters then some (Word.signed (values name)) else none :=
    fun name => by rw [hparameters, Word.signed_of_le_greatest (hword name)]
  refine Kernel.agreeFor_of_rel (ht.names.execute hrs hfinalize hunowned hwords data)
    (ht.numbers.execute hrs' hfinalize' (fun name h => h.elim) (fun name => ?_) data)
  rw [hnone, if_neg (List.not_mem_nil)]
  rfl

def columnSums : List (Operation Nat) :=
  [.input (.extents [.symbolic "columns"]) .float64, .input (.extents [.fixed 2, .symbolic "columns"]) .float64,
    .combine .add 0 (.array 1), .write 2 [.at 1, .at 0] (.literal (.int 7)), .sum 2 (some [0])]

def columnSummed : Progress :=
  (start (.empty 0 .default)).run columnSums

def oneColumnSummed : Progress :=
  (start (.empty 0 .default)).run (columnSums.map (Operation.settle fun _ => 1))

def lowersWith (s : Progress) (outputs : List Nat) (check : Kernel → Plan → Bool) : Bool :=
  match outputs.mapM s.find with
  | .ok handles =>
    match (Build.finalize handles true).runOn s.plan with
    | (.ok k, q) => check k q
    | _ => false
  | .error _ => false

theorem exists_of_lowersWith {check : Kernel → Plan → Bool} (h : s.lowersWith outputs check = true) :
    ∃ handles k q, outputs.mapM s.find = .ok handles ∧ (Build.finalize handles true).runOn s.plan = (.ok k, q) ∧
      check k q = true := by
  unfold lowersWith at h
  split at h
  · rename_i handles hhandles
    split at h
    · rename_i k q hfinalize
      exact ⟨handles, k, q, hhandles, hfinalize, h⟩
    · cases h
  · cases h

def oneColumn : List (Nat × Array Int) :=
  [(0, #[5]), (1, #[1, 2])]

/-- With one column the numbers take the branch of a scalar, and need one rule less. -/
theorem run_settle_agrees_columnSums :
    ∃ (handles handles' : List Handle) (k k' : Kernel) (q q' : Plan) (m m' : Memory Int),
      (Build.finalize handles true).runOn columnSummed.plan = (.ok k, q) ∧
      (Build.finalize handles' true).runOn oneColumnSummed.plan = (.ok k', q') ∧
      k.parameters = ["columns"] ∧ k.rules.length = 6 ∧ k'.rules.length = 5 ∧
      k.execute ⟨[("columns", 1)]⟩ (columnSummed.inputsFor q oneColumn) = .ok m ∧
      k'.execute .empty (oneColumnSummed.inputsFor q' oneColumn) = .ok m' ∧
      List.Forall₂ (fun h h' => ∃ array array' b, k.outputArray? h = some array ∧ k'.outputArray? h' = some array' ∧
        m.buffer? array = some b ∧ m'.buffer? array' = some b) handles handles' := by
  obtain ⟨handles, k, q, hhandles, hfinalize, hcheck⟩ := @exists_of_lowersWith columnSummed [4, 3]
    (fun k q => decide (k.parameters = ["columns"] ∧ k.rules.length = 6 ∧ "columns" ∉ k.domains.flatMap Domain.vars) &&
      (k.execute ⟨[("columns", 1)]⟩ (columnSummed.inputsFor q oneColumn)).isOk) (by decide +kernel)
  obtain ⟨handles₁, k₁, q₁, hhandles₁, hfinalize₁, hcheck₁⟩ := @exists_of_lowersWith oneColumnSummed [4, 3]
    (fun k _ => decide (k.rules.length = 5)) (by decide +kernel)
  obtain ⟨hfacts, hok⟩ := (Bool.and_eq_true _ _).mp hcheck
  obtain ⟨hparameters, hrules, hunowned⟩ := of_decide_eq_true hfacts
  have hshape : (columnSummed.find 2).toOption.map (fun h => h.shape.extents) = some [.fixed 2, .symbolic "columns"] := by
    decide +kernel
  have hbelow : ∀ op ∈ columnSums, op.Below (fun _ => 1) columnSummed.find := by
    have hwrite : (Operation.write 2 [.at 1, .at 0] (.literal (.int 7))).Below (fun _ => 1) columnSummed.find := by
      intro h hfind
      rw [hfind] at hshape
      have hextents : h.shape.extents = [.fixed 2, .symbolic "columns"] := Option.some.inj hshape
      rw [hextents]
      simp [Index.Below]
    simpa [columnSums, Operation.Below] using hwrite
  have hnames : ∀ op ∈ columnSums, ∀ name, .symbolic name ∈ op.named → name ∉ k.domains.flatMap Domain.vars := by
    intro op hop name hname
    have hnamed : columnSums.flatMap Operation.named = [.symbolic "columns", .fixed 2, .symbolic "columns"] := rfl
    have hmem : .symbolic name ∈ columnSums.flatMap Operation.named := List.mem_flatMap.2 ⟨op, hop, hname⟩
    rw [hnamed] at hmem
    obtain rfl : name = "columns" := by simpa using hmem
    exact hunowned
  obtain ⟨_, handles', k', q', hhandles', hfinalize', _, hagree⟩ :=
    @run_settle_agrees 0 .default columnSums columnSummed oneColumnSummed (fun _ => 1) [4, 3] true handles k q
      (fun _ => by decide) (fun _ => by decide) rfl rfl (by decide +kernel) hbelow hhandles hfinalize hnames
  obtain rfl := Except.ok.inj (hhandles₁.symm.trans hhandles')
  cases hfinalize₁.symm.trans hfinalize'
  have hbound : ∀ name, (Env.mk [("columns", 1)]).value? name =
      if name ∈ k.parameters then some (((fun _ => 1 : String → Nat) name : Nat) : Int) else none := by
    intro name
    rw [hparameters]
    by_cases hname : name = "columns"
    · rw [hname]
      rfl
    · rw [if_neg (by simpa using hname)]
      exact List.lookup_eq_none_iff.2 (by simpa using hname)
  have hagree := hagree Int ⟨[("columns", 1)]⟩ oneColumn hbound
  cases hm : k.execute ⟨[("columns", 1)]⟩ (columnSummed.inputsFor q oneColumn) with
  | error e =>
    rw [hm] at hok
    cases hok
  | ok m =>
    rw [hm] at hagree
    cases hm' : k₁.execute .empty (oneColumnSummed.inputsFor q₁ oneColumn) with
    | error e =>
      rw [hm'] at hagree
      exact hagree.elim
    | ok m' =>
      rw [hm'] at hagree
      exact ⟨handles, handles₁, k, k₁, q, q₁, m, m', hfinalize, hfinalize₁, hparameters, hrules, of_decide_eq_true hcheck₁,
        hm, hm', hagree⟩

end Progress

end ArrayPlan
