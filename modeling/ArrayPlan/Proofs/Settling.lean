import ArrayPlan.Proofs.Acceptance
import ArrayPlan.Proofs.Drafting

/-!
Plans in which numbers stand for names. Whatever a plan accepts, the plan with numbers in place of its names accepts with
these numbers: axes that agree still agree, and a unit axis that is gained only takes an operation to a branch that draws
fewer names.
-/

namespace ArrayPlan

section Axes

variable {values : String → Nat}

theorem Extent.faultless_settle (hvalues : ∀ name, 0 < values name) {e : Extent} (he : e.fault? = none) :
    (e.settle values).fault? = none := by
  have hpos : e.under values ≠ 0 := by
    cases e with
    | fixed n => exact fun hzero => by rw [show n = 0 from hzero] at he; cases he
    | symbolic name => exact Nat.ne_of_gt (hvalues name)
  rw [settle, fault?, if_neg hpos]

namespace Shape

/-- The second shape has numbers for the names of the first one. -/
def Settles (values : String → Nat) (s s' : Shape) : Prop :=
  s'.extents = s.extents.map (Extent.settle values)

theorem ofExtents_settle (hvalues : ∀ name, 0 < values name) {extents : List Extent} {shape : Shape}
    (hshape : ofExtents extents = .ok shape) :
    ∃ shape', ofExtents (extents.map (Extent.settle values)) = .ok shape' ∧ shape.Settles values shape' := by
  obtain rfl := extents_of_ofExtents hshape
  have hne : shape.extents.map (Extent.settle values) ≠ [] := by simpa using shape.extents_ne_nil
  have hfaultless : ∀ e ∈ shape.extents.map (Extent.settle values), e.fault? = none := by
    intro e he
    obtain ⟨f, hf, rfl⟩ := List.mem_map.1 he
    exact Extent.faultless_settle hvalues (shape.faultless f hf)
  obtain ⟨shape', hshape'⟩ := ofExtents_of_faultless hne hfaultless
  exact ⟨shape', hshape', extents_of_ofExtents hshape'⟩

theorem ofExtents_extents (s : Shape) : ofExtents s.extents = .ok s := by
  obtain ⟨shape, hshape⟩ := ofExtents_of_faultless s.extents_ne_nil s.faultless
  have hextents := extents_of_ofExtents hshape
  cases s
  cases shape
  cases hextents
  exact hshape

namespace Settles

variable {s t s' t' : Shape}

theorem rank_eq (h : s.Settles values s') : s'.rank = s.rank := by
  rw [rank, h, List.length_map]
  rfl

theorem eq_of_eq (h : s.Settles values s') (h' : t.Settles values t') (hst : s.extents = t.extents) : s' = t' := by
  cases s'
  cases t'
  have hextents := h.trans ((congrArg (List.map (Extent.settle values)) hst).trans h'.symm)
  cases hextents
  rfl

theorem unit (h : s.Settles values s') (hunit : s = .unit) : s' = .unit :=
  h.eq_of_eq (show Shape.unit.Settles values .unit from rfl) (congrArg extents hunit)

theorem lengths? (h : s.Settles values s') {lengths : List Nat} (hlengths : s.lengths? = some lengths) :
    s'.lengths? = some lengths := by
  rw [lengths?_eq_some] at hlengths ⊢
  rw [h, hlengths, List.map_map]
  rfl

theorem padTo (h : s.Settles values s') (rank : Nat) : s'.padTo rank = (s.padTo rank).map (Extent.settle values) := by
  rw [Shape.padTo, h.rank_eq, h, Shape.padTo, List.map_append, List.map_replicate]
  rfl

end Settles

theorem joinAxis_settle {e f c : Extent} (hjoin : joinAxis e f = some c) :
    joinAxis (e.settle values) (f.settle values) = some (c.settle values) := by
  unfold joinAxis at hjoin ⊢
  split at hjoin
  · rename_i hcond
    obtain rfl := Option.some.inj hjoin
    refine if_pos (hcond.imp (congrArg _) fun hunit => ?_)
    obtain rfl : f = .fixed 1 := by simpa [Extent.isUnit] using hunit
    rfl
  · split at hjoin
    · rename_i hunit
      obtain rfl := Option.some.inj hjoin
      obtain rfl : e = .fixed 1 := by simpa [Extent.isUnit] using hunit
      split
      · rename_i hcond
        rcases hcond with heq | hone
        · rw [heq]
        · rw [show f.settle values = .fixed 1 by simpa [Extent.isUnit] using hone]
          rfl
      · rfl
    · cases hjoin

theorem joinAxes_settle {axis : Nat} {es fs cs : List Extent} (hjoin : joinAxes axis es fs = .ok cs) :
    joinAxes axis (es.map (Extent.settle values)) (fs.map (Extent.settle values)) = .ok (cs.map (Extent.settle values)) := by
  induction es generalizing axis fs cs with
  | nil =>
    cases hjoin
    rfl
  | cons e es ih =>
    cases fs with
    | nil =>
      cases hjoin
      rfl
    | cons f fs =>
      rw [joinAxes] at hjoin
      split at hjoin
      · cases hjoin
      · rename_i c hc
        obtain ⟨rest, hrest, rfl⟩ := map_eq_ok hjoin
        rw [List.map_cons, List.map_cons, joinAxes, joinAxis_settle hc]
        dsimp only
        rw [ih hrest]
        rfl

theorem broadcast_settle {s t s' t' common : Shape} (hs : s.Settles values s') (ht : t.Settles values t')
    (hcommon : broadcast s t = .ok common) : ∃ common', broadcast s' t' = .ok common' ∧ common.Settles values common' := by
  have hjoin := @joinAxes_settle values _ _ _ _ (broadcast_extents hcommon)
  rw [← hs.padTo, ← ht.padTo, ← hs.rank_eq, ← ht.rank_eq] at hjoin
  cases hcommon' : broadcast s' t' with
  | error axis =>
    unfold broadcast at hcommon'
    simp only at hcommon'
    split at hcommon'
    · rename_i herror
      rw [hjoin] at herror
      cases herror
    · cases hcommon'
  | ok common' =>
    refine ⟨common', rfl, ?_⟩
    have hjoin' := broadcast_extents hcommon'
    rw [hjoin] at hjoin'
    exact (Except.ok.inj hjoin').symm

end Shape

end Axes

theorem Build.exists_reserved_of_inputNamed {name : String} {extents : List Extent} {elementType : ElementType} {p q : Plan}
    {h : Handle} (hrun : (Build.inputNamed name extents elementType).runOn p = (.ok h, q)) :
    ∃ names, p.names.reserve? name = some names := by
  cases hnames : p.names.reserve? name with
  | some names => exact ⟨names, rfl⟩
  | none =>
    have hout : Outcome p (Build.inputNamed name extents elementType) p fun _ _ => False := by
      refine Outcome.bind (Outcome.shapeOf (.refl p) fun _ _ => Outcome.bind (Outcome.requireOpen (fun _ => .refl p) fun _ =>
        Outcome.bind (Outcome.bind (Outcome.get ?_))))
      rw [hnames]
      exact Outcome.throw (.refl p)
    exact (hout.of_runOn_ok hrun).elim

section Kinds

open Build.Passes

variable {a b : Handle}

theorem isUnit_iff {s : Shape} : s.isUnit = true ↔ s = .unit :=
  beq_iff_eq

theorem rank_of_unit {s : Shape} (hunit : s = .unit) : s.rank = 1 := by
  rw [hunit]
  rfl

theorem combineKinds_of_plain (hplain : a.shape = b.shape ∨ b.shape = .unit ∨ a.shape = .unit) :
    combineKinds a b = definitionKinds (max a.rank b.rank) := by
  have hposa := a.shape.rank_pos
  have hposb := b.shape.rank_pos
  unfold combineKinds Handle.rank
  split
  · rename_i hshape
    rw [hshape, Nat.max_self]
  split
  · rename_i hunit
    rw [rank_of_unit (isUnit_iff.1 hunit), Nat.max_eq_left hposa]
  · rename_i hshape hbunit
    have haunit : a.shape = .unit := (hplain.resolve_left hshape).resolve_left fun hunit => hbunit (isUnit_iff.2 hunit)
    rw [if_pos (isUnit_iff.2 haunit), rank_of_unit haunit, Nat.max_eq_right hposb]

theorem combineKinds_of_spread (hspread : ¬ (a.shape = b.shape ∨ b.shape = .unit ∨ a.shape = .unit)) {common : Shape}
    (hcommon : Shape.broadcast a.shape b.shape = .ok common) :
    combineKinds a b = spreadKinds a common ++ spreadKinds b common ++ definitionKinds (max a.rank b.rank) := by
  obtain ⟨hshape, hrest⟩ := not_or.1 hspread
  obtain ⟨hbunit, haunit⟩ := not_or.1 hrest
  rw [combineKinds, if_neg hshape, if_neg (fun h => hbunit (isUnit_iff.1 h)), if_neg (fun h => haunit (isUnit_iff.1 h)), hcommon]
  dsimp only
  rw [Shape.broadcast_rank hcommon]
  rfl

end Kinds

namespace Plan

variable {values : String → Nat} {p p' q : Plan} {a b h a' b' : Handle}

/-- A second plan may take the steps that a first one takes: it is open as well, and has drawn no more names. -/
structure Trails (p' p : Plan) : Prop where
  wellFormed : p.WellFormed
  wellFormed' : p'.WellFormed
  isOpen : p.finalized = false
  isOpen' : p'.finalized = false
  names : p'.names.Behind p.names

/-- The handle of the second plan has numbers for the names in that of the first one. -/
structure Counterparts (values : String → Nat) (p p' : Plan) (a a' : Handle) : Prop where
  live : p.Live a
  live' : p'.Live a'
  shape : a.shape.Settles values a'.shape
  elementType : a'.elementType = a.elementType
  backed : (p'.backing.array? a'.rule).isSome = (p.backing.array? a.rule).isSome

theorem Counterparts.rank_eq (ha : Counterparts values p p' a a') : a'.rank = a.rank :=
  ha.shape.rank_eq

namespace Trails

variable (ht : p'.Trails p)

include ht

theorem passes {step step' : Build Handle} {kinds kinds' : List NameKind} (hrun : step.runOn p = (.ok h, q))
    (hstep : p.Accepts step kinds) (hstep' : p'.Accepts step' kinds') (hsub : kinds'.Sublist kinds) :
    Build.Passes step' p' fun _ q' => q'.names.Behind q.names := by
  obtain ⟨_, _, hrun', hnames⟩ := hstep
  cases hrun.symm.trans hrun'
  exact hstep'.mono fun _ _ hnames' => by
    rw [hnames, hnames']
    exact ht.names.draw hsub

section Sources

variable (hvalues : ∀ name, 0 < values name) {extents : List Extent} {elementType : ElementType}

include hvalues

theorem full {value : Literal} (hrun : (Build.full extents value elementType).runOn p = (.ok h, q)) :
    Build.Passes (Build.full (extents.map (Extent.settle values)) value elementType) p' fun _ q' =>
      q'.names.Behind q.names := by
  obtain ⟨shape, v, vars, hshape, hcast, _⟩ :=
    (Build.Outcome.full ht.wellFormed extents value elementType).of_runOn_ok hrun
  obtain ⟨shape', hshape', hsettles⟩ := Shape.ofExtents_settle hvalues hshape
  have hstep' := Build.Passes.full ht.wellFormed' ht.isOpen' hshape' hcast
  rw [hsettles.rank_eq] at hstep'
  exact ht.passes hrun (.full ht.wellFormed ht.isOpen hshape hcast) hstep' (.refl _)

theorem range {stop : Extent} (hrun : (Build.range stop).runOn p = (.ok h, q)) :
    Build.Passes (Build.range (stop.settle values)) p' fun _ q' => q'.names.Behind q.names := by
  obtain ⟨shape, var, hshape, _⟩ := (Build.Outcome.range ht.wellFormed stop).of_runOn_ok hrun
  obtain ⟨shape', hshape', _⟩ := Shape.ofExtents_settle hvalues hshape
  exact ht.passes hrun (.range ht.wellFormed ht.isOpen hshape) (.range ht.wellFormed' ht.isOpen' hshape') (.refl _)

theorem input (hrun : (Build.input extents elementType).runOn p = (.ok h, q)) :
    Build.Passes (Build.input (extents.map (Extent.settle values)) elementType) p' fun _ q' =>
      q'.names.Behind q.names := by
  obtain ⟨shape, array, vars, hshape, _⟩ := (Build.Outcome.input ht.wellFormed extents elementType).of_runOn_ok hrun
  obtain ⟨shape', hshape', hsettles⟩ := Shape.ofExtents_settle hvalues hshape
  have hstep' := Build.Passes.input ht.wellFormed' ht.isOpen' hshape' elementType
  rw [hsettles.rank_eq] at hstep'
  exact ht.passes hrun (.input ht.wellFormed ht.isOpen hshape elementType) hstep' (.refl _)

theorem inputNamed {name : String} (hrun : (Build.inputNamed name extents elementType).runOn p = (.ok h, q)) :
    Build.Passes (Build.inputNamed name (extents.map (Extent.settle values)) elementType) p' fun _ q' =>
      q'.names.Behind q.names := by
  obtain ⟨shape, vars, hshape, _⟩ := (Build.Outcome.inputNamed ht.wellFormed name extents elementType).of_runOn_ok hrun
  obtain ⟨shape', hshape', hsettles⟩ := Shape.ofExtents_settle hvalues hshape
  obtain ⟨names, hnames⟩ := Build.exists_reserved_of_inputNamed hrun
  obtain ⟨names', hnames', hbehind⟩ := ht.names.reserve hnames
  obtain ⟨_, _, hrun', hdrawn⟩ := Build.Passes.inputNamed ht.wellFormed ht.isOpen hnames hshape elementType
  cases hrun.symm.trans hrun'
  refine (Build.Passes.inputNamed ht.wellFormed' ht.isOpen' hnames' hshape' elementType).mono fun _ _ hdrawn' => ?_
  rw [hdrawn, hdrawn', hsettles.rank_eq]
  exact hbehind.draw (.refl _)

end Sources

theorem combineLiteral (op : Operator) {value : Literal} {literalFirst : Bool} (ha : Counterparts values p p' a a')
    (hrun : (Build.combineLiteral op a value literalFirst).runOn p = (.ok h, q)) :
    Build.Passes (Build.combineLiteral op a' value literalFirst) p' fun _ q' => q'.names.Behind q.names := by
  have hstep' := Build.Passes.combineLiteral op ht.wellFormed' ht.isOpen' ha.live' value literalFirst
  rw [ha.rank_eq] at hstep'
  exact ht.passes hrun (.combineLiteral op ht.wellFormed ht.isOpen ha.live value literalFirst) hstep' (.refl _)

end Trails

section Combining

open Build.Passes

variable (ha : Counterparts values p p' a a') (hb : Counterparts values p p' b b')

include ha

theorem Counterparts.spreadKinds {common common' : Shape} (hcommon : common.Settles values common') :
    (spreadKinds a' common').Sublist (spreadKinds a common) := by
  unfold Build.Passes.spreadKinds
  by_cases hsame : a.shape = common
  · rw [if_pos hsame, if_pos (ha.shape.eq_of_eq hcommon (congrArg Shape.extents hsame))]
  · rw [if_neg hsame, hcommon.rank_eq]
    split
    · exact List.nil_sublist _
    · exact .refl _

include hb

theorem Counterparts.plain (hplain : a.shape = b.shape ∨ b.shape = .unit ∨ a.shape = .unit) :
    a'.shape = b'.shape ∨ b'.shape = .unit ∨ a'.shape = .unit :=
  hplain.imp (fun hsame => ha.shape.eq_of_eq hb.shape (congrArg Shape.extents hsame)) (Or.imp hb.shape.unit ha.shape.unit)

theorem Counterparts.combine (hcommon : a.shape = b.shape ∨ b.shape = .unit ∨ a.shape = .unit ∨
      ∃ common, Shape.broadcast a.shape b.shape = .ok common) :
    (a'.shape = b'.shape ∨ b'.shape = .unit ∨ a'.shape = .unit ∨ ∃ common, Shape.broadcast a'.shape b'.shape = .ok common) ∧
      (combineKinds a' b').Sublist (combineKinds a b) := by
  by_cases hplain : a.shape = b.shape ∨ b.shape = .unit ∨ a.shape = .unit
  · have hplain' := ha.plain hb hplain
    refine ⟨by tauto, ?_⟩
    rw [combineKinds_of_plain hplain, combineKinds_of_plain hplain', ha.rank_eq, hb.rank_eq]
  · obtain ⟨common, hbroadcast⟩ : ∃ common, Shape.broadcast a.shape b.shape = .ok common := by tauto
    obtain ⟨common', hbroadcast', hsettles⟩ := Shape.broadcast_settle ha.shape hb.shape hbroadcast
    refine ⟨.inr (.inr (.inr ⟨common', hbroadcast'⟩)), ?_⟩
    rw [combineKinds_of_spread hplain hbroadcast]
    by_cases hplain' : a'.shape = b'.shape ∨ b'.shape = .unit ∨ a'.shape = .unit
    · rw [combineKinds_of_plain hplain', ha.rank_eq, hb.rank_eq]
      exact List.sublist_append_right _ _
    · rw [combineKinds_of_spread hplain' hbroadcast', ha.rank_eq, hb.rank_eq]
      exact ((ha.spreadKinds hsettles).append (hb.spreadKinds hsettles)).append (.refl _)

end Combining

namespace Trails

variable (ht : p'.Trails p)

include ht

theorem combineArrays (op : Operator) (ha : Counterparts values p p' a a') (hb : Counterparts values p p' b b')
    (hrun : (Build.combineArrays op a b).runOn p = (.ok h, q)) :
    Build.Passes (Build.combineArrays op a' b') p' fun _ q' => q'.names.Behind q.names := by
  obtain ⟨_, _, hcombines⟩ :=
    (Build.Outcome.combineArrays op ht.wellFormed (fun _ => ha.live) fun _ => hb.live).of_runOn_ok hrun
  have hcommon : a.shape = b.shape ∨ b.shape = .unit ∨ a.shape = .unit ∨
      ∃ common, Shape.broadcast a.shape b.shape = .ok common := by
    cases hcombines with
    | equal vars hshape => exact .inl hshape
    | rightUnit vars hshape hunit => exact .inr (.inl hunit)
    | leftUnit vars hshape hunit => exact .inr (.inr (.inl hunit))
    | spread vars common left right p₁ p₂ haunit hbunit hcommon => exact .inr (.inr (.inr ⟨common, hcommon⟩))
  obtain ⟨hcommon', hkinds⟩ := ha.combine hb hcommon
  exact ht.passes hrun (.combineArrays op ht.wellFormed ht.isOpen ha.live hb.live hcommon)
    (.combineArrays op ht.wellFormed' ht.isOpen' ha.live' hb.live' hcommon') hkinds

theorem reshape {extents : List Extent} {layout : Layout} (hvalues : ∀ name, 0 < values name)
    (ha : Counterparts values p p' a a') (hrun : (Build.reshape a extents layout).runOn p = (.ok h, q)) :
    Build.Passes (Build.reshape a' (extents.map (Extent.settle values)) layout) p' fun _ q' => q'.names.Behind q.names := by
  obtain ⟨_, shape, lengths, sources, vars, rfl, hlengths, hsources, hcount, _⟩ :=
    (Build.Outcome.reshape ht.wellFormed (fun _ => ha.live) extents layout).of_runOn_ok hrun
  obtain ⟨shape', hshape', hsettles⟩ := Shape.ofExtents_settle hvalues (Shape.ofExtents_extents shape)
  exact ht.passes hrun
    (.reshape ht.wellFormed ht.isOpen ha.live (Shape.ofExtents_extents shape) hlengths hsources hcount layout)
    (.reshape ht.wellFormed' ht.isOpen' ha.live' hshape' (hsettles.lengths? hlengths) (ha.shape.lengths? hsources) hcount layout)
    (.refl _)

theorem sum {axes : Option (List Nat)} (ha : Counterparts values p p' a a')
    (hrun : (Build.sum a axes).runOn p = (.ok h, q)) :
    Build.Passes (Build.sum a' axes) p' fun _ q' => q'.names.Behind q.names := by
  obtain ⟨_, haxes, _⟩ := (Build.Outcome.sum ht.wellFormed (fun _ => ha.live) axes).of_runOn_ok hrun
  have haxes' : ∀ axis ∈ axes.getD [], axis < a'.rank := fun axis haxis => ha.rank_eq ▸ haxes axis haxis
  have hstep' := Build.Passes.sum ht.wellFormed' ht.isOpen' ha.live' haxes'
  rw [ha.rank_eq] at hstep'
  exact ht.passes hrun (.sum ht.wellFormed ht.isOpen ha.live haxes) hstep' (.refl _)

theorem prefixSums (ha : Counterparts values p p' a a') (hrun : (Build.prefixSums a).runOn p = (.ok h, q)) :
    Build.Passes (Build.prefixSums a') p' fun _ q' => q'.names.Behind q.names := by
  obtain ⟨extent, array, i, j, t, hs⟩ := (Build.Outcome.prefixSums ht.wellFormed fun _ => ha.live).of_runOn_ok hrun
  have hextents : a'.shape.extents = [extent.settle values] := ha.shape.trans (by rw [hs.extents]; rfl)
  exact ht.passes hrun (.prefixSums ht.wellFormed ht.isOpen ha.live hs.extents)
    (.prefixSums ht.wellFormed' ht.isOpen' ha.live' hextents) (.refl _)

end Trails

section Entries

inductive CounterpartEntries (values : String → Nat) (p p' : Plan) : Index Handle → Index Handle → Prop
  | at (position : Nat) : CounterpartEntries values p p' (.at position) (.at position)
  | all : CounterpartEntries values p p' .all .all
  | slice (start stop step : Option Int) :
    CounterpartEntries values p p' (.slice start stop step) (.slice start stop step)
  | gather {a a' : Handle} (ha : Counterparts values p p' a a') :
    CounterpartEntries values p p' (.gather a) (.gather a')

inductive CounterpartOperands (values : String → Nat) (p p' : Plan) : Operand Handle → Operand Handle → Prop
  | literal (value : Literal) : CounterpartOperands values p p' (.literal value) (.literal value)
  | array {a a' : Handle} (ha : Counterparts values p p' a a') :
    CounterpartOperands values p p' (.array a) (.array a')

variable {entry entry' : Index Handle} {index index' : List (Index Handle)} {e : Extent} {extents : List Extent}
  {value value' v : Operand Handle}

theorem CounterpartEntries.readable (h : CounterpartEntries values p p' entry entry') (hbelow : entry.Below values e)
    (hreadable : entry.Readable e) : entry'.Readable (e.settle values) := by
  cases h with
  | «at» position =>
    cases e with
    | fixed n => exact hreadable
    | symbolic name => exact hbelow
  | all => exact hreadable
  | slice start stop step => exact hreadable
  | gather ha => exact hreadable.elim

theorem CounterpartEntries.writable (h : CounterpartEntries values p p' entry entry') (hbelow : entry.Below values e)
    (hwritable : p.Writable entry e) : p'.Writable entry' (e.settle values) := by
  cases h with
  | «at» position => exact (CounterpartEntries.at position : CounterpartEntries values p p' _ _).readable hbelow hwritable
  | all => exact hwritable
  | slice start stop step => exact hwritable
  | gather ha =>
    obtain ⟨_, hrank, hinteger⟩ := hwritable
    exact ⟨ha.live', ha.rank_eq.trans hrank, by rwa [ha.elementType]⟩

theorem forall_zip_settle {P P' : Index Handle → Extent → Prop}
    (hentries : List.Forall₂ (CounterpartEntries values p p') index index')
    (hkeeps : ∀ entry entry' e, CounterpartEntries values p p' entry entry' → P entry e → P' entry' (e.settle values))
    (hall : ∀ e ∈ index.zip extents, P e.1 e.2) :
    ∀ e ∈ index'.zip (extents.map (Extent.settle values)), P' e.1 e.2 := by
  induction hentries generalizing extents with
  | nil => exact fun e he => nomatch he
  | cons hentry _ ih =>
    cases extents with
    | nil => exact fun e he => nomatch he
    | cons e extents =>
      obtain ⟨hfirst, hrest⟩ := List.forall_mem_cons.1 hall
      exact List.forall_mem_cons.2 ⟨hkeeps _ _ _ hentry hfirst, ih hrest⟩

theorem selectedExtents_settle (hentries : List.Forall₂ (CounterpartEntries values p p') index index') :
    selectedExtents index' (extents.map (Extent.settle values)) =
      (selectedExtents index extents).map (Extent.settle values) := by
  induction hentries generalizing extents with
  | nil => cases extents <;> rfl
  | cons hentry _ ih =>
    cases extents with
    | nil => cases hentry <;> rfl
    | cons e extents =>
      cases hentry with
      | «at» position => exact ih
      | _ => exact congrArg (e.settle values :: ·) ih

theorem region_settle (hentries : List.Forall₂ (CounterpartEntries values p p') index index') :
    WriteAxis.region (writtenAxes index' (extents.map (Extent.settle values))) =
      (WriteAxis.region (writtenAxes index extents)).map (Extent.settle values) := by
  induction hentries generalizing extents with
  | nil => cases extents <;> rfl
  | @cons entry entry' index index' hentry _ ih =>
    cases extents with
    | nil => cases hentry <;> rfl
    | cons e extents =>
      have hrest := @ih extents
      cases hentry with
      | «at» position => exact hrest
      | all => exact congrArg (e.settle values :: ·) hrest
      | slice start stop step => exact congrArg (e.settle values :: ·) hrest
      | @gather a a' ha =>
        have hextent : (WriteAxis.gather a').extent? = ((WriteAxis.gather a).extent?).map (Extent.settle values) := by
          rw [WriteAxis.extent?, WriteAxis.extent?, ha.shape, List.head?_map]
        rw [List.map_cons, writtenAxes, writtenAxes, WriteAxis.region, WriteAxis.region, List.filterMap_cons,
          List.filterMap_cons, hextent]
        cases (WriteAxis.gather a).extent? with
        | none => exact hrest
        | some f => exact congrArg (f.settle values :: ·) hrest

theorem live_of_gather (hentries : List.Forall₂ (CounterpartEntries values p p') index index') {positions : Handle}
    (hpositions : .gather positions ∈ index) : p.Live positions := by
  induction hentries with
  | nil => cases hpositions
  | cons hentry _ ih =>
    rcases List.mem_cons.1 hpositions with rfl | hpositions
    · cases hentry with
      | gather ha => exact ha.live
    · exact ih hpositions

theorem CounterpartOperands.live (h : CounterpartOperands values p p' value value') (hvalue : value = .array a) :
    p.Live a := by
  cases h with
  | literal value => cases hvalue
  | array ha =>
    cases hvalue
    exact ha.live

theorem CounterpartOperands.stored (h : CounterpartOperands values p p' value value') {elementType : ElementType}
    (hstored : p.Stored elementType extents value v) :
    ∃ v', p'.Stored elementType (extents.map (Extent.settle values)) value' v' := by
  cases h with
  | literal value =>
    cases hstored with
    | literal hcast => exact ⟨_, .literal hcast⟩
  | array ha =>
    cases hstored with
    | array hlive hfit =>
      refine ⟨_, .array ha.live' (hfit.imp ha.shape.unit fun ⟨hne, hextents⟩ => ⟨by simpa using hne, ?_⟩)⟩
      rw [ha.shape, hextents]

end Entries

namespace Trails

variable (ht : p'.Trails p) {index index' : List (Index Handle)} {value value' : Operand Handle}

include ht

theorem select (ha : Counterparts values p p' a a') (hindex : List.Forall₂ (CounterpartEntries values p p') index index')
    (hbelow : ∀ e ∈ index.zip a.shape.extents, e.1.Below values e.2)
    (hrun : (Build.select a index).runOn p = (.ok h, q)) :
    Build.Passes (Build.select a' index') p' fun _ q' => q'.names.Behind q.names := by
  obtain ⟨_, hcount, hreadable, _⟩ := (Build.Outcome.select ht.wellFormed (fun _ => ha.live) index).of_runOn_ok hrun
  have hcount' : index'.length = a'.rank := by rw [← hindex.length_eq, hcount, ha.rank_eq]
  have hreadable' : ∀ e ∈ index'.zip a'.shape.extents, e.1.Readable e.2 := by
    rw [ha.shape]
    exact forall_zip_settle (P := fun entry e => entry.Below values e ∧ entry.Readable e) hindex
      (fun _ _ _ hentry h => hentry.readable h.1 h.2) fun e he => ⟨hbelow e he, hreadable e he⟩
  have hstep' := Build.Passes.select ht.wellFormed' ht.isOpen' ha.live' hcount' hreadable'
  rw [ha.shape, selectedExtents_settle hindex, List.length_map] at hstep'
  exact ht.passes hrun (.select ht.wellFormed ht.isOpen ha.live hcount hreadable) hstep' (.refl _)

theorem write (ha : Counterparts values p p' a a') (hindex : List.Forall₂ (CounterpartEntries values p p') index index')
    (hvalue : CounterpartOperands values p p' value value')
    (hbelow : ∀ e ∈ index.zip a.shape.extents, e.1.Below values e.2)
    (hrun : (Build.write a index value).runOn p = (.ok h, q)) :
    Build.Passes (Build.write a' index' value') p' fun _ q' => q'.names.Behind q.names := by
  obtain ⟨axes, v, hrequest⟩ : ∃ axes v, p.Request a index value axes v := by
    have hwrites := (Build.Outcome.write ht.wellFormed (fun _ => ha.live) index value
      (fun positions hpositions _ => live_of_gather hindex hpositions) fun b hb _ => hvalue.live hb).of_runOn_ok hrun
    cases hwrites with
    | again array axes v vars hrequest => exact ⟨axes, v, hrequest⟩
    | first array axes v copyVars vars params hrequest => exact ⟨axes, v, hrequest⟩
  have hregion := @region_settle _ _ _ _ _ a.shape.extents hindex
  rw [← ha.shape, ← hrequest.addressed] at hregion
  obtain ⟨v', hstored'⟩ := hvalue.stored hrequest.value
  rw [← ha.elementType, ← hregion] at hstored'
  have hrequest' : p'.Request a' index' value' (writtenAxes index' a'.shape.extents) v' := by
    refine ⟨ha.live', by rw [← hindex.length_eq, hrequest.count, ha.rank_eq], ?_, rfl, hstored'⟩
    rw [ha.shape]
    exact forall_zip_settle (P := fun entry e => entry.Below values e ∧ p.Writable entry e) hindex
      (fun _ _ _ hentry h => hentry.writable h.1 h.2) fun e he => ⟨hbelow e he, hrequest.entries e he⟩
  have hstep' := Build.Passes.write ht.wellFormed' ht.isOpen' hrequest'
  have hkinds : Build.Passes.writeKinds p' a' (WriteAxis.region (writtenAxes index' a'.shape.extents)).length =
      Build.Passes.writeKinds p a (WriteAxis.region axes).length := by
    rw [Build.Passes.writeKinds, Build.Passes.writeKinds, hregion, List.length_map, ha.backed, ha.rank_eq]
  rw [hkinds] at hstep'
  exact ht.passes hrun (.write ht.wellFormed ht.isOpen hrequest) hstep' (.refl _)

end Trails

section Performing

variable {find find' : Nat → Except Unit Handle}

def FindsCounterparts (values : String → Nat) (p p' : Plan) (find find' : Nat → Except Unit Handle) : Prop :=
  ∀ place a, find place = .ok a → ∃ a', find' place = .ok a' ∧ Counterparts values p p' a a'

namespace FindsCounterparts

variable (hfinds : FindsCounterparts values p p' find find')

include hfinds

theorem shape {shape : ShapeSource Nat} {extents : List Extent} (hresolve : shape.resolve find = .ok extents) :
    (shape.settle values).resolve find' = .ok (extents.map (Extent.settle values)) := by
  cases shape with
  | extents es =>
    cases hresolve
    rfl
  | like place =>
    obtain ⟨a, ha, rfl⟩ := map_eq_ok hresolve
    obtain ⟨a', ha', hcounter⟩ := hfinds place a ha
    rw [ShapeSource.settle, ShapeSource.resolve, ha', ← hcounter.shape]
    rfl

theorem entries {index : List (Index Nat)} {resolved : List (Index Handle)}
    (hresolve : List.Forall₂ (Index.Resolves find) index resolved) :
    ∃ resolved', List.Forall₂ (Index.Resolves find') index resolved' ∧
      List.Forall₂ (CounterpartEntries values p p') resolved resolved' := by
  induction hresolve with
  | nil => exact ⟨[], .nil, .nil⟩
  | cons hentry _ ih =>
    obtain ⟨resolved', hresolved', hcounter⟩ := ih
    cases hentry with
    | «at» position => exact ⟨_, .cons (.at position) hresolved', .cons (.at position) hcounter⟩
    | all => exact ⟨_, .cons .all hresolved', .cons .all hcounter⟩
    | slice start stop step =>
      exact ⟨_, .cons (.slice start stop step) hresolved', .cons (.slice start stop step) hcounter⟩
    | @gather place a ha =>
      obtain ⟨a', ha', hcounter'⟩ := hfinds place a ha
      exact ⟨_, .cons (.gather ha') hresolved', .cons (.gather hcounter') hcounter⟩

theorem operand {value : Operand Nat} {resolved : Operand Handle} (hresolve : value.Resolves find resolved) :
    ∃ resolved', value.Resolves find' resolved' ∧ CounterpartOperands values p p' resolved resolved' := by
  cases hresolve with
  | literal x => exact ⟨_, .literal x, .literal x⟩
  | @array place a ha =>
    obtain ⟨a', ha', hcounter⟩ := hfinds place a ha
    exact ⟨.array a', .array ha', .array hcounter⟩

end FindsCounterparts

theorem Trails.perform (ht : p'.Trails p) (hsettings : p'.settings = p.settings)
    (hfinds : FindsCounterparts values p p' find find') (hvalues : ∀ name, 0 < values name) {op : Operation Nat}
    {resolved : Operation Handle} (hresolve : op.resolve find = .ok resolved) (hbelow : op.Below values find)
    (hrun : resolved.perform.runOn p = (.ok h, q)) :
    ∃ resolved', (op.settle values).resolve find' = .ok resolved' ∧
      Build.Passes resolved'.perform p' fun _ q' => q'.names.Behind q.names := by
  simp only [Operation.resolve_eq_ok_iff] at hresolve ⊢
  cases hresolve with
  | full hshape value elementType => exact ⟨_, .full (hfinds.shape hshape) value elementType, ht.full hvalues hrun⟩
  | fill hshape value =>
    refine ⟨_, .fill (hfinds.shape hshape) value, ?_⟩
    rw [Operation.perform, Build.runOn_fill] at hrun
    obtain ⟨a', q', hrun', hbehind⟩ := ht.full hvalues hrun
    rw [← hsettings] at hrun'
    exact ⟨a', q', (Build.runOn_fill ..).trans hrun', hbehind⟩
  | range stop => exact ⟨_, .range _, ht.range hvalues hrun⟩
  | input hshape elementType => exact ⟨_, .input (hfinds.shape hshape) elementType, ht.input hvalues hrun⟩
  | inputNamed name hshape elementType =>
    exact ⟨_, .inputNamed name (hfinds.shape hshape) elementType, ht.inputNamed hvalues hrun⟩
  | @combine op place a _ _ ha hb =>
    obtain ⟨a', ha', hcounter⟩ := hfinds place a ha
    obtain ⟨b', hb', hcounter'⟩ := hfinds.operand hb
    refine ⟨_, .combine op ha' hb', ?_⟩
    cases hcounter' with
    | literal value => exact ht.combineLiteral op hcounter hrun
    | array hcounter' => exact ht.combineArrays op hcounter hcounter' hrun
  | @combineFrom op value place a ha =>
    obtain ⟨a', ha', hcounter⟩ := hfinds place a ha
    exact ⟨_, .combineFrom op value ha', ht.combineLiteral op hcounter hrun⟩
  | @select place a _ index ha hindex =>
    obtain ⟨a', ha', hcounter⟩ := hfinds place a ha
    obtain ⟨index', hindex', hcounter'⟩ := hfinds.entries hindex
    have hbelow' : ∀ e ∈ index.zip a.shape.extents, e.1.Below values e.2 :=
      forall_zip_of_positions (positions_of_resolve hindex) (fun _ _ _ => Index.Below.of_position) (hbelow a ha)
    exact ⟨_, .select ha' hindex', ht.select hcounter hcounter' hbelow' hrun⟩
  | @reshape place a _ _ ha hshape layout =>
    obtain ⟨a', ha', hcounter⟩ := hfinds place a ha
    exact ⟨_, .reshape ha' (hfinds.shape hshape) layout, ht.reshape hvalues hcounter hrun⟩
  | @sum place a ha axes =>
    obtain ⟨a', ha', hcounter⟩ := hfinds place a ha
    exact ⟨_, .sum ha' axes, ht.sum hcounter hrun⟩
  | @prefixSums place a ha =>
    obtain ⟨a', ha', hcounter⟩ := hfinds place a ha
    exact ⟨_, .prefixSums ha', ht.prefixSums hcounter hrun⟩
  | @write place a _ index _ value ha hindex hvalue =>
    obtain ⟨a', ha', hcounter⟩ := hfinds place a ha
    obtain ⟨index', hindex', hcounter'⟩ := hfinds.entries hindex
    obtain ⟨value', hvalue', hcounter''⟩ := hfinds.operand hvalue
    have hbelow' : ∀ e ∈ index.zip a.shape.extents, e.1.Below values e.2 :=
      forall_zip_of_positions (positions_of_resolve hindex) (fun _ _ _ => Index.Below.of_position) (hbelow a ha)
    exact ⟨_, .write ha' hindex' hvalue', ht.write hcounter hcounter' hcounter'' hbelow' hrun⟩

end Performing

end Plan

end ArrayPlan
