import ArrayPlan.Proofs.Extents
import ArrayPlan.Proofs.Parallels
import ArrayPlan.Proofs.UnitOperands

/-!
Scalars that are read as one element, and scalars that are viewed with two axes first. Both ways give the same shape,
element type and elements. With the scalar on the left the layout is that of the other array in the one way, and that of
the scalar in the other; further operations do not tell the results apart, except by a reshape where the layouts differ.
-/

namespace ArrayPlan

open Interpretation

section Words

variable {values : String → Int} {extents extents' : List Extent}

theorem Word.signed_unsigned {v : Int} (hleast : Word.least ≤ v) (hgreatest : v ≤ Word.greatest) :
    Word.signed (Word.unsigned v) = v := by
  have hleast : -9223372036854775808 ≤ v := hleast
  have hgreatest : v ≤ 9223372036854775807 := hgreatest
  rw [Word.signed, Word.unsigned, Word.modulus, Int.bmod_def]
  omega

/-- A number that stands for one, beyond all lengths among the axes. -/
def farUnit (extents : List Extent) : Nat :=
  ((extents.filterMap Extent.length?).max?.getD 0 + 1) * Word.modulus + 1

theorem signed_farUnit (extents : List Extent) : Word.signed (farUnit extents) = 1 := by
  rw [Word.signed, farUnit, Word.modulus, Int.bmod_def]
  omega

theorem modulus_lt_farUnit (extents : List Extent) : Word.modulus < farUnit extents := by
  rw [farUnit, Word.modulus]
  omega

theorem farUnit_ne {n : Nat} (hn : .fixed n ∈ extents) : n ≠ farUnit extents := by
  have hle : n ≤ (extents.filterMap Extent.length?).max?.getD 0 := List.le_max?_getD_of_mem (List.mem_filterMap.2 ⟨_, hn, rfl⟩)
  rw [farUnit, Word.modulus]
  omega

def wordNumber (extents : List Extent) (v : Int) : Nat :=
  if v = 1 then farUnit extents else Word.unsigned v

def wordCount (extents : List Extent) (n : Nat) : Nat :=
  if n = farUnit extents then 1 else n

theorem wordCount_of_ne {n : Nat} (hn : n ≠ farUnit extents) : wordCount extents n = n :=
  if_neg hn

theorem wordCount_one : wordCount extents 1 = 1 := by
  unfold wordCount
  split <;> rfl

theorem unsigned_lt_modulus (v : Int) : Word.unsigned v < Word.modulus := by
  rw [Word.unsigned, Word.modulus]
  omega

theorem wordCount_wordNumber (v : Int) : wordCount extents (wordNumber extents v) = wordNumber extents v % Word.modulus := by
  unfold wordNumber
  split
  · rw [wordCount, if_pos rfl, farUnit, Nat.mul_comm, Nat.mul_add_mod]
    rfl
  · have hlt := unsigned_lt_modulus v
    rw [wordCount_of_ne (Nat.ne_of_lt (hlt.trans (modulus_lt_farUnit extents))), Nat.mod_eq_of_lt hlt]

theorem wordNumber_ne_one {v : Int} (hleast : Word.least ≤ v) (hgreatest : v ≤ Word.greatest) :
    wordNumber extents v ≠ 1 := by
  have hfar := modulus_lt_farUnit extents
  unfold wordNumber
  split
  · exact Nat.ne_of_gt (Nat.lt_trans (by decide) hfar)
  · rename_i hv
    intro hone
    have hsigned := Word.signed_unsigned hleast hgreatest
    rw [hone] at hsigned
    exact hv hsigned.symm

theorem signed_wordNumber {v : Int} (hleast : Word.least ≤ v) (hgreatest : v ≤ Word.greatest) :
    Word.signed (wordNumber extents v) = v := by
  unfold wordNumber
  split
  · rename_i hone
    rw [signed_farUnit, hone]
  · exact Word.signed_unsigned hleast hgreatest

def Numbering.ofWords (values : String → Int) (extents : List Extent) : Numbering where
  value name := wordNumber extents (values name)
  used name := .symbolic name ∈ extents
  count := wordCount extents
  count_one := wordCount_one
  count_value name := wordCount_wordNumber (values name)

namespace Numbering

theorem signed_value (hwords : ∀ name, Word.least ≤ values name ∧ values name ≤ Word.greatest) (name : String) :
    Word.signed ((ofWords values extents).value name) = values name :=
  signed_wordNumber (hwords name).1 (hwords name).2

theorem value_ne_one (hwords : ∀ name, Word.least ≤ values name ∧ values name ≤ Word.greatest) (name : String) :
    (ofWords values extents).value name ≠ 1 :=
  wordNumber_ne_one (hwords name).1 (hwords name).2

theorem uses_of_subset (hsubset : ∀ e ∈ extents', e ∈ extents) : (ofWords values extents).Uses extents' := by
  intro e he
  cases e with
  | fixed n => exact wordCount_of_ne (farUnit_ne (hsubset _ he))
  | symbolic name => exact hsubset _ he

end Numbering

end Words

namespace Plan

variable {p : Plan} {a b : Handle}

theorem exists_combined (op : Operator) (hp : p.WellFormed) (hopen : p.finalized = false) (ha : p.Live a) (hb : p.Live b)
    {common : Shape} (hcommon : Shape.broadcast a.shape b.shape = .ok common) :
    ∃ h p', (Build.combineArrays op a b).runOn p = (.ok h, p') ∧ h.plan = p.id ∧ h.shape = common ∧
      h.elementType = op.resultType a.elementType ∧
      h.layout = if a.shape = .unit ∧ b.shape ≠ .unit then b.layout else a.layout := by
  obtain ⟨h, p', hrun⟩ := (Build.Decides.combineArrays op hp hopen ha fun _ => hb).ok_iff.2 ⟨hb.own, common, hcommon⟩
  obtain ⟨_, _, hcombines⟩ := (Build.Outcome.combineArrays op hp (fun _ => ha) fun _ => hb).of_runOn_ok hrun
  obtain ⟨hplan, hshape, htype, hlayout⟩ := hcombines.result
  rw [hcommon] at hshape
  exact ⟨h, p', hrun, hplan, Option.some.inj hshape, htype, hlayout⟩

variable (op : Operator) (scalarFirst : Bool) (hp : p.WellFormed) (hopen : p.finalized = false) (ha : p.Live a)
  (hb : p.Live b) (hunit : a.shape = .unit) (hrank : 2 ≤ b.rank)

include hp hopen ha hb hunit hrank

theorem exists_combineUnit : ∃ x p', (Build.combineUnit op a b scalarFirst).runOn p = (.ok x, p') ∧ x.plan = p.id ∧
    x.shape = b.shape ∧ x.elementType = op.resultType (if scalarFirst then a.elementType else b.elementType) ∧
    x.layout = b.layout := by
  have hne : b.shape ≠ .unit := Shape.ne_unit hrank
  cases scalarFirst with
  | true =>
    obtain ⟨x, p', hrun, hplan, hshape, htype, hlayout⟩ :=
      exists_combined op hp hopen ha hb (hunit ▸ Shape.broadcast_unit_left b.shape)
    rw [if_pos ⟨hunit, hne⟩] at hlayout
    exact ⟨x, p', hrun, hplan, hshape, htype, hlayout⟩
  | false =>
    obtain ⟨x, p', hrun, hplan, hshape, htype, hlayout⟩ :=
      exists_combined op hp hopen hb ha (hunit ▸ Shape.broadcast_unit_right b.shape)
    rw [if_neg fun h => hne h.1] at hlayout
    exact ⟨x, p', hrun, hplan, hshape, htype, hlayout⟩

theorem exists_combineViewed : ∃ y p', (Build.combineViewed op a b scalarFirst).runOn p = (.ok y, p') ∧ y.plan = p.id ∧
    y.shape = b.shape ∧ y.elementType = op.resultType (if scalarFirst then a.elementType else b.elementType) ∧
    y.layout = if scalarFirst then a.layout else b.layout := by
  obtain ⟨view, p₁, hview⟩ := (Build.Decides.reshape hp hopen ha [.fixed 1, .fixed 1] a.layout).ok_iff.2
    ⟨validAxes_iff.2 ⟨.square, rfl⟩, [1, 1], [1], rfl, by rw [hunit]; rfl, rfl⟩
  obtain ⟨_, shape, _, _, _, hextents, _, _, _, _, hd⟩ :=
    (Build.Outcome.reshape hp (fun _ => ha) [.fixed 1, .fixed 1] a.layout).of_runOn_ok hview
  have hsquare : view.shape = .square := by
    rw [hd.handle]
    exact Shape.eq_of_extents hextents
  have htype : view.elementType = a.elementType := by rw [hd.handle]
  have hlayout : view.layout = a.layout := by rw [hd.handle]
  have hid : p₁.id = p.id := by rw [hd.grown]; rfl
  have hopen₁ : p₁.finalized = false := by rw [hd.grown]; exact hopen
  have hb₁ : p₁.Live b := hd.grown ▸ hb.grow _
  have hjoin := Shape.le_iff_broadcast.1 (Shape.square_le hrank)
  cases scalarFirst with
  | true =>
    obtain ⟨y, p', hrun, hplan, hshape, htype', hlayout'⟩ :=
      exists_combined op (hd.wellFormed hp) hopen₁ (hd.live hp) hb₁ (hsquare ▸ hjoin)
    have hne : Shape.square ≠ .unit := Shape.ne_unit (Nat.le_refl 2)
    rw [hsquare, if_neg fun h => hne h.1, hlayout] at hlayout'
    exact ⟨y, p', (Build.runOn_bind hview).trans hrun, hplan.trans hid, hshape, htype ▸ htype', hlayout'⟩
  | false =>
    obtain ⟨y, p', hrun, hplan, hshape, htype', hlayout'⟩ :=
      exists_combined op (hd.wellFormed hp) hopen₁ hb₁ (hd.live hp)
        (hsquare ▸ (Shape.broadcast_comm b.shape .square).trans hjoin)
    rw [if_neg fun h => Shape.ne_unit hrank h.1] at hlayout'
    exact ⟨y, p', (Build.runOn_bind hview).trans hrun, hplan.trans hid, hshape, htype', hlayout'⟩

end Plan

namespace Progress

/-- Whatever results are asked for at the same places, both plans are lowered. Executed on the same data, with their
parameters bound to the same words and nothing else bound, the kernels both fail or leave the same elements in the arrays
of corresponding results, as long as no index variable has the name of an extent that the operations name. -/
def ComputesAlike (s s' : Progress) (ops : List (Operation Nat)) : Prop :=
  ∀ (outputs : List Nat) (handles : List Handle) (withStores : Bool), outputs.mapM s.find = .ok handles →
    ∃ handles' k k' q q', outputs.mapM s'.find = .ok handles' ∧
      (Build.finalize handles withStores).runOn s.plan = (.ok k, q) ∧
      (Build.finalize handles' withStores).runOn s'.plan = (.ok k', q') ∧
      ((∀ op ∈ ops, ∀ name, .symbolic name ∈ op.named →
          name ∉ k.domains.flatMap Domain.vars ∧ name ∉ k'.domains.flatMap Domain.vars) →
        ∀ (α : Type) [Scalar α] [ExactOrigin α] [StableIndices α] (values : String → Int) (parameters parameters' : Env)
          (data : List (Nat × Array α)),
          (∀ name, Word.least ≤ values name ∧ values name ≤ Word.greatest) →
          (∀ name, parameters.value? name = if name ∈ k.parameters then some (values name) else none) →
          (∀ name, parameters'.value? name = if name ∈ k'.parameters then some (values name) else none) →
            k.AgreeFor k' handles handles' (k.execute parameters (s.inputsFor q data))
              (k'.execute parameters' (s'.inputsFor q' data)))

variable {s s' : Progress} {ops : List (Operation Nat)}

theorem ComputesAlike.of_alongside {withLayout : Bool}
    (h : ∀ (α : Type) [Scalar α] [ExactOrigin α] [StableIndices α] (values : String → Int),
      (∀ name, Word.least ≤ values name ∧ values name ≤ Word.greatest) →
        ∃ (d d' : Draft α) (places places' : List Nat),
          Alongside (.ofWords values (ops.flatMap Operation.named)) withLayout s s' d d' places places') :
    s.ComputesAlike s' ops := by
  intro outputs handles withStores hhandles
  obtain ⟨d, d', places, places', hs⟩ := h Int (fun _ => 0) fun _ => by decide
  obtain ⟨handles', rs, rs', hhandles', hrs, hrs', _⟩ := hs.exists_results (forall₂_of_mapM_ok hhandles)
  have hfirst := hs.parallel.first
  have hsecond := hs.parallel.second
  have hlive : ∀ a ∈ handles, s.plan.Live a := fun a ha => by
    obtain ⟨r, _, hr⟩ := exists_of_forall₂ hrs ha
    exact hr.live
  have hlive' : ∀ a ∈ handles', s'.plan.Live a := fun a ha => by
    obtain ⟨r, _, hr⟩ := exists_of_forall₂ hrs' ha
    exact hr.live
  obtain ⟨k, q, hfinalize⟩ := Build.exists_finalized hfirst.wellFormed hfirst.isOpen hlive withStores
  obtain ⟨k', q', hfinalize'⟩ := Build.exists_finalized hsecond.wellFormed hsecond.isOpen hlive' withStores
  refine ⟨handles', k, k', q, q', hhandles', hfinalize, hfinalize', ?_⟩
  intro hnames α _ _ _ values parameters parameters' data hwords hparameters hparameters'
  obtain ⟨d, d', places, places', hs⟩ := h α values hwords
  refine hs.agree hhandles hhandles' hfinalize hfinalize' (fun name hname => ?_) (fun name => ?_) (fun name => ?_) data
  · obtain ⟨op, hop, hnamed⟩ := List.mem_flatMap.1 hname
    exact hnames op hop name hnamed
  · rw [Numbering.signed_value hwords, hparameters]
  · rw [Numbering.signed_value hwords, hparameters']

theorem NamesAlike.refl (s : Progress) (ops : List (Operation Nat)) : NamesAlike s s ops :=
  fun _ _ _ _ _ _ => Iff.rfl

variable {α : Type} [Scalar α] {N : Numbering} {d : Draft α} {places : List Nat}

theorem Tracks.run [ExactOrigin α] [StableIndices α] (hs : s.Tracks N d places) (hvalues : ∀ name, N.value name ≠ 1)
    (hused : ∀ op ∈ ops, N.Uses op.named) : ∃ (d' : Draft α) (places' : List Nat), (s.run ops).Tracks N d' places' := by
  obtain ⟨d', _, places', _, hrun⟩ := (Alongside.refl hs).run hvalues (.refl s ops) hused (.inl rfl)
  exact ⟨d', places', hrun.first⟩

variable {id : Nat} {settings : Settings} {u w : Nat} {a b x y : Handle} {p q : Plan}

theorem Tracks.combined [ExactOrigin α] [StableIndices α] (hs : s.Tracks N d places) (ha : s.find u = .ok a)
    (hb : s.find w = .ok b) (hunit : a.shape = .unit) (hrank : 2 ≤ b.rank) (op : Operator) (scalarFirst : Bool)
    (hx : (Build.combineUnit op a b scalarFirst).runOn s.plan = (.ok x, p))
    (hy : (Build.combineViewed op a b scalarFirst).runOn s.plan = (.ok y, q)) {withLayout : Bool}
    (houtline : y.outline withLayout = x.outline withLayout) :
    ∃ (d₁ d₂ : Draft α) (places₁ places₂ : List Nat),
      Alongside N withLayout ⟨s.results ++ [some x], p⟩ ⟨s.results ++ [some y], q⟩ d₁ d₂ places₁ places₂ := by
  obtain ⟨r, _, hr⟩ := hs.finds u a ha
  obtain ⟨rb, _, hrb⟩ := hs.finds w b hb
  have hadvanced := hs.plan.combineUnit op hr hrb hunit hrank hx
  have hadvanced' := hs.plan.combineViewed op hr hrb hunit hrank hy
  obtain ⟨places₁, hfirst⟩ := hs.push hadvanced
  obtain ⟨places₂, hsecond⟩ := hs.push hadvanced'
  obtain ⟨_, _, _, hgrown, _⟩ := hadvanced
  obtain ⟨_, _, _, hgrown', _⟩ := hadvanced'
  have hsame : Parallel withLayout s s := ⟨hs.stands, hs.stands, rfl, rfl, rfl⟩
  refine ⟨_, _, places₁, places₂, hsame.push hfirst.stands hsecond.stands hgrown.plan hgrown'.plan (congrArg some houtline),
    hfirst, hsecond, ?_⟩
  have hdefine : ∀ v elementType layout layout', (d.define v elementType layout').outline =
      (d.define v elementType layout).outline := fun v elementType layout layout' =>
    (d.outline_define v elementType .rowMajor layout').symm.trans (d.outline_define v elementType .rowMajor layout)
  cases scalarFirst with
  | true => exact hdefine _ _ _ _
  | false => exact hdefine _ _ _ _

/-- A scalar and an array with at least two axes, in a plan of any script, are combined into the same values whether the
scalar is read as one element or is viewed at the shape `(1, 1)` in its own layout first. The results have the shape of the
array and the same element type. With the array on the left both have its layout; with the scalar on the left the first has
the layout of the array, and the second that of the scalar. Further operations are carried out on both results or refused
on both, and have results of the same shapes and types, with the same layouts if those of the first two are the same. In
that case, or if nothing is reshaped that has different layouts, all results have the same elements. -/
theorem combineViewed_agrees (hs : (start (.empty id settings)).run ops = s) (ha : s.find u = .ok a) (hb : s.find w = .ok b)
    (hunit : a.shape = .unit) (hrank : 2 ≤ b.rank) (op : Operator) (scalarFirst : Bool) :
    ∃ x p y q, (Build.combineUnit op a b scalarFirst).runOn s.plan = (.ok x, p) ∧
      (Build.combineViewed op a b scalarFirst).runOn s.plan = (.ok y, q) ∧
      x.shape = b.shape ∧ y.shape = b.shape ∧ x.elementType = y.elementType ∧
      x.layout = b.layout ∧ y.layout = (if scalarFirst then a.layout else b.layout) ∧
      ∀ later s₁ s₂, (⟨s.results ++ [some x], p⟩ : Progress).run later = s₁ →
        (⟨s.results ++ [some y], q⟩ : Progress).run later = s₂ →
        NamesAlike ⟨s.results ++ [some x], p⟩ ⟨s.results ++ [some y], q⟩ later →
        s₂.results.map (Option.map (Handle.outline (x.layout = y.layout))) =
          s₁.results.map (Option.map (Handle.outline (x.layout = y.layout))) ∧
        ((x.layout = y.layout ∨ ∀ place shape layout, .reshape place shape layout ∈ later →
            ∀ h h', s₁.find place = .ok h → s₂.find place = .ok h' → h'.layout = h.layout) →
          s₁.ComputesAlike s₂ (ops ++ later)) := by
  have hnamed : ∀ later, ∀ op' ∈ ops ++ later, ∀ values : String → Int,
      (Numbering.ofWords values ((ops ++ later).flatMap Operation.named)).Uses op'.named := fun later op' hop' values =>
    Numbering.uses_of_subset fun e he => List.mem_flatMap.2 ⟨op', hop', he⟩
  have htracks : ∀ later (α : Type) [Scalar α] [ExactOrigin α] [StableIndices α] (values : String → Int),
      (∀ name, Word.least ≤ values name ∧ values name ≤ Word.greatest) → ∃ (d : Draft α) (places : List Nat),
        s.Tracks (.ofWords values ((ops ++ later).flatMap Operation.named)) d places := by
    intro later α _ _ _ values hwords
    obtain ⟨d, places, hrun⟩ := (tracks_start (α := α) _ id settings).run (Numbering.value_ne_one hwords)
      (fun op' hop' => hnamed later op' (List.mem_append_left _ hop') values)
    exact ⟨d, places, hs ▸ hrun⟩
  obtain ⟨d, places, hstart⟩ := htracks [] Int (fun _ => 0) fun _ => by decide
  have hstands := hstart.stands
  obtain ⟨x, p, hx, hplan, hshape, htype, hlayout⟩ := Plan.exists_combineUnit op scalarFirst hstands.wellFormed
    hstands.isOpen (hstands.live u a ha) (hstands.live w b hb) hunit hrank
  obtain ⟨y, q, hy, hplan', hshape', htype', hlayout'⟩ := Plan.exists_combineViewed op scalarFirst hstands.wellFormed
    hstands.isOpen (hstands.live u a ha) (hstands.live w b hb) hunit hrank
  have houtline : y.outline (x.layout = y.layout) = x.outline (x.layout = y.layout) :=
    Handle.outline_eq (hplan'.trans hplan.symm) (hshape'.trans hshape.symm) (htype'.trans htype.symm)
      fun h => (of_decide_eq_true h).symm
  refine ⟨x, p, y, q, hx, hy, hshape, hshape', htype.trans htype'.symm, hlayout, hlayout', ?_⟩
  rintro later _ _ rfl rfl hnames
  obtain ⟨_, _, _, _, hcombined⟩ := hstart.combined ha hb hunit hrank op scalarFirst hx hy houtline
  refine ⟨(hcombined.parallel.run hnames).results, fun hlayouts =>
    @ComputesAlike.of_alongside _ _ _ (x.layout = y.layout) fun α _ _ _ values hwords => ?_⟩
  obtain ⟨d, places, hstart⟩ := htracks later α values hwords
  obtain ⟨d₁, d₂, places₁, places₂, hcombined⟩ := hstart.combined ha hb hunit hrank op scalarFirst hx hy houtline
  exact hcombined.run (Numbering.value_ne_one hwords) hnames
    (fun op' hop' => hnamed later op' (List.mem_append_right _ hop') values) (hlayouts.imp_left decide_eq_true)

def add (s : Progress) (step : Build Handle) : Progress :=
  match step.runOn s.plan with
  | (outcome, p) => ⟨s.results ++ [outcome.toOption], p⟩

theorem add_of_runOn {step : Build Handle} (h : step.runOn s.plan = (.ok x, p)) : s.add step = ⟨s.results ++ [some x], p⟩ := by
  rw [add, h]
  rfl

def factorAndRows : List (Operation Nat) :=
  [.fill (.extents [.fixed 1]) (.int 5), .range (.fixed 6), .reshape 1 (.extents [.fixed 2, .fixed 3]) .columnMajor]

def scaling : Progress :=
  (start (.empty 0 .default)).run factorAndRows

def factor : Handle :=
  ⟨0, "subst0", .unit, .float64, .rowMajor⟩

def rows : Handle :=
  ⟨0, "subst2", ⟨[.fixed 2, .fixed 3], by simp, by simp [Extent.fault?]⟩, .int64, .columnMajor⟩

/-- With the number on the left the rows keep their layout in the one way and lose it in the other, and all the same the
sums over the rows are the same. -/
theorem combineViewed_agrees_factor :
    ∃ (x y : Handle) (p q : Plan) (handles handles' : List Handle) (k k' : Kernel) (q₁ q₂ : Plan) (m m' : Memory Int),
      (Build.combineUnit .mul factor rows true).runOn scaling.plan = (.ok x, p) ∧
      (Build.combineViewed .mul factor rows true).runOn scaling.plan = (.ok y, q) ∧
      x.layout = .columnMajor ∧ y.layout = .rowMajor ∧
      (Build.finalize handles true).runOn
        ((⟨scaling.results ++ [some x], p⟩ : Progress).run [.sum 3 (some [0])]).plan = (.ok k, q₁) ∧
      (Build.finalize handles' true).runOn
        ((⟨scaling.results ++ [some y], q⟩ : Progress).run [.sum 3 (some [0])]).plan = (.ok k', q₂) ∧
      k.execute .empty [] = .ok m ∧ k'.execute .empty [] = .ok m' ∧
      List.Forall₂ (fun h h' => ∃ array array' b, k.outputArray? h = some array ∧ k'.outputArray? h' = some array' ∧
        m.buffer? array = some b ∧ m'.buffer? array' = some b) handles handles' := by
  obtain ⟨x, p, y, q, hx, hy, _, _, _, hlayout, hlayout', hagree⟩ :=
    @combineViewed_agrees scaling factorAndRows 0 .default 0 2 factor rows rfl (by decide +kernel) (by decide +kernel) rfl
      (Nat.le_refl 2) .mul true
  have hrun := add_of_runOn hx
  have hrun' := add_of_runOn hy
  obtain ⟨handles, k, q₁, hhandles, hfinalize, hcheck⟩ :=
    @exists_of_lowersWith ((scaling.add (Build.combineUnit .mul factor rows true)).run [.sum 3 (some [0])]) [4, 3]
      (fun k _ => decide (k.parameters = []) && (k.execute .empty ([] : List (String × Array Int))).isOk) (by decide +kernel)
  obtain ⟨handles₁, k₁, q₂, hhandles₁, hfinalize₁, hcheck₁⟩ :=
    @exists_of_lowersWith ((scaling.add (Build.combineViewed .mul factor rows true)).run [.sum 3 (some [0])]) [4, 3]
      (fun k _ => decide (k.parameters = [])) (by decide +kernel)
  rw [hrun] at hhandles hfinalize
  rw [hrun'] at hhandles₁ hfinalize₁
  obtain ⟨hparameters, hok⟩ := (Bool.and_eq_true _ _).mp hcheck
  have hunnamed : NamesAlike ⟨scaling.results ++ [some x], p⟩ ⟨scaling.results ++ [some y], q⟩ [.sum 3 (some [0])] := by
    intro before op later name hops hname
    have hop : op ∈ [Operation.sum 3 (some [0])] := hops ▸ List.mem_append_right _ List.mem_cons_self
    rw [List.mem_singleton.1 hop] at hname
    cases hname
  obtain ⟨-, hcomputes⟩ := hagree _ _ _ rfl rfl hunnamed
  obtain ⟨handles', k', k'', q', q'', hhandles', hfinalize', hfinalize'', hboth⟩ :=
    hcomputes (.inr fun place shape layout hmem => by cases List.mem_singleton.1 hmem) [4, 3] handles true hhandles
  cases hfinalize.symm.trans hfinalize'
  obtain rfl := Except.ok.inj (hhandles₁.symm.trans hhandles')
  cases hfinalize₁.symm.trans hfinalize''
  have hfixed : ∀ op ∈ factorAndRows ++ [.sum 3 (some [0])], ∀ name, .symbolic name ∈ op.named →
      name ∉ k.domains.flatMap Domain.vars ∧ name ∉ k₁.domains.flatMap Domain.vars := by
    intro op hop name hname
    have hmem : Extent.symbolic name ∈ (factorAndRows ++ [Operation.sum 3 (some [0])]).flatMap Operation.named :=
      List.mem_flatMap.2 ⟨op, hop, hname⟩
    have hnamed : (factorAndRows ++ [Operation.sum 3 (some [0])]).flatMap Operation.named = [.fixed 1, .fixed 6, .fixed 2, .fixed 3] :=
      rfl
    rw [hnamed] at hmem
    simp at hmem
  have hempty : ∀ {k : Kernel}, k.parameters = [] → ∀ name, Env.empty.value? name =
      if name ∈ k.parameters then some ((fun _ => 0 : String → Int) name) else none := by
    intro k hnone name
    rw [hnone, if_neg List.not_mem_nil]
    rfl
  have hsame := hboth hfixed Int (fun _ => 0) .empty .empty [] (fun _ => by decide) (hempty (of_decide_eq_true hparameters))
    (hempty (of_decide_eq_true hcheck₁))
  cases hm : k.execute .empty ([] : List (String × Array Int)) with
  | error e =>
    rw [hm] at hok
    cases hok
  | ok m =>
    rw [show inputsFor _ _ [] = [] from rfl, show inputsFor _ _ [] = [] from rfl, hm] at hsame
    cases hm' : k₁.execute .empty ([] : List (String × Array Int)) with
    | error e =>
      rw [hm'] at hsame
      exact hsame.elim
    | ok m' =>
      rw [hm'] at hsame
      exact ⟨x, y, p, q, handles, handles₁, k, k₁, _, _, m, m', hx, hy, hlayout, hlayout', hfinalize, hfinalize₁, hm, hm',
        hsame⟩

def line (s : Progress) : Option (List Int) :=
  let s := s.run [.reshape 3 (.extents [.fixed 6]) .rowMajor]
  match s.find 4 with
  | .error _ => none
  | .ok h =>
    match (Build.finalize [h] true).runOn s.plan with
    | (.ok k, _) =>
      match k.execute .empty [] with
      | .ok m => (k.outputArray? h).bind fun array => (m.buffer? array).map Buffer.elements
      | .error _ => none
    | _ => none

/-- With the number on the left the two ways give different layouts, and a reshape shows different elements. -/
theorem combineViewed_differs_in_layout : ∃ x p y q,
    (Build.combineUnit .mul factor rows true).runOn scaling.plan = (.ok x, p) ∧
    (Build.combineViewed .mul factor rows true).runOn scaling.plan = (.ok y, q) ∧
    scaling.find 0 = .ok factor ∧ scaling.find 2 = .ok rows ∧ factor.shape = .unit ∧ rows.rank = 2 ∧
    x.layout = .columnMajor ∧ y.layout = .rowMajor ∧
    line ⟨scaling.results ++ [some x], p⟩ = some [0, 5, 10, 15, 20, 25] ∧
    line ⟨scaling.results ++ [some y], q⟩ = some [0, 10, 20, 5, 15, 25] := by
  have hstands : scaling.plan.WellFormed ∧ scaling.plan.finalized = false ∧ scaling.plan.Live factor ∧
      scaling.plan.Live rows := by
    have hreach := run_reachable 0 .default factorAndRows
    exact ⟨hreach.wellFormed, by decide +kernel, hreach.live (by decide +kernel), hreach.live (by decide +kernel)⟩
  obtain ⟨hwellFormed, hopen, hfactor, hrows⟩ := hstands
  obtain ⟨x, p, hx, _, _, _, hlayout⟩ :=
    Plan.exists_combineUnit .mul true hwellFormed hopen hfactor hrows rfl (Nat.le_refl 2)
  obtain ⟨y, q, hy, _, _, _, hlayout'⟩ :=
    Plan.exists_combineViewed .mul true hwellFormed hopen hfactor hrows rfl (Nat.le_refl 2)
  refine ⟨x, p, y, q, hx, hy, by decide +kernel, by decide +kernel, rfl, rfl, hlayout, hlayout', ?_, ?_⟩
  · rw [← add_of_runOn hx]
    decide +kernel
  · rw [← add_of_runOn hy]
    decide +kernel

end Progress

end ArrayPlan
