import ArrayPlan.Operation
import ArrayPlan.Proofs.Definitions
import ArrayPlan.Proofs.Lockstep

/-!
Operations in lockstep. Carried out on handles that stand for each other, an operation does the same on two plans: it is
refused by both for one kind of reason, or gives handles that stand for each other. Nothing in an operation depends on how
its names are spelled.
-/

namespace ArrayPlan

theorem Shape.Fixed.broadcast {a b common : Shape} (ha : a.Fixed) (hb : b.Fixed) (h : Shape.broadcast a b = .ok common) :
    common.Fixed := by
  simp only [Shape.broadcast] at h
  split at h
  · cases h
  · rename_i extents hjoin
    cases h
    have hpad : ∀ {s : Shape}, s.Fixed → ∀ e ∈ s.padTo (max a.rank b.rank), ∃ n, e = .fixed n := by
      intro s hs e he
      rcases List.mem_append.1 he with he | he
      · exact ⟨1, List.eq_of_mem_replicate he⟩
      · exact hs e he
    exact Shape.joinAxes_forall (hpad ha) (hpad hb) hjoin

namespace Labelling

inductive MatchesOperand (L : Labelling) (D : List NameKind) : Operand Handle → Operand Handle → Prop where
  | literal (value : Literal) : MatchesOperand L D (.literal value) (.literal value)
  | array {a a' : Handle} (h : L.Matches D a a') : MatchesOperand L D (.array a) (.array a')

inductive MatchesIndex (L : Labelling) (D : List NameKind) : Index Handle → Index Handle → Prop where
  | at (position : Nat) : MatchesIndex L D (.at position) (.at position)
  | all : MatchesIndex L D .all .all
  | slice (start stop step : Option Int) : MatchesIndex L D (.slice start stop step) (.slice start stop step)
  | gather {a a' : Handle} (h : L.Matches D a a') : MatchesIndex L D (.gather a) (.gather a')

inductive MatchesAxis (L : Labelling) (D : List NameKind) : WriteAxis → WriteAxis → Prop where
  | at (position : Nat) : MatchesAxis L D (.at position) (.at position)
  | along {extent : Extent} (hfixed : ∃ n, extent = .fixed n) : MatchesAxis L D (.along extent) (.along extent)
  | gather {positions : Handle} {plan' : Nat} {rule' : String} (hfixed : positions.shape.Fixed)
      (hrule : L.Pairs D id positions.rule rule') :
      MatchesAxis L D (.gather positions) (.gather { positions with plan := plan', rule := rule' })

/-- Values to be written that stand for each other, once they are known to be of the plans. -/
inductive MatchesValue (L : Labelling) (D : List NameKind) : Operand Handle → Operand Handle → Prop where
  | literal (value : Literal) : MatchesValue L D (.literal value) (.literal value)
  | array {a : Handle} {plan' : Nat} {rule' : String} (hrule : L.Pairs D id a.rule rule') :
      MatchesValue L D (.array a) (.array { a with plan := plan', rule := rule' })

variable {L : Labelling} {D D' : List NameKind}

theorem MatchesAxis.mono {axis axis' : WriteAxis} (h : L.MatchesAxis D axis axis') (hle : D <+: D') :
    L.MatchesAxis D' axis axis' := by
  cases h with
  | «at» position => exact .at position
  | along hfixed => exact .along hfixed
  | gather hfixed hrule => exact .gather hfixed (hrule.mono hle)

theorem MatchesValue.mono {value value' : Operand Handle} (h : L.MatchesValue D value value') (hle : D <+: D') :
    L.MatchesValue D' value value' := by
  cases h with
  | literal value => exact .literal value
  | array hrule => exact .array (hrule.mono hle)

namespace Tandem

section Sources

theorem full {extents : List Extent} (hfixed : ∀ e ∈ extents, ∃ n, e = .fixed n) (value : Literal) (elementType : ElementType) :
    L.Tandem D (Build.full extents value elementType) (Build.full extents value elementType) L.Matches := by
  refine bind (shapeOf fun shape hshape => bind (ofExcept fun value _ => bind (requireOpen ?_)))
  refine bind (freshIndices fun vars vars' hvars => ?_)
  refine define_handle hvars (fun f _ => (Expr.rename_toExpr value).symm) ?_
  rw [Shape.Fixed, hshape]
  exact hfixed

theorem fill {extents : List Extent} (hfixed : ∀ e ∈ extents, ∃ n, e = .fixed n) (value : Literal) :
    L.Tandem D (Build.fill extents value) (Build.fill extents value) L.Matches := by
  refine bind (get fun p q hpq => ?_)
  rw [hpq.elementType]
  exact full hfixed value _

theorem range {stop : Extent} (hfixed : ∃ n, stop = .fixed n) :
    L.Tandem D (Build.range stop) (Build.range stop) L.Matches := by
  refine bind (shapeOf fun shape hshape => bind (requireOpen (bind (fresh fun var var' hvar => ?_))))
  refine define_handle (fun f hf => ?_) (fun f hf => ?_) ?_
  · rw [hvar f hf]
    rfl
  · rw [hvar f hf]
    rfl
  · rw [Shape.Fixed, hshape]
    exact fun e he => List.mem_singleton.1 he ▸ hfixed

theorem declareInput {array array' : String} (harray : L.Pairs D id array array') {shape : Shape} (hfixed : shape.Fixed)
    (elementType : ElementType) :
    L.Tandem D (Build.declareInput array shape elementType) (Build.declareInput array' shape elementType) L.Matches := by
  refine bind (freshIndices fun vars vars' hvars => bind (define hvars (fun f hf => ?_) fun rule rule' hrule => ?_))
  · rw [hvars f hf, harray.later f hf, Expr.rename, Expr.renameAll_eq_map, Expr.rename_vars]
    rfl
  · refine bind (declare (fun f hf => ?_) hfixed (bind (back hrule harray.later.later (handle ?_))))
    · rw [harray.later.later f hf]
      rfl
    · exact .own hrule hfixed

theorem input {extents : List Extent} (hfixed : ∀ e ∈ extents, ∃ n, e = .fixed n) (elementType : ElementType) :
    L.Tandem D (Build.input extents elementType) (Build.input extents elementType) L.Matches := by
  refine bind (shapeOf fun shape hshape => bind (requireOpen (bind (fresh fun array array' harray => ?_))))
  refine declareInput harray ?_ elementType
  rw [Shape.Fixed, hshape]
  exact hfixed

end Sources

section Elementwise

variable {a a' b b' : Handle} {plan' other : Nat} {rule' other' : String}

theorem combineLiteral (ha : L.Matches D a a') (op : Operator) (value : Literal) (literalFirst : Bool) :
    L.Tandem D (Build.combineLiteral op a value literalFirst) (Build.combineLiteral op a' value literalFirst) L.Matches := by
  obtain ⟨plan', rule', hplan, hfixed, hrule⟩ := ha
  refine bind (requireOwn hplan fun hown => bind (requireOpen (bind (freshIndices fun vars vars' hvars => ?_))))
  refine bind (invokeAt (hrule hown).later hvars fun e e' he => ?_)
  refine define_handle hvars (fun f hf => ?_) hfixed
  rw [he f hf, Expr.rename_ite, Expr.rename_apply, Expr.rename_apply, Expr.rename_toExpr]

theorem combineEqual (ha : L.Pairs D id a.rule rule') (hb : L.Pairs D id b.rule other') (hfixed : a.shape.Fixed)
    (op : Operator) :
    L.Tandem D (Build.combineEqual op a b) (Build.combineEqual op { a with plan := plan', rule := rule' } { b with plan := other, rule := other' })
      L.Matches := by
  refine bind (requireOpen (bind (freshIndices fun vars vars' hvars => ?_)))
  refine bind (invokeAt ha.later hvars fun e e' he => bind (invokeAt hb.later hvars fun o o' ho => ?_))
  refine define_handle hvars (fun f hf => ?_) hfixed
  rw [he f hf, ho f hf, Expr.rename_apply]

theorem combineRightUnit (ha : L.Pairs D id a.rule rule') (hb : L.Pairs D id b.rule other') (hfixed : a.shape.Fixed)
    (op : Operator) :
    L.Tandem D (Build.combineRightUnit op a b) (Build.combineRightUnit op { a with plan := plan', rule := rule' } { b with plan := other, rule := other' })
      L.Matches := by
  refine bind (requireOpen (bind (freshIndices fun vars vars' hvars => ?_)))
  refine bind (invokeAt ha.later hvars fun e e' he => bind (invokeAtOrigin hb.later fun o o' ho => ?_))
  refine define_handle hvars (fun f hf => ?_) hfixed
  rw [he f hf, ho f hf, Expr.rename_apply]

theorem combineLeftUnit (ha : L.Pairs D id a.rule rule') (hb : L.Pairs D id b.rule other') (hfixed : b.shape.Fixed)
    (op : Operator) :
    L.Tandem D (Build.combineLeftUnit op a b) (Build.combineLeftUnit op { a with plan := plan', rule := rule' } { b with plan := other, rule := other' })
      L.Matches := by
  refine bind (requireOpen (bind (freshIndices fun vars vars' hvars => ?_)))
  refine bind (invokeAtOrigin ha.later fun e e' he => bind (invokeAt hb.later hvars fun o o' ho => ?_))
  refine define_handle hvars (fun f hf => ?_) hfixed
  rw [he f hf, ho f hf, Expr.rename_apply]

theorem spread (ha : L.Pairs D id a.rule rule') {common : Shape} {Q : List NameKind → Handle → Handle → Prop}
    (h : ∀ D' b other other', D <+: D' → b.shape = common → L.Pairs D' id b.rule other' →
      Q D' b { b with plan := other, rule := other' }) :
    L.Tandem D (Build.spread a common) (Build.spread { a with plan := plan', rule := rule' } common) Q := by
  unfold Build.spread
  by_cases hshape : a.shape = common
  · simp only [if_pos hshape]
    exact pure (h D a plan' rule' List.prefix_rfl hshape ha)
  · simp only [if_neg hshape]
    refine bind (requireOpen (bind (freshIndices fun vars vars' hvars => ?_)))
    refine bind (invoke ha.later (fun f hf => ?_) fun e e' he => bind (define hvars he fun name name' hname => handle ?_))
    · rw [hvars f hf, ← List.map_drop]
      exact Expr.spreadIndex_rename _ _
    · refine h _ ⟨L.plan, name, common, a.elementType, a.layout⟩ L.plan' name' ?_ rfl hname
      exact (List.prefix_append ..).trans (List.prefix_append ..)

theorem combineArrays (ha : L.Matches D a a') (hb : L.Matches D b b') (op : Operator) :
    L.Tandem D (Build.combineArrays op a b) (Build.combineArrays op a' b') L.Matches := by
  obtain ⟨plan', rule', hplan, hfixed, hrule⟩ := ha
  obtain ⟨other, other', hplan', hfixed', hother⟩ := hb
  refine bind (requireOwn hplan fun hown => bind (requireOwn hplan' fun hown' => ?_))
  have ha := hrule hown
  have hb := hother hown'
  dsimp only
  split
  · exact combineEqual ha hb hfixed op
  · split
    · exact combineRightUnit ha hb hfixed op
    · split
      · exact combineLeftUnit ha hb hfixed' op
      · cases hcommon : Shape.broadcast a.shape b.shape with
        | error axis => exact throw rfl
        | ok common =>
          refine bind (spread ha fun D₁ left _ left' hle hleft hl => ?_)
          refine bind (spread (hb.mono hle) fun D₂ right _ right' hle' hright hr => ?_)
          exact combineEqual (hl.mono hle') hr (hleft ▸ hfixed.broadcast hfixed' hcommon) op

theorem combine (ha : L.Matches D a a') {b b' : Operand Handle} (hb : L.MatchesOperand D b b') (op : Operator) :
    L.Tandem D (Build.combine op a b) (Build.combine op a' b') L.Matches := by
  cases hb with
  | literal value => exact combineLiteral ha op value false
  | array hb => exact combineArrays ha hb op

end Elementwise

section Views

variable {a a' : Handle} {index index' : List (Index Handle)}

theorem requireIndexCount (ha : L.Matches D a a') (hindex : List.Forall₂ (L.MatchesIndex D) index index')
    {Q : List NameKind → Unit → Unit → Prop} (h : Q D () ()) :
    L.Tandem D (Build.requireIndexCount a index) (Build.requireIndexCount a' index') Q := by
  obtain ⟨plan', rule', hplan, _, _⟩ := ha
  show L.Tandem D (Build.requireIndexCount a index) (Build.requireIndexCount a index') Q
  unfold Build.requireIndexCount
  rw [hindex.length_eq]
  split
  · exact pure h
  · exact throw rfl

theorem requirePosition (axis position : Nat) (extent : Extent) {Q : List NameKind → Unit → Unit → Prop} (h : Q D () ()) :
    L.Tandem D (Build.requirePosition axis position extent) (Build.requirePosition axis position extent) Q := by
  unfold Build.requirePosition
  split
  · split
    · exact throw rfl
    · exact pure h
  · exact pure h

theorem selectAxes (axis : Nat) {D₀ : List NameKind} (hindex : List.Forall₂ (L.MatchesIndex D₀) index index')
    {extents : List Extent} (hfixed : ∀ e ∈ extents, ∃ n, e = .fixed n) :
    L.Tandem D (Build.selectAxes axis index extents) (Build.selectAxes axis index' extents) fun D' r r' =>
      L.Pairs D' (fun f => List.map (Expr.rename f)) r.1 r'.1 ∧ L.Pairs D' (fun f => List.map (Prod.map f id)) r.2 r'.2 ∧
        ∀ v ∈ r.2, ∃ n, v.2 = .fixed n := by
  induction hindex generalizing D axis extents with
  | nil =>
    unfold Build.selectAxes
    exact pure ⟨fun _ _ => rfl, fun _ _ => rfl, fun v hv => by cases hv⟩
  | @cons entry entry' index index' hentry _ ih =>
    cases extents with
    | nil =>
      unfold Build.selectAxes
      exact pure ⟨fun _ _ => rfl, fun _ _ => rfl, fun v hv => by cases hv⟩
    | cons extent extents =>
      have htail : ∀ e ∈ extents, ∃ n, e = .fixed n := fun e he => hfixed e (List.mem_cons_of_mem _ he)
      have hslice : L.Tandem D (Build.keepAxis axis index extent extents) (Build.keepAxis axis index' extent extents)
          fun D' r r' => L.Pairs D' (fun f => List.map (Expr.rename f)) r.1 r'.1 ∧
            L.Pairs D' (fun f => List.map (Prod.map f id)) r.2 r'.2 ∧ ∀ v ∈ r.2, ∃ n, v.2 = .fixed n := by
        refine bind (fresh fun var var' hvar => bind ((ih (axis + 1) htail).mono ?_))
        rintro D' ⟨args, kept⟩ ⟨args', kept'⟩ hle ⟨hargs, hkept, hextents⟩
        refine pure ⟨fun f hf => ?_, fun f hf => ?_, fun v hv => ?_⟩
        · exact congrArg₂ List.cons (congrArg Expr.var (hvar.mono hle f hf)) (hargs f hf)
        · exact congrArg₂ List.cons (congrArg (·, extent) (hvar.mono hle f hf)) (hkept f hf)
        · rcases List.mem_cons.1 hv with rfl | hv
          · exact hfixed extent List.mem_cons_self
          · exact hextents v hv
      unfold Build.selectAxes
      cases hentry with
      | «at» position =>
        refine bind (requirePosition axis position extent (bind ((ih (axis + 1) htail).mono ?_)))
        rintro D' ⟨args, kept⟩ ⟨args', kept'⟩ hle ⟨hargs, hkept, hextents⟩
        exact pure ⟨fun f hf => congrArg₂ List.cons rfl (hargs f hf), hkept, hextents⟩
      | gather h => exact throw rfl
      | all => exact hslice
      | slice start stop step =>
        dsimp only
        by_cases hcomplete : (Index.slice start stop step : Index Handle).isComplete = true
        · rw [if_pos hcomplete, if_pos hcomplete]
          exact hslice
        · rw [if_neg hcomplete, if_neg hcomplete]
          exact throw rfl

theorem select (ha : L.Matches D a a') (hindex : List.Forall₂ (L.MatchesIndex D) index index') :
    L.Tandem D (Build.select a index) (Build.select a' index') L.Matches := by
  have hcount := @requireIndexCount _ _ _ _ _ _ ha hindex
  obtain ⟨plan', rule', hplan, hfixed, hrule⟩ := ha
  refine bind (requireOwn hplan fun hown => bind (hcount (bind (requireOpen (bind ((selectAxes 0 hindex hfixed).mono ?_))))))
  rintro D' ⟨args, kept⟩ ⟨args', kept'⟩ hle ⟨hargs, hkept, hextents⟩
  have hkept' : ∀ f, L.Carries D' f → kept' = kept.map (Prod.map f id) := hkept
  have hsame : kept'.map Prod.snd = kept.map Prod.snd := by
    obtain ⟨f, hf⟩ := L.exists_carries D'
    rw [hkept' f hf, List.map_map]
    rfl
  dsimp only
  rw [hsame]
  refine bind (shapeOfKept (fun e he => ?_) fun shape hshape => ?_)
  · obtain ⟨v, hv, rfl⟩ := List.mem_map.1 he
    exact hextents v hv
  refine bind (invoke ((hrule hown).mono hle) hargs fun e e' he => define_handle (fun f hf => ?_) he hshape)
  rw [hkept' f hf, List.map_map, List.map_map]
  rfl

theorem reshape (ha : L.Matches D a a') {extents : List Extent} (hextents : ∀ e ∈ extents, ∃ n, e = .fixed n)
    (layout : Layout) : L.Tandem D (Build.reshape a extents layout) (Build.reshape a' extents layout) L.Matches := by
  obtain ⟨plan', rule', hplan, hfixed, hrule⟩ := ha
  refine bind (requireOwn hplan fun hown => bind (shapeOf fun shape hshape => ?_))
  have hshape' : shape.Fixed := by
    rw [Shape.Fixed, hshape]
    exact hextents
  dsimp only
  cases shape.lengths? with
  | none => exact throw rfl
  | some lengths =>
    cases a.shape.lengths? with
    | none => exact throw rfl
    | some sourceLengths =>
      dsimp only
      split
      · exact throw rfl
      · refine bind (requireOpen (bind (freshIndices fun vars vars' hvars => ?_)))
        refine bind (invoke (hrule hown).later (fun f hf => ?_) fun e e' he => define_handle hvars he hshape')
        rw [hvars f hf, Expr.linearIndex_rename, Expr.indexAtLine_rename]

end Views

section Reductions

variable {a a' : Handle}

theorem requireAxes (a : Handle) (axes : Option (List Nat)) {Q : List NameKind → Unit → Unit → Prop} (h : Q D () ()) :
    L.Tandem D (Build.requireAxes a axes) (Build.requireAxes a axes) Q := by
  unfold Build.requireAxes
  cases (axes.getD []).find? fun axis => a.rank ≤ axis with
  | none => exact pure h
  | some axis => exact throw rfl

theorem sum (ha : L.Matches D a a') (axes : Option (List Nat)) :
    L.Tandem D (Build.sum a axes) (Build.sum a' axes) L.Matches := by
  obtain ⟨plan', rule', hplan, hfixed, hrule⟩ := ha
  refine bind (requireOwn hplan fun hown => bind (requireAxes a axes (bind (requireOpen (bind (freshIndices ?_))))))
  intro vars vars' hvars
  refine bind (addDomain (fun f hf => ?_) ?_)
  · rw [hvars f hf]
    exact (Domain.box_zip_rename hf.injective vars hfixed).symm
  rw [List.partition_eq_filter_filter, List.partition_eq_filter_filter]
  have hpart : ∀ keep : (String × Extent) × Nat → Bool,
      (∀ (f : String → String) v, keep (Prod.map (Prod.map f id) id v) = keep v) →
      L.Pairs (D ++ List.replicate a.rank .index) (fun f => List.map (Prod.map (Prod.map f id) id))
        ((vars.zip a.shape.extents).zipIdx.filter keep) ((vars'.zip a.shape.extents).zipIdx.filter keep) := by
    intro keep hkeep f hf
    rw [hvars f hf, List.zip_map_left, List.zipIdx_map, List.filter_map]
    exact congrArg _ (List.filter_congr fun v _ => hkeep f v)
  have hreduced := hpart (fun v => Build.isReduced axes v.2) fun _ _ => rfl
  have hkept := hpart (not ∘ fun v => Build.isReduced axes v.2) fun _ _ => rfl
  have hextents : ∀ v ∈ (vars.zip a.shape.extents).zipIdx.filter (not ∘ fun v => Build.isReduced axes v.2),
      ∃ n, v.1.2 = .fixed n := by
    intro v hv
    have hmem : v.1 ∈ vars.zip a.shape.extents :=
      List.zipIdx_map_fst 0 (vars.zip a.shape.extents) ▸ List.mem_map_of_mem (List.mem_filter.1 hv).1
    exact hfixed _ (List.of_mem_zip hmem).2
  generalize (vars.zip a.shape.extents).zipIdx.filter (fun v => Build.isReduced axes v.2) = reduced at hreduced ⊢
  generalize (vars'.zip a.shape.extents).zipIdx.filter (fun v => Build.isReduced axes v.2) = reduced' at hreduced ⊢
  generalize (vars.zip a.shape.extents).zipIdx.filter (not ∘ fun v => Build.isReduced axes v.2) = kept at hkept hextents ⊢
  generalize (vars'.zip a.shape.extents).zipIdx.filter (not ∘ fun v => Build.isReduced axes v.2) = kept' at hkept ⊢
  obtain ⟨f₀, hf₀⟩ := L.exists_carries (D ++ List.replicate a.rank .index)
  have hempty : reduced'.isEmpty = reduced.isEmpty := by
    rw [hreduced f₀ hf₀]
    exact List.isEmpty_map
  have hsame : (kept'.map fun v => v.1.2) = kept.map fun v => v.1.2 := by
    rw [hkept f₀ hf₀]
    exact List.map_map
  dsimp only
  rw [hempty, hsame]
  refine bind (invokeAt (hrule hown).later hvars fun e e' he => bind (shapeOfKept (fun e he => ?_) fun shape hshape => ?_))
  · obtain ⟨v, hv, rfl⟩ := List.mem_map.1 he
    exact hextents v hv
  refine define_handle (fun f hf => ?_) (fun f hf => ?_) hshape
  · rw [hkept f hf, List.map_map, List.map_map]
    rfl
  · rw [Expr.rename_ite, he f hf, hreduced f hf, Expr.rename, List.map_map, List.map_map]
    rfl

theorem prefixSums (ha : L.Matches D a a') : L.Tandem D (Build.prefixSums a) (Build.prefixSums a') L.Matches := by
  obtain ⟨plan', rule', hplan, hfixed, hrule⟩ := ha
  refine bind (requireOwn hplan fun hown => ?_)
  dsimp only
  split
  · rename_i extent hextents
    have hextent : ∃ n, extent = .fixed n := hfixed extent (hextents ▸ List.mem_singleton_self extent)
    refine bind (requireOpen (bind (fresh fun i i' hi => bind (fresh fun j j' hj => bind (fresh fun array array' harray => ?_)))))
    have hi' : L.Pairs (D ++ [.index] ++ [.index] ++ [.array]) id i i' := hi.later.later
    have hj' : L.Pairs (D ++ [.index] ++ [.index] ++ [.array]) id j j' := hj.later
    refine bind (invokeAt (hrule hown).later.later.later (fun f hf => ?_) fun e e' he => ?_)
    · rw [hj' f hf]
      rfl
    refine bind (enqueue (fun f hf => ?_) (bind (addDomain (fun f hf => ?_) (bind (declare (fun f hf => ?_) hfixed ?_)))))
    · rw [harray f hf, hi' f hf, hj' f hf, he f hf]
      rfl
    · rw [hi' f hf, hj' f hf]
      exact (prefixSumDomain_rename hf.injective i j hextent).symm
    · rw [harray f hf]
      rfl
    refine bind (fresh fun t t' ht => bind (define (fun f hf => ?_) (fun f hf => ?_) fun name name' hname => ?_))
    · rw [ht f hf]
      rfl
    · rw [harray.later f hf, ht f hf]
      rfl
    · exact bind (back hname harray.later.later (handle (.own hname hfixed)))
  · exact throw rfl

end Reductions

section Writes

variable {axes axes' : List WriteAxis} {vars vars' : List String} {value value' : Operand Handle} {array array' : String}

theorem region_eq (haxes : List.Forall₂ (L.MatchesAxis D) axes axes') : WriteAxis.region axes' = WriteAxis.region axes := by
  induction haxes with
  | nil => rfl
  | cons haxis _ ih =>
    rw [WriteAxis.region] at ih ⊢
    rw [WriteAxis.region, List.filterMap_cons, List.filterMap_cons, ih]
    cases haxis <;> rfl

theorem region_fixed (haxes : List.Forall₂ (L.MatchesAxis D) axes axes') :
    ∀ e ∈ WriteAxis.region axes, ∃ n, e = .fixed n := by
  intro e he
  obtain ⟨axis, haxis, hextent⟩ := List.mem_filterMap.1 he
  obtain ⟨axis', hmatches⟩ : ∃ axis', L.MatchesAxis D axis axis' := by
    obtain ⟨i, hi, rfl⟩ := List.getElem_of_mem haxis
    exact ⟨_, (List.forall₂_iff_get.1 haxes).2 i hi (haxes.length_eq ▸ hi)⟩
  cases hmatches with
  | «at» position => cases hextent
  | along hfixed =>
    cases hextent
    exact hfixed
  | gather hfixed => exact hfixed e (List.mem_of_head? hextent)

theorem requirePositions {a a' : Handle} (ha : L.Matches D a a') {Q : List NameKind → Unit → Unit → Prop}
    (h : a.plan = L.plan → Q D () ()) : L.Tandem D (Build.requirePositions a) (Build.requirePositions a') Q := by
  obtain ⟨plan', rule', hplan, _, _⟩ := ha
  refine bind (requireOwn hplan fun hown => ?_)
  show L.Tandem D (if a.rank ≠ 1 then _ else _) (if a.rank ≠ 1 then _ else _) Q
  split
  · exact bind (throw rfl)
  · dsimp only
    split
    · exact throw rfl
    · exact pure (h hown)

theorem writeAxes (axis : Nat) {index index' : List (Index Handle)} (hindex : List.Forall₂ (L.MatchesIndex D) index index')
    {extents : List Extent} (hfixed : ∀ e ∈ extents, ∃ n, e = .fixed n)
    {Q : List NameKind → List WriteAxis → List WriteAxis → Prop}
    (h : ∀ axes axes', List.Forall₂ (L.MatchesAxis D) axes axes' → Q D axes axes') :
    L.Tandem D (Build.writeAxes axis index extents) (Build.writeAxes axis index' extents) Q := by
  induction hindex generalizing axis extents Q with
  | nil =>
    unfold Build.writeAxes
    exact pure (h [] [] .nil)
  | @cons entry entry' index index' hentry _ ih =>
    cases extents with
    | nil =>
      unfold Build.writeAxes
      exact pure (h [] [] .nil)
    | cons extent extents =>
      have hrest : ∀ {first first' : WriteAxis}, L.MatchesAxis D first first' →
          L.Tandem D (do
              let rest ← Build.writeAxes (axis + 1) index extents
              return first :: rest)
            (do
              let rest ← Build.writeAxes (axis + 1) index' extents
              return first' :: rest) Q :=
        fun hfirst => bind (ih (axis + 1) (fun e he => hfixed e (List.mem_cons_of_mem _ he)) fun axes axes' haxes =>
          pure (h _ _ (.cons hfirst haxes)))
      have hextent := hfixed extent List.mem_cons_self
      unfold Build.writeAxes
      cases hentry with
      | «at» position => exact bind (requirePosition axis position extent (bind (pure (hrest (.at position)))))
      | gather h =>
        refine bind (requirePositions h fun hown => bind (pure ?_))
        obtain ⟨plan', rule', hplan, hpositions, hrule⟩ := h
        exact hrest (.gather hpositions (hrule hown))
      | all => exact bind (pure (hrest (.along hextent)))
      | slice start stop step =>
        dsimp only
        by_cases hcomplete : (Index.slice start stop step : Index Handle).isComplete = true
        · rw [if_pos hcomplete, if_pos hcomplete]
          exact bind (pure (hrest (.along hextent)))
        · rw [if_neg hcomplete, if_neg hcomplete]
          exact bind (throw rfl)

theorem requireFit (a : Handle) (region : List Extent) {Q : List NameKind → Unit → Unit → Prop} (h : Q D () ()) :
    L.Tandem D (Build.requireFit a region) (Build.requireFit a region) Q := by
  unfold Build.requireFit
  split
  · exact pure h
  · exact throw rfl

theorem writeValue (hvalue : L.MatchesOperand D value value') (elementType : ElementType) (region : List Extent)
    {Q : List NameKind → Operand Handle → Operand Handle → Prop} (h : ∀ v v', L.MatchesValue D v v' → Q D v v') :
    L.Tandem D (Build.writeValue elementType region value) (Build.writeValue elementType region value') Q := by
  cases hvalue with
  | literal value => exact bind (ofExcept fun value _ => pure (h _ _ (.literal value)))
  | @array a a' ha =>
    obtain ⟨plan', rule', hplan, hfixed, hrule⟩ := ha
    exact bind (requireOwn hplan fun hown => bind (requireFit a region (pure (h _ _ (.array (hrule hown))))))

theorem allocate {h : Handle} {plan' : Nat} {rule' : String} (hrule : L.Pairs D id h.rule rule') (hfixed : h.shape.Fixed) :
    L.Tandem D (Build.allocate h) (Build.allocate { h with plan := plan', rule := rule' }) fun D' => L.Pairs D' id := by
  refine bind (fresh fun array array' harray => bind (freshIndices fun vars vars' hvars => ?_))
  refine bind (invokeAt hrule.later.later hvars fun e e' he => bind (enqueue (fun f hf => ?_) (bind (addDomain (fun f hf => ?_)
    (bind (declare (fun f hf => ?_) hfixed (pure harray.later)))))))
  · rw [harray.later f hf, hvars f hf, he f hf, Statement.rename, Expr.rename, Expr.renameAll_eq_map, Expr.rename_vars]
    rfl
  · rw [hvars f hf]
    exact (Domain.box_zip_rename hf.injective vars hfixed).symm
  · rw [harray.later f hf]
    rfl

theorem targetIndex (haxes : List.Forall₂ (L.MatchesAxis D) axes axes')
    (hvars : List.Forall₂ (L.Pairs D id) vars vars') {Q : List NameKind → List Expr → List Expr → Prop}
    (h : ∀ es es', List.Forall₂ (L.Pairs D Expr.rename) es es' → Q D es es') :
    L.Tandem D (Build.targetIndex axes vars) (Build.targetIndex axes' vars') Q := by
  induction haxes generalizing vars vars' Q with
  | nil =>
    unfold Build.targetIndex
    exact pure (h [] [] .nil)
  | cons haxis _ ih =>
    unfold Build.targetIndex
    cases haxis with
    | «at» position => exact bind (ih hvars fun es es' hes => pure (h _ _ (.cons (fun _ _ => rfl) hes)))
    | along hfixed =>
      cases hvars with
      | nil => exact throw rfl
      | cons hvar hvars =>
        exact bind (ih hvars fun es es' hes => pure (h _ _ (.cons (fun f hf => congrArg Expr.var (hvar f hf)) hes)))
    | gather hfixed hrule =>
      cases hvars with
      | nil => exact throw rfl
      | cons hvar hvars =>
        refine bind (invokeAt hrule (fun f hf => congrArg (fun var => [var]) (hvar f hf)) fun e e' he => ?_)
        exact bind (ih hvars fun es es' hes => pure (h _ _ (.cons he hes)))

theorem valueAt (hvalue : L.MatchesValue D value value') (hvars : L.Pairs D List.map vars vars')
    {Q : List NameKind → Expr → Expr → Prop} (h : ∀ e e', L.Pairs D Expr.rename e e' → Q D e e') :
    L.Tandem D (Build.valueAt vars value) (Build.valueAt vars' value') Q := by
  cases hvalue with
  | literal value => exact pure (h _ _ fun f _ => (Expr.rename_toExpr value).symm)
  | array hrule =>
    have hempty : vars'.isEmpty = vars.isEmpty := by
      obtain ⟨f, hf⟩ := L.exists_carries D
      rw [hvars f hf]
      exact List.isEmpty_map
    unfold Build.valueAt
    rw [hempty]
    dsimp only
    split
    · exact invokeAtOrigin hrule h
    · exact invokeAt hrule hvars h

theorem enqueueStore (harray : L.Pairs D id array array') (haxes : List.Forall₂ (L.MatchesAxis D) axes axes')
    (hvalue : L.MatchesValue D value value') :
    L.Tandem D (Build.enqueueStore array axes value) (Build.enqueueStore array' axes' value') fun _ _ _ => True := by
  have hfixed := region_fixed haxes
  unfold Build.enqueueStore
  rw [region_eq haxes]
  refine bind (freshIndices fun vars vars' hvars => bind (addDomain (fun f hf => ?_) ?_))
  · rw [hvars f hf]
    exact (Domain.box_zip_rename hf.injective vars hfixed).symm
  have hle : D <+: D ++ List.replicate (WriteAxis.region axes).length .index := List.prefix_append ..
  refine bind (targetIndex (haxes.imp fun _ _ h => h.mono hle) (Pairs.forall₂ hvars) fun index index' hindex => ?_)
  refine bind (valueAt (hvalue.mono hle) hvars fun e e' he => enqueue (fun f hf => ?_) trivial)
  rw [harray.later f hf, hvars f hf, he f hf, Pairs.of_forall₂ hindex f hf, Statement.rename, Expr.rename,
    Expr.renameAll_eq_map]
  rfl

theorem write {a a' : Handle} (ha : L.Matches D a a') {index index' : List (Index Handle)}
    (hindex : List.Forall₂ (L.MatchesIndex D) index index') (hvalue : L.MatchesOperand D value value') :
    L.Tandem D (Build.write a index value) (Build.write a' index' value') L.Matches := by
  have hcount := @requireIndexCount _ _ _ _ _ _ ha hindex
  obtain ⟨plan', rule', hplan, hfixed, hrule⟩ := ha
  refine bind (requireOwn hplan fun hown => bind (hcount (bind (writeAxes 0 hindex hfixed fun axes axes' haxes => ?_))))
  have hrule := hrule hown
  rw [region_eq haxes]
  refine bind (writeValue hvalue _ _ fun v v' hv => bind (requireOpen (bind (get fun p q hpq => ?_))))
  have hbacked : ∀ f, L.Carries D f → q.backing.array? rule' = (p.backing.array? a.rule).map f := by
    intro f hf
    rw [(hpq.twin f hf).backing, hrule f hf]
    exact BackingTable.array?_rename hf.injective _ _
  obtain ⟨f₀, hf₀⟩ := L.exists_carries D
  cases harray : p.backing.array? a.rule with
  | some array =>
    rw [harray] at hbacked
    rw [hbacked f₀ hf₀]
    have hpair : L.Pairs D id array (f₀ array) := fun f hf =>
      Option.some.inj ((hbacked f₀ hf₀).symm.trans (hbacked f hf))
    refine bind ((enqueueStore hpair haxes hv).mono fun D' _ _ hle _ => pure ?_)
    exact .intro plan' rule' hplan hfixed fun _ => hrule.mono hle
  | none =>
    rw [harray] at hbacked
    rw [hbacked f₀ hf₀]
    refine bind ((allocate hrule hfixed).mono fun D₁ array array' hle harray => ?_)
    have hstore := enqueueStore harray (haxes.imp fun _ _ h => h.mono hle) (hv.mono hle)
    refine bind (hstore.mono fun D₂ _ _ hle' _ => bind (freshIndices fun params params' hparams => ?_))
    have hlater : D₁ <+: D₂ ++ List.replicate a.rank .index := hle'.trans (List.prefix_append ..)
    have harray := harray.mono hlater
    have hrule := (hrule.mono hle).mono hlater
    refine bind (define hparams (fun f hf => ?_) fun name name' hname => ?_)
    · rw [hparams f hf, harray f hf, Expr.rename, Expr.renameAll_eq_map, Expr.rename_vars]
      rfl
    · refine bind (back hname harray.later (bind (back hrule.later harray.later (pure ?_))))
      exact .intro plan' name' hplan hfixed fun _ => hname

end Writes

end Tandem

end Labelling

end ArrayPlan
