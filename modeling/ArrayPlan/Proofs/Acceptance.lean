import ArrayPlan.Proofs.Refinement

/-!
Which operations a plan accepts, and which names they draw. An operation whose checks pass succeeds, and the kinds of
names that it draws depend on ranks alone. Of two supplies, one stays behind the other as long as it draws no more: then
whatever name can be reserved in the other can be reserved in it.
-/

namespace ArrayPlan

namespace PerKind

theorem get_set {α : Type} (p : PerKind α) (kind other : NameKind) (value : α) :
    (p.set kind value).get other = if other = kind then value else p.get other := by
  cases kind <;> cases other <;> rfl

end PerKind

namespace NameSupply

/-- The first supply has given out no more than the second, which has given out all candidates up to its numbers. -/
structure Behind (s t : NameSupply) : Prop where
  stems : s.stems = t.stems
  next : ∀ kind, s.next.get kind ≤ t.next.get kind
  taken : ∀ name ∈ s.taken, name ∈ t.taken
  passed : ∀ kind n, n < t.next.get kind → candidate (t.stems.get kind) n ∈ t.taken

namespace Behind

variable {s t : NameSupply}

theorem ofStems (stems : PerKind String) : (NameSupply.ofStems stems).Behind (NameSupply.ofStems stems) where
  stems := rfl
  next _ := Nat.le_refl _
  taken _ h := h
  passed kind n h := by cases kind <;> exact absurd h (Nat.not_lt_zero n)

theorem passed_fresh (h : s.Behind t) (kind other : NameKind) {n : Nat} (hn : n < (t.fresh kind).2.next.get other) :
    candidate (t.stems.get other) n ∈ (t.fresh kind).2.taken := by
  have hnext : (t.fresh kind).2.next.get other =
      if other = kind then firstFree (t.stems.get kind) t.taken (t.next.get kind) + 1 else t.next.get other :=
    PerKind.get_set ..
  rw [hnext] at hn
  refine mem_insert_taken.2 ?_
  split at hn
  · rename_i hkind
    subst hkind
    rcases Nat.lt_or_ge n (t.next.get other) with hlt | hge
    · exact .inl (h.passed other n hlt)
    · rcases Nat.eq_or_lt_of_le (Nat.le_of_lt_succ hn) with rfl | hlt
      · exact .inr rfl
      · exact .inl (candidate_mem_of_lt_firstFree hge hlt)
  · exact .inl (h.passed other n hn)

theorem fresh_right (h : s.Behind t) (kind : NameKind) : s.Behind (t.fresh kind).2 where
  stems := h.stems
  next other := by
    have hnext : (t.fresh kind).2.next.get other =
        if other = kind then firstFree (t.stems.get kind) t.taken (t.next.get kind) + 1 else t.next.get other :=
      PerKind.get_set ..
    have hle := h.next other
    rw [hnext]
    split
    · rename_i hkind
      subst hkind
      have := le_firstFree (t.stems.get other) t.taken (t.next.get other)
      omega
    · exact hle
  taken name hname := mem_insert_taken.2 (.inl (h.taken name hname))
  passed other _ hn := h.passed_fresh kind other hn

theorem firstFree_le (h : s.Behind t) (kind : NameKind) :
    firstFree (s.stems.get kind) s.taken (s.next.get kind) ≤ firstFree (t.stems.get kind) t.taken (t.next.get kind) := by
  by_contra hlt
  have hmem : candidate (s.stems.get kind) (firstFree (t.stems.get kind) t.taken (t.next.get kind)) ∈ s.taken := by
    refine candidate_mem_of_lt_firstFree ?_ (Nat.lt_of_not_le hlt)
    exact Nat.le_trans (h.next kind) (le_firstFree ..)
  rw [h.stems] at hmem
  exact candidate_firstFree_not_mem _ _ _ (h.taken _ hmem)

theorem fresh (h : s.Behind t) (kind : NameKind) : (s.fresh kind).2.Behind (t.fresh kind).2 where
  stems := h.stems
  next other := by
    have hs : (s.fresh kind).2.next.get other =
        if other = kind then firstFree (s.stems.get kind) s.taken (s.next.get kind) + 1 else s.next.get other :=
      PerKind.get_set ..
    have ht : (t.fresh kind).2.next.get other =
        if other = kind then firstFree (t.stems.get kind) t.taken (t.next.get kind) + 1 else t.next.get other :=
      PerKind.get_set ..
    have hle := h.firstFree_le kind
    have hnext := h.next other
    rw [hs, ht]
    split <;> omega
  taken name hname := by
    rcases mem_insert_taken.1 hname with hname | rfl
    · exact mem_insert_taken.2 (.inl (h.taken name hname))
    · have hle := h.firstFree_le kind
      rw [h.stems]
      refine h.passed_fresh kind kind ?_
      have ht : (t.fresh kind).2.next.get kind = firstFree (t.stems.get kind) t.taken (t.next.get kind) + 1 :=
        (PerKind.get_set ..).trans (if_pos rfl)
      rw [ht, ← h.stems]
      exact Nat.lt_succ_of_le (h.stems ▸ hle)
  passed other _ hn := h.passed_fresh kind other hn

theorem draw {kinds kinds' : List NameKind} (hsub : kinds.Sublist kinds') (h : s.Behind t) :
    (s.draw kinds).Behind (t.draw kinds') := by
  induction hsub generalizing s t with
  | slnil => exact h
  | cons kind _ ih => exact ih (h.fresh_right kind)
  | cons_cons kind _ ih => exact ih (h.fresh kind)

theorem reserve {name : String} {t' : NameSupply} (h : s.Behind t) (ht : t.reserve? name = some t') :
    ∃ s', s.reserve? name = some s' ∧ s'.Behind t' := by
  unfold reserve? at ht
  split at ht
  · cases ht
  · rename_i hfree
    obtain ⟨hne, hunused⟩ := not_or.1 hfree
    cases ht
    refine ⟨_, if_neg (not_or.2 ⟨hne, fun hmem => hunused (h.taken name hmem)⟩), h.stems, h.next, fun other hother => ?_,
      fun kind n hn => mem_insert_taken.2 (.inl (h.passed kind n hn))⟩
    rcases mem_insert_taken.1 hother with hother | rfl
    · exact mem_insert_taken.2 (.inl (h.taken other hother))
    · exact mem_insert_taken.2 (.inr rfl)

end Behind

end NameSupply

namespace Build

/-- The step succeeds, with an outcome and a plan of which `Q` holds. -/
def Passes {α : Type} (step : Build α) (p : Plan) (Q : α → Plan → Prop) : Prop :=
  ∃ a p', step.runOn p = (.ok a, p') ∧ Q a p'

namespace Passes

variable {α β : Type} {p : Plan} {Q : α → Plan → Prop}

theorem pure {a : α} (h : Q a p) : Passes (pure a) p Q :=
  ⟨a, p, rfl, h⟩

theorem bind {step : Build β} {next : β → Build α} (h : Passes step p fun b p' => Passes (next b) p' Q) :
    Passes (step >>= next) p Q := by
  obtain ⟨b, p', hstep, a, p'', hnext, hQ⟩ := h
  exact ⟨a, p'', (runOn_bind hstep).trans hnext, hQ⟩

theorem mono {step : Build α} {Q' : α → Plan → Prop} (h : Passes step p Q') (himp : ∀ a p', Q' a p' → Q a p') :
    Passes step p Q := by
  obtain ⟨a, p', hrun, hQ⟩ := h
  exact ⟨a, p', hrun, himp a p' hQ⟩

theorem get {Q : Plan → Plan → Prop} (h : Q p p) : Passes get p Q :=
  ⟨p, p, rfl, h⟩

theorem ofExcept {x : Except PlanError α} {a : α} (hx : x = .ok a) (h : Q a p) : Passes (ofExcept x) p Q := by
  rw [hx]
  exact pure h

theorem requireOwn {a : Handle} {Q : Unit → Plan → Prop} (hown : a.plan = p.id) (h : Q () p) :
    Passes (requireOwn a) p Q :=
  ⟨(), p, runOn_requireOwn hown, h⟩

theorem requireOpen {Q : Unit → Plan → Prop} (hopen : p.finalized = false) (h : Q () p) :
    Passes requireOpen p Q := by
  unfold Build.requireOpen
  refine bind (get ?_)
  rw [hopen]
  exact pure h

theorem fresh {kind : NameKind} {Q : String → Plan → Prop}
    (h : Q (p.names.fresh kind).1 { p with names := p.names.draw [kind] }) : Passes (fresh kind) p Q :=
  ⟨_, _, rfl, h⟩

theorem freshIndices {n : Nat} {Q : List String → Plan → Prop}
    (h : ∀ vars, vars.length = n → Q vars { p with names := p.names.draw (List.replicate n .index) }) :
    Passes (freshIndices n) p Q := by
  refine ⟨_, _, rfl, ?_⟩
  rw [← NameSupply.draw_replicate]
  exact h _ (NameSupply.length_freshList .index n p.names)

theorem reserve {name : String} {names : NameSupply} {Q : Unit → Plan → Prop} (hnames : p.names.reserve? name = some names)
    (h : Q () { p with names }) : Passes (reserve name) p Q := by
  unfold Build.reserve
  refine bind (get ?_)
  rw [hnames]
  exact ⟨(), _, rfl, h⟩

theorem addDomain {d : Domain} {Q : Unit → Plan → Prop} (h : ∀ domains, Q () { p with domains }) :
    Passes (addDomain d) p Q := by
  refine ⟨(), _, rfl, ?_⟩
  split
  · exact h p.domains
  · exact h _

theorem enqueue {s : Statement} {Q : Unit → Plan → Prop} (h : ∀ pending, Q () { p with pending }) :
    Passes (enqueue s) p Q :=
  ⟨(), _, rfl, h _⟩

theorem declare {d : Declaration} {Q : Unit → Plan → Prop} (h : ∀ arrays, Q () { p with arrays }) :
    Passes (declare d) p Q :=
  ⟨(), _, rfl, h _⟩

theorem back {rule array : String} {Q : Unit → Plan → Prop} (h : ∀ backing, Q () { p with backing }) :
    Passes (back rule array) p Q :=
  ⟨(), _, rfl, h _⟩

theorem handle {rule : String} {shape : Shape} {elementType : ElementType} {layout : Layout}
    {Q : Handle → Plan → Prop} (h : ∀ a, Q a p) : Passes (handle rule shape elementType layout) p Q :=
  ⟨_, _, rfl, h _⟩

theorem define {params : List String} {body : Expr} {Q : String → Plan → Prop}
    (htaken : ∀ r ∈ p.rules.rules, r.name ∈ p.names.taken)
    (h : ∀ name rules, Q name { p with names := p.names.draw [.rule], rules }) : Passes (define params body) p Q := by
  unfold Build.define
  refine bind (fresh (bind ?_))
  have hnew : p.rules.contains (p.names.fresh .rule).1 = false := by
    simp only [RuleLog.contains, List.any_eq_false, decide_eq_true_eq]
    exact fun r hr hname => (NameSupply.fresh_draws p.names .rule).unused _ (by simp) (hname ▸ htaken r hr)
  unfold register
  refine bind (get ?_)
  simp only [RuleLog.push?, hnew]
  exact ⟨(), _, rfl, _, _, rfl, h _ _⟩

theorem invoke {rule : String} {args : List Expr} {Q : Expr → Plan → Prop} (htakes : p.Takes rule args.length)
    (h : ∀ e, Q e p) : Passes (invoke rule args) p Q := by
  obtain ⟨r, hr, harity⟩ := htakes
  unfold Build.invoke arityOf
  refine bind (bind (get ?_))
  rw [hr]
  refine pure ?_
  by_cases hzero : r.arity = 0
  · rw [if_pos hzero]
    exact pure (h _)
  · rw [if_neg hzero, if_pos (harity.resolve_right hzero)]
    exact pure (h _)

theorem invokeAt {rule : String} {vars : List String} {Q : Expr → Plan → Prop} (htakes : p.Takes rule vars.length)
    (h : ∀ e, Q e p) : Passes (invokeAt rule vars) p Q :=
  invoke (by rwa [List.length_map]) h

theorem invokeAtOrigin {rule : String} {count : Nat} {Q : Expr → Plan → Prop} (htakes : p.Takes rule count)
    (h : ∀ e, Q e p) : Passes (invokeAtOrigin rule) p Q := by
  obtain ⟨r, hr, _⟩ := htakes
  unfold Build.invokeAtOrigin arityOf
  refine bind (bind (get ?_))
  rw [hr]
  exact pure (pure (h _))

theorem shapeOf {extents : List Extent} {shape : Shape} {Q : Shape → Plan → Prop}
    (hshape : Shape.ofExtents extents = .ok shape) (h : Q shape p) : Passes (shapeOf extents) p Q :=
  ofExcept (by rw [hshape]; rfl) h

end Passes

end Build

def Plan.Accepts {α : Type} (p : Plan) (step : Build α) (kinds : List NameKind) : Prop :=
  Build.Passes step p fun _ p' => p'.names = p.names.draw kinds

def definitionKinds (vars : Nat) : List NameKind :=
  List.replicate vars .index ++ [.rule]

namespace Build.Passes

variable {p : Plan} {a b : Handle}

theorem taken_draw (hp : p.WellFormed) (kinds : List NameKind) : ∀ r ∈ p.rules.rules, r.name ∈ (p.names.draw kinds).taken := by
  suffices hall : ∀ (s : NameSupply) (name : String), name ∈ s.taken → name ∈ (s.draw kinds).taken from
    fun r hr => hall p.names r.name (hp.rules_taken r.name (List.mem_map_of_mem hr))
  induction kinds with
  | nil => exact fun _ _ hname => hname
  | cons kind kinds ih => exact fun s name hname => ih _ _ ((NameSupply.fresh_draws s kind).taken_mono hname)

theorem define_handle {q : Plan} {kinds : List NameKind} {params : List String} {body : Expr} {shape : Shape}
    {elementType : ElementType} {layout : Layout} (hp : p.WellFormed) (hnames : q.names = p.names.draw kinds)
    (hrules : q.rules = p.rules) :
    Passes (Build.define params body >>= fun rule => Build.handle rule shape elementType layout) q fun _ p' =>
      p'.names = p.names.draw (kinds ++ [.rule]) := by
  refine bind (define ?_ fun name rules => handle fun _ => ?_)
  · rw [hrules, hnames]
    exact taken_draw hp kinds
  · rw [NameSupply.draw_append, ← hnames]

theorem full (hp : p.WellFormed) (hopen : p.finalized = false) {extents : List Extent} {shape : Shape}
    (hshape : Shape.ofExtents extents = .ok shape) {value v : Literal} {elementType : ElementType}
    (hcast : value.cast elementType = .ok v) :
    p.Accepts (Build.full extents value elementType) (definitionKinds shape.rank) :=
  bind (shapeOf hshape (bind (ofExcept hcast (bind (requireOpen hopen
    (bind (freshIndices fun _ _ => define_handle hp rfl rfl)))))))

theorem range (hp : p.WellFormed) (hopen : p.finalized = false) {stop : Extent} {shape : Shape}
    (hshape : Shape.ofExtents [stop] = .ok shape) : p.Accepts (Build.range stop) (definitionKinds 1) :=
  bind (shapeOf hshape (bind (requireOpen hopen (bind (fresh (define_handle hp rfl rfl))))))

theorem declareInput {q : Plan} (hq : ∀ r ∈ q.rules.rules, r.name ∈ q.names.taken) (array : String) (shape : Shape)
    (elementType : ElementType) :
    q.Accepts (Build.declareInput array shape elementType) (definitionKinds shape.rank) := by
  refine bind (freshIndices fun vars _ => bind (define (fun r hr => ?_) fun rule rules =>
    bind (declare fun _ => bind (back fun _ => handle fun _ => ?_))))
  · rw [NameSupply.draw_replicate]
    exact (NameSupply.freshList_draws ..).taken_mono (hq r hr)
  · rw [definitionKinds, NameSupply.draw_append]

theorem input (hp : p.WellFormed) (hopen : p.finalized = false) {extents : List Extent} {shape : Shape}
    (hshape : Shape.ofExtents extents = .ok shape) (elementType : ElementType) :
    p.Accepts (Build.input extents elementType) (.array :: definitionKinds shape.rank) :=
  bind (shapeOf hshape (bind (requireOpen hopen (bind (fresh
    (declareInput (taken_draw hp [.array]) _ shape elementType))))))

theorem inputNamed (hp : p.WellFormed) (hopen : p.finalized = false) {name : String} {names : NameSupply}
    (hnames : p.names.reserve? name = some names) {extents : List Extent} {shape : Shape}
    (hshape : Shape.ofExtents extents = .ok shape) (elementType : ElementType) :
    Passes (Build.inputNamed name extents elementType) p fun _ p' =>
      p'.names = names.draw (definitionKinds shape.rank) := by
  refine bind (shapeOf hshape (bind (requireOpen hopen (bind (reserve hnames (declareInput (fun r hr => ?_) ..))))))
  exact (NameSupply.reserve?_draws hnames).taken_mono (hp.rules_taken r.name (List.mem_map_of_mem hr))

section Elementwise

variable (op : Operator)

theorem combineLiteral (hp : p.WellFormed) (hopen : p.finalized = false) (ha : p.Live a) (value : Literal)
    (literalFirst : Bool) :
    p.Accepts (Build.combineLiteral op a value literalFirst) (definitionKinds a.rank) :=
  bind (requireOwn ha.own (bind (requireOpen hopen (bind (freshIndices fun _ hlen =>
    bind (invokeAt (hlen ▸ ha.takes) fun _ => define_handle hp rfl rfl))))))

theorem combineEqual (hp : p.WellFormed) (hopen : p.finalized = false) (ha : p.Live a) (hb : p.Live b)
    (hshape : a.shape = b.shape) : p.Accepts (Build.combineEqual op a b) (definitionKinds a.rank) := by
  refine bind (requireOpen hopen (bind (freshIndices fun vars hlen => ?_)))
  have hlen' : vars.length = b.rank := by rw [hlen, Handle.rank, Handle.rank, hshape]
  exact bind (invokeAt (hlen ▸ ha.takes) fun _ => bind (invokeAt (hlen' ▸ hb.takes) fun _ => define_handle hp rfl rfl))

theorem combineRightUnit (hp : p.WellFormed) (hopen : p.finalized = false) (ha : p.Live a) (hb : p.Live b) :
    p.Accepts (Build.combineRightUnit op a b) (definitionKinds a.rank) :=
  bind (requireOpen hopen (bind (freshIndices fun _ hlen => bind (invokeAt (hlen ▸ ha.takes) fun _ =>
    bind (invokeAtOrigin hb.takes fun _ => define_handle hp rfl rfl)))))

theorem combineLeftUnit (hp : p.WellFormed) (hopen : p.finalized = false) (ha : p.Live a) (hb : p.Live b) :
    p.Accepts (Build.combineLeftUnit op a b) (definitionKinds b.rank) :=
  bind (requireOpen hopen (bind (freshIndices fun _ hlen => bind (invokeAtOrigin ha.takes fun _ =>
    bind (invokeAt (hlen ▸ hb.takes) fun _ => define_handle hp rfl rfl)))))

def spreadKinds (a : Handle) (common : Shape) : List NameKind :=
  if a.shape = common then [] else definitionKinds common.rank

theorem spread (hp : p.WellFormed) (hopen : p.finalized = false) (ha : p.Live a) {common : Shape}
    (hrank : a.rank ≤ common.rank) : p.Accepts (Build.spread a common) (spreadKinds a common) := by
  unfold Build.spread spreadKinds
  split
  · exact pure rfl
  · refine bind (requireOpen hopen (bind (freshIndices fun vars hlen => bind (invoke ?_ fun _ => define_handle hp rfl rfl))))
    have hargs : (Build.spreadIndex a.shape.extents (vars.drop (common.rank - a.rank))).length = a.rank := by
      simp only [Build.length_spreadIndex, List.length_drop, hlen, Handle.rank, Shape.rank] at hrank ⊢
      omega
    rw [hargs]
    exact ha.takes

def combineKinds (a b : Handle) : List NameKind :=
  if a.shape = b.shape then definitionKinds a.rank
  else if b.shape.isUnit then definitionKinds a.rank
  else if a.shape.isUnit then definitionKinds b.rank
  else match Shape.broadcast a.shape b.shape with
    | .error _ => []
    | .ok common => spreadKinds a common ++ spreadKinds b common ++ definitionKinds common.rank

theorem combineArrays (hp : p.WellFormed) (hopen : p.finalized = false) (ha : p.Live a) (hb : p.Live b)
    (hcommon : a.shape = b.shape ∨ b.shape = .unit ∨ a.shape = .unit ∨
      ∃ common, Shape.broadcast a.shape b.shape = .ok common) :
    p.Accepts (Build.combineArrays op a b) (combineKinds a b) := by
  refine bind (requireOwn ha.own (bind (requireOwn hb.own ?_)))
  unfold combineKinds
  split
  · rename_i hshape
    exact combineEqual op hp hopen ha hb hshape
  split
  · exact combineRightUnit op hp hopen ha hb
  split
  · exact combineLeftUnit op hp hopen ha hb
  rename_i hshape hbunit haunit
  obtain ⟨common, hbroadcast⟩ := ((hcommon.resolve_left hshape).resolve_left fun h => hbunit (beq_iff_eq.2 h)).resolve_left
    fun h => haunit (beq_iff_eq.2 h)
  rw [hbroadcast]
  have hrank := Shape.broadcast_rank hbroadcast
  have hranka : a.rank ≤ common.rank := hrank ▸ Nat.le_max_left ..
  have hrankb : b.rank ≤ common.rank := hrank ▸ Nat.le_max_right ..
  obtain ⟨left, p₁, hleft, hnames₁⟩ := spread hp hopen ha hranka
  have hspread := (Outcome.spread hp ha hranka fun _ => .refl p).of_runOn_ok hleft
  have hp₁ := hspread.wellFormed hp
  have hb₁ := hspread.live_of_live hb
  obtain ⟨right, p₂, hright, hnames₂⟩ := spread hp₁ (hspread.finalized_eq.trans hopen) hb₁ hrankb
  have hopen₁ : p₁.finalized = true → p.OnlyDraws p₁ := fun hfin => by
    rw [hspread.finalized_eq, hopen] at hfin
    cases hfin
  have hspread' := (Outcome.spread hp₁ hb₁ hrankb hopen₁).of_runOn_ok hright
  have hleft₂ := hspread'.live_of_live (hspread.live hp ha)
  obtain ⟨h, p₃, hequal, hnames₃⟩ := combineEqual op (hspread'.wellFormed hp₁)
    (hspread'.finalized_eq.trans (hspread.finalized_eq.trans hopen)) hleft₂ (hspread'.live hp₁ hb₁)
    (hspread.shape_eq.trans hspread'.shape_eq.symm)
  refine bind ⟨left, p₁, hleft, bind ⟨right, p₂, hright, h, p₃, hequal, ?_⟩⟩
  dsimp only
  rw [hnames₃, hnames₂, hnames₁, NameSupply.draw_append, NameSupply.draw_append, Handle.rank, hspread.shape_eq]

end Elementwise

theorem requirePosition {axis position : Nat} {extent : Extent} {Q : Unit → Plan → Prop}
    (hreadable : (Index.at position : Index Handle).Readable extent) (h : Q () p) :
    Passes (Build.requirePosition axis position extent) p Q := by
  unfold Build.requirePosition
  cases extent with
  | symbolic name => exact pure h
  | fixed length =>
    have hlt : position < length := hreadable
    dsimp only
    rw [if_neg (Nat.not_le.2 hlt)]
    exact pure h

theorem selectAxes (axis : Nat) {index : List (Index Handle)} {extents : List Extent}
    (hreadable : ∀ e ∈ index.zip extents, e.1.Readable e.2) (hlen : index.length = extents.length) :
    Passes (Build.selectAxes axis index extents) p fun _ p' =>
      p' = { p with names := p.names.draw (List.replicate (selectedExtents index extents).length .index) } := by
  induction index generalizing axis extents p with
  | nil =>
    cases extents with
    | cons _ _ => cases hlen
    | nil => exact pure rfl
  | cons entry index ih =>
    cases extents with
    | nil => cases hlen
    | cons extent extents =>
      have hhead := hreadable (entry, extent) List.mem_cons_self
      have htail : ∀ e ∈ index.zip extents, e.1.Readable e.2 := fun e he => hreadable e (List.mem_cons_of_mem _ he)
      have hslice : Passes (keepAxis axis index extent extents) p fun _ p' => p' = { p with
          names := p.names.draw (List.replicate ((selectedExtents index extents).length + 1) .index) } := by
        refine bind (fresh (bind ((ih (axis + 1) htail (Nat.succ.inj hlen)).mono ?_)))
        rintro r _ rfl
        exact pure rfl
      unfold Build.selectAxes
      cases entry with
      | «at» position =>
        refine bind (requirePosition hhead (bind ((ih (axis + 1) htail (Nat.succ.inj hlen)).mono ?_)))
        rintro r _ rfl
        exact pure rfl
      | gather positions => exact hhead.elim
      | all => exact hslice
      | slice first stop step =>
        have hcomplete : (Index.slice first stop step : Index Handle).isComplete = true := hhead
        dsimp only
        rw [if_pos hcomplete]
        exact hslice

theorem shapeOfKept {extents : List Extent} {Q : Shape → Plan → Prop} (hfaultless : ∀ e ∈ extents, e.fault? = none)
    (h : ∀ shape, Q shape p) : Passes (Build.shapeOfKept extents) p Q := by
  unfold Build.shapeOfKept
  cases extents with
  | nil => exact pure (h _)
  | cons e extents =>
    obtain ⟨shape, hshape⟩ := Shape.ofExtents_of_faultless (List.cons_ne_nil e extents) hfaultless
    exact shapeOf hshape (h shape)

theorem mem_of_selectedExtents {ref : Type} {index : List (Index ref)} {extents : List Extent} {e : Extent}
    (he : e ∈ selectedExtents index extents) : e ∈ extents := by
  induction index generalizing extents with
  | nil => cases extents <;> cases he
  | cons entry index ih =>
    cases extents with
    | nil => cases entry <;> cases he
    | cons extent extents =>
      cases entry with
      | «at» position => exact List.mem_cons_of_mem _ (ih he)
      | _ =>
        rcases List.mem_cons.1 he with rfl | he
        · exact List.mem_cons_self
        · exact List.mem_cons_of_mem _ (ih he)

theorem select (hp : p.WellFormed) (hopen : p.finalized = false) (ha : p.Live a) {index : List (Index Handle)}
    (hlen : index.length = a.rank) (hreadable : ∀ e ∈ index.zip a.shape.extents, e.1.Readable e.2) :
    p.Accepts (Build.select a index) (definitionKinds (selectedExtents index a.shape.extents).length) := by
  obtain ⟨r, q, hrun, hq⟩ := selectAxes (p := p) 0 hreadable hlen
  have hargs : r.1.length = a.rank ∧ ∀ v ∈ r.2, v.2 ∈ a.shape.extents := by
    obtain ⟨vars, names, rfl, hvars, _⟩ := (Outcome.selectAxes 0 index a.shape.extents hlen (.refl p)).of_runOn_ok hrun
    exact ⟨(length_selectedArgs hlen hvars).trans hlen, fun v hv => mem_of_selectedExtents (List.of_mem_zip hv).2⟩
  refine bind (requireOwn ha.own (bind ?_))
  unfold Build.requireIndexCount
  rw [if_pos hlen]
  refine pure (bind (requireOpen hopen (bind ⟨r, q, hrun, ?_⟩)))
  refine bind (shapeOfKept (fun e he => ?_) fun shape => bind (invoke ?_ fun _ => ?_))
  · obtain ⟨v, hv, rfl⟩ := List.mem_map.1 he
    exact a.shape.faultless _ (hargs.2 v hv)
  · rw [hargs.1, hq]
    exact ha.takes
  · exact define_handle hp (by rw [hq]) (by rw [hq])

theorem reshape (hp : p.WellFormed) (hopen : p.finalized = false) (ha : p.Live a) {extents : List Extent} {shape : Shape}
    (hshape : Shape.ofExtents extents = .ok shape) {lengths sourceLengths : List Nat}
    (hlengths : shape.lengths? = some lengths) (hsource : a.shape.lengths? = some sourceLengths)
    (hcount : elementCount lengths = elementCount sourceLengths) (layout : Layout) :
    p.Accepts (Build.reshape a extents layout) (definitionKinds lengths.length) := by
  refine bind (requireOwn ha.own (bind (shapeOf hshape ?_)))
  rw [hlengths, hsource]
  dsimp only
  rw [if_neg (not_not.2 hcount)]
  refine bind (requireOpen hopen (bind (freshIndices fun _ hlen => bind (invoke ?_ fun _ => define_handle hp rfl rfl))))
  rw [indexAtLine, List.length_map, List.length_zip, Layout.length_strides, Nat.min_self, Shape.length_of_lengths? hsource]
  exact ha.takes

theorem sum (hp : p.WellFormed) (hopen : p.finalized = false) (ha : p.Live a) {axes : Option (List Nat)}
    (haxes : ∀ axis ∈ axes.getD [], axis < a.rank) : p.Accepts (Build.sum a axes) (definitionKinds a.rank) := by
  refine bind (requireOwn ha.own (bind ?_))
  unfold Build.requireAxes
  have hnone : ((axes.getD []).find? fun axis => a.rank ≤ axis) = none := by
    rw [List.find?_eq_none]
    exact fun axis haxis => by simpa using haxes axis haxis
  rw [hnone]
  refine pure (bind (requireOpen hopen (bind (freshIndices fun vars hlen => bind (addDomain fun domains => ?_)))))
  rw [List.partition_eq_filter_filter]
  refine bind (invokeAt (hlen ▸ ha.takes) fun _ => bind (shapeOfKept (fun e he => ?_) fun shape => define_handle hp rfl rfl))
  obtain ⟨v, hv, rfl⟩ := List.mem_map.1 he
  have hmem : v.1 ∈ vars.zip a.shape.extents :=
    List.zipIdx_map_fst 0 (vars.zip a.shape.extents) ▸ List.mem_map_of_mem (List.mem_filter.1 hv).1
  exact a.shape.faultless _ (List.of_mem_zip hmem).2

theorem prefixSums (hp : p.WellFormed) (hopen : p.finalized = false) (ha : p.Live a) {extent : Extent}
    (hextents : a.shape.extents = [extent]) :
    p.Accepts (Build.prefixSums a) [.index, .index, .array, .index, .rule] := by
  have htakes : p.Takes a.rule 1 := by
    have htakes := ha.takes
    rwa [Handle.rank, Shape.rank, hextents] at htakes
  unfold Build.prefixSums
  rw [hextents]
  refine bind (requireOwn ha.own (bind (requireOpen hopen (bind (fresh (bind (fresh (bind (fresh ?_)))))))))
  refine bind (invokeAt htakes fun _ => bind (enqueue fun _ => bind (addDomain fun _ => bind (declare fun _ => ?_))))
  refine bind (fresh (bind (define ?_ fun _ _ => bind (back fun _ => handle fun _ => rfl))))
  exact taken_draw hp [.index, .index, .array, .index]

section Write

variable {index : List (Index Handle)} {value v : Operand Handle} {axes : List WriteAxis}

theorem requirePositions {positions : Handle} {Q : Unit → Plan → Prop} (hlive : p.Live positions)
    (hrank : positions.rank = 1) (hinteger : positions.elementType.isInteger = true) (h : Q () p) :
    Passes (Build.requirePositions positions) p Q := by
  refine bind (requireOwn hlive.own ?_)
  simp only [hrank, hinteger, ne_eq, not_true_eq_false, if_false, Bool.not_true, Bool.false_eq_true]
  exact pure h

theorem writeAxes (axis : Nat) {extents : List Extent} (hlen : index.length = extents.length)
    (hentries : ∀ e ∈ index.zip extents, p.Writable e.1 e.2) :
    Passes (Build.writeAxes axis index extents) p fun axes p' => p' = p ∧ axes = writtenAxes index extents := by
  induction index generalizing axis extents with
  | nil =>
    cases extents with
    | cons _ _ => cases hlen
    | nil => exact pure ⟨rfl, rfl⟩
  | cons entry index ih =>
    cases extents with
    | nil => cases hlen
    | cons extent extents =>
      have hhead : p.Writable entry extent := hentries (entry, extent) List.mem_cons_self
      have hrest := ih (axis + 1) (Nat.succ.inj hlen) fun e he => hentries e (List.mem_cons_of_mem _ he)
      have hcons : ∀ {first : WriteAxis},
          writtenAxes (entry :: index) (extent :: extents) = first :: writtenAxes index extents →
          Passes (do
            let rest ← Build.writeAxes (axis + 1) index extents
            return first :: rest) p fun axes p' => p' = p ∧ axes = writtenAxes (entry :: index) (extent :: extents) := by
        intro first haxes
        refine bind (hrest.mono ?_)
        rintro axes _ ⟨rfl, rfl⟩
        exact pure ⟨rfl, haxes.symm⟩
      unfold Build.writeAxes
      cases entry with
      | «at» position => exact bind (requirePosition hhead (bind (pure (hcons rfl))))
      | gather positions => exact bind (requirePositions hhead.1 hhead.2.1 hhead.2.2 (bind (pure (hcons rfl))))
      | all => exact bind (pure (hcons rfl))
      | slice first stop step =>
        have hcomplete : (Index.slice first stop step : Index Handle).isComplete = true := hhead
        dsimp only
        rw [if_pos hcomplete]
        exact bind (pure (hcons rfl))

theorem writeValue {elementType : ElementType} {region : List Extent} (hstored : p.Stored elementType region value v) :
    Passes (Build.writeValue elementType region value) p fun v' p' => p' = p ∧ v' = v := by
  cases hstored with
  | literal hcast => exact bind (ofExcept hcast (pure ⟨rfl, rfl⟩))
  | @array value hlive hfit =>
    refine bind (requireOwn hlive.own (bind ?_))
    have hcond : (value.shape.isUnit || (!region.isEmpty && value.shape.extents == region)) = true := by
      simpa [Shape.isUnit, List.isEmpty_iff] using hfit
    unfold requireFit
    rw [if_pos hcond]
    exact pure (pure ⟨rfl, rfl⟩)

theorem targetIndex {vars : List String} (hlen : vars.length = (WriteAxis.region axes).length)
    (hgathers : ∀ positions, .gather positions ∈ axes → p.Takes positions.rule 1) :
    Passes (Build.targetIndex axes vars) p fun _ p' => p' = p := by
  induction axes generalizing vars with
  | nil => exact pure rfl
  | cons axis axes ih =>
    have hrest := fun {vars} hlen => @ih vars hlen fun positions hpositions =>
      hgathers positions (List.mem_cons_of_mem _ hpositions)
    cases axis with
    | «at» position => exact bind ((hrest hlen).mono fun _ _ h => pure h)
    | along extent =>
      obtain ⟨var, vars, rfl, hrestLen⟩ := WriteAxis.exists_cons rfl hlen
      exact bind ((hrest hrestLen).mono fun _ _ h => pure h)
    | gather positions =>
      obtain ⟨var, vars, rfl, hrestLen⟩ := WriteAxis.exists_cons (WriteAxis.isSome_extent?_gather positions) hlen
      refine bind (@invokeAt _ _ [var] _ (hgathers positions List.mem_cons_self) fun _ => ?_)
      exact bind ((hrest hrestLen).mono fun _ _ h => pure h)

theorem valueAt {vars : List String} (htakes : ∀ a, v = .array a → p.Takes a.rule a.rank ∧
    (a.shape = .unit ∨ vars.length = a.rank)) : Passes (Build.valueAt vars v) p fun _ p' => p' = p := by
  cases v with
  | literal value => exact pure rfl
  | array a =>
    obtain ⟨htakes, hfit⟩ := htakes a rfl
    simp only [Build.valueAt]
    split
    · exact invokeAtOrigin htakes fun _ => rfl
    · rename_i hcond
      have hlen : vars.length = a.rank := hfit.resolve_left fun hunit => by simp [Shape.isUnit, hunit] at hcond
      exact invokeAt (hlen ▸ htakes) fun _ => rfl

theorem enqueueStore {q : Plan} {array : String} (hrules : q.rules = p.rules)
    (hgathers : ∀ positions, .gather positions ∈ axes → p.Takes positions.rule 1)
    (htakes : ∀ a, v = .array a → p.Takes a.rule a.rank ∧
      (a.shape = .unit ∨ (WriteAxis.region axes ≠ [] ∧ a.shape.extents = WriteAxis.region axes))) :
    Passes (Build.enqueueStore array axes v) q fun _ q' => q'.rules = p.rules ∧
      q'.names = q.names.draw (List.replicate (WriteAxis.region axes).length .index) := by
  refine bind (freshIndices fun vars hlen => bind (addDomain fun domains => ?_))
  generalize hq : ({ q with names := q.names.draw _, domains } : Plan) = q'
  have hrules' : q'.rules = p.rules := by rw [← hq, ← hrules]
  have htakes' : ∀ {rule count}, p.Takes rule count → q'.Takes rule count := by
    rintro rule count ⟨r, hr, harity⟩
    exact ⟨r, by rw [hrules', hr], harity⟩
  refine bind ((targetIndex hlen fun positions hpositions => htakes' (hgathers positions hpositions)).mono ?_)
  rintro _ _ rfl
  refine bind ((valueAt fun a ha => ?_).mono ?_)
  · obtain ⟨htakes, hfit⟩ := htakes a ha
    refine ⟨htakes' htakes, hfit.imp_right fun ⟨_, hextents⟩ => ?_⟩
    rw [hlen, ← hextents]
    rfl
  · rintro _ _ rfl
    exact enqueue fun _ => ⟨hrules', by rw [← hq]⟩

def writeKinds (p : Plan) (h : Handle) (region : Nat) : List NameKind :=
  if (p.backing.array? h.rule).isSome then List.replicate region .index
  else .array :: List.replicate h.rank .index ++ List.replicate region .index ++ definitionKinds h.rank

theorem write {h : Handle} (hp : p.WellFormed) (hopen : p.finalized = false) (hrequest : p.Request h index value axes v) :
    p.Accepts (Build.write h index value) (writeKinds p h (WriteAxis.region axes).length) := by
  refine bind (requireOwn hrequest.live.own (bind ?_))
  unfold requireIndexCount
  rw [if_pos hrequest.count]
  refine pure (bind ((writeAxes 0 hrequest.count hrequest.entries).mono ?_))
  rintro _ p ⟨rfl, rfl⟩
  rw [← hrequest.addressed]
  refine bind ((writeValue hrequest.value).mono ?_)
  rintro v p ⟨rfl, rfl⟩
  refine bind (requireOpen hopen (bind (get ?_)))
  unfold writeKinds
  cases hbacked : p.backing.array? h.rule with
  | some array =>
    refine bind ((enqueueStore rfl hrequest.gathers_take hrequest.value_takes).mono ?_)
    rintro _ q ⟨_, hnames⟩
    exact pure hnames
  | none =>
    refine bind (bind (fresh (bind (freshIndices fun vars hlen => bind (invokeAt (hlen ▸ hrequest.live.takes) fun _ => ?_)))))
    refine bind (enqueue fun _ => bind (addDomain fun _ => bind (declare fun _ => pure ?_)))
    refine bind ((enqueueStore (p := p) ?_ hrequest.gathers_take hrequest.value_takes).mono ?_)
    · rfl
    rintro _ q ⟨hrules, hnames⟩
    refine bind (freshIndices fun params hparams => bind (define ?_ fun rule rules => bind (back fun _ => bind (back fun _ => ?_))))
    · rw [hrules, hnames, ← NameSupply.draw_append, ← NameSupply.draw_append, ← NameSupply.draw_append]
      exact taken_draw hp _
    · refine pure ?_
      rw [hnames]
      simp only [Option.isSome_none, Bool.false_eq_true, if_false, definitionKinds, ← NameSupply.draw_append,
        ← List.append_assoc]
      rfl

end Write

end Build.Passes

end ArrayPlan
