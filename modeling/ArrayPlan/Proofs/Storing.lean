import ArrayPlan.Proofs.Expressing
import ArrayPlan.Proofs.Stores

/-!
Operations that follow a draft by declaring an array or queueing statements: inputs, prefix sums and writes. The rule
that loads from a new array has the elements of the array, and a queued statement does what its errand does.
-/

namespace ArrayPlan

open Interpretation

variable {α : Type} [Scalar α]

structure Draft.Gains (d d' : Draft α) (r : Drafted) (held : List Held) (queue : List (Errand α)) : Prop where
  values : d'.values = d.values ++ [.loaded r.lengths d.arrays.length]
  arrays : d'.arrays = d.arrays ++ [r.lengths]
  held : d'.held = d.held ++ held
  queue : d'.queue = d.queue ++ queue
  results : d'.results = d.results ++ [r]

namespace Plan

variable {N : Numbering} {p p' q : Plan} {d d' : Draft α} {places places' : List Nat} {parameters : Env}
  {domains : List Domain} {time index : Nat} {I : Interpretation α} {o : Oracle α} {a h : Handle} {r : Drafted}

theorem Outgrown.expresses_now (hg : Outgrown p d places p' d' places') (hplaced : ∀ j ∈ places, j < p.rules.size)
    {s : Statement} {x : Errand α} (hdue : x.due = places.length) {a : Declaration} {index : List Expr}
    (htarget : s.target = .load a.name index) (ha : p'.arrays[x.array]? = some a)
    (hdoes : ∀ parameters domains, p'.Surroundings N parameters domains →
      pointsOver domains s.within parameters = .ok (x.points.map (parameters.at s.within)) ∧
        ∀ I o, p.Circumstances d places parameters domains places.length p.rules.size I o → ∀ point ∈ x.points,
          I.position? index (parameters.at s.within point) = x.position o point ∧
            I.value? s.value (parameters.at s.within point) = x.element o point) :
    p'.Expresses N d' places' (p.rules.size, s) x where
  due := by
    obtain ⟨later, hlater⟩ := hg.places_eq
    rw [hdue, hlater, List.length_append]
    exact Nat.le_add_right _ _
  time k j hj := by
    obtain ⟨later, rfl, hlate⟩ := hg.places
    rw [hdue]
    rcases Nat.lt_or_ge k places.length with hk | hk
    · exact iff_of_true (hplaced j (List.mem_of_getElem? (getElem?_of_append_left ⟨later, rfl⟩ hk hj))) hk
    · rw [List.getElem?_append_right hk] at hj
      exact iff_of_false (Nat.not_lt.2 (hlate j (List.mem_of_getElem? hj))) (Nat.not_lt.2 hk)
  target := by
    refine ⟨a, index, htarget, ha, fun parameters domains hs => ?_⟩
    obtain ⟨hpoints, hvalues⟩ := hdoes parameters domains hs
    exact ⟨hpoints, fun I o hc => hvalues I o (hg.circumstances (Nat.le_refl _) (hdue ▸ hc))⟩

theorem Follows.declare {g : Growth} {issued params : List String} {declaration : Declaration} {held : List Held}
    {queue : List (Errand α)} (hf : p.Follows N d places) (hfits : g.Fits p issued) (hlive : (p.grow g).Live h)
    (harrays : g.arrays = [declaration])
    (hrule : g.rule = some ⟨h.rule, params, .load declaration.name (params.map .var)⟩) (hparams : params.Nodup)
    (hrank : params.length = h.rank) (hshape : declaration.shape = h.shape) (hd : d.Gains d' r held queue)
    (hvalue : r.value = d.values.length) (hlengths : h.shape.extents.map (Extent.under N.value) = r.lengths)
    (htype : h.elementType = r.elementType)
    (hlayout : (∀ e ∈ h.shape.extents, ∃ n, e = .fixed n) → h.layout = r.layout)
    (hused : N.Uses h.shape.extents)
    (hheld : List.Forall₂ (fun b x => b.2 = declaration.name ∧ x.array = d.arrays.length ∧ x.after = d.values.length ∧
      (b.1 = h.rule ∧ x.value = d.values.length ∨
        ∃ j rule, places[x.value]? = some j ∧ p.rules.rules[j]? = some rule ∧ rule.name = b.1)) g.backed held)
    (hqueue : Outgrown p d places (p.grow g) d' (places ++ [p.rules.size]) →
      (p.grow g).arrays[d.arrays.length]? = some declaration →
      List.Forall₂ (fun s x => (p.grow g).Expresses N d' (places ++ [p.rules.size]) (p.rules.size, s) x)
        g.statements queue)
    (hdomains : ∀ a ∈ g.domains, ∀ name ∈ a.parameters, N.used name) : Advanced N p d places h (p.grow g) d' := by
  have hrules : (p.grow g).rules.rules = p.rules.rules ++ [⟨h.rule, params, .load declaration.name (params.map .var)⟩] := by
    rw [grow, hrule]
    rfl
  have hnew : (p.grow g).rules.rules[p.rules.size]? =
      some ⟨h.rule, params, .load declaration.name (params.map .var)⟩ := by
    rw [hrules, RuleLog.size, List.getElem?_concat_length]
  have hplace : (places ++ [p.rules.size])[d.values.length]? = some p.rules.size := by
    rw [← hf.count, List.getElem?_concat_length]
  have harray : (p.grow g).arrays[d.arrays.length]? = some declaration := by
    rw [← hf.arrays.length_eq, grow, harrays, List.getElem?_concat_length]
  have hloaded : d'.values[d.values.length]? = some (.loaded r.lengths d.arrays.length) := by
    rw [hd.values, List.getElem?_concat_length]
  have hg : Outgrown p d places (p.grow g) d' (places ++ [p.rules.size]) :=
    ⟨extends_grow hfits, ⟨_, hd.values⟩, ⟨_, hd.arrays⟩, [p.rules.size], rfl, by simp⟩
  have hcount : params.length = r.lengths.length := by
    rw [hrank, ← hlengths, List.length_map]
    rfl
  refine ⟨_, r, hf.extend (hf.wellFormed.grow hfits) hg ?_ (List.pairwise_singleton _ _) ?_ ?_
    ⟨[declaration], [r.lengths], by rw [grow, harrays], hd.arrays, ?_⟩ ⟨_, held, rfl, hd.held, ?_⟩
    ⟨_, queue, rfl, hd.queue, ?_⟩ ⟨g.domains, rfl, hdomains⟩, hg, hd.results, ?_⟩
  · rw [List.length_append, hf.count, hd.values, List.length_append]
    rfl
  · simp [RuleLog.size, hrules]
  · intro k j rule v hk hj hrule' hv
    obtain rfl : k = places.length := by
      have hlt := (List.getElem?_eq_some_iff.1 hj).1
      rw [List.length_append, List.length_singleton] at hlt
      omega
    rw [hf.count] at hj hv
    obtain rfl := Option.some.inj (hplace.symm.trans hj)
    obtain rfl := Option.some.inj (hnew.symm.trans hrule')
    obtain rfl := Option.some.inj (hloaded.symm.trans hv)
    have hne : r.lengths ≠ [] := by
      rw [← hlengths]
      simpa using h.shape.extents_ne_nil
    refine ⟨hne, .inl hcount, fun parameters domains I o hs hc position hasked => ?_⟩
    have hbinds := Env.binds_at parameters hparams (hcount.trans hasked.length_eq.symm)
    rw [value?_load_eq, position?_vars_rounded hbinds, hasked.rounded_eq, Option.bind_some, hc.load _ _ harray]
    rfl
  · exact .cons ⟨hshape ▸ hlengths, hshape ▸ hused⟩ .nil
  · rw [List.forall₂_map_left_iff]
    refine hheld.imp ?_
    rintro b x ⟨hname, hxarray, hafter, hholder⟩
    refine ⟨?_, ⟨declaration, hxarray ▸ harray, hname.symm⟩, p.rules.size, hafter ▸ hplace, ?_⟩
    · rcases hholder with ⟨hb, hx⟩ | ⟨j, rule, hj, hrule', hrulename⟩
      · exact ⟨_, _, hx ▸ hplace, hnew, hb.symm⟩
      · exact ⟨j, rule, getElem?_of_append hg.places_eq hj, getElem?_of_append hg.plan.rules hrule', hrulename⟩
    · rw [hrule]
      simp [RuleLog.size]
  · rw [List.forall₂_map_left_iff]
    exact hqueue hg harray
  · exact ⟨hlive, ⟨_, _, hvalue ▸ hplace, hnew, rfl⟩, ⟨_, hvalue ▸ hloaded, rfl⟩, hlengths, htype, hlayout, hused⟩

theorem Follows.inputs {array : String} {shape : Shape} {elementType : ElementType} {vars : List String}
    (hf : p.Follows N d places) (hi : p.Inputs array shape elementType vars h p')
    (hused : N.Uses shape.extents) :
    Advanced N p d places h p' (d.declare (shape.extents.map (Extent.under N.value)) elementType) := by
  have hlive := (hi.advances hf.wellFormed).live
  have hshape : h.shape = shape := congrArg Handle.shape hi.handle
  have hvars : vars.Nodup := (List.nodup_cons.1 (List.nodup_append.1 hi.fits.draws.nodup).1).2
  rw [hi.grown] at hlive ⊢
  refine hf.declare hi.fits hlive rfl rfl hvars (by rw [hi.rank, Handle.rank, hshape]) hshape.symm
    ⟨rfl, rfl, rfl, (List.append_nil _).symm, rfl⟩ rfl (by rw [hshape]; rfl) (congrArg Handle.elementType hi.handle)
    (fun _ => congrArg Handle.layout hi.handle) (hshape ▸ hused) ?_ (fun _ _ => .nil) (by simp [inputGrowth])
  exact .cons ⟨rfl, rfl, rfl, .inl ⟨rfl, rfl⟩⟩ .nil

theorem Follows.input {extents : List Extent} {elementType : ElementType} (hf : p.Follows N d places)
    (hrun : (Build.input extents elementType).runOn p = (.ok h, p')) (hused : N.Uses extents) :
    Advanced N p d places h p' (d.declare (extents.map (Extent.under N.value)) elementType) := by
  obtain ⟨shape, array, vars, hshape, hi⟩ := (Build.Outcome.input hf.wellFormed extents elementType).of_runOn_ok hrun
  rw [← Shape.extents_of_ofExtents hshape] at hused ⊢
  exact hf.inputs hi hused

theorem Follows.inputNamed {name : String} {extents : List Extent} {elementType : ElementType}
    (hf : p.Follows N d places) (hrun : (Build.inputNamed name extents elementType).runOn p = (.ok h, p'))
    (hused : N.Uses extents) :
    Advanced N p d places h p' (d.declare (extents.map (Extent.under N.value)) elementType) := by
  obtain ⟨shape, vars, hshape, hi⟩ :=
    (Build.Outcome.inputNamed hf.wellFormed name extents elementType).of_runOn_ok hrun
  rw [← Shape.extents_of_ofExtents hshape] at hused ⊢
  exact hf.inputs hi hused

section PrefixSums

omit [Scalar α] in
theorem symbolic_of_mem_prefixSumDomain {i j name : String} {extent : Extent} (hij : i ≠ j)
    (hname : name ∈ (prefixSumDomain i j extent).parameters) : extent = .symbolic name := by
  obtain ⟨hmem, hnot⟩ := List.mem_filter.1 (List.mem_eraseDups.1 hname)
  obtain ⟨c, hc, hterm⟩ := List.mem_flatMap.1 hmem
  have hnot : name ≠ i ∧ name ≠ j := by simpa [Build.Outcome.vars_prefixSumDomain] using hnot
  obtain rfl | rfl | rfl | rfl := mem_prefixSumDomain.1 hc
  · exact absurd (by simpa [Domain.form_lower] using hterm) hnot.1
  · exact Domain.symbolic_of_mem_upper hnot.1 hterm
  · exact absurd (by simpa [Domain.form_lower] using hterm) hnot.2
  · rw [(form_le_vars hij).1] at hterm
    simp [hnot] at hterm

variable [ExactOrigin α] [StableIndices α]

theorem Circumstances.value?_prefixSums (hf : p.Follows N d places) (ha : p.Renders N d places a r)
    (hc : p.Circumstances d places parameters domains places.length index I o) {i j : String} {n : Nat}
    (hlengths : r.lengths = [n]) {x : Int} (hx : 0 ≤ x ∧ x < span n)
    (hboxed : Boxed domains (parameters.bind i x) [j] [x.toNat + 1]) :
    I.value? (.sum [j] (p.callOf a.rule [.var j])) (parameters.bind i x) =
      (boxPoints [x.toNat + 1]).foldlM
        (fun total place => (o.value r.value (rounded α place)).map (Scalar.add total)) Scalar.zero := by
  rw [Interpretation.value?, hc.points, pointsOver_of_boxed hboxed, Except.toOption, Option.bind_some, List.foldlM_map]
  refine foldlM_congr_of_mem (fun place hplace total => ?_) _
  have hin := mem_boxPoints.1 hplace
  obtain ⟨y, rfl⟩ := List.length_eq_one_iff.1 hin.length_eq
  have hbinds : ((parameters.bind i x).at [j] [y]).Binds [j] [y] := Env.binds_at _ (List.nodup_singleton j) rfl
  have hasked : Asked α r.lengths (rounded α [y]) := by
    rw [hlengths]
    exact Asked.of_inBox ⟨⟨hin.1.1, by have := hin.1.2; omega⟩, trivial⟩
  rw [show ([.var j] : List Expr) = [j].map .var from rfl,
    hc.value?_callOf hf.wellFormed ha (ha.lt hf.count) (position?_vars_rounded hbinds) hasked]

theorem Follows.prefixSums (hf : p.Follows N d places) (ha : p.Renders N d places a r)
    (hrun : (Build.prefixSums a).runOn p = (.ok h, p')) :
    Advanced N p d places h p' (d.prefixSums r) := by
  obtain ⟨extent, array, i, j, t, hs⟩ := (Build.Outcome.prefixSums hf.wellFormed fun _ => ha.live).of_runOn_ok hrun
  have hlive := (hs.advances hf.wellFormed).live
  have hshape : h.shape = a.shape := by rw [hs.handle]
  have hextents := hs.extents
  have hlengths : r.lengths = [extent.under N.value] := by rw [← ha.lengths, hextents]; rfl
  have hij : i ≠ j := (List.nodup_cons.1 hs.fits.draws.nodup).1 ∘ fun heq => by simp [heq]
  have haxis : N.Covers extent :=
    ha.used extent (by rw [hextents]; exact List.mem_singleton_self extent)
  rw [hs.grown] at hlive ⊢
  refine hf.declare (r := ⟨d.values.length, r.lengths, r.elementType, .rowMajor⟩) hs.fits hlive rfl rfl
    (List.nodup_singleton t) (by rw [Handle.rank, hshape, Shape.rank, hextents]; rfl) hshape.symm
    ⟨rfl, rfl, rfl, rfl, ?_⟩ rfl (by rw [hshape]; exact ha.lengths) ?_ (fun _ => by rw [hs.handle])
    (hshape ▸ ha.used)
    (.cons ⟨rfl, rfl, rfl, .inl ⟨rfl, rfl⟩⟩ .nil) (fun hg harray => .cons ?_ .nil) ?_
  · rfl
  · rw [hs.handle]
    exact ha.elementType
  · refine hg.expresses_now hf.placed hf.count.symm rfl harray fun parameters domains hsur => ?_
    have hdomain : prefixSumDomain i j extent ∈ domains :=
      hsur.mem _ (List.mem_append_right p.domains List.mem_cons_self)
    have hvars : (prefixSumDomain i j extent).vars = [i, j] := Build.Outcome.vars_prefixSumDomain i j extent
    have hsame : ∀ name, name ∉ domains.flatMap Domain.vars → parameters.value? name = parameters.value? name := fun _ _ => rfl
    have hcounts := hsur.counts hdomain (v := i) (by simp [hvars]) (mem_prefixSumDomain.2 (.inr (.inl rfl))) haxis hsame
    rw [hvars] at hcounts
    have hfree : ∀ v ∈ [i, j], parameters.value? v = none := fun v hv =>
      hsur.free v (List.mem_flatMap.2 ⟨_, hdomain, hvars ▸ hv⟩)
    obtain ⟨houter, hinner⟩ := boxed_prefixSum hij (ownerOf_of_mem hsur.nodup hdomain (by simp [hvars]))
      (ownerOf_of_mem hsur.nodup hdomain (by simp [hvars])) hcounts (hfree i (by simp)) (hfree j (by simp))
    dsimp only [Errand.prefixSums]
    rw [hlengths]
    refine ⟨pointsOver_of_boxed houter, fun I o hc point hpoint => ?_⟩
    have hin := mem_boxPoints.1 hpoint
    obtain ⟨x, rfl⟩ := List.length_eq_one_iff.1 hin.length_eq
    refine ⟨position?_vars_rounded (Env.binds_at parameters (List.nodup_singleton i) rfl), ?_⟩
    have hx : 0 ≤ x ∧ x < (span (extent.under N.value) : Int) := hin.1
    refine hc.value?_prefixSums hf ha hlengths hx (hinner x hx.1 ?_)
    rw [← N.toNat_bound] at hx
    omega
  · intro dom hdom
    obtain rfl := List.mem_singleton.1 hdom
    exact fun name hname => haxis.used (symbolic_of_mem_prefixSumDomain hij hname)

end PrefixSums

section Holding

omit [Scalar α] in
theorem lookup_eq_of_forall₂ {R : String × BackingEntry → Held → Prop} {entries : List (String × BackingEntry)}
    {held : List Held} {name : String} {k : Nat} (h : List.Forall₂ R entries held)
    (hsame : ∀ e x, R e x → (e.1 = name ↔ x.value = k)) :
    (entries.lookup name = none ∧ held.find? (fun x => x.value = k) = none) ∨
      ∃ e x, R e x ∧ e.1 = name ∧ x.value = k ∧ entries.lookup name = some e.2 ∧
        held.find? (fun x => x.value = k) = some x := by
  induction h with
  | nil => exact .inl ⟨rfl, rfl⟩
  | @cons e x entries held hex _ ih =>
    by_cases hname : e.1 = name
    · have hk := (hsame e x hex).1 hname
      refine .inr ⟨e, x, hex, hname, hk, ?_, by rw [List.find?_cons_of_pos (by simpa using hk)]⟩
      subst hname
      exact List.lookup_cons_self
    · have hk : x.value ≠ k := fun hk => hname ((hsame e x hex).2 hk)
      have hne : (name == e.1) = false := beq_eq_false_iff_ne.2 (Ne.symm hname)
      rw [List.find?_cons_of_neg (by simpa using hk), List.lookup_cons, hne]
      exact ih

theorem Follows.name_eq_iff (hf : p.Follows N d places) {k k' j j' : Nat} {rule rule' : Rule} (hj : places[k]? = some j)
    (hrule : p.rules.rules[j]? = some rule) (hj' : places[k']? = some j') (hrule' : p.rules.rules[j']? = some rule') :
    rule'.name = rule.name ↔ k' = k := by
  constructor
  · intro hname
    have hnames : (ruleNames p.rules.rules)[j']? = (ruleNames p.rules.rules)[j]? := by
      rw [ruleNames, List.getElem?_map, List.getElem?_map, hrule', hrule, Option.map_some, hname]
      rfl
    have hlt := (List.getElem?_eq_some_iff.1 hrule').1
    obtain rfl : j' = j := (List.getElem?_inj (by simpa [ruleNames] using hlt) hf.wellFormed.rules_nodup).1 hnames
    exact (List.getElem?_inj (List.getElem?_eq_some_iff.1 hj').1 (hf.increasing.imp Nat.ne_of_lt)).1 (hj'.trans hj.symm)
  · rintro rfl
    obtain rfl := Option.some.inj (hj.symm.trans hj')
    rw [Option.some.inj (hrule.symm.trans hrule')]

theorem Follows.array?_eq (hf : p.Follows N d places) (ha : p.Renders N d places a r) :
    (p.backing.array? a.rule = none ∧ d.arrayOf? r.value = none) ∨ ∃ n declaration,
      p.arrays[n]? = some declaration ∧ p.backing.array? a.rule = some declaration.name ∧
        d.arrayOf? r.value = some n := by
  obtain ⟨j, rule, hj, hrule, hname⟩ := ha.rule
  rcases @lookup_eq_of_forall₂ _ _ _ a.rule r.value hf.held fun e x hshows => by
    obtain ⟨j', rule', hj', hrule', hname'⟩ := hshows.rule
    rw [← hname', ← hname]
    exact hf.name_eq_iff hj hrule hj' hrule' with ⟨hlookup, hfind⟩ | ⟨e, x, hshows, _, _, hlookup, hfind⟩
  · exact .inl ⟨by rw [BackingTable.array?, BackingTable.find?, hlookup]; rfl, by rw [Draft.arrayOf?, hfind]; rfl⟩
  · obtain ⟨declaration, harray, hsame⟩ := hshows.array
    exact .inr ⟨x.array, declaration, harray, by rw [BackingTable.array?, BackingTable.find?, hlookup, hsame]; rfl,
      by rw [Draft.arrayOf?, hfind]; rfl⟩

end Holding

section Writing

inductive RendersIndex (N : Numbering) (p : Plan) (d : Draft α) (places : List Nat) : Index Handle → Index Drafted → Prop
  | at (position : Nat) : RendersIndex N p d places (.at position) (.at position)
  | all : RendersIndex N p d places .all .all
  | slice (start stop step : Option Int) :
    RendersIndex N p d places (.slice start stop step) (.slice start stop step)
  | gather {a : Handle} {r : Drafted} (ha : p.Renders N d places a r) :
    RendersIndex N p d places (.gather a) (.gather r)

inductive RendersOperand (N : Numbering) (p : Plan) (d : Draft α) (places : List Nat) :
    Operand Handle → Operand Drafted → Prop
  | literal (value : Literal) : RendersOperand N p d places (.literal value) (.literal value)
  | array {a : Handle} {r : Drafted} (ha : p.Renders N d places a r) :
    RendersOperand N p d places (.array a) (.array r)

variable {entry : Index Handle} {entries : List (Index Handle)} {drafted : List (Index Drafted)} {extents : List Extent}

omit [Scalar α] in
theorem head_extents_of_rank {s : Shape} (hrank : s.rank = 1) : ∃ e, s.extents = [e] :=
  List.length_eq_one_iff.1 hrank

omit [Scalar α] in
theorem region_under (hentries : List.Forall₂ (p.RendersIndex N d places) entries drafted)
    (hwritable : ∀ e ∈ entries.zip extents, p.Writable e.1 e.2) :
    (WriteAxis.region (writtenAxes entries extents)).map (Extent.under N.value) =
      Errand.region drafted (extents.map (Extent.under N.value)) := by
  induction hentries generalizing extents with
  | nil => cases extents <;> rfl
  | @cons entry x entries drafted hx _ ih =>
    cases extents with
    | nil => cases hx <;> rfl
    | cons e extents =>
      have hrest := ih fun e he => hwritable e (List.mem_cons_of_mem _ he)
      cases hx with
      | «at» position => exact hrest
      | all => exact congrArg (e.under N.value :: ·) hrest
      | slice start stop step => exact congrArg (e.under N.value :: ·) hrest
      | @gather a r ha =>
        obtain ⟨_, hrank, _⟩ := hwritable _ List.mem_cons_self
        obtain ⟨f, hextents⟩ := head_extents_of_rank hrank
        have hlengths : r.lengths = [f.under N.value] := by rw [← ha.lengths, hextents]; rfl
        have hregion : WriteAxis.region (writtenAxes (.gather a :: entries) (e :: extents)) =
            f :: WriteAxis.region (writtenAxes entries extents) := by
          rw [writtenAxes, WriteAxis.region, List.filterMap_cons_some (b := f) (by rw [WriteAxis.extent?, hextents]; rfl)]
          rfl
        rw [hregion, List.map_cons, hrest, List.map_cons, Errand.region, hlengths]
        rfl

omit [Scalar α] in
theorem used_of_region (hentries : List.Forall₂ (p.RendersIndex N d places) entries drafted)
    (hused : N.Uses extents) : N.Uses (WriteAxis.region (writtenAxes entries extents)) := by
  induction hentries generalizing extents with
  | nil => cases extents <;> exact fun e he => nomatch he
  | @cons entry x entries drafted hx _ ih =>
    cases extents with
    | nil => cases hx <;> exact fun e he => nomatch he
    | cons f extents =>
      have hrest := ih fun e he => hused e (List.mem_cons_of_mem _ he)
      have hfirst := hused f List.mem_cons_self
      cases hx with
      | «at» position => exact hrest
      | all => exact List.forall_mem_cons.2 ⟨hfirst, hrest⟩
      | slice start stop step => exact List.forall_mem_cons.2 ⟨hfirst, hrest⟩
      | @gather a r ha =>
        intro e he
        obtain ⟨axis, haxis, hextent⟩ := List.mem_filterMap.1 he
        rcases List.mem_cons.1 haxis with rfl | haxis
        · exact ha.used e (List.mem_of_mem_head? hextent)
        · exact hrest e (List.mem_filterMap.2 ⟨axis, haxis, hextent⟩)

variable [ExactOrigin α] [StableIndices α]

theorem Circumstances.position?_targetArgs (hf : p.Follows N d places)
    (hc : p.Circumstances d places parameters domains places.length index I o)
    (hentries : List.Forall₂ (p.RendersIndex N d places) entries drafted)
    (hwritable : ∀ e ∈ entries.zip extents, p.Writable e.1 e.2) (hlen : entries.length = extents.length)
    {vars : List String} {point : List Int} {env : Env} (hbinds : env.Binds vars point)
    (hpoint : InBox point ((Errand.region drafted (extents.map (Extent.under N.value))).map span)) :
    I.position? (p.targetArgs (writtenAxes entries extents) vars) env = Errand.addressed o drafted point := by
  induction hentries generalizing extents vars point with
  | nil =>
    cases extents with
    | nil => rfl
    | cons _ _ => cases hlen
  | @cons entry x entries drafted hx _ ih =>
    cases extents with
    | nil => cases hlen
    | cons e extents =>
      have hrest := fun {vars point} => @ih extents (fun e he => hwritable e (List.mem_cons_of_mem _ he))
        (Nat.succ.inj hlen) vars point
      have halong : ∀ {i : Int} {v : String}, env.value? v = some i → ∀ {vars point}, env.Binds vars point →
          InBox point ((Errand.region drafted (extents.map (Extent.under N.value))).map span) →
            I.position? (.var v :: p.targetArgs (writtenAxes entries extents) vars) env =
              (Errand.addressed o drafted point).map (Scalar.toIndex (Scalar.ofInt i : α) :: ·) := by
        intro i v hv vars point hbinds hpoint
        rw [position?_cons_eq, value?_var hv, Option.bind_some, hrest hbinds hpoint]
      cases hx with
      | «at» position =>
        rw [writtenAxes, targetArgs, position?_cons_eq, hrest hbinds hpoint]
        rfl
      | all =>
        cases hbinds with
        | nil => exact hpoint.elim
        | cons hv hbinds => exact halong hv hbinds hpoint.2
      | slice start stop step =>
        cases hbinds with
        | nil => exact hpoint.elim
        | cons hv hbinds => exact halong hv hbinds hpoint.2
      | @gather a r ha =>
        obtain ⟨_, hrank, _⟩ := hwritable _ List.mem_cons_self
        obtain ⟨f, hextents⟩ := head_extents_of_rank hrank
        have hlengths : r.lengths = [f.under N.value] := by rw [← ha.lengths, hextents]; rfl
        cases hbinds with
        | nil => exact hpoint.elim
        | @cons v i vars point hv hbinds =>
          have hin : InBox [i] (r.lengths.map span) := by
            rw [hlengths]
            have hfirst := hpoint.1
            rw [hlengths] at hfirst
            exact ⟨hfirst, trivial⟩
          have hargs : I.position? [.var v] env = some (rounded α [i]) :=
            position?_vars_rounded (.cons hv .nil)
          rw [writtenAxes, targetArgs, position?_cons_eq, hrest hbinds hpoint.2,
            hc.value?_callOf hf.wellFormed ha (ha.lt hf.count) hargs (Asked.of_inBox hin)]
          rfl

theorem Circumstances.value?_storedValue (hf : p.Follows N d places)
    (hc : p.Circumstances d places parameters domains places.length index I o) {value v : Operand Handle}
    {value' : Operand Drafted} (hvalue : p.RendersOperand N d places value value') {elementType : ElementType}
    {region : List Extent} (hstored : p.Stored elementType region value v) {vars : List String} {point : List Int}
    {env : Env} (hlen : vars.length = region.length) (hbinds : env.Binds vars point)
    (hpoint : InBox point ((region.map (Extent.under N.value)).map span)) :
    I.value? (p.storedValue vars v) env = Errand.written elementType o point value' := by
  cases hstored with
  | literal hcast =>
    cases hvalue
    rw [storedValue, value?_toExpr, Errand.written, Literal.numberAs, hcast]
  | @array value hlive hfit =>
    cases hvalue with
    | @array _ r ha =>
      rw [storedValue, Errand.written]
      by_cases hunit : value.shape = .unit
      · have hone := ha.lengths_unit hunit
        rw [if_pos (by simp [Shape.isUnit, hunit]), if_pos hone,
          hc.value?_callAtOrigin hf.wellFormed ha (ha.lt hf.count) hone]
      · obtain ⟨hne, hextents⟩ := hfit.resolve_left hunit
        have hvars : vars ≠ [] := fun hnil => hne (List.length_eq_zero_iff.1 (by rw [← hlen, hnil]; rfl))
        have hasked : Asked α r.lengths (rounded α point) := by
          rw [← ha.lengths, hextents]
          exact Asked.of_inBox hpoint
        rw [if_neg (by simp [Shape.isUnit, hunit, hvars]),
          hc.value?_callOf hf.wellFormed ha (ha.lt hf.count) (position?_vars_rounded hbinds) hasked]
        split
        · rename_i hone
          rw [hone] at hasked
          rw [hasked.of_unit]
        · rfl

variable {value v : Operand Handle} {value' : Operand Drafted} {vars : List String} {array : String} {axes : List WriteAxis}

/-- A queued store does what the errand of the write does. -/
theorem Outgrown.expresses_write (hf : p.Follows N d places) (hg : Outgrown p d places p' d' places')
    (ha : p.Renders N d places a r) (hrequest : p.Request a entries value axes v)
    (hentries : List.Forall₂ (p.RendersIndex N d places) entries drafted)
    (hvalue : p.RendersOperand N d places value value') (hlen : vars.length = (WriteAxis.region axes).length)
    (hnodup : vars.Nodup) {n : Nat} {declaration : Declaration} (harray : p'.arrays[n]? = some declaration)
    (hname : declaration.name = array)
    (hdomains : ∀ dom ∈ regionDomains vars (WriteAxis.region axes), dom ∈ p'.domains) :
    p'.Expresses N d' places' (p.rules.size, p.storeOf array axes v vars) (.write d.values.length n r drafted value') := by
  obtain ⟨hlive, hcount, hwritable, rfl, hstored⟩ := hrequest
  have hregion := region_under hentries hwritable
  rw [ha.lengths] at hregion
  refine hg.expresses_now hf.placed hf.count.symm (a := declaration) (by rw [storeOf, hname]) harray
    fun parameters domains hs => ⟨?_, fun I o hc point hpoint => ?_⟩
  · rw [storeOf, Errand.write, ← hregion]
    by_cases hnil : vars = []
    · have hnone : WriteAxis.region (writtenAxes entries a.shape.extents) = [] :=
        List.length_eq_zero_iff.1 (by rw [← hlen, hnil]; rfl)
      rw [hnone, hnil]
      rfl
    · refine hs.pointsOver_box hlen (hs.mem _ (hdomains _ ?_)) (used_of_region hentries ha.used)
      rw [regionDomains, if_neg (by simpa using hnil)]
      exact List.mem_singleton_self _
  · have hin : InBox point ((Errand.region drafted r.lengths).map span) := mem_boxPoints.1 hpoint
    have hbinds : (parameters.at vars point).Binds vars point := by
      refine Env.binds_at parameters hnodup ?_
      rw [hlen, hin.length_eq, List.length_map, ← hregion, List.length_map]
    refine ⟨hc.position?_targetArgs hf hentries hwritable hcount hbinds (ha.lengths ▸ hin), ?_⟩
    rw [show (Errand.write d.values.length n r drafted value').element o point =
      Errand.written r.elementType o point value' from rfl, ← ha.elementType]
    exact hc.value?_storedValue hf hvalue hstored hlen hbinds (hregion ▸ hin)

theorem Outgrown.expresses_copy (hf : p.Follows N d places) (hg : Outgrown p d places p' d' places')
    (ha : p.Renders N d places a r) (hlen : vars.length = a.rank) (hnodup : vars.Nodup) {n : Nat}
    {declaration : Declaration} (harray : p'.arrays[n]? = some declaration) (hname : declaration.name = array)
    (hdomain : .box (vars.zip a.shape.extents) ∈ p'.domains) :
    p'.Expresses N d' places' (p.rules.size, p.copyOf a array vars) (.copy d.values.length n r) := by
  refine hg.expresses_now hf.placed hf.count.symm (a := declaration) (by rw [copyOf, hname]) harray
    fun parameters domains hs => ⟨?_, fun I o hc point hpoint => ?_⟩
  · rw [copyOf, Errand.copy, ← ha.lengths]
    exact hs.pointsOver_box hlen (hs.mem _ hdomain) ha.used
  · have hin : InBox point (r.lengths.map span) := mem_boxPoints.1 hpoint
    have hbinds : (parameters.at vars point).Binds vars point := by
      refine Env.binds_at parameters hnodup ?_
      rw [hlen, hin.length_eq, List.length_map, ha.rank_eq]
    exact ⟨position?_vars_rounded hbinds, hc.value?_callOf hf.wellFormed ha (ha.lt hf.count)
      (position?_vars_rounded hbinds) (Asked.of_inBox hin)⟩

omit [Scalar α] [ExactOrigin α] [StableIndices α] in
theorem renders_of_gather (hentries : List.Forall₂ (p.RendersIndex N d places) entries drafted) {positions : Handle}
    (hpositions : .gather positions ∈ entries) : ∃ r, p.Renders N d places positions r := by
  induction hentries with
  | nil => cases hpositions
  | cons hx _ ih =>
    rcases List.mem_cons.1 hpositions with rfl | hpositions
    · cases hx with
      | gather ha => exact ⟨_, ha⟩
    · exact ih hpositions

omit [Scalar α] [ExactOrigin α] [StableIndices α] in
theorem used_of_regionDomains (ha : p.Renders N d places a r)
    (hentries : List.Forall₂ (p.RendersIndex N d places) entries drafted) (vars : List String) :
    ∀ dom ∈ regionDomains vars (WriteAxis.region (writtenAxes entries a.shape.extents)), ∀ name ∈ dom.parameters,
      N.used name := by
  intro dom hdom
  rw [regionDomains] at hdom
  split at hdom
  · cases hdom
  · obtain rfl := List.mem_singleton.1 hdom
    exact used_of_box (used_of_region hentries ha.used) vars

theorem Follows.write (hf : p.Follows N d places) (ha : p.Renders N d places a r)
    (hentries : List.Forall₂ (p.RendersIndex N d places) entries drafted)
    (hvalue : p.RendersOperand N d places value value')
    (hrun : (Build.write a entries value).runOn p = (.ok h, p')) : Advanced N p d places h p' (d.write r drafted value') := by
  have hgathers : ∀ positions, .gather positions ∈ entries → positions.plan = p.id → p.Live positions := by
    intro positions hpositions _
    obtain ⟨_, hrenders⟩ := renders_of_gather hentries hpositions
    exact hrenders.live
  have hoperand : ∀ b, value = .array b → b.plan = p.id → p.Live b := by
    rintro b rfl _
    cases hvalue with
    | array hb => exact hb.live
  have hwrites := (Build.Outcome.write hf.wellFormed (fun _ => ha.live) entries value hgathers hoperand).of_runOn_ok hrun
  have hlive := (hwrites.advances hf.wellFormed).live
  cases hwrites with
  | again array axes v vars hrequest hbacked hlen hfits hgrown hhandle =>
    subst hhandle
    obtain ⟨hnone, _⟩ | ⟨n, declaration, harray, hname, hheld⟩ := hf.array?_eq ha
    · rw [hnone] at hbacked
      cases hbacked
    have hwrite : d.write r drafted value' = { d with
        queue := d.queue ++ [.write d.values.length n r drafted value']
        results := d.results ++ [r] } := by
      rw [Draft.write, hheld]
    rw [hwrite, hgrown]
    have hg : Outgrown p d places (p.grow (p.againGrowth p'.names array axes v vars)) { d with
        queue := d.queue ++ [.write d.values.length n r drafted value']
        results := d.results ++ [r] } (places ++ []) :=
      ⟨extends_grow hfits, ⟨[], (List.append_nil _).symm⟩, ⟨[], (List.append_nil _).symm⟩, [], rfl, by simp⟩
    refine ⟨_, r, hf.extend (hf.wellFormed.grow hfits) hg (by rw [List.append_nil]; exact hf.count) .nil (by simp) ?_
      ⟨[], [], rfl, (List.append_nil _).symm, .nil⟩ ⟨[], [], rfl, (List.append_nil _).symm, .nil⟩
      ⟨_, _, rfl, rfl, .cons ?_ .nil⟩ ⟨_, rfl, ?_⟩, hg, rfl, hg.renders ha⟩
    · intro k j rule v' hk hj
      rw [List.append_nil, List.getElem?_eq_none hk] at hj
      cases hj
    · refine hg.expresses_write hf ha hrequest hentries hvalue hlen hfits.draws.nodup
        (getElem?_of_append hg.plan.arrays harray) (Option.some.inj (hname.symm.trans hbacked)) fun dom hdom => ?_
      exact List.mem_append_right p.domains hdom
    · obtain ⟨_, _, _, rfl, _⟩ := hrequest
      exact used_of_regionDomains ha hentries vars
  | first array axes v copyVars vars params hrequest hbacked hcopy hlen hparams hfits hgrown hhandle =>
    obtain ⟨_, hheld⟩ | ⟨n, declaration, harray, hname, _⟩ := hf.array?_eq ha
    · have hshape : h.shape = a.shape := by rw [hhandle]
      have hnodup := hfits.draws.nodup
      rw [List.append_assoc, List.append_assoc, List.append_assoc] at hnodup
      have htail := (List.nodup_append.1 hnodup).2.1
      have htail' := (List.nodup_append.1 htail).2.1
      rw [hgrown] at hlive ⊢
      rw [Draft.write, hheld]
      refine hf.declare (r := { r with value := d.values.length }) hfits hlive rfl rfl
        (List.nodup_append.1 (List.nodup_append.1 htail').2.1).1 (by rw [hparams, Handle.rank, Handle.rank, hshape])
        hshape.symm ⟨rfl, rfl, rfl, rfl, rfl⟩ rfl (by rw [hshape]; exact ha.lengths) (by rw [hhandle]; exact ha.elementType)
        (by rw [hhandle]; exact ha.layout) (by rw [hshape]; exact ha.used)
        (.cons ⟨rfl, rfl, rfl, .inl ⟨rfl, rfl⟩⟩ (.cons ⟨rfl, rfl, rfl, .inr ha.rule⟩ .nil)) (fun hg harray => ?_) ?_
      · refine .cons ?_ (.cons ?_ .nil)
        · exact hg.expresses_copy hf ha hcopy (List.nodup_append.1 htail).1 harray rfl
            (List.mem_append_right p.domains List.mem_cons_self)
        · exact hg.expresses_write hf ha hrequest hentries hvalue hlen (List.nodup_append.1 htail').1 harray rfl
            fun dom hdom => List.mem_append_right p.domains (List.mem_cons_of_mem _ hdom)
      · obtain ⟨_, _, _, rfl, _⟩ := hrequest
        exact List.forall_mem_cons.2 ⟨used_of_box ha.used copyVars, used_of_regionDomains ha hentries vars⟩
    · rw [hname] at hbacked
      cases hbacked

end Writing

end Plan

end ArrayPlan
