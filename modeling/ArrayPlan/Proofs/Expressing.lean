import ArrayPlan.Proofs.Readiness
import ArrayPlan.Proofs.Rendering
import ArrayPlan.Proofs.Sums

/-!
Sums and statements that follow a draft. Variables run over the lengths of their axes, whether these are numbers or
names, so the points of a sum or of a statement are those that the draft says.
-/

namespace ArrayPlan

open Interpretation

section Enumeration

variable {var : String} {keep : Env → Bool} {inner : Env → Except ExecutionFault (List Env × Env)} {base : Env}

theorem sweep_eq_nil (hkeep : ∀ x, keep (base.bind var x) = false) (count : Nat) (value : Int) {env : Env}
    (henv : env.unbind var = base.unbind var) : ∃ env', sweep var keep inner count value env = .ok ([], env') := by
  induction count generalizing value env with
  | zero => exact ⟨env, rfl⟩
  | succ count ih =>
    obtain ⟨env', hrest⟩ := ih (value + 1) (unbind_bind_of_unbind base var value)
    refine ⟨env', ?_⟩
    rw [sweep]
    simp only [bind_congr_of_unbind henv, hkeep, Bool.false_eq_true, if_false, Bind.bind, Except.bind, hrest, pure,
      Except.pure, List.append_nil]

theorem pointsOver_eq_nil {domains : List Domain} {d : Domain} {bounds : Int × Int} {vars : List String}
    (howner : ownerOf domains var = .ok d) (hbounds : d.bounds var base = .ok bounds)
    (hadmits : ∀ x, d.admits (base.bind var x) = false) : pointsOver domains (var :: vars) base = .ok [] := by
  obtain ⟨env', hsweep⟩ : ∃ env', sweep var d.admits (enumerate domains vars) (bounds.2 - bounds.1 + 1).toNat bounds.1 base =
      .ok ([], env') := sweep_eq_nil hadmits _ _ rfl
  rw [pointsOver, enumerate]
  simp only [howner, hbounds, Bind.bind, Except.bind, hsweep]
  rfl

namespace Domain

variable {axes : List (String × Extent)} {env : Env} {size : Extent → Int}

theorem range_of_admits_box (hcounts : ∀ a ∈ axes, a.2.Counts env (axes.map Prod.fst) (size a.2))
    (hadmits : (box axes).admits env = true) {a : String × Extent} (ha : a ∈ axes) {x : Int}
    (hx : env.value? a.1 = some x) : 0 ≤ x ∧ x < size a.2 := by
  have hlower := List.all_eq_true.1 hadmits (lower a.1) (mem_box.2 ⟨a, ha, .inl rfl⟩)
  have hupper := List.all_eq_true.1 hadmits (upper a.1 a.2) (mem_box.2 ⟨a, ha, .inr rfl⟩)
  rw [Constraint.holds?, (bounding_lower (axes.map Prod.fst) a.1 env).value, hx] at hlower
  rw [Constraint.holds?, (bounding_upper (hcounts a ha) (List.mem_map_of_mem ha)).value, hx] at hupper
  simp only [Option.map_some, Option.getD_some, decide_eq_true_eq] at hlower hupper
  omega

theorem mem_parameters_of_upper {d : Domain} {v name : String} (hupper : upper v (.symbolic name) ∈ d.constraints)
    (hv : v ∈ d.vars) (hname : name ∉ d.vars) : name ∈ d.parameters := by
  have hne : name ≠ v := fun heq => hname (heq ▸ hv)
  refine List.mem_eraseDups.2 (List.mem_filter.2 ⟨List.mem_flatMap.2 ⟨_, hupper, ?_⟩, by simpa using hname⟩)
  rw [(form_upper_symbolic hne).1]
  exact List.mem_cons_self

theorem symbolic_of_mem_upper {v name : String} {e : Extent} (hne : name ≠ v)
    (hterm : name ∈ (upper v e).form.terms.map Prod.fst) : e = .symbolic name := by
  cases e with
  | fixed n =>
    rw [(form_upper_fixed v n).1] at hterm
    exact absurd (by simpa using hterm) hne
  | symbolic other =>
    by_cases hother : other = v
    · subst hother
      simp [upper, lastPosition, Constraint.le, Affine.sub, Affine.ofVar, Affine.ofConstant, Affine.addTerm,
        Affine.mergeTerm, Affine.addConstant] at hterm
    · rw [(form_upper_symbolic hother).1] at hterm
      rcases List.mem_cons.1 hterm with rfl | hterm
      · rfl
      · exact absurd (by simpa using hterm) hne

end Domain

end Enumeration

def Numbering.bound (N : Numbering) (e : Extent) : Int :=
  Word.signed (e.under N.value)

theorem Numbering.toNat_bound (N : Numbering) (e : Extent) : (N.bound e).toNat = span (e.under N.value) :=
  rfl

theorem map_zip_of_length {β γ δ : Type} (f : γ → δ) {xs : List β} {ys : List γ} (hlen : xs.length = ys.length) :
    (xs.zip ys).map (fun a => f a.2) = ys.map f := by
  rw [← List.map_snd_zip (Nat.le_of_eq hlen.symm), List.map_map, List.map_snd_zip (Nat.le_of_eq hlen.symm)]
  rfl

variable {α : Type} [Scalar α]

namespace Plan

variable {N : Numbering} {p q : Plan} {d : Draft α} {places : List Nat} {parameters : Env} {domains : List Domain}
  {time index : Nat} {I : Interpretation α} {o : Oracle α} {a : Handle} {r : Drafted}

namespace Surroundings

omit [Scalar α] in
theorem counts (hs : p.Surroundings N parameters domains) {dom : Domain} (hdom : dom ∈ domains) {v : String}
    (hv : v ∈ dom.vars) {e : Extent} (hupper : Domain.upper v e ∈ dom.constraints)
    (hused : N.Covers e) {env : Env}
    (henv : ∀ name, name ∉ domains.flatMap Domain.vars → env.value? name = parameters.value? name) :
    e.Counts env dom.vars (N.bound e) := by
  cases e with
  | fixed n => rfl
  | symbolic name =>
    have hnot := hs.unowned name hused
    have hname : name ∉ dom.vars := fun h => hnot (List.mem_flatMap.2 ⟨dom, hdom, h⟩)
    refine ⟨?_, hname⟩
    rw [henv name hnot, hs.bound dom hdom name (Domain.mem_parameters_of_upper hupper hv hname)]
    rfl

section Box

variable {vars : List String} {extents : List Extent}

theorem counts_box (hs : p.Surroundings N parameters domains) (hbox : .box (vars.zip extents) ∈ domains)
    (hused : N.Uses extents) {env : Env}
    (henv : ∀ name, name ∉ domains.flatMap Domain.vars → env.value? name = parameters.value? name) :
    ∀ a ∈ vars.zip extents,
      a.2.Counts env ((vars.zip extents).map Prod.fst) (N.bound a.2) := by
  intro a ha
  rw [← Domain.vars_box]
  refine hs.counts hbox (v := a.1) ?_ (Domain.mem_box.2 ⟨a, ha, .inr rfl⟩) (hused a.2 (List.of_mem_zip ha).2) henv
  rw [Domain.vars_box]
  exact List.mem_map_of_mem ha

omit [Scalar α] in
theorem spans_eq (test : Nat → Bool) (hlen : vars.length = extents.length) :
    (pick test 0 (vars.zip extents)).map Prod.fst = pick test 0 vars ∧
      (pick test 0 (vars.zip extents)).map (fun a => span (a.2.under N.value)) =
        (pick test 0 (extents.map (Extent.under N.value))).map span := by
  rw [← pick_map, ← pick_map, ← pick_map, List.map_fst_zip (Nat.le_of_eq hlen),
    map_zip_of_length (fun e => span (e.under N.value)) hlen]
  simp only [List.map_map, Function.comp_def, and_self]

omit [Scalar α] in
theorem pointsOver_box (hs : p.Surroundings N parameters domains) (hlen : vars.length = extents.length)
    (hbox : .box (vars.zip extents) ∈ domains) (hused : N.Uses extents) :
    pointsOver domains vars parameters =
      .ok ((boxPoints ((extents.map (Extent.under N.value)).map span)).map (parameters.at vars)) := by
  have hunbound : ∀ a ∈ vars.zip extents, parameters.value? a.1 = none := fun a ha =>
    hs.free a.1 (List.mem_flatMap.2 ⟨_, hbox, by rw [Domain.vars_box]; exact List.mem_map_of_mem ha⟩)
  have hboxed := boxed_of_box hs.nodup hbox N.bound (vars.zip extents) (.refl _)
    (hs.counts_box hbox hused fun _ _ => rfl) (fun a ha x hx => by rw [hunbound a ha] at hx; cases hx) hunbound
  have hspans : (vars.zip extents).map (fun a => (N.bound a.2).toNat) =
      (extents.map (Extent.under N.value)).map span := by
    simp only [N.toNat_bound, List.map_map, Function.comp_def]
    rw [map_zip_of_length (fun e => span (e.under N.value)) hlen]
  rw [List.map_fst_zip (Nat.le_of_eq hlen), hspans] at hboxed
  exact pointsOver_of_boxed hboxed

omit [Scalar α] in
/-- The points of the axes that a sum runs over, where the other axes have positions: there are none where one of these
is beyond its axis. -/
theorem pointsOver_pick (hs : p.Surroundings N parameters domains) (hlen : vars.length = extents.length)
    (hbox : .box (vars.zip extents) ∈ domains) (hused : N.Uses extents)
    (test : Nat → Bool) (hsome : pick test 0 vars ≠ []) {env : Env} {kept : List Int}
    (hbinds : env.Binds (pick (fun n => !test n) 0 vars) kept)
    (henv : ∀ v, v ∉ pick (fun n => !test n) 0 vars → env.value? v = parameters.value? v) :
    pointsOver domains (pick test 0 vars) env = .ok
      ((if InBox kept ((pick (fun n => !test n) 0 (extents.map (Extent.under N.value))).map span) then
        boxPoints ((pick test 0 (extents.map (Extent.under N.value))).map span) else []).map (env.at (pick test 0 vars))) := by
  have hvars : (Domain.box (vars.zip extents)).vars = vars := by
    rw [Domain.vars_box, List.map_fst_zip (Nat.le_of_eq hlen)]
  have hnodup : vars.Nodup := hvars ▸ nodup_vars_of_mem hs.nodup hbox
  have howned : ∀ v ∈ vars, v ∈ domains.flatMap Domain.vars := fun v hv =>
    List.mem_flatMap.2 ⟨_, hbox, by rwa [hvars]⟩
  have hsame : ∀ name, name ∉ domains.flatMap Domain.vars → env.value? name = parameters.value? name := fun name hname =>
    henv name fun hmem => hname (howned name ((pick_sublist _ _ _).subset hmem))
  have hcounts := hs.counts_box hbox hused hsame
  obtain ⟨hfst, hspans⟩ := spans_eq (N := N) test hlen
  obtain ⟨hfst', hspans'⟩ := spans_eq (N := N) (fun n => !test n) hlen
  have hunbound : ∀ a ∈ pick test 0 (vars.zip extents), env.value? a.1 = none := by
    intro a ha
    have hv : a.1 ∈ pick test 0 vars := hfst ▸ List.mem_map_of_mem ha
    rw [henv _ (not_mem_pick_of_mem test hnodup hv)]
    exact hs.free _ (howned _ ((pick_sublist _ _ _).subset hv))
  have hbinds' := hbinds
  rw [← hfst'] at hbinds'
  have hinside := @inBox_iff_of_binds _ (fun e => span (e.under N.value)) _ _ hbinds'
  rw [hspans'] at hinside
  by_cases hkept : InBox kept ((pick (fun n => !test n) 0 (extents.map (Extent.under N.value))).map span)
  · have hboxed := boxed_of_box hs.nodup hbox N.bound (pick test 0 (vars.zip extents))
      (pick_sublist test 0 _) hcounts (fun a ha x hx => ?_) hunbound
    · rw [hfst] at hboxed
      rw [pointsOver_of_boxed hboxed, if_pos hkept, ← hspans]
      rfl
    · have hv : a.1 ∈ pick (fun n => !test n) 0 vars := by
        by_contra hnot
        rw [henv _ hnot, hs.free _ (howned _ (List.of_mem_zip ha).1)] at hx
        cases hx
      rw [← hfst'] at hv
      obtain ⟨b, hb, heq⟩ := List.mem_map.1 hv
      obtain rfl : b = a := List.inj_on_of_nodup_map ((List.map_fst_zip (Nat.le_of_eq hlen)).symm ▸ hnodup)
        ((pick_sublist _ _ _).subset hb) ha heq
      have hrange := hinside.1 hkept b hb x hx
      rw [← N.toNat_bound] at hrange
      omega
  -- the constraints of the axis that is left fail at every value of the first variable
  · rw [if_neg hkept, List.map_nil]
    obtain ⟨b, hb, x, hx, hrange⟩ : ∃ b ∈ pick (fun n => !test n) 0 (vars.zip extents), ∃ x, env.value? b.1 = some x ∧
        ¬ (0 ≤ x ∧ x < N.bound b.2) := by
      by_contra hnone
      refine hkept (hinside.2 fun b hb x hx => ?_)
      by_contra hrange
      refine hnone ⟨b, hb, x, hx, fun hin => hrange ?_⟩
      rw [← N.toNat_bound]
      omega
    obtain ⟨c, free, hfree⟩ := List.exists_cons_of_ne_nil
      (show pick test 0 (vars.zip extents) ≠ [] from fun hnil => hsome (by rw [← hfst, hnil, List.map_nil]))
    have hc : c ∈ pick test 0 (vars.zip extents) := hfree ▸ List.mem_cons_self
    have hcaxis := (pick_sublist _ _ _).subset hc
    rw [← hfst, hfree, List.map_cons]
    refine pointsOver_eq_nil (ownerOf_of_mem hs.nodup hbox ?_) (Domain.bounds_box hcounts ?_ hcaxis) fun y => ?_
    · rw [Domain.vars_box]
      exact List.mem_map_of_mem hcaxis
    · rw [List.map_fst_zip (Nat.le_of_eq hlen)]
      exact hnodup
    · refine Bool.eq_false_iff.2 fun hadmits => hrange ?_
      have hne : b.1 ≠ c.1 := fun heq => not_mem_pick_of_mem test hnodup (hfst ▸ List.mem_map_of_mem hc)
        (hfst' ▸ heq ▸ List.mem_map_of_mem hb)
      refine Domain.range_of_admits_box (fun a ha => (hcounts a ha).bind (List.mem_map_of_mem hcaxis) y) hadmits
        ((pick_sublist _ _ _).subset hb) ?_
      rw [Env.value?_bind_of_ne env y hne, hx]

end Box

end Surroundings

section Sums

variable {p' : Plan} {h : Handle}

theorem rounded_weave [ExactOrigin α] (test : Nat → Bool) (place n : Nat) (xs ys : List Int) :
    rounded α (weave test place n xs ys) = weave test place n (rounded α xs) (rounded α ys) := by
  have hhead : ∀ zs : List Int, (rounded α zs).headD 0 = Scalar.toIndex (Scalar.ofInt (zs.headD 0) : α) := fun zs => by
    cases zs with
    | nil => exact ExactOrigin.toIndex_ofInt_zero.symm
    | cons z zs => rfl
  have htail : ∀ zs : List Int, (rounded α zs).tail = rounded α zs.tail := fun zs => List.map_tail.symm
  induction n generalizing place xs ys with
  | zero => rfl
  | succ n ih =>
    rw [weave, weave]
    split
    · rw [hhead, htail, ← ih]
      rfl
    · rw [hhead, htail, ← ih]
      rfl

omit [Scalar α] in
theorem symbolic_of_mem_parameters {axes : List (String × Extent)} {name : String}
    (hname : name ∈ (Domain.box axes).parameters) : ∃ a ∈ axes, a.2 = .symbolic name := by
  obtain ⟨hmem, hnot⟩ := List.mem_filter.1 (List.mem_eraseDups.1 hname)
  obtain ⟨c, hc, hterm⟩ := List.mem_flatMap.1 hmem
  have hnot : name ∉ axes.map Prod.fst := by simpa [Domain.vars_box] using hnot
  obtain ⟨a, ha, rfl | rfl⟩ := Domain.mem_box.1 hc
  · rw [(Domain.form_lower a.1).1] at hterm
    obtain rfl : name = a.1 := by simpa using hterm
    exact absurd (List.mem_map_of_mem ha) hnot
  · exact ⟨a, ha, Domain.symbolic_of_mem_upper (fun heq => hnot (heq ▸ List.mem_map_of_mem ha)) hterm⟩

omit [Scalar α] in
theorem used_of_box {extents : List Extent} (hused : N.Uses extents)
    (vars : List String) : ∀ name ∈ (Domain.box (vars.zip extents)).parameters, N.used name := by
  intro name hname
  obtain ⟨a, ha, hsymbolic⟩ := symbolic_of_mem_parameters hname
  exact (hused a.2 (List.of_mem_zip ha).2).used hsymbolic

omit [Scalar α] in
theorem foldlM_congr_of_mem {β γ : Type} {f g : β → γ → Option β} {cs : List γ} (h : ∀ c ∈ cs, ∀ b, f b c = g b c) (b : β) :
    cs.foldlM f b = cs.foldlM g b := by
  induction cs generalizing b with
  | nil => rfl
  | cons c cs ih =>
    rw [List.foldlM_cons, List.foldlM_cons, h c List.mem_cons_self]
    exact congrArg _ (funext fun b => ih (fun c hc => h c (List.mem_cons_of_mem _ hc)) b)

variable [ExactOrigin α] [StableIndices α]

theorem Circumstances.value?_sum (hf : p.Follows N d places) (ha : p.Renders N d places a r)
    (hs : q.Surroundings N parameters domains)
    (hc : p.Circumstances d places parameters domains places.length index I o) {vars : List String}
    (hlen : vars.length = a.shape.extents.length) (hnodup : vars.Nodup) (hbox : .box (vars.zip a.shape.extents) ∈ domains)
    (test : Nat → Bool) {kept : List Int} (hkept : Asked α (pick (fun n => !test n) 0 r.lengths) kept) :
    I.value? (if (pick test 0 vars).isEmpty then p.callOf a.rule (vars.map .var)
        else .sum (pick test 0 vars) (p.callOf a.rule (vars.map .var)))
      (parameters.at (pick (fun n => !test n) 0 vars) kept) =
      if pick test 0 r.lengths = [] then o.value r.value kept
      else (if InBox kept ((pick (fun n => !test n) 0 r.lengths).map span) then
          boxPoints ((pick test 0 r.lengths).map span) else []).foldlM
        (fun total point => (o.value r.value (weave test 0 r.lengths.length (rounded α point) kept)).map
          (Scalar.add total)) Scalar.zero := by
  have hlen' : vars.length = r.lengths.length := by rw [hlen, ← ha.lengths, List.length_map]
  have hbinds : (parameters.at (pick (fun n => !test n) 0 vars) kept).Binds (pick (fun n => !test n) 0 vars) kept :=
    Env.binds_at parameters ((pick_sublist _ _ _).nodup hnodup) ((length_pick_eq _ hlen' 0).trans hkept.length_eq.symm)
  have hempty : pick test 0 vars = [] ↔ pick test 0 r.lengths = [] := by
    rw [← List.length_eq_zero_iff, ← List.length_eq_zero_iff, length_pick_eq test hlen' 0]
  by_cases hnone : pick test 0 vars = []
  · rw [hnone, List.isEmpty_nil, if_pos rfl, if_pos (hempty.1 hnone)]
    rw [pick_rest_of_none test hnone] at hbinds ⊢
    rw [pick_rest_of_none test (hempty.1 hnone)] at hkept
    exact hc.value?_callAt hf.wellFormed ha (ha.lt hf.count) hbinds hkept
  · rw [if_neg (by rwa [List.isEmpty_iff]), if_neg fun h => hnone (hempty.2 h), Interpretation.value?, hc.points,
      hs.pointsOver_pick hlen hbox (ha.used) test hnone hbinds fun v hv => Env.value?_at_of_not_mem _ hv,
      ha.lengths, Except.toOption, Option.bind_some, List.foldlM_map]
    refine foldlM_congr_of_mem (fun point hpoint total => ?_) _
    have hpoint : InBox point ((pick test 0 r.lengths).map span) := by
      split at hpoint
      · exact mem_boxPoints.1 hpoint
      · cases hpoint
    have hpicked : (pick test 0 vars).length = point.length := by
      rw [length_pick_eq test hlen' 0, hpoint.length_eq, List.length_map]
    have hall := binds_weave test (Env.binds_at _ ((pick_sublist test 0 vars).nodup hnodup) hpicked)
      (binds_of_disjoint hbinds fun v hv hmem => not_mem_pick_of_mem test hnodup hmem hv)
    have hargs := position?_vars_rounded (I := I) hall
    rw [rounded_weave, hkept.rounded_eq, hlen'] at hargs
    rw [hc.value?_callOf hf.wellFormed ha (ha.lt hf.count) hargs (forall₂_weave test (Asked.of_inBox hpoint) hkept)]

theorem Follows.sum {axes : Option (List Nat)} (hf : p.Follows N d places) (ha : p.Renders N d places a r)
    (hrun : (Build.sum a axes).runOn p = (.ok h, p')) :
    Advanced N p d places h p' (d.define (.sum r axes) r.elementType .rowMajor) := by
  obtain ⟨_, _, vars, shape, hlen, hshape, hd⟩ :=
    (Build.Outcome.sum hf.wellFormed (fun _ => ha.live) axes).of_runOn_ok hrun
  have hlen : vars.length = a.shape.extents.length := hlen
  have hfst : ∀ test, (axesWhere test (vars.zip a.shape.extents)).map Prod.fst = pick test 0 vars := fun test => by
    rw [axesWhere_eq_pick, ← pick_map, List.map_fst_zip (Nat.le_of_eq hlen)]
  have hsnd : ∀ test, (axesWhere test (vars.zip a.shape.extents)).map Prod.snd = pick test 0 a.shape.extents :=
    fun test => by rw [axesWhere_eq_pick, ← pick_map, List.map_snd_zip (Nat.le_of_eq hlen.symm)]
  have hempty : (axesWhere (Build.isReduced axes) (vars.zip a.shape.extents)).isEmpty =
      (pick (Build.isReduced axes) 0 vars).isEmpty := by
    rw [← hfst, List.isEmpty_map]
  rw [hfst, hfst, hempty] at hd
  rw [hsnd] at hshape
  have hlengths : shape.extents.map (Extent.under N.value) =
      keptLengths (pick (fun axis => !Build.isReduced axes axis) 0 r.lengths) := by
    rw [kept_under hshape, ← pick_map, ha.lengths]
  rw [← ha.elementType]
  refine hf.define hd hlengths (fun _ => rfl)
    (uses_of_kept hshape fun e he => ha.used e ((pick_sublist _ _ _).subset he)) (by simpa using used_of_box (ha.used) vars)
    fun parameters domains I o hs hc position hasked => ?_
  obtain ⟨kept, rest, rfl, hkept⟩ := Asked.of_kept hasked
  have hbox : .box (vars.zip a.shape.extents) ∈ domains :=
    hs.mem _ (by rw [hd.grown]; exact List.mem_append_right p.domains List.mem_cons_self)
  have hlen' : vars.length = r.lengths.length := by rw [hlen, ← ha.lengths, List.length_map]
  dsimp only
  rw [Env.at_append parameters ((length_pick_eq _ hlen' 0).trans hkept.length_eq.symm),
    hc.value?_sum hf ha hs hlen hd.vars_nodup hbox _ hkept]
  simp only [Deferred.sum, ← hkept.length_eq, List.take_left]

end Sums

end Plan

end ArrayPlan
