import ArrayPlan.Proofs.Views

/-!
Sums. The points of a sum are the indices of the box over its axes, each of which completes the index at which
the sum is asked for. Prefix sums are a statement: at each place it stores the sum of the elements up to it.
-/

namespace ArrayPlan

section Picking

variable {β γ : Type} (test : Nat → Bool)

theorem pick_map (f : β → γ) (place : Nat) (xs : List β) : pick test place (xs.map f) = (pick test place xs).map f := by
  induction xs generalizing place with
  | nil => rfl
  | cons x xs ih =>
    rw [List.map_cons, pick, pick, ih]
    by_cases h : test place = true
    · rw [if_pos h, if_pos h, List.map_cons]
    · rw [if_neg h, if_neg h]

theorem pick_eq_filter (place : Nat) (xs : List β) :
    ((xs.zipIdx place).filter fun x => test x.2).map Prod.fst = pick test place xs := by
  induction xs generalizing place with
  | nil => rfl
  | cons x xs ih =>
    rw [List.zipIdx_cons, List.filter_cons, pick]
    by_cases h : test place = true
    · simp only [h, if_true, List.map_cons, ih]
    · simp only [h, if_false, Bool.false_eq_true, ih]

theorem pick_sublist (place : Nat) (xs : List β) : (pick test place xs).Sublist xs := by
  induction xs generalizing place with
  | nil => exact List.Sublist.refl []
  | cons x xs ih =>
    rw [pick]
    by_cases h : test place = true
    · rw [if_pos h]
      exact (ih (place + 1)).cons_cons x
    · rw [if_neg h]
      exact (ih (place + 1)).cons x

theorem length_pick_eq {xs : List β} {ys : List γ} (h : xs.length = ys.length) (place : Nat) :
    (pick test place xs).length = (pick test place ys).length := by
  induction xs generalizing ys place with
  | nil =>
    obtain rfl := List.length_eq_zero_iff.1 h.symm
    rfl
  | cons x xs ih =>
    cases ys with
    | nil => cases h
    | cons y ys =>
      have htail := ih (Nat.succ.inj h) (place + 1)
      rw [pick, pick]
      by_cases hplace : test place = true
      · rw [if_pos hplace, if_pos hplace, List.length_cons, List.length_cons, htail]
      · rw [if_neg hplace, if_neg hplace, htail]

theorem not_mem_pick_of_mem {xs : List β} (hnodup : xs.Nodup) {x : β} {place : Nat} (hx : x ∈ pick test place xs) :
    x ∉ pick (fun n => !test n) place xs := by
  induction xs generalizing place with
  | nil => cases hx
  | cons y ys ih =>
    obtain ⟨hy, hys⟩ := List.nodup_cons.1 hnodup
    rw [pick] at hx ⊢
    by_cases h : test place = true
    · simp only [h, if_true, Bool.not_true, Bool.false_eq_true, if_false] at hx ⊢
      rcases List.mem_cons.1 hx with rfl | hx
      · exact fun hmem => hy ((pick_sublist _ _ _).subset hmem)
      · exact ih hys hx
    · simp only [h, if_false, Bool.false_eq_true, Bool.not_false, if_true] at hx ⊢
      intro hmem
      rcases List.mem_cons.1 hmem with rfl | hmem
      · exact hy ((pick_sublist _ _ _).subset hx)
      · exact ih hys hx hmem

theorem forall₂_weave {R : β → Int → Prop} {zs : List β} {xs ys : List Int} {place : Nat}
    (hxs : List.Forall₂ R (pick test place zs) xs) (hys : List.Forall₂ R (pick (fun n => !test n) place zs) ys) :
    List.Forall₂ R zs (weave test place zs.length xs ys) := by
  induction zs generalizing place xs ys with
  | nil => exact .nil
  | cons z zs ih =>
    rw [List.length_cons, weave]
    rw [pick] at hxs hys
    by_cases h : test place = true
    · simp only [h, if_true, Bool.not_true, Bool.false_eq_true, if_false] at hxs hys ⊢
      cases hxs with
      | cons hx hxs => exact .cons hx (ih hxs hys)
    · simp only [h, if_false, Bool.false_eq_true, Bool.not_false, if_true] at hxs hys ⊢
      cases hys with
      | cons hy hys => exact .cons hy (ih hxs hys)

theorem binds_weave {env : Env} {vars : List String} {xs ys : List Int} {place : Nat}
    (hxs : env.Binds (pick test place vars) xs) (hys : env.Binds (pick (fun n => !test n) place vars) ys) :
    env.Binds vars (weave test place vars.length xs ys) :=
  forall₂_weave test hxs hys

theorem inBox_weave {lengths : List Nat} {xs ys : List Int} {place : Nat}
    (hxs : InBox xs (pick test place lengths)) (hys : InBox ys (pick (fun n => !test n) place lengths)) :
    InBox (weave test place lengths.length xs ys) lengths := by
  induction lengths generalizing place xs ys with
  | nil => trivial
  | cons n lengths ih =>
    rw [List.length_cons, weave]
    rw [pick] at hxs hys
    by_cases h : test place = true
    · simp only [h, if_true, Bool.not_true, Bool.false_eq_true, if_false] at hxs hys ⊢
      cases xs with
      | nil => exact hxs.elim
      | cons x xs => exact ⟨hxs.1, ih hxs.2 hys⟩
    · simp only [h, if_false, Bool.false_eq_true, Bool.not_false, if_true] at hxs hys ⊢
      cases ys with
      | nil => exact hys.elim
      | cons y ys => exact ⟨hys.1, ih hxs hys.2⟩

theorem weave_of_no_rest {lengths : List Nat} {place : Nat} (h : pick (fun n => !test n) place lengths = [])
    (xs ys : List Int) : weave test place lengths.length xs ys = weave test place lengths.length xs [] := by
  induction lengths generalizing place xs with
  | nil => rfl
  | cons n lengths ih =>
    rw [pick] at h
    by_cases hplace : test place = true
    · simp only [hplace, Bool.not_true, Bool.false_eq_true, if_false] at h
      simp only [List.length_cons, weave, hplace, if_true, ih h]
    · simp [hplace] at h

theorem pick_rest_of_none {xs : List β} {place : Nat} (h : pick test place xs = []) :
    pick (fun n => !test n) place xs = xs := by
  induction xs generalizing place with
  | nil => rfl
  | cons x xs ih =>
    rw [pick] at h ⊢
    by_cases hplace : test place = true
    · simp [hplace] at h
    · simp only [hplace, if_false, Bool.false_eq_true, Bool.not_false, if_true] at h ⊢
      rw [ih h]

theorem binds_of_disjoint {env : Env} {vars names : List String} {index point : List Int}
    (hbinds : env.Binds vars index) (hnot : ∀ v ∈ vars, v ∉ names) : (env.at names point).Binds vars index := by
  obtain ⟨hlen, hvalues⟩ := List.forall₂_iff_zip.1 hbinds
  refine List.forall₂_iff_zip.2 ⟨hlen, fun {v x} hvx => ?_⟩
  rw [Env.value?_at_of_not_mem env (hnot v (List.of_mem_zip hvx).1)]
  exact hvalues hvx

end Picking

theorem axesWhere_eq_pick (test : Nat → Bool) (axes : List (String × Extent)) :
    axesWhere test axes = pick test 0 axes :=
  pick_eq_filter test 0 axes

theorem foldlM_eq_foldl {β γ : Type} {step : β → γ → Option β} {f : β → γ → β} {cs : List γ}
    (h : ∀ b, ∀ c ∈ cs, step b c = some (f b c)) (b : β) : cs.foldlM step b = some (cs.foldl f b) := by
  induction cs generalizing b with
  | nil => rfl
  | cons c cs ih =>
    rw [List.foldlM_cons, h b c List.mem_cons_self, List.foldl_cons]
    exact ih (fun b d hd => h b d (List.mem_cons_of_mem c hd)) (f b c)

theorem value?_sum_box {α : Type} [Scalar α] {I : Interpretation α} {env : Env} {vars : List String}
    {lengths : List Nat} {body : Expr} {g : List Int → α}
    (hpoints : I.points vars env = some ((boxPoints lengths).map (env.at vars)))
    (hbody : ∀ point, InBox point lengths → I.value? body (env.at vars point) = some (g point)) :
    I.value? (.sum vars body) env =
      some ((boxPoints lengths).foldl (fun total point => Scalar.add total (g point)) Scalar.zero) := by
  rw [Interpretation.value?, hpoints, Option.bind_some, List.foldlM_map]
  refine foldlM_eq_foldl (fun total point hpoint => ?_) Scalar.zero
  rw [hbody point (mem_boxPoints.1 hpoint)]
  rfl

section Computes

variable {α : Type} [Scalar α] [ExactIndices α] {p : Plan} {account : Account α} {domains : List Domain}
  {name : String} {c : Cell α} {a : Handle} {ta : Tensor α}

omit [Scalar α] [ExactIndices α] in
theorem points_of_boxed {I : Interpretation α} {rules : List Rule} (hI : I.Answers account domains rules)
    {vars : List String} (howned : ∀ v ∈ vars, Owned domains v) {env : Env} {lengths : List Nat}
    (hboxed : Boxed domains env vars lengths) : I.points vars env = some ((boxPoints lengths).map (env.at vars)) := by
  rw [hI.points vars howned env, pointsOver_of_boxed hboxed]
  rfl

def Extent.count : Extent → Nat
  | .fixed n => n
  | .symbolic _ => 0

theorem counts_of_fixed {lengths : List Nat} (hbound : ∀ n ∈ lengths, (n : Int) ≤ indexBound)
    {vars names : List String} {a : String × Extent} (ha : a ∈ vars.zip (lengths.map .fixed)) (env : Env) :
    a.2.Counts env names a.2.count := by
  obtain ⟨n, hn, heq⟩ := List.mem_map.1 (List.of_mem_zip ha).2
  rw [← heq]
  exact Word.signed_of_le (hbound n hn)

omit [Scalar α] [ExactIndices α] in
theorem inBox_iff_of_binds {axes : List (String × Extent)} {size : Extent → Nat} {env : Env} {index : List Int}
    (hbinds : env.Binds (axes.map Prod.fst) index) : InBox index (axes.map fun a => size a.2) ↔
      ∀ a ∈ axes, ∀ x, env.value? a.1 = some x → 0 ≤ x ∧ x < size a.2 := by
  induction axes generalizing index with
  | nil =>
    cases hbinds
    exact iff_of_true trivial fun a ha => nomatch ha
  | cons b axes ih =>
    cases hbinds with
    | cons hb hbinds =>
      rw [List.map_cons, InBox, ih hbinds, List.forall_mem_cons]
      refine and_congr_left fun _ => ⟨fun hin x hx => ?_, fun hin => hin _ hb⟩
      obtain rfl := Option.some.inj (hb.symm.trans hx)
      exact hin

omit [Scalar α] [ExactIndices α] in
theorem boxed_pick {lengths : List Nat} {vars : List String} (hlen : vars.length = lengths.length)
    (hnodup : vars.Nodup) (hbound : ∀ n ∈ lengths, (n : Int) ≤ indexBound)
    (hdomains : (domains.flatMap Domain.vars).Nodup) (hbox : .box (vars.zip (lengths.map .fixed)) ∈ domains)
    (test : Nat → Bool) {env : Env} {index : List Int}
    (hbinds : env.Binds (pick (fun n => !test n) 0 vars) index)
    (hindex : InBox index (pick (fun n => !test n) 0 lengths))
    (hunbound : ∀ v, v ∉ pick (fun n => !test n) 0 vars → env.value? v = none) :
    Boxed domains env (pick test 0 vars) (pick test 0 lengths) := by
  have hfst : (vars.zip (lengths.map Extent.fixed)).map Prod.fst = vars := by
    refine List.map_fst_zip ?_
    rw [List.length_map]
    exact Nat.le_of_eq hlen
  have hcount : (vars.zip (lengths.map Extent.fixed)).map (fun a => a.2.count) = lengths := by
    have hsnd : (vars.zip (lengths.map Extent.fixed)).map Prod.snd = lengths.map .fixed := by
      refine List.map_snd_zip ?_
      rw [List.length_map]
      exact Nat.le_of_eq hlen.symm
    have hcounts : ∀ ns : List Nat, (ns.map Extent.fixed).map Extent.count = ns := by
      intro ns
      induction ns with
      | nil => rfl
      | cons n ns ih => rw [List.map_cons, List.map_cons, ih, Extent.count]
    calc (vars.zip (lengths.map Extent.fixed)).map (fun a => a.2.count)
        = ((vars.zip (lengths.map Extent.fixed)).map Prod.snd).map Extent.count := by
          rw [List.map_map]
          rfl
      _ = (lengths.map Extent.fixed).map Extent.count := by rw [hsnd]
      _ = lengths := hcounts lengths
  generalize haxes : vars.zip (lengths.map Extent.fixed) = axes at *
  have hvars : ∀ test, (pick test 0 axes).map Prod.fst = pick test 0 vars := fun test => by
    rw [← pick_map, hfst]
  have hlengths : ∀ test, (pick test 0 axes).map (fun a => a.2.count) = pick test 0 lengths := fun test => by
    rw [← pick_map, hcount]
  rw [← hvars, ← hlengths]
  refine boxed_of_box hdomains hbox (fun e => (e.count : Int)) (pick test 0 axes) (pick_sublist test 0 axes)
    (fun a ha => ?_) ?_ fun a ha => ?_
  · exact counts_of_fixed hbound (haxes ▸ ha) env
  · intro a ha x hx
    by_cases hkept : a.1 ∈ pick (fun n => !test n) 0 vars
    · rw [← hvars] at hkept hbinds
      rw [← hlengths] at hindex
      obtain ⟨b, hb, heq⟩ := List.mem_map.1 hkept
      obtain rfl : b = a := by
        refine List.inj_on_of_nodup_map (hfst.symm ▸ hnodup) ((pick_sublist _ _ _).subset hb) ha heq
      exact (inBox_iff_of_binds hbinds).1 hindex b hb x hx
    · rw [hunbound a.1 hkept] at hx
      cases hx
  · refine hunbound a.1 (not_mem_pick_of_mem test hnodup ?_)
    rw [← hvars]
    exact List.mem_map_of_mem ha

theorem computes_sum (axes : Option (List Nat)) {vars : List String} (hlen : vars.length = a.rank)
    (hnodup : vars.Nodup) (ha : p.Accounts account a ta) (hdomains : (domains.flatMap Domain.vars).Nodup)
    (hbox : .box (vars.zip a.shape.extents) ∈ domains) (hpos : ∀ n ∈ ta.lengths, 0 < n)
    (hbound : (elementCount ta.lengths : Int) ≤ indexBound)
    (hmeans : c.Means (ta.sum axes) (account.Knows a ta)) :
    (Rule.mk name (pick (fun n => !Build.isReduced axes n) 0 vars)
      (if (pick (Build.isReduced axes) 0 vars).isEmpty then p.callOf a.rule (vars.map .var)
        else .sum (pick (Build.isReduced axes) 0 vars) (p.callOf a.rule (vars.map .var)))).Computes account domains
          p.rules.rules c := by
  have hlen' : vars.length = ta.lengths.length := hlen.trans ha.describes.length_eq.symm
  rw [Shape.lengths?_eq_some.1 ha.describes.lengths] at hbox
  refine computes_of_value ((pick_sublist _ _ _).nodup hnodup) hmeans fun I hI => ?_
  obtain ⟨u, _, hsame, _, hknown, helements⟩ := exists_elements hI ha hbound vars
  refine ⟨u.sum axes, fun h => by rw [hknown h], fun env index hbinds hunbound hin => ?_⟩
  obtain ⟨hindex, hkept⟩ := inBox_of_kept hbinds (length_pick_eq _ hlen' 0) hin
  generalize htest : Build.isReduced axes = test at *
  have hempty : pick test 0 vars = [] ↔ pick test 0 u.lengths = [] := by
    rw [hsame, ← List.length_eq_zero_iff, ← List.length_eq_zero_iff, length_pick_eq test hlen' 0]
  by_cases hnone : pick test 0 vars = []
  · have hvars : pick (fun n => !test n) 0 vars = vars := pick_rest_of_none test hnone
    have hrest : pick (fun n => !test n) 0 ta.lengths = ta.lengths :=
      pick_rest_of_none test (hsame ▸ hempty.1 hnone)
    rw [hvars] at hbinds
    rw [hrest] at hindex
    rw [hnone, List.isEmpty_nil, if_pos rfl, elementIndex_of_binds hbinds (Handle.vars_ne_nil hlen),
      helements env index hbinds hindex]
    simp only [Tensor.sum, htest, hempty.1 hnone, if_true]
  · rw [if_neg (by rwa [List.isEmpty_iff])]
    have howned : ∀ v ∈ pick test 0 vars, Owned domains v := by
      intro v hv
      refine ⟨_, hbox, ?_⟩
      rw [Domain.vars_box, List.map_fst_zip (by rw [List.length_map]; omega)]
      exact (pick_sublist _ _ _).subset hv
    have hboxed := boxed_pick hlen' hnodup (le_indexBound_of_mem hpos hbound) hdomains hbox test hbinds hindex hunbound
    have hbody : ∀ point, InBox point (pick test 0 ta.lengths) →
        I.value? (p.callOf a.rule (vars.map .var)) (env.at (pick test 0 vars) point) =
          some (u.element (weave test 0 ta.lengths.length point (Interpretation.elementIndex index))) := by
      intro point hpoint
      have hlength : (pick test 0 vars).length = point.length :=
        (length_pick_eq test hlen' 0).trans hpoint.length_eq.symm
      have hpicked := env.binds_at ((pick_sublist test 0 vars).nodup hnodup) hlength
      have hothers : (env.at (pick test 0 vars) point).Binds (pick (fun n => !test n) 0 vars) index :=
        binds_of_disjoint hbinds fun v hv hmem => not_mem_pick_of_mem test hnodup hmem hv
      have hweave : weave test 0 ta.lengths.length point (Interpretation.elementIndex index) =
          weave test 0 ta.lengths.length point index := by
        rcases hkept with hrest | helement
        · rw [weave_of_no_rest test hrest, weave_of_no_rest test hrest point index]
        · rw [helement]
      have hall := binds_weave test hpicked hothers
      rw [hlen'] at hall
      rw [hweave]
      exact helements _ _ hall (inBox_weave test hpoint hindex)
    rw [value?_sum_box (points_of_boxed hI howned hboxed) hbody]
    simp only [Tensor.sum, htest, hsame, if_neg (hsame ▸ fun h => hnone (hempty.2 h))]

theorem boxPoints_singleton (n : Nat) : boxPoints [n] = (List.range n).map fun (i : Nat) => [(i : Int)] := by
  have hflat : ∀ ns : List Nat, (ns.flatMap fun (i : Nat) => [[(i : Int)]]) = ns.map fun (i : Nat) => [(i : Int)] := by
    intro ns
    induction ns with
    | nil => rfl
    | cons n ns ih => rw [List.flatMap_cons, ih, List.map_cons, List.singleton_append]
  exact hflat (List.range n)

theorem exists_prefixSums {i j : String} {n : Nat} {I : Interpretation α} (hij : i ≠ j)
    (hI : I.Answers account domains p.rules.rules) (ha : p.Accounts account a ta) (hlengths : ta.lengths = [n])
    (hbound : (n : Int) ≤ indexBound) (hi : ownerOf domains i = .ok (prefixSumDomain i j (.fixed n)))
    (hj : ownerOf domains j = .ok (prefixSumDomain i j (.fixed n))) (howned : Owned domains j) :
    ∃ u : Tensor α, (account.Knows a ta → u = ta) ∧ ∀ index, InBox index [n] →
      I.value? (.sum [j] (p.callOf a.rule [.var j])) (Env.empty.at [i] index) = some (u.prefixSums.element index) := by
  have hcount : (elementCount ta.lengths : Int) ≤ indexBound := by
    rw [hlengths, elementCount, elementCount, Nat.mul_one]
    exact hbound
  obtain ⟨u, _, _, _, hknown, helements⟩ := exists_elements hI ha hcount [j]
  refine ⟨u, hknown, fun index hindex => ?_⟩
  cases index with
  | nil => exact hindex.elim
  | cons x index =>
    obtain rfl : index = [] := by
      cases index with
      | nil => rfl
      | cons y index => exact hindex.2.elim
    have hx := hindex.1
    have hcounts : (Extent.fixed n).Counts .empty [i, j] n := Word.signed_of_le hbound
    obtain ⟨_, hboxed⟩ := boxed_prefixSum hij hi hj hcounts rfl rfl
    have hpoints := points_of_boxed hI (by simpa using howned) (hboxed x hx.1 hx.2)
    have hbody : ∀ point, InBox point [x.toNat + 1] →
        I.value? (p.callOf a.rule [.var j]) ((Env.empty.bind i x).at [j] point) = some (u.element point) := by
      intro point hpoint
      refine helements _ point (Env.binds_at _ (List.nodup_singleton j) hpoint.length_eq.symm) ?_
      rw [hlengths]
      cases point with
      | nil => exact hpoint.elim
      | cons y point =>
        have hy := hpoint.1
        exact ⟨⟨hy.1, by omega⟩, hpoint.2⟩
    have hsum := value?_sum_box hpoints hbody
    rw [boxPoints_singleton, List.foldl_map] at hsum
    exact hsum

end Computes

end ArrayPlan
