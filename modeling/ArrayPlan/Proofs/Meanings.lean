import ArrayPlan.Proofs.Accounts
import ArrayPlan.Proofs.Definitions

/-!
Rules mean what their operations mean. The body of the rule that an operation registers has, at each index,
the element of the tensor that the operation makes of its operands.
-/

namespace ArrayPlan

variable {α : Type}

namespace Tensor

theorem clip_of_inBox {index : List Int} {lengths : List Nat} (h : InBox index lengths) :
    clip lengths index = index := by
  induction lengths generalizing index with
  | nil =>
    cases index with
    | nil => rfl
    | cons i index => exact h.elim
  | cons n lengths ih =>
    cases index with
    | nil => exact h.elim
    | cons i index =>
      have hi := h.1
      have hhead : (if n = 1 then 0 else i) = i := by
        by_cases hone : n = 1
        · rw [if_pos hone]
          omega
        · exact if_neg hone
      rw [clip, hhead, ih h.2]

theorem spreadAt_of_inBox {t : Tensor α} {index : List Int} (h : InBox index t.lengths) :
    t.spreadAt index = t.element index := by
  rw [spreadAt, h.length_eq, Nat.sub_self, List.drop_zero, clip_of_inBox h]

theorem spreadAt_of_unit {t : Tensor α} (h : t.lengths = [1]) {index : List Int} (hne : index ≠ []) :
    t.spreadAt index = t.element [0] := by
  have hlen : 0 < index.length := List.length_pos_iff.2 hne
  obtain ⟨x, hx⟩ : ∃ x, index.drop (index.length - 1) = [x] := by
    refine List.length_eq_one_iff.1 ?_
    rw [List.length_drop]
    omega
  rw [spreadAt, h, List.length_singleton, hx]
  rfl

theorem zipWith_broadcast_self (lengths : List Nat) :
    List.zipWith (fun m n => if m = 1 then n else m) lengths lengths = lengths := by
  induction lengths with
  | nil => rfl
  | cons n lengths ih =>
    rw [List.zipWith_cons_cons, ih]
    by_cases hone : n = 1
    · rw [if_pos hone]
    · rw [if_neg hone]

theorem alignTo_length (lengths : List Nat) : alignTo lengths.length lengths = lengths := by
  rw [alignTo, Nat.sub_self]
  rfl

theorem broadcastLengths_self (lengths : List Nat) : broadcastLengths lengths lengths = lengths := by
  simp only [broadcastLengths, Nat.max_self, alignTo_length]
  exact zipWith_broadcast_self lengths

theorem zipWith_broadcast_ones (lengths : List Nat) :
    List.zipWith (fun m n => if m = 1 then n else m) lengths (List.replicate lengths.length 1) = lengths ∧
      List.zipWith (fun m n => if m = 1 then n else m) (List.replicate lengths.length 1) lengths = lengths := by
  induction lengths with
  | nil => exact ⟨rfl, rfl⟩
  | cons n lengths ih =>
    have hhead : (if n = 1 then 1 else n) = n := by
      by_cases hone : n = 1
      · rw [if_pos hone, hone]
      · exact if_neg hone
    rw [List.length_cons, List.replicate_succ, List.zipWith_cons_cons, List.zipWith_cons_cons, ih.1, ih.2, hhead,
      if_pos rfl]
    exact ⟨rfl, rfl⟩

theorem alignTo_unit {n : Nat} (hn : 0 < n) : alignTo n [1] = List.replicate n 1 := by
  rw [alignTo, ← List.replicate_succ', List.length_singleton, Nat.sub_add_cancel hn]

theorem broadcastLengths_unit {lengths : List Nat} (hne : lengths ≠ []) :
    broadcastLengths lengths [1] = lengths ∧ broadcastLengths [1] lengths = lengths := by
  have hpos : 0 < lengths.length := List.length_pos_iff.2 hne
  have hmax : max lengths.length 1 = lengths.length := by omega
  have hmax' : max 1 lengths.length = lengths.length := by omega
  simp only [broadcastLengths, List.length_singleton, hmax, hmax', alignTo_length, alignTo_unit hpos]
  exact zipWith_broadcast_ones lengths

def AxesSpread (lengths common : List Nat) : Prop :=
  List.Forall₂ (fun m n => m = 1 ∨ m = n) lengths common

theorem inBox_clip {index : List Int} {lengths common : List Nat} (h : AxesSpread lengths common)
    (hbox : InBox index common) : InBox (clip lengths index) lengths := by
  induction h generalizing index with
  | nil =>
    cases index with
    | nil => trivial
    | cons i index => exact hbox.elim
  | @cons m n lengths common hmn _ ih =>
    cases index with
    | nil => exact hbox.elim
    | cons i index =>
      refine ⟨?_, ih hbox.2⟩
      have hi := hbox.1
      by_cases hone : m = 1
      · rw [if_pos hone, hone]
        exact ⟨by omega, by omega⟩
      · rw [if_neg hone, hmn.resolve_left hone]
        exact hi

theorem inBox_drop {index : List Int} {lengths : List Nat} (k : Nat) (h : InBox index lengths) :
    InBox (index.drop k) (lengths.drop k) := by
  induction k generalizing index lengths with
  | zero => exact h
  | succ k ih =>
    cases lengths with
    | nil =>
      cases index with
      | nil => trivial
      | cons i index => exact h.elim
    | cons n lengths =>
      cases index with
      | nil => exact h.elim
      | cons i index => exact ih h.2

theorem inBox_spread {index : List Int} {lengths common : List Nat}
    (h : AxesSpread (alignTo common.length lengths) common) (hbox : InBox index common) :
    InBox (clip lengths (index.drop (index.length - lengths.length))) lengths := by
  have hdrop := List.forall₂_drop (common.length - lengths.length) h
  rw [alignTo, List.drop_left' (List.length_replicate ..)] at hdrop
  refine inBox_clip hdrop ?_
  rw [hbox.length_eq]
  exact inBox_drop _ hbox

def spreadTo (t : Tensor α) (lengths : List Nat) : Tensor α :=
  { t with lengths, element := t.spreadAt }

end Tensor

section Joining

variable {axis : Nat} {as bs : List Nat} {extents : List Extent}

theorem joinAxis_fixed {m n : Nat} {e : Extent} (h : Shape.joinAxis (.fixed m) (.fixed n) = some e) :
    e = .fixed (if m = 1 then n else m) ∧ (m = 1 ∨ m = if m = 1 then n else m) ∧
      (n = 1 ∨ n = if m = 1 then n else m) := by
  have hunit : ∀ k : Nat, (Extent.fixed k).isUnit = true ↔ k = 1 := by
    intro k
    simp [Extent.isUnit]
  rw [Shape.joinAxis] at h
  by_cases hfirst : Extent.fixed m = Extent.fixed n ∨ (Extent.fixed n).isUnit = true
  · rw [if_pos hfirst] at h
    obtain rfl := Option.some.inj h
    rw [hunit, Extent.fixed.injEq] at hfirst
    by_cases hone : m = 1
    · simp only [hone, if_true, Extent.fixed.injEq]
      omega
    · simp only [hone, if_false]
      exact ⟨trivial, .inr trivial, by omega⟩
  · rw [if_neg hfirst] at h
    by_cases hone : (Extent.fixed m).isUnit = true
    · rw [if_pos hone] at h
      obtain rfl := Option.some.inj h
      rw [hunit] at hone
      simp [hone]
    · rw [if_neg hone] at h
      cases h

theorem joinAxes_fixed (hlen : as.length = bs.length)
    (h : Shape.joinAxes axis (as.map .fixed) (bs.map .fixed) = .ok extents) :
    extents = (List.zipWith (fun m n => if m = 1 then n else m) as bs).map .fixed ∧
      Tensor.AxesSpread as (List.zipWith (fun m n => if m = 1 then n else m) as bs) ∧
      Tensor.AxesSpread bs (List.zipWith (fun m n => if m = 1 then n else m) as bs) := by
  induction as generalizing axis bs extents with
  | nil =>
    cases bs with
    | nil =>
      simp only [List.map_nil, Shape.joinAxes, Except.ok.injEq] at h
      subst h
      exact ⟨rfl, .nil, .nil⟩
    | cons n bs => cases hlen
  | cons m as ih =>
    cases bs with
    | nil => cases hlen
    | cons n bs =>
      simp only [List.map_cons, Shape.joinAxes] at h
      split at h
      · cases h
      · rename_i e he
        cases hrest : Shape.joinAxes (axis + 1) (as.map .fixed) (bs.map .fixed) with
        | error k => simp [hrest, Except.map] at h
        | ok rest =>
          simp only [hrest, Except.map, Except.ok.injEq] at h
          subst h
          obtain ⟨hextents, has, hbs⟩ := ih (Nat.succ.inj hlen) hrest
          obtain ⟨rfl, hm, hn⟩ := joinAxis_fixed he
          rw [hextents]
          exact ⟨rfl, .cons hm has, .cons hn hbs⟩

end Joining

theorem broadcast_fixed {a b common : Shape} {as bs : List Nat} (has : a.lengths? = some as)
    (hbs : b.lengths? = some bs) (h : Shape.broadcast a b = .ok common) :
    common.lengths? = some (broadcastLengths as bs) ∧
      Tensor.AxesSpread (alignTo (broadcastLengths as bs).length as) (broadcastLengths as bs) ∧
      Tensor.AxesSpread (alignTo (broadcastLengths as bs).length bs) (broadcastLengths as bs) := by
  have hpad : ∀ {s : Shape} {lengths : List Nat} (rank : Nat), s.lengths? = some lengths →
      s.padTo rank = (alignTo rank lengths).map .fixed := by
    intro s lengths rank hs
    rw [Shape.padTo, alignTo, List.map_append, List.map_replicate, Shape.lengths?_eq_some.1 hs,
      Shape.length_of_lengths? hs]
  have hlength : ∀ {lengths : List Nat} {rank : Nat}, lengths.length ≤ rank → (alignTo rank lengths).length = rank := by
    intro lengths rank hle
    rw [alignTo, List.length_append, List.length_replicate]
    omega
  have hjoin := Shape.broadcast_extents h
  rw [hpad _ has, hpad _ hbs, ← Shape.length_of_lengths? has, ← Shape.length_of_lengths? hbs] at hjoin
  have hlen : (alignTo (max as.length bs.length) as).length = (alignTo (max as.length bs.length) bs).length := by
    rw [hlength (Nat.le_max_left ..), hlength (Nat.le_max_right ..)]
  obtain ⟨hextents, hleft, hright⟩ := joinAxes_fixed hlen hjoin
  have hcommon : (broadcastLengths as bs).length = max as.length bs.length := by
    rw [broadcastLengths, List.length_zipWith, hlen, Nat.min_self, hlength (Nat.le_max_right ..)]
  rw [hcommon]
  exact ⟨Shape.lengths?_eq_some.2 hextents, hleft, hright⟩

variable [Scalar α]

/-- The cell is that of a tensor, and says what the elements are only if the operands are known. -/
structure Cell.Means (c : Cell α) (t : Tensor α) (known : Prop) : Prop where
  lengths : c.lengths = t.lengths
  value : ∀ f, c.value = some f → known ∧ ∀ index, InBox index t.lengths → f index = t.element index

structure Plan.Accounts (p : Plan) (account : Account α) (a : Handle) (t : Tensor α) : Prop where
  live : p.Live a
  describes : t.Describes a
  lengths : (account a.rule).lengths = t.lengths

def Account.Knows (account : Account α) (a : Handle) (t : Tensor α) : Prop :=
  (account a.rule).value = some t.element

namespace Interpretation

variable {I : Interpretation α} {env : Env}

theorem value?_toExpr (v : Literal) : I.value? v.toExpr env = some v.number := by
  cases v <;> rfl

theorem value?_apply (op : Operator) {lhs rhs : Expr} {x y : α} (hx : I.value? lhs env = some x)
    (hy : I.value? rhs env = some y) : I.value? (op.apply lhs rhs) env = some (op.number x y) := by
  cases op <;> (simp only [Operator.apply, value?, hx, hy]; rfl)

end Interpretation

theorem InBox.bounded {index : List Int} {lengths : List Nat} (h : InBox index lengths)
    (hbound : (elementCount lengths : Int) ≤ indexBound) : ∀ x ∈ index, 0 ≤ x ∧ x ≤ indexBound := by
  intro x hx
  have hrange := h.le_elementCount x hx
  omega

theorem Handle.vars_ne_nil {a : Handle} {vars : List String} (hlen : vars.length = a.rank) : vars ≠ [] := by
  have hrank : 0 < a.rank := a.shape.rank_pos
  exact List.ne_nil_of_length_pos (by omega)

section Computes

variable {p : Plan} {account : Account α} {domains : List Domain} {name : String} {c : Cell α} {t : Tensor α}
  {known : Prop}

/-- A rule computes the cell of a tensor, when its body has the elements of a tensor that is the same one if the
operands are known. -/
theorem computes_of_value {rules : List Rule} {vars : List String} {body : Expr} (hnodup : vars.Nodup)
    (hmeans : c.Means t known)
    (hvalue : ∀ I : Interpretation α, I.Answers account domains rules → ∃ u : Tensor α, (known → u = t) ∧
      ∀ env index, env.Binds vars index → (∀ v, v ∉ vars → env.value? v = none) →
        InBox (Interpretation.elementIndex index) t.lengths →
          I.value? body env = some (u.element (Interpretation.elementIndex index))) :
    (Rule.mk name vars body).Computes account domains rules c := by
  intro I hI index htakes
  obtain ⟨u, hu, hbody⟩ := hvalue I hI
  have hlen : vars.length = index.length := htakes.1.symm
  have hbox : InBox (Interpretation.elementIndex index) t.lengths := hmeans.lengths ▸ htakes.2
  have hunbound : ∀ v, v ∉ vars → (Env.empty.at vars index).value? v = none := fun v hv =>
    Env.empty.value?_at_of_not_mem hv
  refine ⟨_, hbody _ index (Env.empty.binds_at hnodup hlen) hunbound hbox, fun f hf => ?_⟩
  obtain ⟨hknown, helement⟩ := hmeans.value f hf
  rw [hu hknown, helement _ hbox]

theorem elementIndex_of_binds {vars : List String} {env : Env} {index : List Int} (hbinds : env.Binds vars index)
    (hvars : vars ≠ []) : Interpretation.elementIndex index = index := by
  refine Interpretation.elementIndex_of_ne_nil fun h => hvars ?_
  subst h
  exact List.forall₂_nil_right_iff.1 hbinds

theorem computes_full {lengths : List Nat} {elementType : ElementType} {value v : Literal} {vars : List String}
    {rules : List Rule} (hnodup : vars.Nodup) (hcast : value.cast elementType = .ok v)
    (hmeans : c.Means (.full lengths elementType (value.numberAs elementType)) known) :
    (Rule.mk name vars v.toExpr).Computes account domains rules c := by
  refine computes_of_value hnodup hmeans fun I _ => ⟨_, fun _ => rfl, fun env index _ _ _ => ?_⟩
  rw [Interpretation.value?_toExpr, Tensor.full, Literal.numberAs, hcast]

theorem computes_range {n : Nat} {var : String} {rules : List Rule} (hmeans : c.Means (.iota n) known) :
    (Rule.mk name [var] (.var var)).Computes account domains rules c := by
  refine computes_of_value (List.nodup_singleton var) hmeans fun I _ => ⟨_, fun _ => rfl, ?_⟩
  intro env index hbinds _ _
  rw [elementIndex_of_binds hbinds (by simp)]
  cases hbinds with
  | @cons _ x _ _ hx _ => exact Interpretation.value?_var hx

variable [ExactIndices α] {a b : Handle} {ta tb : Tensor α}

theorem exists_elements {I : Interpretation α} (hI : I.Answers account domains p.rules.rules)
    (ha : p.Accounts account a ta) (hbound : (elementCount ta.lengths : Int) ≤ indexBound) (vars : List String) :
    ∃ u : Tensor α, u.Describes a ∧ u.lengths = ta.lengths ∧ p.Yields I a u ∧ (account.Knows a ta → u = ta) ∧
      ∀ env index, env.Binds vars index → InBox index ta.lengths →
        I.value? (p.callOf a.rule (vars.map .var)) env = some (u.element index) := by
  obtain ⟨u, hdescribes, hlengths, hyields, hknown⟩ := exists_yields hI ha.live ha.describes ha.lengths
  refine ⟨u, hdescribes, hlengths, hyields, hknown, fun env index hbinds hbox => ?_⟩
  have hposition := Interpretation.position?_vars (I := I) hbinds (hbox.bounded hbound)
  exact hyields.callOf _ env index hposition (hlengths ▸ hbox)

theorem computes_combineLiteral (op : Operator) (value : Literal) (literalFirst : Bool) {vars : List String}
    (hnodup : vars.Nodup) (hlen : vars.length = a.rank) (ha : p.Accounts account a ta)
    (hbound : (elementCount ta.lengths : Int) ≤ indexBound)
    (hmeans : c.Means (ta.combineLiteral op value.number literalFirst) (account.Knows a ta)) :
    (Rule.mk name vars (if literalFirst then op.apply value.toExpr (p.callOf a.rule (vars.map .var))
      else op.apply (p.callOf a.rule (vars.map .var)) value.toExpr)).Computes account domains p.rules.rules c := by
  refine computes_of_value hnodup hmeans fun I hI => ?_
  obtain ⟨u, _, hlengths, _, hknown, helements⟩ := exists_elements hI ha hbound vars
  refine ⟨u.combineLiteral op value.number literalFirst, fun h => by rw [hknown h], fun env index hbinds _ hbox => ?_⟩
  rw [elementIndex_of_binds hbinds (Handle.vars_ne_nil hlen)] at hbox ⊢
  have helement := helements env index hbinds hbox
  have hliteral : I.value? value.toExpr env = some value.number := Interpretation.value?_toExpr value
  cases literalFirst with
  | true => exact Interpretation.value?_apply op hliteral helement
  | false => exact Interpretation.value?_apply op helement hliteral

def ReadsSpread (e : Expr) (account : Account α) (domains : List Domain) (rules : List Rule) (vars : List String)
    (lengths : List Nat) (a : Handle) (t : Tensor α) : Prop :=
  ∀ I : Interpretation α, I.Answers account domains rules → ∃ u : Tensor α, (account.Knows a t → u = t) ∧
    ∀ env index, env.Binds vars index → InBox index lengths → I.value? e env = some (u.spreadAt index)

theorem readsSpread_vars (ha : p.Accounts account a ta) (hbound : (elementCount ta.lengths : Int) ≤ indexBound)
    (vars : List String) :
    ReadsSpread (p.callOf a.rule (vars.map .var)) account domains p.rules.rules vars ta.lengths a ta := by
  intro I hI
  obtain ⟨u, _, hlengths, _, hknown, helements⟩ := exists_elements hI ha hbound vars
  refine ⟨u, hknown, fun env index hbinds hbox => ?_⟩
  rw [helements env index hbinds hbox, Tensor.spreadAt_of_inBox (hlengths ▸ hbox)]

theorem readsSpread_origin (ha : p.Accounts account a ta) (hunit : ta.lengths = [1]) {vars : List String}
    (hvars : vars ≠ []) (lengths : List Nat) :
    ReadsSpread (p.callAtOrigin a.rule) account domains p.rules.rules vars lengths a ta := by
  intro I hI
  obtain ⟨u, _, hlengths, hyields, hknown⟩ := exists_yields hI ha.live ha.describes ha.lengths
  refine ⟨u, hknown, fun env index hbinds _ => ?_⟩
  have hne : index ≠ [] := by
    rintro rfl
    exact hvars (List.forall₂_nil_right_iff.1 hbinds)
  rw [hyields.origin (hlengths.trans hunit) env, Tensor.spreadAt_of_unit (hlengths.trans hunit) hne]

omit [ExactIndices α] in
theorem computes_combine (op : Operator) {lhs rhs : Expr} {rules : List Rule} {vars : List String}
    (hnodup : vars.Nodup) (hvars : vars ≠ [])
    (hlhs : ReadsSpread lhs account domains rules vars (broadcastLengths ta.lengths tb.lengths) a ta)
    (hrhs : ReadsSpread rhs account domains rules vars (broadcastLengths ta.lengths tb.lengths) b tb)
    (hmeans : c.Means (ta.combine op tb) (account.Knows a ta ∧ account.Knows b tb)) :
    (Rule.mk name vars (op.apply lhs rhs)).Computes account domains rules c := by
  refine computes_of_value hnodup hmeans fun I hI => ?_
  obtain ⟨u, hu, hleft⟩ := hlhs I hI
  obtain ⟨v, hv, hright⟩ := hrhs I hI
  refine ⟨u.combine op v, fun h => by rw [hu h.1, hv h.2], fun env index hbinds _ hbox => ?_⟩
  rw [elementIndex_of_binds hbinds hvars] at hbox ⊢
  exact Interpretation.value?_apply op (hleft env index hbinds hbox) (hright env index hbinds hbox)

theorem position?_spreadIndex {I : Interpretation α} {env : Env} {lengths : List Nat} {vars : List String}
    {index : List Int} (hbinds : env.Binds vars index) (hlen : lengths.length = index.length)
    (hbound : ∀ x ∈ index, 0 ≤ x ∧ x ≤ indexBound) :
    I.position? (Build.spreadIndex (lengths.map .fixed) vars) env = some (clip lengths index) := by
  induction hbinds generalizing lengths with
  | nil =>
    obtain rfl := List.length_eq_zero_iff.1 hlen
    rfl
  | @cons v x vars index hv _ ih =>
    cases lengths with
    | nil => cases hlen
    | cons n lengths =>
      have htail := ih (Nat.succ.inj hlen) fun y hy => hbound y (List.mem_cons_of_mem x hy)
      rw [List.map_cons, Build.spreadIndex, clip]
      by_cases hone : n = 1
      · simp only [Extent.isUnit, hone, beq_self_eq_true, if_true]
        exact Interpretation.position?_cons_int (by decide) htail
      · have hunit : (Extent.fixed n).isUnit = false := by simpa [Extent.isUnit] using hone
        simp only [hunit, hone, if_false, Bool.false_eq_true]
        exact Interpretation.position?_cons_var hv (hbound x List.mem_cons_self) htail

theorem computes_spread {common : Shape} {vars : List String} {lengths : List Nat} (hnodup : vars.Nodup)
    (hlen : vars.length = common.rank) (ha : p.Accounts account a ta) (hcommon : common.lengths? = some lengths)
    (hspread : Tensor.AxesSpread (alignTo lengths.length ta.lengths) lengths)
    (hbound : (elementCount lengths : Int) ≤ indexBound) (hmeans : c.Means (ta.spreadTo lengths) (account.Knows a ta)) :
    (Rule.mk name vars (p.callOf a.rule (Build.spreadIndex a.shape.extents
      (vars.drop (common.rank - a.rank))))).Computes account domains p.rules.rules c := by
  have hrank : lengths.length = common.rank := Shape.length_of_lengths? hcommon
  have hvars : vars ≠ [] := by
    have hpos := common.rank_pos
    exact List.ne_nil_of_length_pos (by omega)
  refine computes_of_value hnodup hmeans fun I hI => ?_
  obtain ⟨u, hdescribes, hlengths, hyields, hknown⟩ := exists_yields hI ha.live ha.describes ha.lengths
  refine ⟨u.spreadTo lengths, fun h => by rw [hknown h], fun env index hbinds _ hbox => ?_⟩
  rw [elementIndex_of_binds hbinds hvars] at hbox ⊢
  have hbox' : InBox index lengths := hbox
  have hinside := Tensor.inBox_spread hspread hbox'
  have hdrop : common.rank - a.rank = index.length - ta.lengths.length := by
    rw [hbox'.length_eq, hrank, ha.describes.length_eq]
  have hbinds' := List.forall₂_drop (index.length - ta.lengths.length) hbinds
  have hle : ta.lengths.length ≤ index.length := by
    have hsame := hspread.length_eq
    rw [alignTo, List.length_append, List.length_replicate] at hsame
    have hindex := hbox'.length_eq
    omega
  have hposition : I.position? (Build.spreadIndex a.shape.extents (vars.drop (common.rank - a.rank))) env =
      some (clip ta.lengths (index.drop (index.length - ta.lengths.length))) := by
    rw [Shape.lengths?_eq_some.1 ha.describes.lengths, hdrop]
    refine position?_spreadIndex hbinds' ?_ fun x hx => hbox'.bounded hbound x (List.mem_of_mem_drop hx)
    rw [List.length_drop]
    omega
  rw [hyields.callOf _ env _ hposition (hlengths ▸ hinside), ← hlengths]
  rfl

end Computes

end ArrayPlan
