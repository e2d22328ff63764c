import ArrayPlan.Proofs.Ledgers

/-!
What a write queues. Where the positions of a write are accounted for, its statement stores at the elements that the
write stands for, one after the other, over the points of the region; where the value is accounted for as well, it
stores what the write stands for.
-/

namespace ArrayPlan

variable {α : Type} [Scalar α]

structure Plan.Has (p : Plan) (account : Account α) (a : Handle) (t : Tensor α) : Prop where
  accounts : p.Accounts account a t
  knows : account.Knows a t
  bound : (elementCount t.lengths : Int) ≤ indexBound

inductive Index.Stands (p : Plan) (account : Account α) : Index Handle → Index (Tensor α) → Prop where
  | at (position : Nat) : Stands p account (.at position) (.at position)
  | all : Stands p account .all .all
  | slice (start stop step : Option Int) : Stands p account (.slice start stop step) (.slice start stop step)
  | gather {a : Handle} {t : Tensor α} (h : p.Has account a t) : Stands p account (.gather a) (.gather t)

inductive Operand.Stands (p : Plan) (account : Account α) : Operand Handle → Operand (Tensor α) → Prop where
  | literal (value : Literal) : Stands p account (.literal value) (.literal value)
  | array {a : Handle} {t : Tensor α} (h : p.Has account a t) : Stands p account (.array a) (.array t)

inductive Operand.Reads (p : Plan) (I : Interpretation α) : Operand Handle → Operand (Tensor α) → Prop where
  | literal (value : Literal) : Reads p I (.literal value) (.literal value)
  | array {a : Handle} {t : Tensor α} (describes : t.Describes a) (yields : p.Yields I a t)
      (bound : (elementCount t.lengths : Int) ≤ indexBound) : Reads p I (.array a) (.array t)

/-- What a write stores, with values where they are given. -/
def Tensor.partialUpdates (t : Tensor α) (entries : List (Index (Tensor α))) (stored : List Int → Option α) :
    List (List Int × Option α) :=
  (boxPoints (regionLengths entries t.lengths)).map fun point => (addressed entries point, stored point)

section Region

variable {p : Plan} {account : Account α} {index : List (Index Handle)} {entries : List (Index (Tensor α))}
  {lengths : List Nat}

omit [Scalar α] in
theorem lengths_of_rank_one {a : Handle} {t : Tensor α} (hd : t.Describes a) (hrank : a.rank = 1) :
    t.lengths = [t.lengths.headD 0] ∧ a.shape.extents = [.fixed (t.lengths.headD 0)] := by
  have hlength := hd.length_eq
  rw [hrank] at hlength
  obtain ⟨n, hn⟩ := List.length_eq_one_iff.1 hlength
  refine ⟨by rw [hn]; rfl, ?_⟩
  rw [Shape.lengths?_eq_some.1 hd.lengths, hn]
  rfl

omit [Scalar α] in
theorem region_fixed (hstands : List.Forall₂ (Index.Stands p account) index entries)
    (hwritable : ∀ e ∈ index.zip (lengths.map .fixed), p.Writable e.1 e.2) :
    WriteAxis.region (writtenAxes index (lengths.map .fixed)) =
      (Tensor.regionLengths entries lengths).map .fixed := by
  induction hstands generalizing lengths with
  | nil => rfl
  | @cons entry entry' index entries hentry _ ih =>
    cases lengths with
    | nil =>
      cases hentry <;> rfl
    | cons n lengths =>
      have hhead := hwritable (entry, .fixed n) List.mem_cons_self
      have htail := @ih lengths fun e he => hwritable e (List.mem_cons_of_mem _ he)
      rw [WriteAxis.region] at htail ⊢
      cases hentry with
      | «at» position => exact htail
      | all => exact congrArg (Extent.fixed n :: ·) htail
      | slice start stop step => exact congrArg (Extent.fixed n :: ·) htail
      | @gather a t h =>
        have hextents := (lengths_of_rank_one h.accounts.describes hhead.2.1).2
        rw [List.map_cons, writtenAxes, List.filterMap_cons, WriteAxis.extent?, hextents, htail]
        rfl

variable [ExactIndices α] {I : Interpretation α} {domains : List Domain} {env : Env}

theorem Plan.Has.yields {a : Handle} {t : Tensor α} (h : p.Has account a t)
    (hI : I.Answers account domains p.rules.rules) : p.Yields I a t := by
  obtain ⟨u, _, _, hyields, hknown⟩ :=
    exists_yields hI h.accounts.live h.accounts.describes h.accounts.lengths
  rw [hknown h.knows] at hyields
  exact hyields

theorem position?_targetArgs (hI : I.Answers account domains p.rules.rules)
    (hstands : List.Forall₂ (Index.Stands p account) index entries)
    (hwritable : ∀ e ∈ index.zip (lengths.map .fixed), p.Writable e.1 e.2) (hlen : index.length = lengths.length)
    (hlengths : ∀ n ∈ lengths, (n : Int) ≤ indexBound) {vars : List String} {point : List Int}
    (hbinds : env.Binds vars point) (hpoint : InBox point (Tensor.regionLengths entries lengths)) :
    I.position? (p.targetArgs (writtenAxes index (lengths.map .fixed)) vars) env =
      some (Tensor.addressed entries point) := by
  induction hstands generalizing lengths vars point with
  | nil =>
    cases hbinds <;> rfl
  | @cons entry entry' index entries hentry _ ih =>
    cases lengths with
    | nil => cases hlen
    | cons n lengths =>
      have hhead := hwritable (entry, .fixed n) List.mem_cons_self
      have hbound := hlengths n List.mem_cons_self
      have htail : ∀ vars rest, env.Binds vars rest → InBox rest (Tensor.regionLengths entries lengths) →
          I.position? (p.targetArgs (writtenAxes index (lengths.map .fixed)) vars) env =
            some (Tensor.addressed entries rest) := fun vars rest hrest hin =>
        ih (fun e he => hwritable e (List.mem_cons_of_mem _ he)) (Nat.succ.inj hlen)
          (fun m hm => hlengths m (List.mem_cons_of_mem n hm)) hrest hin
      cases hentry with
      | «at» position =>
        have hlt : position < n := hhead
        rw [List.map_cons, writtenAxes, Plan.targetArgs, Word.signed_of_le (by omega)]
        exact Interpretation.position?_cons_int ⟨Int.natCast_nonneg position, by omega⟩ (htail vars point hbinds hpoint)
      | all =>
        cases hbinds with
        | nil => exact hpoint.elim
        | cons hv hrest =>
          have hx := hpoint.1
          exact Interpretation.position?_cons_var hv ⟨hx.1, by omega⟩ (htail _ _ hrest hpoint.2)
      | slice start stop step =>
        cases hbinds with
        | nil => exact hpoint.elim
        | cons hv hrest =>
          have hx := hpoint.1
          exact Interpretation.position?_cons_var hv ⟨hx.1, by omega⟩ (htail _ _ hrest hpoint.2)
      | @gather a t h =>
        cases hbinds with
        | nil => exact hpoint.elim
        | @cons v x vars point hv hrest =>
          have hbox : InBox [x] t.lengths := by
            rw [(lengths_of_rank_one h.accounts.describes hhead.2.1).1]
            exact ⟨hpoint.1, trivial⟩
          have hposition : I.position? [.var v] env = some [x] :=
            Interpretation.position?_cons_var hv (hbox.bounded h.bound x (by simp)) Interpretation.position?_nil
          have hvalue := (h.yields hI).callOf [.var v] env [x] hposition hbox
          exact Interpretation.position?_cons hvalue (htail _ _ hrest hpoint.2)

omit [Scalar α] [ExactIndices α] in
theorem shape_eq_unit {s : Shape} (h : s.lengths? = some [1]) : s = .unit := by
  have hextents := Shape.lengths?_eq_some.1 h
  cases s
  simp only [List.map_cons, List.map_nil] at hextents
  subst hextents
  rfl

theorem Operand.Stands.reads {value : Operand Handle} {u : Operand (Tensor α)} (h : Operand.Stands p account value u)
    (hI : I.Answers account domains p.rules.rules) : Operand.Reads p I value u := by
  cases h with
  | literal value => exact .literal value
  | array h => exact .array h.accounts.describes (h.yields hI) h.bound

theorem Operand.exists_reads {value : Operand Handle} (hI : I.Answers account domains p.rules.rules)
    (haccounts : ∀ a, value = .array a → ∃ t, p.Accounts account a t ∧ (elementCount t.lengths : Int) ≤ indexBound) :
    ∃ u, Operand.Reads p I value u := by
  cases value with
  | literal value => exact ⟨_, .literal value⟩
  | array a =>
    obtain ⟨t, ha, hbound⟩ := haccounts a rfl
    obtain ⟨u, hdescribes, hlengths, hyields, _⟩ := exists_yields hI ha.live ha.describes ha.lengths
    exact ⟨_, .array hdescribes hyields (hlengths ▸ hbound)⟩

theorem value?_storedValue {elementType : ElementType} {region : List Nat} {value v : Operand Handle}
    {u : Operand (Tensor α)} (hreads : Operand.Reads p I value u)
    (hstored : p.Stored elementType (region.map .fixed) value v) {vars : List String} {point : List Int}
    (hbinds : env.Binds vars point) (hpoint : InBox point region) :
    I.value? (p.storedValue vars v) env = some (Tensor.written elementType u point) := by
  cases hstored with
  | literal hcast =>
    cases hreads
    rw [Plan.storedValue, Interpretation.value?_toExpr, Tensor.written, Literal.numberAs, hcast]
  | @array a hlive hfit =>
    cases hreads with
    | @array _ t hdescribes hyields hbound =>
      have hlengths := hdescribes.lengths
      by_cases hunit : a.shape = .unit
      · have hone := hdescribes.lengths_unit hunit
        have hcall : p.storedValue vars (.array a) = p.callAtOrigin a.rule := by
          simp [Plan.storedValue, Shape.isUnit, hunit]
        rw [hcall, hyields.origin hone env, Tensor.written, if_pos hone]
      · obtain ⟨hregion, hextents⟩ := hfit.resolve_left hunit
        have hne : t.lengths ≠ [1] := fun hone => hunit (shape_eq_unit (hone ▸ hlengths))
        have hsame : t.lengths = region := by
          have hmap := (Shape.lengths?_eq_some.1 hlengths).symm.trans hextents
          exact (List.map_inj_right fun _ _ h => Extent.fixed.inj h).1 hmap
        have hvars : vars ≠ [] := by
          rintro rfl
          obtain rfl := List.forall₂_nil_left_iff.1 hbinds
          have hlength := hpoint.length_eq
          exact hregion (by rw [List.length_eq_zero_iff.1 hlength.symm]; rfl)
        have hcall : p.storedValue vars (.array a) = p.callOf a.rule (vars.map .var) := by
          simp [Plan.storedValue, Shape.isUnit, hunit, hvars]
        have hbox : InBox point t.lengths := hsame ▸ hpoint
        have hposition := Interpretation.position?_vars (I := I) hbinds (hbox.bounded hbound)
        rw [hcall, hyields.callOf _ env point hposition hbox, Tensor.written, if_neg hne]

def knownUpdates (us : List (List Int × α)) : List (List Int × Option α) :=
  us.map fun u => (u.1, some u.2)

omit [Scalar α] [ExactIndices α] in
theorem boxUpdates_known (lengths cellLengths : List Nat) (f : List Int → α) :
    boxUpdates lengths (Cell.value? ⟨cellLengths, some f⟩) = knownUpdates (boxUpdates lengths f) := by
  rw [knownUpdates, boxUpdates, boxUpdates, List.map_map]
  rfl

omit [Scalar α] [ExactIndices α] in
theorem pick_all {β : Type} (place : Nat) (xs : List β) :
    pick (fun _ => true) place xs = xs ∧ pick (fun _ => !true) place xs = [] := by
  induction xs generalizing place with
  | nil => exact ⟨rfl, rfl⟩
  | cons x xs ih =>
    obtain ⟨hall, hnone⟩ := ih (place + 1)
    exact ⟨congrArg (x :: ·) hall, hnone⟩

omit [Scalar α] [ExactIndices α] in
theorem boxed_region {vars : List String} {region : List Nat} (hlen : vars.length = region.length)
    (hnodup : vars.Nodup) (hbound : ∀ n ∈ region, (n : Int) ≤ indexBound)
    (hdomains : (domains.flatMap Domain.vars).Nodup)
    (hdomain : ∀ d ∈ regionDomains vars (region.map .fixed), d ∈ domains) : Boxed domains .empty vars region := by
  by_cases hvars : vars = []
  · subst hvars
    obtain rfl := List.length_eq_zero_iff.1 hlen.symm
    trivial
  · have hbox : .box (vars.zip (region.map .fixed)) ∈ domains := by
      refine hdomain _ ?_
      rw [regionDomains, if_neg (by rwa [List.isEmpty_iff])]
      exact List.mem_singleton_self _
    have hbinds : Env.empty.Binds (pick (fun n => !(fun _ => true) n) 0 vars) [] := by
      rw [(pick_all 0 vars).2]
      exact .nil
    have hindex : InBox [] (pick (fun n => !(fun _ => true) n) 0 region) := by
      rw [(pick_all 0 region).2]
      trivial
    have hboxed := boxed_pick hlen hnodup hbound hdomains hbox (fun _ => true) hbinds hindex fun _ _ => rfl
    rwa [(pick_all 0 vars).1, (pick_all 0 region).1] at hboxed

omit [Scalar α] [ExactIndices α] in
theorem regionLengths_le (hstands : List.Forall₂ (Index.Stands p account) index entries)
    (hwritable : ∀ e ∈ index.zip (lengths.map .fixed), p.Writable e.1 e.2)
    (hlengths : ∀ n ∈ lengths, (n : Int) ≤ indexBound) :
    ∀ n ∈ Tensor.regionLengths entries lengths, (n : Int) ≤ indexBound := by
  induction hstands generalizing lengths with
  | nil => exact fun n hn => nomatch hn
  | @cons entry entry' index entries hentry _ ih =>
    cases lengths with
    | nil =>
      intro n hn
      cases hentry <;> cases hn
    | cons m lengths =>
      have hhead := hwritable (entry, .fixed m) List.mem_cons_self
      have hm := hlengths m List.mem_cons_self
      have htail := @ih lengths (fun e he => hwritable e (List.mem_cons_of_mem _ he))
        fun n hn => hlengths n (List.mem_cons_of_mem m hn)
      intro n hn
      cases hentry with
      | «at» position => exact htail n hn
      | all =>
        rcases List.mem_cons.1 hn with rfl | hn
        · exact hm
        · exact htail n hn
      | slice start stop step =>
        rcases List.mem_cons.1 hn with rfl | hn
        · exact hm
        · exact htail n hn
      | @gather a t h =>
        rcases List.mem_cons.1 hn with rfl | hn
        · have hbound := h.bound
          rw [(lengths_of_rank_one h.accounts.describes hhead.2.1).1, elementCount, elementCount, Nat.mul_one] at hbound
          exact hbound
        · exact htail n hn

omit [Scalar α] [ExactIndices α] in
theorem exists_stands (p : Plan) (account : Account α) (hplain : ∀ b, Index.gather b ∉ index) :
    ∃ entries, List.Forall₂ (Index.Stands p account) index entries := by
  induction index with
  | nil => exact ⟨[], .nil⟩
  | cons entry index ih =>
    obtain ⟨entries, hstands⟩ := ih fun b hb => hplain b (List.mem_cons_of_mem _ hb)
    cases entry with
    | «at» position => exact ⟨_, .cons (.at position) hstands⟩
    | all => exact ⟨_, .cons .all hstands⟩
    | slice start stop step => exact ⟨_, .cons (.slice start stop step) hstands⟩
    | gather b => exact absurd List.mem_cons_self (hplain b)

omit [ExactIndices α] in
theorem inBox_addressed (hstands : List.Forall₂ (Index.Stands p account) index entries)
    (hplain : ∀ b, Index.gather b ∉ index) (hwritable : ∀ e ∈ index.zip (lengths.map .fixed), p.Writable e.1 e.2)
    (hlen : index.length = lengths.length) {point : List Int}
    (hpoint : InBox point (Tensor.regionLengths entries lengths)) :
    InBox (Tensor.addressed entries point) lengths := by
  induction hstands generalizing lengths point with
  | nil =>
    obtain rfl : lengths = [] := List.length_eq_zero_iff.1 hlen.symm
    cases point with
    | nil => trivial
    | cons i point => exact hpoint.elim
  | @cons entry entry' index entries hentry _ ih =>
    cases lengths with
    | nil => cases hlen
    | cons n lengths =>
      have hhead := hwritable (entry, .fixed n) List.mem_cons_self
      have htail : ∀ rest, InBox rest (Tensor.regionLengths entries lengths) →
          InBox (Tensor.addressed entries rest) lengths := fun rest hrest =>
        ih (fun b hb => hplain b (List.mem_cons_of_mem _ hb)) (fun e he => hwritable e (List.mem_cons_of_mem _ he)) (Nat.succ.inj hlen) hrest
      cases hentry with
      | «at» position =>
        have hlt : position < n := hhead
        exact ⟨⟨Int.natCast_nonneg position, Int.ofNat_lt.2 hlt⟩, htail point hpoint⟩
      | all =>
        cases point with
        | nil => exact hpoint.elim
        | cons i point => exact ⟨hpoint.1, htail point hpoint.2⟩
      | slice start stop step =>
        cases point with
        | nil => exact hpoint.elim
        | cons i point => exact ⟨hpoint.1, htail point hpoint.2⟩
      | @gather b t h => exact absurd List.mem_cons_self (hplain b)

/-- The statement of a write stores where the write stands for, and what it stands for as far as that is known. -/
theorem stores_store {t : Tensor α} {elementType : ElementType} {value v : Operand Handle}
    {stored : List Int → Option α} {array : String} {vars : List String}
    (hstands : List.Forall₂ (Index.Stands p account) index entries)
    (hwritable : ∀ e ∈ index.zip (t.lengths.map .fixed), p.Writable e.1 e.2) (hlen : index.length = t.lengths.length)
    (hlengths : ∀ n ∈ t.lengths, (n : Int) ≤ indexBound)
    (hvalue : ∀ I : Interpretation α, I.Answers account domains p.rules.rules → ∃ u, Operand.Reads p I value u ∧
      ∀ point x, stored point = some x → Tensor.written elementType u point = x)
    (hstored : p.Stored elementType (WriteAxis.region (writtenAxes index (t.lengths.map .fixed))) value v)
    (hnodup : vars.Nodup)
    (hvars : vars.length = (WriteAxis.region (writtenAxes index (t.lengths.map .fixed))).length)
    (hdomains : (domains.flatMap Domain.vars).Nodup)
    (hdomain : ∀ d ∈ regionDomains vars (WriteAxis.region (writtenAxes index (t.lengths.map .fixed))), d ∈ domains) :
    (p.storeOf array (writtenAxes index (t.lengths.map .fixed)) v vars).Stores account domains p.rules.rules array
      (t.partialUpdates entries stored) := by
  rw [region_fixed hstands hwritable] at hstored hvars hdomain
  rw [List.length_map] at hvars
  have hboxed := boxed_region hvars hnodup (regionLengths_le hstands hwritable hlengths) hdomains hdomain
  refine ⟨_, (boxPoints (Tensor.regionLengths entries t.lengths)).map (Env.empty.at vars), rfl,
    pointsOver_of_boxed hboxed, ?_⟩
  rw [Tensor.partialUpdates, List.forall₂_map_left_iff, List.forall₂_map_right_iff, List.forall₂_same]
  intro point hpoint I hI
  have hbox := mem_boxPoints.1 hpoint
  have hbinds := Env.empty.binds_at hnodup (hvars.trans hbox.length_eq.symm)
  obtain ⟨u, hreads, hknown⟩ := hvalue I hI
  refine ⟨position?_targetArgs hI hstands hwritable hlen hlengths hbinds hbox, ?_⟩
  exact ⟨_, value?_storedValue hreads hstored hbinds hbox, hknown point⟩

end Region

end ArrayPlan
