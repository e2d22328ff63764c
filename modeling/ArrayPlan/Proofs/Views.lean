import ArrayPlan.Proofs.Meanings

/-!
Reads and reshapes. Both register a rule that reads its operand at another index: a read puts the positions
between the variables, a reshape goes through the line of elements.
-/

namespace ArrayPlan

section Selecting

variable {ref : Type} {entries : List (Index ref)}

theorem selectedExtents_fixed (entries : List (Index ref)) (lengths : List Nat) :
    selectedExtents entries (lengths.map .fixed) = (Tensor.selectedLengths entries lengths).map .fixed := by
  induction entries generalizing lengths with
  | nil => rfl
  | cons entry entries ih =>
    cases lengths with
    | nil => cases entry <;> rfl
    | cons n lengths =>
      cases entry with
      | «at» position => exact ih lengths
      | all => exact congrArg (Extent.fixed n :: ·) (ih lengths)
      | slice start stop step => exact congrArg (Extent.fixed n :: ·) (ih lengths)
      | gather positions => exact congrArg (Extent.fixed n :: ·) (ih lengths)

theorem inBox_selectedIndex {lengths : List Nat} {index : List Int}
    (hreadable : ∀ e ∈ entries.zip (lengths.map .fixed), e.1.Readable e.2) (hlen : entries.length = lengths.length)
    (hbox : InBox index (Tensor.selectedLengths entries lengths)) :
    InBox (Tensor.selectedIndex entries index) lengths := by
  induction entries generalizing lengths index with
  | nil =>
    obtain rfl : lengths = [] := List.length_eq_zero_iff.1 hlen.symm
    trivial
  | cons entry entries ih =>
    cases lengths with
    | nil => cases hlen
    | cons n lengths =>
      have hhead := hreadable (entry, .fixed n) List.mem_cons_self
      have htail : ∀ rest, InBox rest (Tensor.selectedLengths entries lengths) →
          InBox (Tensor.selectedIndex entries rest) lengths := fun rest hrest =>
        ih (fun e he => hreadable e (List.mem_cons_of_mem _ he)) (Nat.succ.inj hlen) hrest
      cases entry with
      | «at» position =>
        have hlt : position < n := hhead
        exact ⟨⟨Int.natCast_nonneg position, Int.ofNat_lt.2 hlt⟩, htail index hbox⟩
      | gather positions => exact hhead.elim
      | all =>
        cases index with
        | nil => exact hbox.elim
        | cons i index => exact ⟨hbox.1, htail index hbox.2⟩
      | slice start stop step =>
        cases index with
        | nil => exact hbox.elim
        | cons i index => exact ⟨hbox.1, htail index hbox.2⟩

theorem selectedIndex_of_no_axis {lengths : List Nat} (hlen : entries.length = lengths.length)
    (hnone : Tensor.selectedLengths entries lengths = []) (index : List Int) :
    Tensor.selectedIndex entries index = Tensor.selectedIndex entries [] := by
  induction entries generalizing lengths with
  | nil => cases index <;> rfl
  | cons entry entries ih =>
    cases lengths with
    | nil => cases hlen
    | cons n lengths =>
      cases entry with
      | «at» position =>
        rw [Tensor.selectedIndex, Tensor.selectedIndex, ih (Nat.succ.inj hlen) hnone]
      | all => cases hnone
      | slice start stop step => cases hnone
      | gather positions => cases hnone

variable {α : Type} [Scalar α] [ExactIndices α] {I : Interpretation α} {env : Env}

theorem position?_selectedArgs {lengths : List Nat} {vars : List String} {index : List Int}
    (hreadable : ∀ e ∈ entries.zip (lengths.map .fixed), e.1.Readable e.2) (hlen : entries.length = lengths.length)
    (hlengths : ∀ n ∈ lengths, (n : Int) ≤ indexBound) (hbinds : env.Binds vars index)
    (hbox : InBox index (Tensor.selectedLengths entries lengths)) :
    I.position? (selectedArgs entries vars) env = some (Tensor.selectedIndex entries index) := by
  induction entries generalizing lengths vars index with
  | nil =>
    cases hbinds <;> rfl
  | cons entry entries ih =>
    cases lengths with
    | nil => cases hlen
    | cons n lengths =>
      have hhead := hreadable (entry, .fixed n) List.mem_cons_self
      have hbound := hlengths n List.mem_cons_self
      have htail : ∀ vars rest, env.Binds vars rest → InBox rest (Tensor.selectedLengths entries lengths) →
          I.position? (selectedArgs entries vars) env = some (Tensor.selectedIndex entries rest) :=
        fun vars rest hrest hin =>
          ih (fun e he => hreadable e (List.mem_cons_of_mem _ he)) (Nat.succ.inj hlen)
            (fun m hm => hlengths m (List.mem_cons_of_mem n hm)) hrest hin
      cases entry with
      | «at» position =>
        have hlt : position < n := hhead
        rw [selectedArgs, Word.signed_of_le (by omega)]
        exact Interpretation.position?_cons_int ⟨Int.natCast_nonneg position, by omega⟩ (htail vars index hbinds hbox)
      | gather positions => exact hhead.elim
      | all =>
        cases hbinds with
        | nil => exact hbox.elim
        | cons hv hrest =>
          have hx := hbox.1
          exact Interpretation.position?_cons_var hv ⟨hx.1, by omega⟩ (htail _ _ hrest hbox.2)
      | slice start stop step =>
        cases hbinds with
        | nil => exact hbox.elim
        | cons hv hrest =>
          have hx := hbox.1
          exact Interpretation.position?_cons_var hv ⟨hx.1, by omega⟩ (htail _ _ hrest hbox.2)

end Selecting

theorem inBox_of_kept {lengths : List Nat} {vars : List String} {env : Env} {index : List Int}
    (hbinds : env.Binds vars index) (hlen : vars.length = lengths.length)
    (hbox : InBox (Interpretation.elementIndex index) (keptLengths lengths)) :
    InBox index lengths ∧ (lengths = [] ∨ Interpretation.elementIndex index = index) := by
  cases lengths with
  | nil =>
    obtain rfl := List.length_eq_zero_iff.1 hlen
    obtain rfl := List.forall₂_nil_left_iff.1 hbinds
    exact ⟨trivial, .inl rfl⟩
  | cons n lengths =>
    have helement : Interpretation.elementIndex index = index := by
      refine elementIndex_of_binds hbinds fun hnil => ?_
      rw [hnil] at hlen
      cases hlen
    rw [helement] at hbox
    exact ⟨hbox, .inr helement⟩

section Computes

variable {α : Type} [Scalar α] [ExactIndices α] {p : Plan} {account : Account α} {domains : List Domain}
  {name : String} {c : Cell α} {a : Handle} {ta : Tensor α}

theorem le_indexBound_of_mem {lengths : List Nat} (hpos : ∀ n ∈ lengths, 0 < n)
    (hbound : (elementCount lengths : Int) ≤ indexBound) : ∀ n ∈ lengths, (n : Int) ≤ indexBound := by
  induction lengths with
  | nil => exact fun n hn => nomatch hn
  | cons m lengths ih =>
    have hrest : ∀ n ∈ lengths, 0 < n := fun n hn => hpos n (List.mem_cons_of_mem m hn)
    have hcount := elementCount_pos hrest
    have hm := hpos m List.mem_cons_self
    have hle : m ≤ elementCount (m :: lengths) := Nat.le_mul_of_pos_right m hcount
    have hle' : elementCount lengths ≤ elementCount (m :: lengths) := Nat.le_mul_of_pos_left _ hm
    intro n hn
    rcases List.mem_cons.1 hn with rfl | hn
    · omega
    · exact ih hrest (by omega) n hn

theorem computes_select {entries : List (Index Handle)} {vars : List String} (hnodup : vars.Nodup)
    (ha : p.Accounts account a ta) (hlen : entries.length = ta.lengths.length)
    (hreadable : ∀ e ∈ entries.zip a.shape.extents, e.1.Readable e.2)
    (hvars : vars.length = (Tensor.selectedLengths entries ta.lengths).length)
    (hpos : ∀ n ∈ ta.lengths, 0 < n) (hbound : (elementCount ta.lengths : Int) ≤ indexBound)
    (hmeans : c.Means (ta.select entries) (account.Knows a ta)) :
    (Rule.mk name vars (p.callOf a.rule (selectedArgs entries vars))).Computes account domains p.rules.rules c := by
  rw [Shape.lengths?_eq_some.1 ha.describes.lengths] at hreadable
  refine computes_of_value hnodup hmeans fun I hI => ?_
  obtain ⟨u, _, hlengths, hyields, hknown⟩ := exists_yields hI ha.live ha.describes ha.lengths
  refine ⟨u.select entries, fun h => by rw [hknown h], fun env index hbinds _ hbox => ?_⟩
  obtain ⟨hinside, hkept⟩ := inBox_of_kept hbinds hvars hbox
  have hposition : I.position? (selectedArgs entries vars) env = some (Tensor.selectedIndex entries index) :=
    position?_selectedArgs hreadable hlen (le_indexBound_of_mem hpos hbound) hbinds hinside
  have hsource := inBox_selectedIndex hreadable hlen hinside
  have hsame : Tensor.selectedIndex entries (Interpretation.elementIndex index) =
      Tensor.selectedIndex entries index := by
    rcases hkept with hnone | helement
    · rw [selectedIndex_of_no_axis hlen hnone, selectedIndex_of_no_axis hlen hnone index]
    · rw [helement]
  rw [hyields.callOf _ env _ hposition (hlengths ▸ hsource), ← hsame]
  rfl

theorem computes_reshape {lengths : List Nat} {layout : Layout} {vars : List String} (hnodup : vars.Nodup)
    (hvars : vars ≠ []) (ha : p.Accounts account a ta)
    (hcount : elementCount lengths = elementCount ta.lengths) (hpos : ∀ n ∈ ta.lengths, 0 < n)
    (hbound : (elementCount ta.lengths : Int) ≤ indexBound)
    (hmeans : c.Means (ta.reshape lengths layout) (account.Knows a ta)) :
    (Rule.mk name vars (p.callOf a.rule (indexAtLine (linearIndex vars lengths (layout.strides lengths))
      (elementCount ta.lengths) ta.lengths (a.layout.strides ta.lengths)))).Computes account domains
        p.rules.rules c := by
  refine computes_of_value hnodup hmeans fun I hI => ?_
  obtain ⟨u, hdescribes, hlengths, hyields, hknown⟩ := exists_yields hI ha.live ha.describes ha.lengths
  refine ⟨u.reshape lengths layout, fun h => by rw [hknown h], fun env index hbinds _ hbox => ?_⟩
  rw [elementIndex_of_binds hbinds hvars] at hbox ⊢
  have hbox' : InBox index lengths := hbox
  have hplace : layout.place lengths index < elementCount lengths := Layout.place_lt hbox'
  have hword : elementCount ta.lengths < Word.modulus := by
    have hless : indexBound < Word.modulus := by decide
    omega
  have hposition : I.position? (indexAtLine (linearIndex vars lengths (layout.strides lengths))
      (elementCount ta.lengths) ta.lengths (a.layout.strides ta.lengths)) env =
        some (a.layout.indexAt ta.lengths (layout.place lengths index)) :=
    Interpretation.position?_reshaped indexBound layout a.layout hbinds hbox' hcount hpos hbound hword
  have hsource : InBox (a.layout.indexAt ta.lengths (layout.place lengths index)) ta.lengths :=
    Layout.inBox_indexAt (hcount ▸ hplace)
  rw [hyields.callOf _ env _ hposition (hlengths ▸ hsource), ← hdescribes.layout, ← hlengths]
  rfl

end Computes

end ArrayPlan
