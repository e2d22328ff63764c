import ArrayPlan.Proofs.Exactness
import ArrayPlan.Proofs.Growth
import ArrayPlan.Proofs.Rewriting
import ArrayPlan.Proofs.Tensors

/-!
Accounts of rules. An account says of each rule which indices it takes, and of some rules what their values
are; the values of the others exist, but are left open. An interpretation answers for an account when calls
give what it says, and a rule computes its cell when its body does so under every such interpretation.
-/

namespace ArrayPlan

variable {α : Type}

structure Cell (α : Type) where
  lengths : List Nat
  value : Option (List Int → α)

abbrev Account (α : Type) :=
  String → Cell α

def Cell.Holds (c : Cell α) (index : List Int) (found : Option α) : Prop :=
  ∃ v, found = some v ∧ ∀ f, c.value = some f → v = f index

/-- The index has a position for each parameter; a rule without parameters has one element. -/
def Rule.Takes (r : Rule) (lengths : List Nat) (index : List Int) : Prop :=
  index.length = r.arity ∧ InBox (Interpretation.elementIndex index) lengths

structure Interpretation.Answers (I : Interpretation α) (account : Account α) (domains : List Domain)
    (rules : List Rule) : Prop where
  call : ∀ r ∈ rules, ∀ index, r.Takes (account r.name).lengths index →
    (account r.name).Holds (Interpretation.elementIndex index) (I.call r.name index)
  points : ∀ vars, (∀ v ∈ vars, Owned domains v) →
    ∀ env, I.points vars env = (pointsOver domains vars env).toOption

def Rule.Computes [Scalar α] (r : Rule) (account : Account α) (domains : List Domain) (rules : List Rule) (c : Cell α) : Prop :=
  ∀ I : Interpretation α, I.Answers account domains rules → ∀ index, r.Takes c.lengths index →
    c.Holds (Interpretation.elementIndex index) (I.value? r.body (Env.empty.at r.params index))

structure Tensor.Describes (t : Tensor α) (h : Handle) : Prop where
  lengths : h.shape.lengths? = some t.lengths
  elementType : t.elementType = h.elementType
  layout : t.layout = h.layout

theorem Tensor.Describes.length_eq {t : Tensor α} {a : Handle} (h : t.Describes a) : t.lengths.length = a.rank :=
  Shape.length_of_lengths? h.lengths

theorem Tensor.Describes.lengths_unit {t : Tensor α} {a : Handle} (h : t.Describes a) (hunit : a.shape = .unit) : t.lengths = [1] := by
  have hlengths := h.lengths
  rw [hunit] at hlengths
  exact (Option.some.inj hlengths).symm

theorem Tensor.Describes.pos {t : Tensor α} {a : Handle} (hd : t.Describes a) : ∀ n ∈ t.lengths, 0 < n := by
  intro n hn
  have hmem : Extent.fixed n ∈ a.shape.extents := by
    rw [Shape.lengths?_eq_some.1 hd.lengths]
    exact List.mem_map_of_mem hn
  have hfault := a.shape.faultless _ hmem
  by_cases hzero : n = 0
  · simp [Extent.fault?, hzero] at hfault
  · omega

namespace Interpretation

theorem Answers.mono {I : Interpretation α} {account : Account α} {domains later : List Domain}
    {rules rules' : List Rule} (h : I.Answers account (domains ++ later) rules') (hrules : ∀ r ∈ rules, r ∈ rules') :
    I.Answers account domains rules where
  call r hr := h.call r (hrules r hr)
  points vars hvars env := by
    have howned : ∀ v ∈ vars, Owned (domains ++ later) v := by
      intro v hv
      obtain ⟨d, hd, hmem⟩ := hvars v hv
      exact ⟨d, List.mem_append_left later hd, hmem⟩
    rw [h.points vars howned env, pointsOver_append hvars]

theorem elementIndex_of_ne_nil {index : List Int} (h : index ≠ []) : elementIndex index = index :=
  if_neg h

end Interpretation

/-- Calls of the rule of a handle give the elements of the tensor. -/
structure Plan.Yields [Scalar α] (p : Plan) (I : Interpretation α) (a : Handle) (t : Tensor α) : Prop where
  callOf : ∀ args env index, I.position? args env = some index → InBox index t.lengths →
    I.value? (p.callOf a.rule args) env = some (t.element index)
  origin : t.lengths = [1] → ∀ env, I.value? (p.callAtOrigin a.rule) env = some (t.element [0])

theorem eq_of_inBox_unit {index : List Int} (h : InBox index [1]) : index = [0] := by
  cases index with
  | nil => exact h.elim
  | cons i index =>
    cases index with
    | nil => rw [show i = 0 by have hi := h.1; omega]
    | cons j index => exact h.2.elim

section Yields

variable [Scalar α] {p : Plan} {I : Interpretation α} {account : Account α} {a : Handle} {t : Tensor α}

omit [Scalar α] in
theorem takes_of_inBox (hd : t.Describes a) {r : Rule} (harity : r.arity = a.rank ∨ r.arity = 0 ∧ a.shape = .unit)
    {index : List Int} (hindex : InBox index t.lengths) :
    r.Takes t.lengths (if r.arity = 0 then [] else index) ∧
      Interpretation.elementIndex (if r.arity = 0 then [] else index) = index := by
  have hlength := hindex.length_eq
  have hrank : 0 < a.rank := a.shape.rank_pos
  rw [hd.length_eq] at hlength
  by_cases hzero : r.arity = 0
  · have hunit : a.shape = .unit := by
      rcases harity with h | h
      · omega
      · exact h.2
    have hlengths := hd.lengths_unit hunit
    rw [hlengths] at hindex ⊢
    obtain rfl := eq_of_inBox_unit hindex
    rw [if_pos hzero]
    exact ⟨⟨hzero.symm, by decide⟩, rfl⟩
  · have hrankeq : r.arity = a.rank := harity.resolve_right fun h => hzero h.1
    have hne : index ≠ [] := fun h => by rw [h] at hlength; simp at hlength; omega
    rw [if_neg hzero]
    have helement := Interpretation.elementIndex_of_ne_nil hne
    exact ⟨⟨hlength.trans hrankeq.symm, helement.symm ▸ hindex⟩, helement⟩

theorem yields_of_call [ExactIndices α] {r : Rule} (hr : p.rules.find? a.rule = some r)
    (hd : t.Describes a) (harity : r.arity = a.rank ∨ r.arity = 0 ∧ a.shape = .unit)
    (hcall : ∀ index, InBox index t.lengths →
      I.call a.rule (if r.arity = 0 then [] else index) = some (t.element index)) : p.Yields I a t := by
  constructor
  · intro args env index hargs hindex
    have hfound := hcall index hindex
    rw [Plan.callOf, hr]
    by_cases hzero : r.arity = 0
    · rw [if_pos hzero] at hfound
      simp only [if_pos hzero]
      exact hfound
    · rw [if_neg hzero] at hfound
      simp only [if_neg hzero]
      obtain ⟨vs, hvs, rfl⟩ := Option.map_eq_some_iff.1 hargs
      rw [Interpretation.value?, hvs]
      exact hfound
  · intro hunit env
    have hbox : InBox [0] t.lengths := by
      rw [hunit]
      decide
    have hfound := hcall [0] hbox
    have horigin : p.callAtOrigin a.rule = .call a.rule (List.replicate r.arity (.int 0)) := by
      rw [Plan.callAtOrigin, hr]
    rw [horigin]
    have hrank : a.rank = 1 := by rw [← hd.length_eq, hunit]; rfl
    rcases harity with h | h
    · rw [hrank] at h
      rw [h] at hfound ⊢
      have hzero : Scalar.toIndex (Scalar.ofInt 0 : α) = 0 :=
        ExactIndices.toIndex_ofInt 0 (Int.le_refl 0) (by decide)
      simp only [List.replicate, Interpretation.value?, Interpretation.values?, Option.map_some, Option.bind_some,
        List.map_cons, List.map_nil, hzero]
      exact hfound
    · rw [h.1] at hfound ⊢
      exact hfound

theorem exists_yields [ExactIndices α] {domains : List Domain} (hI : I.Answers account domains p.rules.rules)
    (ha : p.Live a) (hd : t.Describes a) (hlengths : (account a.rule).lengths = t.lengths) :
    ∃ u : Tensor α, u.Describes a ∧ u.lengths = t.lengths ∧ p.Yields I a u ∧
      ((account a.rule).value = some t.element → u = t) := by
  obtain ⟨r, hr, harity⟩ := ha.rule
  have hmem : r ∈ p.rules.rules := List.mem_of_find?_eq_some hr
  have hname : r.name = a.rule := by simpa using List.find?_some hr
  have hcell : ∀ index, InBox index t.lengths →
      (account a.rule).Holds index (I.call a.rule (if r.arity = 0 then [] else index)) := by
    intro index hindex
    obtain ⟨htakes, helement⟩ := takes_of_inBox hd harity hindex
    have hholds := hI.call r hmem _ (by rw [hname, hlengths]; exact htakes)
    rwa [hname, helement] at hholds
  cases hvalue : (account a.rule).value with
  | some f =>
    refine ⟨{ t with element := f }, ⟨hd.lengths, hd.elementType, hd.layout⟩, rfl, ?_, fun hf => ?_⟩
    · refine yields_of_call hr ⟨hd.lengths, hd.elementType, hd.layout⟩ harity fun index hindex => ?_
      obtain ⟨v, hv, hknown⟩ := hcell index hindex
      rw [hv, hknown f hvalue]
    · rw [Option.some.inj hf]
  | none =>
    refine ⟨{ t with element := fun index => (I.call a.rule (if r.arity = 0 then [] else index)).getD Scalar.zero },
      ⟨hd.lengths, hd.elementType, hd.layout⟩, rfl, ?_, fun hf => nomatch hf⟩
    refine yields_of_call hr ⟨hd.lengths, hd.elementType, hd.layout⟩ harity fun index hindex => ?_
    obtain ⟨v, hv, _⟩ := hcell index hindex
    simp only [hv, Option.getD_some]

end Yields

end ArrayPlan
