import ArrayPlan.Domain
import ArrayPlan.Shape.Broadcast

/-!
Shapes and the domains built from them. A checked shape has the axes that were checked; the domain of a box
has one variable and two constraints for each axis.
-/

namespace ArrayPlan

namespace Shape

theorem eq_of_extents {s t : Shape} (h : s.extents = t.extents) : s = t := by
  cases s
  cases t
  exact (Shape.mk.injEq ..).mpr h

theorem extents_of_ofExtents {extents : List Extent} {shape : Shape} (h : ofExtents extents = .ok shape) :
    shape.extents = extents := by
  unfold ofExtents at h
  split at h
  · cases h
  · split at h
    · cases h
    · cases h
      rfl

theorem ofExtents_of_faultless {extents : List Extent} (hne : extents ≠ [])
    (hfaultless : ∀ e ∈ extents, e.fault? = none) : ∃ shape, ofExtents extents = .ok shape := by
  unfold ofExtents
  rw [dif_neg hne]
  split
  · rename_i fault hfault
    rw [List.findSome?_eq_none_iff.2 hfaultless] at hfault
    cases hfault
  · exact ⟨_, rfl⟩

theorem mapM_length?_eq_some {extents : List Extent} {lengths : List Nat} :
    extents.mapM Extent.length? = some lengths ↔ extents = lengths.map .fixed := by
  induction extents generalizing lengths with
  | nil =>
    cases lengths <;> simp
  | cons e extents ih =>
    rw [List.mapM_cons]
    cases e with
    | symbolic name =>
      have hnone : Extent.length? (.symbolic name) = none := rfl
      cases lengths <;> simp [hnone]
    | fixed n =>
      have hsome : Extent.length? (.fixed n) = some n := rfl
      cases hrest : extents.mapM Extent.length? with
      | none =>
        have hne : ∀ lengths : List Nat, extents ≠ lengths.map .fixed := by
          intro lengths heq
          rw [ih.2 heq] at hrest
          cases hrest
        cases lengths <;> simp [hsome, hne]
      | some rest =>
        rw [ih.1 hrest]
        have hinjective : ∀ xs ys : List Nat, xs.map Extent.fixed = ys.map Extent.fixed ↔ xs = ys := by
          intro xs ys
          exact List.map_inj_right fun _ _ => Extent.fixed.inj
        cases lengths <;> simp [hsome, hinjective]

theorem lengths?_eq_some {s : Shape} {lengths : List Nat} :
    s.lengths? = some lengths ↔ s.extents = lengths.map .fixed :=
  mapM_length?_eq_some

theorem fixed_of_lengths? {s : Shape} {lengths : List Nat} (h : s.lengths? = some lengths) :
    ∀ e ∈ s.extents, ∃ n, e = .fixed n := by
  intro e he
  rw [lengths?_eq_some.1 h] at he
  obtain ⟨n, _, rfl⟩ := List.mem_map.1 he
  exact ⟨n, rfl⟩

theorem length_of_lengths? {s : Shape} {lengths : List Nat} (h : s.lengths? = some lengths) :
    lengths.length = s.rank := by
  rw [rank, lengths?_eq_some.1 h, List.length_map]

theorem broadcast_extents {a b common : Shape} (h : broadcast a b = .ok common) :
    joinAxes 0 (a.padTo (max a.rank b.rank)) (b.padTo (max a.rank b.rank)) = .ok common.extents := by
  unfold broadcast at h
  simp only at h
  split at h
  · cases h
  · rename_i extents hjoin
    cases h
    exact hjoin

theorem broadcast_rank {a b common : Shape} (h : broadcast a b = .ok common) :
    common.rank = max a.rank b.rank := by
  have hlen := joinAxes_length (broadcast_extents h)
  rw [padTo_length (Nat.le_max_left ..), padTo_length (Nat.le_max_right ..)] at hlen
  rw [rank, hlen, Nat.min_self]

end Shape

namespace Domain

@[simp] theorem vars_constrain (d : Domain) (c : Constraint) : (d.constrain c).vars = d.vars := by
  unfold constrain
  split <;> rfl

theorem mem_constrain {d : Domain} {c c' : Constraint} :
    c ∈ (d.constrain c').constraints ↔ c ∈ d.constraints ∨ c = c' := by
  unfold constrain
  split
  · rename_i h
    refine ⟨.inl, fun hc => hc.elim id fun heq => heq ▸ h⟩
  · simp

@[simp] theorem vars_between (d : Domain) (low : Int) (var : String) (extent : Extent) :
    (d.between low var extent).vars = d.vars := by
  simp [between]

def lower (var : String) : Constraint :=
  .le (.ofConstant 0) (.ofVar var)

def upper (var : String) (extent : Extent) : Constraint :=
  .le (.ofVar var) (lastPosition extent)

theorem mem_between {d : Domain} {var : String} {extent : Extent} {c : Constraint} :
    c ∈ (d.between 0 var extent).constraints ↔
      c ∈ d.constraints ∨ c = lower var ∨ c = upper var extent := by
  rw [between, mem_constrain, mem_constrain, or_assoc]
  rfl

theorem vars_box (axes : List (String × Extent)) : (box axes).vars = axes.map Prod.fst := by
  have hfold : ∀ (d : Domain),
      (axes.foldl (fun d a => { d with vars := d.vars ++ [a.1] }.between 0 a.1 a.2) d).vars =
        d.vars ++ axes.map Prod.fst := by
    induction axes with
    | nil => simp
    | cons a axes ih =>
      intro d
      rw [List.foldl_cons, ih, vars_between, List.map_cons, List.append_assoc]
      rfl
  rw [box, hfold]
  rfl

theorem mem_box {axes : List (String × Extent)} {c : Constraint} :
    c ∈ (box axes).constraints ↔ ∃ a ∈ axes, c = lower a.1 ∨ c = upper a.1 a.2 := by
  have hfold : ∀ (d : Domain),
      c ∈ (axes.foldl (fun d a => { d with vars := d.vars ++ [a.1] }.between 0 a.1 a.2) d).constraints ↔
        c ∈ d.constraints ∨ ∃ a ∈ axes, c = lower a.1 ∨ c = upper a.1 a.2 := by
    induction axes with
    | nil => simp
    | cons a axes ih =>
      intro d
      rw [List.foldl_cons, ih, mem_between]
      simp only [List.mem_cons, exists_eq_or_imp, or_assoc]
  rw [box, hfold]
  simp [unconstrained]

end Domain

end ArrayPlan
