import ArrayPlan.Proofs.Shapes
import Mathlib.Data.List.Forall2
import Mathlib.Order.Bounds.Basic

/-!
Broadcasting as the join of an order. A unit axis expands to any axis and the other axes only to themselves; a
shape expands to the shapes whose last axes its own axes expand to. The common shape of two shapes is their
least upper bound, and two shapes have one as soon as they have any upper bound, so the laws of broadcasting are
those of a partial join.
-/

namespace ArrayPlan

namespace Extent

instance : PartialOrder Extent where
  le e f := e = f ∨ e = .fixed 1
  le_refl e := .inl rfl
  le_trans := by
    rintro e f g (rfl | rfl) hfg
    · exact hfg
    · exact .inr rfl
  le_antisymm := by
    rintro e f (rfl | rfl) (hfe | rfl)
    · rfl
    · rfl
    · exact hfe.symm
    · rfl

theorem unit_le (e : Extent) : Extent.fixed 1 ≤ e :=
  .inr rfl

@[simp] theorem isUnit_iff {e : Extent} : e.isUnit = true ↔ e = .fixed 1 := by
  simp [isUnit]

def Compatible (e f : Extent) : Prop :=
  e = f ∨ e = .fixed 1 ∨ f = .fixed 1

theorem Compatible.of_le {e f g : Extent} (he : e ≤ g) (hf : f ≤ g) : e.Compatible f := by
  rcases he with rfl | rfl
  · rcases hf with rfl | rfl
    · exact .inl rfl
    · exact .inr (.inr rfl)
  · exact .inr (.inl rfl)

end Extent

namespace Shape

theorem joinAxis_comm (e f : Extent) : joinAxis e f = joinAxis f e := by
  unfold joinAxis
  by_cases heq : e = f
  · simp [heq]
  · have hne : f ≠ e := fun h => heq h.symm
    by_cases he : e = .fixed 1 <;> by_cases hf : f = .fixed 1 <;> simp_all

theorem exists_joinAxis_iff {e f : Extent} : (∃ g, joinAxis e f = some g) ↔ e.Compatible f := by
  unfold joinAxis Extent.Compatible
  by_cases heq : e = f <;> by_cases he : e = .fixed 1 <;> by_cases hf : f = .fixed 1 <;> simp_all

theorem joinAxis_isLUB {e f g : Extent} (h : joinAxis e f = some g) : IsLUB {e, f} g := by
  have hcases : g = e ∧ f ≤ e ∨ g = f ∧ e ≤ f := by
    unfold joinAxis at h
    split at h
    · rename_i hkeep
      refine .inl ⟨(Option.some.inj h).symm, ?_⟩
      rcases hkeep with rfl | hunit
      · exact le_refl e
      · exact .inr (Extent.isUnit_iff.1 hunit)
    · split at h
      · rename_i hunit
        exact .inr ⟨(Option.some.inj h).symm, .inr (Extent.isUnit_iff.1 hunit)⟩
      · cases h
  rcases hcases with ⟨rfl, hle⟩ | ⟨rfl, hle⟩
  · exact IsGreatest.isLUB ⟨by simp, by simp [upperBounds, hle]⟩
  · exact IsGreatest.isLUB ⟨by simp, by simp [upperBounds, hle]⟩

theorem joinAxes_comm (axis : Nat) (es fs : List Extent) : joinAxes axis es fs = joinAxes axis fs es := by
  induction es generalizing axis fs with
  | nil => cases fs <;> rfl
  | cons e es ih =>
    cases fs with
    | nil => rfl
    | cons f fs => rw [joinAxes, joinAxes, joinAxis_comm, ih]

theorem joinAxes_cons {axis : Nat} {e f : Extent} {es fs cs : List Extent} :
    joinAxes axis (e :: es) (f :: fs) = .ok cs ↔
      ∃ c rest, joinAxis e f = some c ∧ joinAxes (axis + 1) es fs = .ok rest ∧ cs = c :: rest := by
  rw [joinAxes]
  cases joinAxis e f with
  | none => simp
  | some c => cases joinAxes (axis + 1) es fs <;> simp [Except.map, eq_comm]

theorem exists_joinAxes_iff {axis : Nat} {es fs : List Extent} (hlen : es.length = fs.length) :
    (∃ cs, joinAxes axis es fs = .ok cs) ↔ List.Forall₂ Extent.Compatible es fs := by
  induction es generalizing axis fs with
  | nil =>
    cases fs with
    | nil => simp [joinAxes]
    | cons f fs => simp at hlen
  | cons e es ih =>
    cases fs with
    | nil => simp at hlen
    | cons f fs =>
      rw [List.forall₂_cons, ← exists_joinAxis_iff, ← ih (Nat.succ.inj hlen)]
      constructor
      · rintro ⟨cs, h⟩
        obtain ⟨c, rest, hc, hrest, -⟩ := joinAxes_cons.1 h
        exact ⟨⟨c, hc⟩, rest, hrest⟩
      · rintro ⟨⟨c, hc⟩, rest, hrest⟩
        exact ⟨c :: rest, joinAxes_cons.2 ⟨c, rest, hc, hrest, rfl⟩⟩

theorem joinAxes_le_iff {axis : Nat} {es fs cs : List Extent} (hlen : es.length = fs.length)
    (h : joinAxes axis es fs = .ok cs) {ds : List Extent} :
    List.Forall₂ (· ≤ ·) cs ds ↔ List.Forall₂ (· ≤ ·) es ds ∧ List.Forall₂ (· ≤ ·) fs ds := by
  induction es generalizing axis fs cs ds with
  | nil =>
    cases fs with
    | nil =>
      simp only [joinAxes, Except.ok.injEq] at h
      simp [← h]
    | cons f fs => simp at hlen
  | cons e es ih =>
    cases fs with
    | nil => simp at hlen
    | cons f fs =>
      obtain ⟨c, rest, hc, hrest, rfl⟩ := joinAxes_cons.1 h
      cases ds with
      | nil => simp
      | cons d ds =>
        have hhead : c ≤ d ↔ e ≤ d ∧ f ≤ d := by
          rw [isLUB_le_iff (joinAxis_isLUB hc)]
          simp [upperBounds]
        rw [List.forall₂_cons, List.forall₂_cons, List.forall₂_cons, ih (Nat.succ.inj hlen) hrest, hhead]
        tauto

/-- The axes of the shape expand to the last of these axes. -/
def ExpandsTo (s : Shape) (es : List Extent) : Prop :=
  s.rank ≤ es.length ∧ List.Forall₂ (· ≤ ·) s.extents (es.drop (es.length - s.rank))

theorem units_le (es : List Extent) : List.Forall₂ (· ≤ ·) (List.replicate es.length (.fixed 1)) es := by
  induction es with
  | nil => exact .nil
  | cons e es ih => exact .cons (Extent.unit_le e) ih

theorem expandsTo_iff {s : Shape} {es : List Extent} (h : s.rank ≤ es.length) :
    s.ExpandsTo es ↔ List.Forall₂ (· ≤ ·) (s.padTo es.length) es := by
  constructor
  · rintro ⟨-, hlast⟩
    have hfirst := units_le (es.take (es.length - s.rank))
    rw [List.length_take, Nat.min_eq_left (Nat.sub_le ..)] at hfirst
    have happend : List.Forall₂ (· ≤ ·) (s.padTo es.length)
        (es.take (es.length - s.rank) ++ es.drop (es.length - s.rank)) := List.rel_append hfirst hlast
    rwa [List.take_append_drop] at happend
  · intro hall
    have hdrop := List.forall₂_drop (es.length - s.rank) hall
    rw [padTo, List.drop_left' List.length_replicate] at hdrop
    exact ⟨h, hdrop⟩

theorem expandsTo_drop_iff {s : Shape} {es : List Extent} {n : Nat} (h : n + s.rank ≤ es.length) :
    s.ExpandsTo (es.drop n) ↔ s.ExpandsTo es := by
  have hplaces : n + (es.length - n - s.rank) = es.length - s.rank := by omega
  have hrank : s.rank ≤ es.length - n ↔ s.rank ≤ es.length := by omega
  rw [ExpandsTo, ExpandsTo, List.length_drop, List.drop_drop, hplaces, hrank]

theorem forall₂_le_trans {es fs gs : List Extent} (hef : List.Forall₂ (· ≤ ·) es fs)
    (hfg : List.Forall₂ (· ≤ ·) fs gs) : List.Forall₂ (· ≤ ·) es gs := by
  induction hef generalizing gs with
  | nil => exact hfg
  | cons hhead _ ih =>
    cases hfg with
    | cons hhead' htail => exact .cons (hhead.trans hhead') (ih htail)

theorem forall₂_le_antisymm {es fs : List Extent} (hef : List.Forall₂ (· ≤ ·) es fs)
    (hfe : List.Forall₂ (· ≤ ·) fs es) : es = fs := by
  induction hef with
  | nil => rfl
  | cons hhead _ ih =>
    cases hfe with
    | cons hhead' htail => rw [hhead.antisymm hhead', ih htail]

/-- One shape is at most another when it can be expanded to it. -/
instance : PartialOrder Shape where
  le s t := s.ExpandsTo t.extents
  le_refl s := by
    refine ⟨le_refl _, ?_⟩
    rw [show s.extents.length - s.rank = 0 from Nat.sub_self _]
    exact List.forall₂_same.2 fun e _ => le_refl e
  le_trans := by
    rintro s t u ⟨hst, hlast⟩ ⟨htu, hlast'⟩
    have hdrop := List.forall₂_drop (t.rank - s.rank) hlast'
    have heq : u.extents.length - t.rank + (t.rank - s.rank) = u.extents.length - s.rank := by
      have : t.extents.length = t.rank := rfl
      omega
    rw [List.drop_drop, heq] at hdrop
    exact ⟨hst.trans htu, forall₂_le_trans hlast hdrop⟩
  le_antisymm := by
    rintro s t ⟨hst, hlast⟩ ⟨hts, hlast'⟩
    have heq : s.extents.length = t.extents.length := Nat.le_antisymm hst hts
    rw [show t.extents.length - s.rank = 0 from Nat.sub_eq_zero_of_le heq.ge] at hlast
    rw [show s.extents.length - t.rank = 0 from Nat.sub_eq_zero_of_le heq.le] at hlast'
    exact eq_of_extents (forall₂_le_antisymm hlast hlast')

theorem rank_mono {s t : Shape} (h : s ≤ t) : s.rank ≤ t.rank :=
  h.1

theorem unit_le (s : Shape) : unit ≤ s := by
  refine ⟨s.rank_pos, ?_⟩
  have hlen : (s.extents.drop (s.extents.length - unit.rank)).length = 1 := by
    rw [List.length_drop]
    exact Nat.sub_sub_self s.rank_pos
  have hunits := units_le (s.extents.drop (s.extents.length - unit.rank))
  rwa [hlen] at hunits

theorem padTo_max_length (a b : Shape) :
    (a.padTo (max a.rank b.rank)).length = (b.padTo (max a.rank b.rank)).length := by
  rw [padTo_length (Nat.le_max_left ..), padTo_length (Nat.le_max_right ..)]

theorem broadcast_map_extents (a b : Shape) :
    (broadcast a b).map extents = joinAxes 0 (a.padTo (max a.rank b.rank)) (b.padTo (max a.rank b.rank)) := by
  unfold broadcast
  simp only
  split
  · rename_i axis hjoin
    exact hjoin.symm
  · rename_i es hjoin
    exact hjoin.symm

theorem broadcast_comm (a b : Shape) : broadcast a b = broadcast b a := by
  have hmap : (broadcast a b).map extents = (broadcast b a).map extents := by
    rw [broadcast_map_extents, broadcast_map_extents, joinAxes_comm, Nat.max_comm]
  cases hab : broadcast a b with
  | error axis => cases hba : broadcast b a <;> simp_all [Except.map]
  | ok s =>
    cases hba : broadcast b a with
    | error axis => simp [hab, hba, Except.map] at hmap
    | ok t =>
      rw [hab, hba] at hmap
      exact congrArg Except.ok (eq_of_extents (Except.ok.inj hmap))

theorem exists_broadcast_iff (a b : Shape) :
    (∃ s, broadcast a b = .ok s) ↔
      List.Forall₂ Extent.Compatible (a.padTo (max a.rank b.rank)) (b.padTo (max a.rank b.rank)) := by
  rw [← exists_joinAxes_iff (padTo_max_length a b)]
  constructor
  · rintro ⟨s, hs⟩
    exact ⟨s.extents, broadcast_extents hs⟩
  · rintro ⟨es, hes⟩
    have hmap := (broadcast_map_extents a b).trans hes
    cases hs : broadcast a b with
    | error axis => simp [hs, Except.map] at hmap
    | ok s => exact ⟨s, rfl⟩

theorem le_both_iff {a b t : Shape} (h : max a.rank b.rank ≤ t.rank) :
    a ≤ t ∧ b ≤ t ↔
      List.Forall₂ (· ≤ ·) (a.padTo (max a.rank b.rank)) (t.extents.drop (t.rank - max a.rank b.rank)) ∧
        List.Forall₂ (· ≤ ·) (b.padTo (max a.rank b.rank)) (t.extents.drop (t.rank - max a.rank b.rank)) := by
  have hlen : (t.extents.drop (t.rank - max a.rank b.rank)).length = max a.rank b.rank := by
    rw [List.length_drop]
    exact Nat.sub_sub_self h
  have hcut : ∀ {s : Shape}, s.rank ≤ max a.rank b.rank →
      (s ≤ t ↔ List.Forall₂ (· ≤ ·) (s.padTo (max a.rank b.rank)) (t.extents.drop (t.rank - max a.rank b.rank))) := by
    intro s hs
    have hfits : t.rank - max a.rank b.rank + s.rank ≤ t.extents.length := by
      have : t.extents.length = t.rank := rfl
      omega
    have hiff := expandsTo_iff (hlen.symm ▸ hs)
    rw [hlen] at hiff
    exact (expandsTo_drop_iff hfits).symm.trans hiff
  exact and_congr (hcut (Nat.le_max_left ..)) (hcut (Nat.le_max_right ..))

theorem broadcast_le_iff {a b s : Shape} (hs : broadcast a b = .ok s) (t : Shape) : s ≤ t ↔ a ≤ t ∧ b ≤ t := by
  have hrank := broadcast_rank hs
  have hbound : s ≤ t ∨ (a ≤ t ∧ b ≤ t) → max a.rank b.rank ≤ t.rank := by
    rintro (hst | ⟨ha, hb⟩)
    · exact hrank ▸ rank_mono hst
    · exact Nat.max_le.2 ⟨rank_mono ha, rank_mono hb⟩
  by_cases hmax : max a.rank b.rank ≤ t.rank
  · rw [le_both_iff hmax, ← joinAxes_le_iff (padTo_max_length a b) (broadcast_extents hs), ← hrank]
    exact and_iff_right (hrank ▸ hmax)
  · exact ⟨fun hst => absurd (hbound (.inl hst)) hmax, fun hab => absurd (hbound (.inr hab)) hmax⟩

theorem exists_broadcast_of_le {a b t : Shape} (ha : a ≤ t) (hb : b ≤ t) : ∃ s, broadcast a b = .ok s := by
  obtain ⟨hleft, hright⟩ := (le_both_iff (Nat.max_le.2 ⟨rank_mono ha, rank_mono hb⟩)).1 ⟨ha, hb⟩
  rw [exists_broadcast_iff]
  refine List.forall₂_iff_get.2 ⟨padTo_max_length a b, fun i hi hi' => ?_⟩
  exact .of_le (hleft.get hi (hleft.length_eq ▸ hi)) (hright.get hi' (hleft.length_eq ▸ hi))

/-- The common shape is the least upper bound, and no pair with an upper bound is refused. -/
theorem broadcast_eq_ok_iff {a b s : Shape} : broadcast a b = .ok s ↔ IsLUB {a, b} s := by
  have hlub : ∀ {s : Shape}, broadcast a b = .ok s → IsLUB {a, b} s := by
    intro s hs
    refine (isLUB_iff_le_iff).2 fun t => ?_
    rw [broadcast_le_iff hs]
    simp [upperBounds]
  refine ⟨hlub, fun h => ?_⟩
  obtain ⟨s', hs'⟩ := exists_broadcast_of_le (h.1 (Set.mem_insert a {b})) (h.1 (Set.mem_insert_of_mem a rfl))
  rw [hs', (hlub hs').unique h]

theorem broadcast_of_le {a b : Shape} (h : a ≤ b) : broadcast a b = .ok b :=
  broadcast_eq_ok_iff.2 (IsGreatest.isLUB ⟨by simp, by simp [upperBounds, h]⟩)

theorem le_iff_broadcast {a b : Shape} : a ≤ b ↔ broadcast a b = .ok b :=
  ⟨broadcast_of_le, fun h => (broadcast_eq_ok_iff.1 h).1 (Set.mem_insert a {b})⟩

theorem broadcast_self (a : Shape) : broadcast a a = .ok a :=
  broadcast_of_le le_rfl

theorem broadcast_unit_left (a : Shape) : broadcast unit a = .ok a :=
  broadcast_of_le (unit_le a)

theorem broadcast_unit_right (a : Shape) : broadcast a unit = .ok a :=
  (broadcast_comm a unit).trans (broadcast_unit_left a)

theorem broadcast_bind_eq_ok_iff {a b c t : Shape} :
    ((broadcast a b).bind fun s => broadcast s c) = .ok t ↔ IsLUB {a, b, c} t := by
  have hbounds : ∀ {s u : Shape}, broadcast a b = .ok s → (s ≤ u ∧ c ≤ u ↔ u ∈ upperBounds {a, b, c}) := by
    intro s u hs
    rw [broadcast_le_iff hs]
    simp [upperBounds, and_assoc]
  have hlub : ∀ {s : Shape}, broadcast a b = .ok s → (broadcast s c = .ok t ↔ IsLUB {a, b, c} t) := by
    intro s hs
    rw [broadcast_eq_ok_iff, isLUB_iff_le_iff, isLUB_iff_le_iff]
    refine forall_congr' fun u => ?_
    rw [← hbounds hs]
    simp [upperBounds]
  constructor
  · intro h
    cases hs : broadcast a b with
    | error axis => simp [hs, Except.bind] at h
    | ok s =>
      rw [hs] at h
      exact (hlub hs).1 h
  · intro h
    have hb : b ∈ ({a, b, c} : Set Shape) := Set.mem_insert_of_mem a (Set.mem_insert b {c})
    obtain ⟨s, hs⟩ := exists_broadcast_of_le (h.1 (Set.mem_insert a {b, c})) (h.1 hb)
    rw [hs]
    exact (hlub hs).2 h

theorem broadcast_bind_right_eq_ok_iff {a b c t : Shape} :
    ((broadcast b c).bind fun s => broadcast a s) = .ok t ↔ IsLUB {a, b, c} t := by
  have hturned : ((broadcast b c).bind fun s => broadcast a s) = (broadcast b c).bind fun s => broadcast s a := by
    simp only [broadcast_comm a]
  rw [hturned, broadcast_bind_eq_ok_iff, Set.insert_comm a b, Set.pair_comm a c]

theorem broadcast_assoc (a b c : Shape) :
    ((broadcast a b).bind fun s => broadcast s c).toOption =
      ((broadcast b c).bind fun s => broadcast a s).toOption := by
  have hok : ∀ (r : Except Nat Shape) (t : Shape), r.toOption = some t ↔ r = .ok t := by
    intro r t
    cases r <;> simp [Except.toOption]
  refine Option.ext fun t => ?_
  rw [hok, hok, broadcast_bind_eq_ok_iff, broadcast_bind_right_eq_ok_iff]

/-- Broadcasting is the partial join of the order of expansion: it is defined on the pairs whose axes, aligned at the
last one, are equal or have a unit side; it gives the least upper bound; it does not depend on the order of the
operands, down to the axis that is refused; and neither grouping of three shapes is refused unless the other is. -/
theorem broadcast_partial_join (a b c : Shape) :
    ((∃ s, broadcast a b = .ok s) ↔
      List.Forall₂ Extent.Compatible (a.padTo (max a.rank b.rank)) (b.padTo (max a.rank b.rank))) ∧
    (∀ s, broadcast a b = .ok s ↔ IsLUB {a, b} s) ∧
    broadcast a b = broadcast b a ∧
    broadcast a a = .ok a ∧
    ((broadcast a b).bind fun s => broadcast s c).toOption =
      ((broadcast b c).bind fun s => broadcast a s).toOption :=
  ⟨exists_broadcast_iff a b, fun _ => broadcast_eq_ok_iff, broadcast_comm a b, broadcast_self a, broadcast_assoc a b c⟩

/-- A parameter agrees with itself only; the axis that is refused is counted after padding. -/
example :
    broadcast ⟨[.symbolic "n", .fixed 4], by decide, by decide⟩ ⟨[.symbolic "n"], by decide, by decide⟩ = .error 1 := rfl

end Shape

end ArrayPlan
