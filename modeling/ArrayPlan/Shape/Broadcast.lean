import ArrayPlan.Shape

/-!
Broadcasting of two shapes. The shorter one is padded with unit axes on the left. Then each pair of axes has
to agree, or one of the two is a unit axis and gives way to the other.
-/

namespace ArrayPlan.Shape

def joinAxis (a b : Extent) : Option Extent :=
  if a = b ∨ b.isUnit then some a
  else if a.isUnit then some b
  else none

/-- Joins two lists of axes of one length. The error is the place of the first pair without a join, counted
from `axis`. -/
def joinAxes (axis : Nat) : List Extent → List Extent → Except Nat (List Extent)
  | a :: as, b :: bs =>
    match joinAxis a b with
    | none => .error axis
    | some c => (joinAxes (axis + 1) as bs).map (c :: ·)
  | _, _ => .ok []

def padTo (rank : Nat) (s : Shape) : List Extent :=
  List.replicate (rank - s.rank) (.fixed 1) ++ s.extents

theorem joinAxis_eq_or {a b c : Extent} (h : joinAxis a b = some c) : c = a ∨ c = b := by
  unfold joinAxis at h
  split at h
  · exact .inl (Option.some.inj h).symm
  · split at h
    · exact .inr (Option.some.inj h).symm
    · cases h

theorem joinAxes_forall {P : Extent → Prop} {as bs cs : List Extent} {axis : Nat} (ha : ∀ e ∈ as, P e) (hb : ∀ e ∈ bs, P e)
    (h : joinAxes axis as bs = .ok cs) : ∀ e ∈ cs, P e := by
  induction as generalizing axis bs cs with
  | nil =>
    simp only [joinAxes, Except.ok.injEq] at h
    simp [← h]
  | cons a as ih =>
    cases bs with
    | nil =>
      simp only [joinAxes, Except.ok.injEq] at h
      simp [← h]
    | cons b bs =>
      rw [joinAxes] at h
      split at h
      · cases h
      · rename_i c hc
        cases hr : joinAxes (axis + 1) as bs with
        | error k => simp [hr, Except.map] at h
        | ok rest =>
          simp only [hr, Except.map, Except.ok.injEq] at h
          subst h
          intro e he
          rcases List.mem_cons.1 he with rfl | he
          · rcases joinAxis_eq_or hc with h' | h'
            · exact h' ▸ ha a (by simp)
            · exact h' ▸ hb b (by simp)
          · exact ih (fun e he => ha e (by simp [he])) (fun e he => hb e (by simp [he])) hr e he

theorem joinAxes_faultless {as bs cs : List Extent} {axis : Nat} (ha : ∀ e ∈ as, e.fault? = none)
    (hb : ∀ e ∈ bs, e.fault? = none) (h : joinAxes axis as bs = .ok cs) :
    ∀ e ∈ cs, e.fault? = none :=
  joinAxes_forall ha hb h

theorem joinAxes_length {as bs cs : List Extent} {axis : Nat} (h : joinAxes axis as bs = .ok cs) :
    cs.length = min as.length bs.length := by
  induction as generalizing axis bs cs with
  | nil =>
    simp only [joinAxes, Except.ok.injEq] at h
    simp [← h]
  | cons a as ih =>
    cases bs with
    | nil =>
      simp only [joinAxes, Except.ok.injEq] at h
      simp [← h]
    | cons b bs =>
      rw [joinAxes] at h
      split at h
      · cases h
      · cases hr : joinAxes (axis + 1) as bs with
        | error k => simp [hr, Except.map] at h
        | ok rest =>
          simp only [hr, Except.map, Except.ok.injEq] at h
          have := ih hr
          simp only [← h, List.length_cons]
          omega

theorem padTo_faultless (rank : Nat) (s : Shape) : ∀ e ∈ s.padTo rank, e.fault? = none := by
  intro e he
  rcases List.mem_append.1 he with he | he
  · rw [List.eq_of_mem_replicate he]
    rfl
  · exact s.faultless e he

theorem padTo_length {rank : Nat} {s : Shape} (h : s.rank ≤ rank) : (s.padTo rank).length = rank := by
  have : s.extents.length = s.rank := rfl
  simp only [padTo, List.length_append, List.length_replicate]
  omega

theorem rank_pos (s : Shape) : 0 < s.rank :=
  List.length_pos_iff.2 s.extents_ne_nil

def broadcast (a b : Shape) : Except Nat Shape :=
  let rank := max a.rank b.rank
  match h : joinAxes 0 (a.padTo rank) (b.padTo rank) with
  | .error axis => .error axis
  | .ok extents => .ok {
      extents
      extents_ne_nil := by
        have hl := joinAxes_length h
        rw [padTo_length (Nat.le_max_left ..), padTo_length (Nat.le_max_right ..)] at hl
        have := a.rank_pos
        apply List.ne_nil_of_length_pos
        omega
      faultless := joinAxes_faultless (padTo_faultless _ _) (padTo_faultless _ _) h }

end ArrayPlan.Shape
